import SpuCompiler.Text.Hex
import SpuCompiler.Trees.Node
import SpuCompiler.Trees.Variable

/-!
Stack types of nodes. `typeOf` gives the type of a node from its operation, its operand and the
types of its children; `derive` writes it into the node and lets the first store to a synthetic
variable fix the type of that variable.
-/

namespace SpuCompiler.Trees

open Metadata Bytecode

/-- Constructs without a type. -/
inductive Untypable where
  | exceptionRegions
  | missingCallee
  | missingMethod
  | constructorWithoutType
  | missingVariable
  | syntheticAddress
  | missingField
  | missingType
  | negating (t : StackType)
  | complementing (t : StackType)
  | converting (t : StackType)
  | noRule (op : Op)
  deriving DecidableEq

def Untypable.message : Untypable → String
  | .exceptionRegions => "exception regions"
  | .missingCallee => "call node without a callee"
  | .missingMethod => "call without a method operand"
  | .constructorWithoutType => "constructor without a declaring type"
  | .missingVariable => "missing variable operand"
  | .syntheticAddress => "address of a synthetic variable"
  | .missingField => "missing field operand"
  | .missingType => "missing type operand"
  | .negating t => "negating " ++ t.name
  | .complementing t => "complementing " ++ t.name
  | .converting t => "converting " ++ t.name
  | .noRule op => op.mnemonic ++ " has no derivation rule"

inductive TypeError where
  | notSupported (offset : Nat) (op : Op) (detail : Untypable)
  | incompatibleOperands (offset : Nat) (op : Op) (left right : StackType)
  | missingChild (offset : Nat) (op : Op)
  | untypedVariable (offset : Nat) (op : Op) (index : Nat)
  | variableRetyped (index : Nat) (existing new : StackType)
  deriving DecidableEq

def TypeError.message : TypeError → String
  | .notSupported o op d =>
    s!"cannot derive a type for {op.mnemonic} at {Text.codeLabel o}: {d.message}"
  | .incompatibleOperands o op l r =>
    s!"{op.mnemonic} at {Text.codeLabel o} cannot combine {l.name} and {r.name}"
  | .missingChild o op => s!"{op.mnemonic} at {Text.codeLabel o} is missing an operand"
  | .untypedVariable o op i =>
    s!"{op.mnemonic} at {Text.codeLabel o} reads variable {i} before it has a type"
  | .variableRetyped i existing new =>
    s!"variable {i} already has type {existing.name}, not {new.name}"

namespace Node

def untypable {α : Type} (n : Node) (detail : Untypable) : Except TypeError α :=
  .error (.notSupported n.offset n.op detail)

/-- The type of the left child. -/
def leftType (n : Node) : Except TypeError StackType :=
  match n.left? with
  | some c => .ok c.type
  | none => .error (.missingChild n.offset n.op)

/-- The type of the right child. -/
def rightType (n : Node) : Except TypeError StackType :=
  match n.right? with
  | some c => .ok c.type
  | none => .error (.missingChild n.offset n.op)

def incompatible {α : Type} (n : Node) (l r : StackType) : Except TypeError α :=
  .error (.incompatibleOperands n.offset n.op l r)

/-- The variable that the operand refers to. -/
def variableOf (vars : Variables) (n : Node) : Except TypeError Variable :=
  match n.varId?.bind vars.get? with
  | some v => .ok v
  | none => n.untypable .missingVariable

def typeOperand (n : Node) : Except TypeError Ty :=
  match n.operand with
  | .type ty => .ok ty
  | _ => n.untypable .missingType

def fieldOperand (n : Node) : Except TypeError Field :=
  match n.operand with
  | .field f => .ok f
  | _ => n.untypable .missingField

end Node

/-- A word and a native integer, in either order. -/
def StackType.areMixedIntegers : StackType → StackType → Bool
  | .int32, .nativeInt | .nativeInt, .int32 => true
  | _, _ => false

def StackType.isIndex : StackType → Bool
  | .int32 | .nativeInt => true
  | _ => false

/-- Whether an arithmetic operation takes two values of type `t`. -/
def takesBoth (a : Arith) (t : StackType) : Bool :=
  match a with
  | .add | .sub | .mul | .div | .rem => t.isNumeric
  | .divUn | .remUn | .and | .or | .xor => t.isInteger

/-- The result of an arithmetic operation. Addition and subtraction also move a pointer by an
integer. -/
def arithType? (a : Arith) (l r : StackType) : Option StackType :=
  if l = r ∧ takesBoth a l then some l
  else if l.areMixedIntegers r then some .nativeInt
  else
    match a, l, r with
    | .add, .managedPointer t, r | .sub, .managedPointer t, r =>
      if r.isIndex then some (.managedPointer t) else none
    | .add, l, .managedPointer t => if l.isIndex then some (.managedPointer t) else none
    | _, _, _ => none

/-- A shifted integer keeps its type; the amount is a word or a native integer. -/
def shiftType? (value amount : StackType) : Option StackType :=
  if value.isInteger ∧ amount.isIndex then some value else none

/-- Values that can be compared: numbers of one type, a word with a native integer, and two
references of different types. -/
def comparable (l r : StackType) : Bool :=
  if l = r then l.isNumeric else l.areMixedIntegers r || (l.isReference && r.isReference)

/-- The result of a conversion. -/
def convType : Conv → StackType
  | .i1 | .i2 | .i4 | .u1 | .u2 | .u4 => .int32
  | .i8 | .u8 => .int64
  | .r4 => .float32
  | .r8 | .rUn => .float64
  | .i | .u => .nativeInt

/-- Whether a value can be converted. References convert to native integers only. -/
def convertible (c : Conv) (t : StackType) : Bool :=
  match c with
  | .i | .u => t.isNumeric || t.isReference
  | _ => t.isNumeric

def constantType : Constant → StackType
  | .i4 => .int32
  | .i8 => .int64
  | .r4 => .float32
  | .r8 => .float64

/-- What an indirect load through `pointer` puts on the stack. -/
def loadType (a : LoadAccess) (pointer : StackType) : StackType :=
  match a with
  | .i1 | .u1 | .i2 | .u2 | .i4 | .u4 => .int32
  | .i8 => .int64
  | .i => .nativeInt
  | .r4 => .float32
  | .r8 => .float64
  | .ref =>
    match pointer with
    | .managedPointer t => if t.isValueType then .objectRef .object else StackType.ofTy t
    | _ => .objectRef .object

/-- The result of a call, or the object that a constructor makes. -/
def callType (n : Node) : Except TypeError StackType :=
  match n.callee? with
  | none => n.untypable .missingCallee
  | some m =>
    if n.op = .newobj then
      match m.declaring with
      | some (.struct d) => .ok (.valueType (.struct d))
      | some ty => .ok (.objectRef ty)
      | none => n.untypable .constructorWithoutType
    else .ok (StackType.ofTy m.returnType)

/-- The stack type of a node, `void` where it puts nothing on the stack. -/
def typeOf (vars : Variables) (n : Node) : Except TypeError StackType :=
  match n.op with
  | .leave => n.untypable .exceptionRegions
  | .br | .brfalse | .brtrue | .branchCompare _ | .switch | .throw | .breakpoint => .ok .void
  | .ret => .ok ((n.left?.map Node.type).getD .void)
  | .call | .callvirt | .newobj => callType n
  | .nop | .pop | .stind _ | .stobj | .stfld | .stsfld | .initobj => .ok .void
  | .stloc | .starg => do
    let _ ← n.variableOf vars
    let _ ← n.leftType
    return .void
  | .ldloc | .ldarg => do
    let v ← n.variableOf vars
    match v.stackType with
    | some t => return t
    | none => throw (.untypedVariable n.offset n.op v.index)
  | .ldloca | .ldarga => do
    let v ← n.variableOf vars
    match v.declared with
    | some ty => return .managedPointer ty
    | none => n.untypable .syntheticAddress
  | .ldnull => .ok (.objectRef .object)
  | .ldc c => .ok (constantType c)
  | .sizeof => .ok .int32
  | .ldind .ref => do return loadType .ref (← n.leftType)
  | .ldind a => .ok (loadType a .void)
  | .arith a => do
    let l ← n.leftType
    let r ← n.rightType
    match arithType? a l r with
    | some t => return t
    | none => n.incompatible l r
  | .shift _ => do
    let l ← n.leftType
    let r ← n.rightType
    match shiftType? l r with
    | some t => return t
    | none => n.incompatible l r
  | .neg => do
    let t ← n.leftType
    if t.isNumeric then return t else n.untypable (.negating t)
  | .not => do
    let t ← n.leftType
    if t.isInteger then return t else n.untypable (.complementing t)
  | .conv c => do
    let t ← n.leftType
    if convertible c t then return convType c else n.untypable (.converting t)
  | .compare _ => do
    let l ← n.leftType
    let r ← n.rightType
    if comparable l r then return .int32 else n.incompatible l r
  | .ldobj => do return StackType.ofTy (← n.typeOperand)
  | .ldstr => .ok (.objectRef .string)
  | .newarr => do return .objectRef (.array (← n.typeOperand))
  | .ldlen => .ok .nativeInt
  | .ldelema => do return .managedPointer (← n.typeOperand)
  | .ldfld | .ldsfld => do return StackType.ofTy (← n.fieldOperand).ty
  | .ldflda | .ldsflda => do return .managedPointer (← n.fieldOperand).ty
  | .dup | .ldelem _ | .ldelemAny | .stelem _ | .stelemAny | .box | .unboxAny | .castclass
  | .isinst | .ldtoken | .convOvf | .convOvfUn => n.untypable (.noRule n.op)

/-- The first type given to a variable stays; a different one later is an error. -/
def Variables.setStackType (vars : Variables) (id : Nat) (t : StackType) :
    Except TypeError Variables :=
  match vars.get? id with
  | none => .ok vars
  | some v =>
    match v.stackType with
    | none => .ok (vars.modify id fun v => { v with stackType := some t })
    | some existing =>
      if existing = t then .ok vars else .error (.variableRetyped v.index existing t)

/-- The variables after a node: a store to a synthetic variable gives it the type of the
stored value. -/
def afterStore (vars : Variables) (n : Node) : Except TypeError Variables :=
  match n.op, n.varId?, n.left? with
  | .stloc, some id, some value | .starg, some id, some value =>
    if (vars.get? id).any (·.kind = .synthetic) then vars.setStackType id value.type else .ok vars
  | _, _, _ => .ok vars

/-- The node with its type, and the variables after it. -/
def derive (vars : Variables) (n : Node) : Except TypeError (Node × Variables) := do
  let t ← typeOf vars n
  let vars ← afterStore vars n
  return (n.withType t, vars)

end SpuCompiler.Trees
