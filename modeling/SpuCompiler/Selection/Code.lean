import SpuCompiler.Selection.Arithmetic
import SpuCompiler.Selection.Frame

/-!
Code of a node, given the registers of its children. A node has a fault or a fragment of code,
which gives a register if the node has a value. Which of the two it is depends on the node, the
types around it and the declared objects, never on the code of other nodes.
-/

namespace SpuCompiler.Selection

open Machine Metadata Bytecode Trees Objects

/-- What a node may refer to. -/
structure Context where
  options : Options
  vars : Variables
  arena : Arena

/-- A fault, or code with the register of its value. -/
abbrev Code := Except Fault (Emit (Option Register))

namespace Code

def value (e : Emit Register) : Code := .ok (some <$> e)

def effect (e : Emit Unit) : Code := .ok do
  e
  return none

/-- Neither code nor a value. -/
def nothing : Code := .ok (pure none)

def unary (regs : List Register) (f : Register → Code) : Code :=
  match regs with
  | [a] => f a
  | _ => .error (.operandCount 1 regs.length)

def binary (regs : List Register) (f : Register → Register → Code) : Code :=
  match regs with
  | [a, b] => f a b
  | _ => .error (.operandCount 2 regs.length)

open Emit

def arith (a : Arith) (kind : ValueKind) (l r : Register) : Code :=
  let wordOrLong (op : Machine.Opcode) : Code :=
    match kind with
    | .word | .long => value (rr op l r)
    | _ => .error .bitwise
  match a with
  | .add =>
    match kind with
    | .word => value (rr .a l r)
    | .single => value (rr .fa l r)
    | .double => value (rr .dfa l r)
    | _ => .error .noAdd
  | .sub =>
    match kind with
    | .word => value (rr .sf r l)
    | .single => value (rr .fs l r)
    | .double => value (rr .dfs l r)
    | _ => .error .noSubtract
  | .mul =>
    match kind with
    | .word => value (multiplyWord l r)
    | .single => value (rr .fm l r)
    | .double => value (rr .dfm l r)
    | _ => .error .noMultiply
  | .div => if kind = .single then value (divideSingle l r) else .error .noDivide
  | .divUn | .rem | .remUn => .error .integerDivision
  | .and => wordOrLong .and
  | .or => wordOrLong .or
  | .xor => wordOrLong .xor

def shift (s : Shift) (kind : ValueKind) (a count : Register) : Code :=
  if kind ≠ .word then .error .shift
  else
    match s with
    | .shl => value (rr .shl a count)
    | .shr => value (shiftRight .rotma a count)
    | .shrUn => value (shiftRight .rotm a count)

def neg (kind : ValueKind) (a : Register) : Code :=
  match kind with
  | .word => value (ri .sfi a 0)
  | .single => value (negateSingle a)
  | .double => value (negateDouble a)
  | _ => .error .noNegate

def not (kind : ValueKind) (a : Register) : Code :=
  match kind with
  | .word | .long => value (rr .nor a a)
  | _ => .error .complement

/-- A conversion of a value of the given kind. -/
def conv (c : Conv) (source : ValueKind) (a : Register) : Code :=
  match source with
  | .word =>
    match c with
    | .i8 => value (widen true a)
    | .u8 => value (widen false a)
    | .r4 => value (ri .csflt a toFloatScale)
    | .r8 => value (wordToDouble true a)
    | .rUn => value (wordToDouble false a)
    | c => value (narrow c a)
  | .long =>
    match c with
    | .i8 | .u8 => value (pure a)
    | .r4 | .r8 | .rUn => .error .longToFloat
    | c => value do
      let low ← ri .rotqbyi a 4
      narrow c low
  | .single =>
    match c with
    | .r4 => value (pure a)
    | .r8 | .rUn => value (rr .fesd a a)
    | .i8 | .u8 => .error .floatToLong
    | c => value do
      let word ← ri (if isUnsignedConv c then .cfltu else .cflts) a toIntegerScale
      narrow c word
  | .double =>
    match c with
    | .r8 | .rUn => value (pure a)
    | .r4 => value (rr .frds a a)
    | .i8 | .u8 => .error .floatToLong
    | c => value do
      let word ← doubleToWord (!isUnsignedConv c) a
      narrow c word
  | .struct | .void => .error .nonScalar

def compare (c : Compare) (kind : ValueKind) (l r : Register) : Code :=
  match compare? kind (.of c) l r with
  | none => .error .noComparison
  | some mask => value do
    let mask ← mask
    ri .andi mask 1

/-- A branch on the condition register. -/
def branch (op : Machine.Opcode) (condition : Option Register) (target : Target) : Emit Unit :=
  instr (.withTarget op condition target)

def branchIf (op : Machine.Opcode) (kind : ValueKind) (a : Register) (target : Target) : Code :=
  effect do
    if kind = .long then
      let low ← ri .rotqbyi a 4
      let condition ← rr .or a low
      branch op (some condition) target
    else branch op (some a) target

def branchCompare (c : BranchCompare) (kind : ValueKind) (l r : Register) (target : Target) :
    Code :=
  let comparison := Comparison.ofBranch c
  match compare? kind comparison l r with
  | none => .error .noComparison
  | some mask => effect do
    let mask ← mask
    branch (if comparison.whenSet then .brnz else .brz) (some mask) target

/-- Code that needs the target block of a node. -/
def withTarget (n : Node) (f : Target → Code) : Code :=
  match n.blockId? with
  | some b => f (.block b)
  | none => .error .missingTarget

/-- Code that needs the type in the operand of a node. -/
def withType (n : Node) (missing : Fault) (f : Ty → Code) : Code :=
  match n.operand with
  | .type ty => f ty
  | _ => .error missing

/-- Code that needs the field in the operand of a node. -/
def withField (n : Node) (f : Field → Code) : Code :=
  match n.operand with
  | .field field => f field
  | _ => .error .missingField

def loadVariable (ctx : Context) (n : Node) : Code :=
  match n.varId?.bind ctx.vars.get? with
  | none => nothing
  | some v =>
    match v.storage with
    | .register r => value (pure (.virtual r))
    | .frame offset =>
      match storageType? v with
      | some ty => value (loadMemory .sp (signed32 offset) ty)
      | none => nothing
    | .unassigned => .error .noStorage

def storeVariable (ctx : Context) (n : Node) (a : Register) : Code :=
  match n.varId? with
  | none => .error .missingVariable
  | some id =>
    match ctx.vars.get? id with
    | none => nothing
    | some v =>
      match v.storage with
      | .register r => effect (move (.virtual r) a)
      | .frame offset =>
        match storageType? v with
        | some ty => effect (storeMemory .sp (signed32 offset) a ty)
        | none => nothing
      | .unassigned => .error .noStorage

def variableAddress (ctx : Context) (n : Node) : Code :=
  match n.varId?.bind ctx.vars.get? with
  | none => nothing
  | some v =>
    match v.storage with
    | .frame offset => value (addImmediate .sp (signed32 offset))
    | _ => .error .addressOfRegister

/-- Code that needs the object of a static field. -/
def withStatic (ctx : Context) (n : Node) (f : Target → Ty → Code) : Code :=
  withField n fun field =>
    match ctx.arena.find? field.symbol with
    | some id => f (.object id) field.ty
    | none => .error (.undeclaredField field.symbol)

def loadStatic (object : Target) (ty : Ty) : Code :=
  if ty.isValueType then value (targeted .ila object) else value (loadObject object ty)

def storeStatic (object : Target) (ty : Ty) (a : Register) : Code :=
  if ty.isValueType then effect do
    let address ← targeted .ila object
    storeMemory address 0 a ty
  else effect (storeObject object a ty)

/-- A number of a channel stands in the place of a register. -/
def intrinsic (i : Intrinsic) (regs : List Register) : Code :=
  let read (op : Machine.Opcode) (channel : Nat) : Emit Register := do
    let rt ← fresh
    instr { opcode := op, rt := some rt, ra := some (.hardware channel) }
    return rt
  match i with
  | .stop signal => effect (instr { opcode := .stop, constant := signal })
  | .readChannel channel => value (read .rdch channel)
  | .channelCount channel => value (read .rchcnt channel)
  | .writeChannel channel =>
    effect (instr { opcode := .wrch, rt := regs.head?, ra := some (.hardware channel) })

/-- Moves arguments to the registers from `register` on. -/
def passArguments (register : Nat) : List Register → Emit Unit
  | [] => return ()
  | r :: rs => do
    move (.hardware register) r
    passArguments (register + 1) rs

/-- A call of an object. -/
def callObject (o : Options) (kind : ValueKind) (object : ObjectId) (regs : List Register) :
    Code :=
  let jump : Emit Unit := do
    passArguments o.firstArgumentRegister regs
    instr (.withTarget .brsl (some .lr) (.object object))
  if o.argumentRegisterCount < regs.length then .error .tooManyArguments
  else
    match kind with
    | .void => effect jump
    | .struct => .error .callOfStruct
    | _ => value do
      jump
      let result ← fresh
      move result (.hardware o.returnRegister)
      return result

def call (ctx : Context) (n : Node) (kind : ValueKind) (regs : List Register) : Code :=
  match n.callee? with
  | none => .error .missingCallee
  | some m =>
    match m.intrinsic with
    | some i => intrinsic i regs
    | none =>
      match ctx.arena.find? m.symbol with
      | some object => callObject ctx.options kind object regs
      | none => .error (.undeclaredRoutine m.symbol)

/-- A return; `kind` is that of the returned value. -/
def result (o : Options) (kind : ValueKind) (regs : List Register) : Code :=
  match regs with
  | [] => effect (instr { opcode := .ret })
  | a :: _ =>
    if kind = .struct then .error .returnOfStruct
    else effect do
      move (.hardware o.returnRegister) a
      instr { opcode := .ret }

def constant (c : Constant) (operand : Operand Ref) : Code :=
  match c, operand with
  | .i4, .int32 v => value (loadImmediate v.toInt)
  | .r4, .float32 b => value (loadImmediate b.toInt)
  | _, _ => .error .missingConstant

/-- The type that an indirect load reads. -/
def loadType : LoadAccess → Ty
  | .i1 => .basic .i1
  | .u1 => .basic .u1
  | .i2 => .basic .i2
  | .u2 => .basic .u2
  | .i4 => .basic .i4
  | .u4 => .basic .u4
  | .i8 => .basic .i8
  | .i => .basic .i
  | .r4 => .basic .r4
  | .r8 => .basic .r8
  | .ref => .basic .object

/-- The type that an indirect store writes. -/
def storeType : StoreAccess → Ty
  | .i1 => .basic .i1
  | .i2 => .basic .i2
  | .i4 => .basic .i4
  | .i8 => .basic .i8
  | .i => .basic .i
  | .r4 => .basic .r4
  | .r8 => .basic .r8
  | .ref => .basic .object

def elementAddress (size : Nat) (array index : Register) : Code :=
  match elementAddress? size array index with
  | some e => value e
  | none => .error .elementTooLarge

/-- The kind of the first child. -/
def leftKind (n : Node) : ValueKind := (n.left?.map fun l => ValueKind.of l.type).getD .void

/-- Code of a node whose operation has the right number of operands. Constants of 64 bits are
objects and have their code elsewhere. -/
def ofOp (ctx : Context) (n : Node) (regs : List Register) : Code :=
  let kind := ValueKind.of n.type
  match n.op with
  | .nop | .pop => nothing
  | .breakpoint => effect (instr { opcode := .stop, constant := 0x3FFF })
  | .ldarg | .ldloc => loadVariable ctx n
  | .starg | .stloc => unary regs fun a => storeVariable ctx n a
  | .ldarga | .ldloca => variableAddress ctx n
  | .ldnull => value (imm .il 0)
  | .ldc c => constant c n.operand
  | .arith a => binary regs fun l r => arith a kind l r
  | .shift s => binary regs fun a count => shift s kind a count
  | .neg => unary regs fun a => neg kind a
  | .not => unary regs fun a => not kind a
  | .conv c => unary regs fun a => conv c (leftKind n) a
  | .compare c => binary regs fun l r => compare c (leftKind n) l r
  | .br => withTarget n fun target => effect (branch .br none target)
  | .brtrue => withTarget n fun target =>
    unary regs fun a => branchIf .brnz (leftKind n) a target
  | .brfalse => withTarget n fun target =>
    unary regs fun a => branchIf .brz (leftKind n) a target
  | .branchCompare c => withTarget n fun target =>
    binary regs fun l r => branchCompare c (leftKind n) l r target
  | .ret => result ctx.options (leftKind n) regs
  | .call | .callvirt => call ctx n kind regs
  | .newobj => .error .objectAllocation
  | .newarr => .error .arrayAllocation
  | .ldstr => .error .stringLiteral
  | .throw => .error .exception
  | .ldlen => unary regs fun a => value (loadMemory a 0 (.basic .i4))
  | .ldelema => withType n .missingElementType fun ty =>
    binary regs fun array index => elementAddress ty.size array index
  | .ldind access => unary regs fun a => value (loadMemory a 0 (loadType access))
  | .stind access => binary regs fun a v => effect (storeMemory a 0 v (storeType access))
  | .ldobj => withType n .missingType fun ty => unary regs fun a => value (loadMemory a 0 ty)
  | .stobj => withType n .missingType fun ty =>
    binary regs fun a v => effect (storeMemory a 0 v ty)
  | .ldfld => withField n fun f =>
    unary regs fun a => value (loadMemory a (signed32 f.offset) f.ty)
  | .ldflda => withField n fun f =>
    unary regs fun a => value (addImmediate a (signed32 f.offset))
  | .stfld => withField n fun f =>
    binary regs fun a v => effect (storeMemory a (signed32 f.offset) v f.ty)
  | .ldsfld => withStatic ctx n fun object ty => loadStatic object ty
  | .ldsflda => withStatic ctx n fun object _ => value (targeted .ila object)
  | .stsfld => withStatic ctx n fun object ty =>
    unary regs fun a => storeStatic object ty a
  | .initobj => withType n .missingType fun ty => unary regs fun a => effect (clearMemory a ty)
  | .sizeof => withType n .missingType fun ty => value (loadImmediate (signed32 ty.size))
  | .dup | .switch | .ldelem _ | .ldelemAny | .stelem _ | .stelemAny | .box | .unboxAny
  | .castclass | .isinst | .ldtoken | .convOvf | .convOvfUn | .leave => .error .unexpectedOpcode

/-- Code of a node: its operation has to have the number of operands that it takes. -/
def of (ctx : Context) (n : Node) (regs : List Register) : Code :=
  match n.op.pops with
  | .fixed expected =>
    if expected = regs.length then ofOp ctx n regs
    else .error (.operandCount expected regs.length)
  | _ => ofOp ctx n regs

end Code

end SpuCompiler.Selection
