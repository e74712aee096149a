/-!
Operations of the bytecode in canonical form: short and fixed forms of one operation are the
same `Op`. For each operation this module gives its mnemonic, how control leaves it, and what
it takes from and puts on the evaluation stack.
-/

namespace SpuCompiler.Bytecode

/-- Where control goes after an operation. -/
inductive Flow where
  | next | branch | conditionalBranch | call | result | throw | breakpoint
  deriving DecidableEq

/-- Values an operation takes from the stack. -/
inductive Pops where
  | fixed (count : Nat)
  /-- The arguments of the callee; a constructor call has no receiver yet. -/
  | callee
  /-- One value unless the method returns nothing. -/
  | result
  deriving DecidableEq

/-- Values an operation puts on the stack. -/
inductive Pushes where
  | none | one | two
  /-- The result of the callee, if it has one. -/
  | callee
  deriving DecidableEq

/-- Widths and extensions of indirect and element loads. -/
inductive LoadAccess where
  | i1 | u1 | i2 | u2 | i4 | u4 | i8 | i | r4 | r8 | ref
  deriving DecidableEq

/-- Widths of indirect and element stores. -/
inductive StoreAccess where
  | ref | i1 | i2 | i4 | i8 | r4 | r8 | i
  deriving DecidableEq

inductive Constant where
  | i4 | i8 | r4 | r8
  deriving DecidableEq

inductive Arith where
  | add | sub | mul | div | divUn | rem | remUn | and | or | xor
  deriving DecidableEq

inductive Shift where
  | shl | shr | shrUn
  deriving DecidableEq

inductive Conv where
  | i1 | i2 | i4 | i8 | r4 | r8 | u4 | u8 | u2 | u1 | i | u | rUn
  deriving DecidableEq

inductive Compare where
  | eq | gt | gtUn | lt | ltUn
  deriving DecidableEq

/-- Conditions of the branches that compare two values. -/
inductive BranchCompare where
  | eq | ge | gt | le | lt | neUn | geUn | gtUn | leUn | ltUn
  deriving DecidableEq

inductive Op where
  | nop | breakpoint
  | ldarg | ldarga | starg | ldloc | ldloca | stloc
  | ldnull | ldc (c : Constant)
  | dup | pop
  | call | callvirt | newobj | ret
  | br | brfalse | brtrue | branchCompare (c : BranchCompare) | switch
  | ldind (a : LoadAccess) | stind (a : StoreAccess)
  | arith (a : Arith) | shift (s : Shift) | neg | not
  | conv (c : Conv)
  | ldobj | stobj | ldstr | newarr | ldlen | ldelema
  | ldelem (a : LoadAccess) | ldelemAny | stelem (a : StoreAccess) | stelemAny
  | ldfld | ldflda | stfld | ldsfld | ldsflda | stsfld
  | throw
  | compare (c : Compare)
  | initobj | sizeof | box | unboxAny | castclass | isinst | ldtoken
  | convOvf | convOvfUn | leave
  deriving DecidableEq

namespace LoadAccess

def all : List LoadAccess := [.i1, .u1, .i2, .u2, .i4, .u4, .i8, .i, .r4, .r8, .ref]

def suffix : LoadAccess → String
  | .i1 => "i1" | .u1 => "u1" | .i2 => "i2" | .u2 => "u2" | .i4 => "i4" | .u4 => "u4"
  | .i8 => "i8" | .i => "i" | .r4 => "r4" | .r8 => "r8" | .ref => "ref"

/-- Bytes moved. -/
def size : LoadAccess → Nat
  | .i1 | .u1 => 1
  | .i2 | .u2 => 2
  | .i4 | .u4 | .i | .r4 | .ref => 4
  | .i8 | .r8 => 8

end LoadAccess

namespace StoreAccess

def all : List StoreAccess := [.ref, .i1, .i2, .i4, .i8, .r4, .r8, .i]

def suffix : StoreAccess → String
  | .ref => "ref" | .i1 => "i1" | .i2 => "i2" | .i4 => "i4" | .i8 => "i8" | .r4 => "r4"
  | .r8 => "r8" | .i => "i"

/-- Bytes moved. -/
def size : StoreAccess → Nat
  | .i1 => 1
  | .i2 => 2
  | .i4 | .i | .r4 | .ref => 4
  | .i8 | .r8 => 8

end StoreAccess

namespace Constant

def all : List Constant := [.i4, .i8, .r4, .r8]

def suffix : Constant → String
  | .i4 => "i4" | .i8 => "i8" | .r4 => "r4" | .r8 => "r8"

end Constant

namespace Arith

def all : List Arith := [.add, .sub, .mul, .div, .divUn, .rem, .remUn, .and, .or, .xor]

def mnemonic : Arith → String
  | .add => "add" | .sub => "sub" | .mul => "mul" | .div => "div" | .divUn => "div.un"
  | .rem => "rem" | .remUn => "rem.un" | .and => "and" | .or => "or" | .xor => "xor"

end Arith

namespace Shift

def all : List Shift := [.shl, .shr, .shrUn]

def mnemonic : Shift → String
  | .shl => "shl" | .shr => "shr" | .shrUn => "shr.un"

end Shift

namespace Conv

def all : List Conv := [.i1, .i2, .i4, .i8, .r4, .r8, .u4, .u8, .u2, .u1, .i, .u, .rUn]

def suffix : Conv → String
  | .i1 => "i1" | .i2 => "i2" | .i4 => "i4" | .i8 => "i8" | .r4 => "r4" | .r8 => "r8"
  | .u4 => "u4" | .u8 => "u8" | .u2 => "u2" | .u1 => "u1" | .i => "i" | .u => "u"
  | .rUn => "r.un"

end Conv

namespace Compare

def all : List Compare := [.eq, .gt, .gtUn, .lt, .ltUn]

def suffix : Compare → String
  | .eq => "eq" | .gt => "gt" | .gtUn => "gt.un" | .lt => "lt" | .ltUn => "lt.un"

end Compare

namespace BranchCompare

def all : List BranchCompare :=
  [.eq, .ge, .gt, .le, .lt, .neUn, .geUn, .gtUn, .leUn, .ltUn]

def suffix : BranchCompare → String
  | .eq => "eq" | .ge => "ge" | .gt => "gt" | .le => "le" | .lt => "lt" | .neUn => "ne.un"
  | .geUn => "ge.un" | .gtUn => "gt.un" | .leUn => "le.un" | .ltUn => "lt.un"

end BranchCompare

/-- An element load or store seen as an indirect access to an element address. -/
structure ElementAccess where
  indirect : Op
  isStore : Bool
  deriving DecidableEq

namespace Op

def all : List Op :=
  List.flatten [
    [.nop, .breakpoint, .ldarg, .ldarga, .starg, .ldloc, .ldloca, .stloc, .ldnull],
    Constant.all.map .ldc,
    [.dup, .pop, .call, .callvirt, .newobj, .ret, .br, .brfalse, .brtrue],
    BranchCompare.all.map .branchCompare,
    [.switch],
    LoadAccess.all.map .ldind,
    StoreAccess.all.map .stind,
    Arith.all.map .arith,
    Shift.all.map .shift,
    [.neg, .not],
    Conv.all.map .conv,
    [.ldobj, .stobj, .ldstr, .newarr, .ldlen, .ldelema],
    LoadAccess.all.map .ldelem,
    [.ldelemAny],
    StoreAccess.all.map .stelem,
    [.stelemAny, .ldfld, .ldflda, .stfld, .ldsfld, .ldsflda, .stsfld, .throw],
    Compare.all.map .compare,
    [.initobj, .sizeof, .box, .unboxAny, .castclass, .isinst, .ldtoken, .convOvf,
      .convOvfUn, .leave]]

def mnemonic : Op → String
  | .nop => "nop"
  | .breakpoint => "break"
  | .ldarg => "ldarg"
  | .ldarga => "ldarga"
  | .starg => "starg"
  | .ldloc => "ldloc"
  | .ldloca => "ldloca"
  | .stloc => "stloc"
  | .ldnull => "ldnull"
  | .ldc c => "ldc." ++ c.suffix
  | .dup => "dup"
  | .pop => "pop"
  | .call => "call"
  | .callvirt => "callvirt"
  | .newobj => "newobj"
  | .ret => "ret"
  | .br => "br"
  | .brfalse => "brfalse"
  | .brtrue => "brtrue"
  | .branchCompare c => "b" ++ c.suffix
  | .switch => "switch"
  | .ldind a => "ldind." ++ a.suffix
  | .stind a => "stind." ++ a.suffix
  | .arith a => a.mnemonic
  | .shift s => s.mnemonic
  | .neg => "neg"
  | .not => "not"
  | .conv c => "conv." ++ c.suffix
  | .ldobj => "ldobj"
  | .stobj => "stobj"
  | .ldstr => "ldstr"
  | .newarr => "newarr"
  | .ldlen => "ldlen"
  | .ldelema => "ldelema"
  | .ldelem a => "ldelem." ++ a.suffix
  | .ldelemAny => "ldelem"
  | .stelem a => "stelem." ++ a.suffix
  | .stelemAny => "stelem"
  | .ldfld => "ldfld"
  | .ldflda => "ldflda"
  | .stfld => "stfld"
  | .ldsfld => "ldsfld"
  | .ldsflda => "ldsflda"
  | .stsfld => "stsfld"
  | .throw => "throw"
  | .compare c => "c" ++ c.suffix
  | .initobj => "initobj"
  | .sizeof => "sizeof"
  | .box => "box"
  | .unboxAny => "unbox.any"
  | .castclass => "castclass"
  | .isinst => "isinst"
  | .ldtoken => "ldtoken"
  | .convOvf => "conv.ovf"
  | .convOvfUn => "conv.ovf.un"
  | .leave => "leave"

def ofMnemonic? (name : String) : Option Op := all.find? (·.mnemonic == name)

def flow : Op → Flow
  | .breakpoint => .breakpoint
  | .call | .callvirt | .newobj => .call
  | .ret => .result
  | .throw => .throw
  | .br | .leave => .branch
  | .brfalse | .brtrue | .branchCompare _ | .switch => .conditionalBranch
  | _ => .next

def isBranch (op : Op) : Bool := op.flow = .branch ∨ op.flow = .conditionalBranch

/-- Control never reaches the instruction that follows. -/
def endsBlock (op : Op) : Bool := op.flow = .branch ∨ op.flow = .result ∨ op.flow = .throw

def pops : Op → Pops
  | .call | .callvirt | .newobj => .callee
  | .ret => .result
  | .nop | .breakpoint | .ldarg | .ldarga | .ldloc | .ldloca | .ldnull | .ldc _ | .ldstr
  | .ldsfld | .ldsflda | .br | .sizeof | .ldtoken | .leave => .fixed 0
  | .starg | .stloc | .dup | .pop | .brfalse | .brtrue | .switch | .ldind _ | .neg | .not
  | .conv _ | .ldobj | .newarr | .ldlen | .ldfld | .ldflda | .stsfld | .throw | .initobj
  | .box | .unboxAny | .castclass | .isinst | .convOvf | .convOvfUn => .fixed 1
  | .branchCompare _ | .stind _ | .arith _ | .shift _ | .stobj | .ldelema | .ldelem _
  | .ldelemAny | .stfld | .compare _ => .fixed 2
  | .stelem _ | .stelemAny => .fixed 3

def pushes : Op → Pushes
  | .call | .callvirt => .callee
  | .dup => .two
  | .nop | .breakpoint | .starg | .stloc | .pop | .ret | .br | .brfalse | .brtrue
  | .branchCompare _ | .switch | .stind _ | .stobj | .stelem _ | .stelemAny | .stfld
  | .stsfld | .throw | .initobj | .leave => .none
  | .ldarg | .ldarga | .ldloc | .ldloca | .ldnull | .ldc _ | .newobj | .ldind _ | .arith _
  | .shift _ | .neg | .not | .conv _ | .ldobj | .ldstr | .newarr | .ldlen | .ldelema
  | .ldelem _ | .ldelemAny | .ldfld | .ldflda | .ldsfld | .ldsflda | .compare _ | .sizeof
  | .box | .unboxAny | .castclass | .isinst | .ldtoken | .convOvf | .convOvfUn => .one

def elementAccess? : Op → Option ElementAccess
  | .ldelem a => some ⟨.ldind a, false⟩
  | .ldelemAny => some ⟨.ldobj, false⟩
  | .stelem a => some ⟨.stind a, true⟩
  | .stelemAny => some ⟨.stobj, true⟩
  | _ => none

/-- Bytes moved by an indirect load or store. -/
def accessSize? : Op → Option Nat
  | .ldind a => some a.size
  | .stind a => some a.size
  | _ => none

end Op

end SpuCompiler.Bytecode
