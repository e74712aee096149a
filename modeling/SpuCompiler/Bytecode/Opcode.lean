import SpuCompiler.Bytecode.Op

/-!
The opcode table of the bytecode. An opcode is one byte, or a lead byte `0xFE` and a second
byte; it has a name, a kind of operand and the canonical operation it stands for. Fixed forms
imply their operand. Modifiers of a following instruction have no operation of their own.
-/

namespace SpuCompiler.Bytecode

/-- Lead byte of the two-byte opcodes. -/
def leadByte : Nat := 0xFE

inductive OperandKind where
  | none | shortVar | var | shortI | i | i8 | r4 | r | shortTarget | target
  | field | method | type | string | switch
  deriving DecidableEq

namespace OperandKind

/-- Bytes of the operand. A switch has as many as it says itself. -/
def width? : OperandKind → Option Nat
  | .none => some 0
  | .shortVar | .shortI | .shortTarget => some 1
  | .var => some 2
  | .i | .r4 | .target | .field | .method | .type | .string => some 4
  | .i8 | .r => some 8
  | .switch => Option.none

def isTarget : OperandKind → Bool
  | .shortTarget | .target => true
  | _ => false

def name : OperandKind → String
  | .none => "None"
  | .shortVar => "ShortVar"
  | .var => "Var"
  | .shortI => "ShortI"
  | .i => "I"
  | .i8 => "I8"
  | .r4 => "R4"
  | .r => "R"
  | .shortTarget => "ShortBrTarget"
  | .target => "BrTarget"
  | .field => "Field"
  | .method => "Method"
  | .type => "Type"
  | .string => "String"
  | .switch => "Switch"

end OperandKind

/-- The operand that a fixed form carries without bytes. -/
inductive Implied where
  | none
  | int (value : Int)
  | index (value : Nat)
  deriving DecidableEq

structure Opcode where
  name : String
  value : Nat
  operand : OperandKind
  /-- The canonical operation; absent for a modifier. -/
  op : Option Op
  implied : Implied
  deriving DecidableEq

namespace Opcode

def isModifier (o : Opcode) : Bool := o.op.isNone

def isExtended (o : Opcode) : Bool := 0xFF < o.value

/-- The bytes that select the opcode. -/
def selector (o : Opcode) : List UInt8 :=
  if o.isExtended then [UInt8.ofNat (o.value / 256), UInt8.ofNat o.value]
  else [UInt8.ofNat o.value]

def selectorLength (o : Opcode) : Nat := if o.isExtended then 2 else 1

def general (name : String) (value : Nat) (operand : OperandKind) (op : Op) : Opcode :=
  ⟨name, value, operand, some op, .none⟩

def fixed (name : String) (value : Nat) (op : Op) (implied : Implied) : Opcode :=
  ⟨name, value, .none, some op, implied⟩

def modifier (name : String) (value : Nat) (operand : OperandKind) : Opcode :=
  ⟨name, value, operand, none, .none⟩

/-- All opcodes by increasing value. -/
def table : List Opcode :=
  [general "nop" 0x00 .none .nop,
   general "break" 0x01 .none .breakpoint,
   fixed "ldarg.0" 0x02 .ldarg (.index 0),
   fixed "ldarg.1" 0x03 .ldarg (.index 1),
   fixed "ldarg.2" 0x04 .ldarg (.index 2),
   fixed "ldarg.3" 0x05 .ldarg (.index 3),
   fixed "ldloc.0" 0x06 .ldloc (.index 0),
   fixed "ldloc.1" 0x07 .ldloc (.index 1),
   fixed "ldloc.2" 0x08 .ldloc (.index 2),
   fixed "ldloc.3" 0x09 .ldloc (.index 3),
   fixed "stloc.0" 0x0A .stloc (.index 0),
   fixed "stloc.1" 0x0B .stloc (.index 1),
   fixed "stloc.2" 0x0C .stloc (.index 2),
   fixed "stloc.3" 0x0D .stloc (.index 3),
   general "ldarg.s" 0x0E .shortVar .ldarg,
   general "ldarga.s" 0x0F .shortVar .ldarga,
   general "starg.s" 0x10 .shortVar .starg,
   general "ldloc.s" 0x11 .shortVar .ldloc,
   general "ldloca.s" 0x12 .shortVar .ldloca,
   general "stloc.s" 0x13 .shortVar .stloc,
   general "ldnull" 0x14 .none .ldnull,
   fixed "ldc.i4.m1" 0x15 (.ldc .i4) (.int (-1)),
   fixed "ldc.i4.0" 0x16 (.ldc .i4) (.int 0),
   fixed "ldc.i4.1" 0x17 (.ldc .i4) (.int 1),
   fixed "ldc.i4.2" 0x18 (.ldc .i4) (.int 2),
   fixed "ldc.i4.3" 0x19 (.ldc .i4) (.int 3),
   fixed "ldc.i4.4" 0x1A (.ldc .i4) (.int 4),
   fixed "ldc.i4.5" 0x1B (.ldc .i4) (.int 5),
   fixed "ldc.i4.6" 0x1C (.ldc .i4) (.int 6),
   fixed "ldc.i4.7" 0x1D (.ldc .i4) (.int 7),
   fixed "ldc.i4.8" 0x1E (.ldc .i4) (.int 8),
   general "ldc.i4.s" 0x1F .shortI (.ldc .i4),
   general "ldc.i4" 0x20 .i (.ldc .i4),
   general "ldc.i8" 0x21 .i8 (.ldc .i8),
   general "ldc.r4" 0x22 .r4 (.ldc .r4),
   general "ldc.r8" 0x23 .r (.ldc .r8),
   general "dup" 0x25 .none .dup,
   general "pop" 0x26 .none .pop,
   general "call" 0x28 .method .call,
   general "ret" 0x2A .none .ret,
   general "br.s" 0x2B .shortTarget .br,
   general "brfalse.s" 0x2C .shortTarget .brfalse,
   general "brtrue.s" 0x2D .shortTarget .brtrue,
   general "beq.s" 0x2E .shortTarget (.branchCompare .eq),
   general "bge.s" 0x2F .shortTarget (.branchCompare .ge),
   general "bgt.s" 0x30 .shortTarget (.branchCompare .gt),
   general "ble.s" 0x31 .shortTarget (.branchCompare .le),
   general "blt.s" 0x32 .shortTarget (.branchCompare .lt),
   general "bne.un.s" 0x33 .shortTarget (.branchCompare .neUn),
   general "bge.un.s" 0x34 .shortTarget (.branchCompare .geUn),
   general "bgt.un.s" 0x35 .shortTarget (.branchCompare .gtUn),
   general "ble.un.s" 0x36 .shortTarget (.branchCompare .leUn),
   general "blt.un.s" 0x37 .shortTarget (.branchCompare .ltUn),
   general "br" 0x38 .target .br,
   general "brfalse" 0x39 .target .brfalse,
   general "brtrue" 0x3A .target .brtrue,
   general "beq" 0x3B .target (.branchCompare .eq),
   general "bge" 0x3C .target (.branchCompare .ge),
   general "bgt" 0x3D .target (.branchCompare .gt),
   general "ble" 0x3E .target (.branchCompare .le),
   general "blt" 0x3F .target (.branchCompare .lt),
   general "bne.un" 0x40 .target (.branchCompare .neUn),
   general "bge.un" 0x41 .target (.branchCompare .geUn),
   general "bgt.un" 0x42 .target (.branchCompare .gtUn),
   general "ble.un" 0x43 .target (.branchCompare .leUn),
   general "blt.un" 0x44 .target (.branchCompare .ltUn),
   general "switch" 0x45 .switch .switch,
   general "ldind.i1" 0x46 .none (.ldind .i1),
   general "ldind.u1" 0x47 .none (.ldind .u1),
   general "ldind.i2" 0x48 .none (.ldind .i2),
   general "ldind.u2" 0x49 .none (.ldind .u2),
   general "ldind.i4" 0x4A .none (.ldind .i4),
   general "ldind.u4" 0x4B .none (.ldind .u4),
   general "ldind.i8" 0x4C .none (.ldind .i8),
   general "ldind.i" 0x4D .none (.ldind .i),
   general "ldind.r4" 0x4E .none (.ldind .r4),
   general "ldind.r8" 0x4F .none (.ldind .r8),
   general "ldind.ref" 0x50 .none (.ldind .ref),
   general "stind.ref" 0x51 .none (.stind .ref),
   general "stind.i1" 0x52 .none (.stind .i1),
   general "stind.i2" 0x53 .none (.stind .i2),
   general "stind.i4" 0x54 .none (.stind .i4),
   general "stind.i8" 0x55 .none (.stind .i8),
   general "stind.r4" 0x56 .none (.stind .r4),
   general "stind.r8" 0x57 .none (.stind .r8),
   general "add" 0x58 .none (.arith .add),
   general "sub" 0x59 .none (.arith .sub),
   general "mul" 0x5A .none (.arith .mul),
   general "div" 0x5B .none (.arith .div),
   general "div.un" 0x5C .none (.arith .divUn),
   general "rem" 0x5D .none (.arith .rem),
   general "rem.un" 0x5E .none (.arith .remUn),
   general "and" 0x5F .none (.arith .and),
   general "or" 0x60 .none (.arith .or),
   general "xor" 0x61 .none (.arith .xor),
   general "shl" 0x62 .none (.shift .shl),
   general "shr" 0x63 .none (.shift .shr),
   general "shr.un" 0x64 .none (.shift .shrUn),
   general "neg" 0x65 .none .neg,
   general "not" 0x66 .none .not,
   general "conv.i1" 0x67 .none (.conv .i1),
   general "conv.i2" 0x68 .none (.conv .i2),
   general "conv.i4" 0x69 .none (.conv .i4),
   general "conv.i8" 0x6A .none (.conv .i8),
   general "conv.r4" 0x6B .none (.conv .r4),
   general "conv.r8" 0x6C .none (.conv .r8),
   general "conv.u4" 0x6D .none (.conv .u4),
   general "conv.u8" 0x6E .none (.conv .u8),
   general "callvirt" 0x6F .method .callvirt,
   general "ldobj" 0x71 .type .ldobj,
   general "ldstr" 0x72 .string .ldstr,
   general "newobj" 0x73 .method .newobj,
   general "castclass" 0x74 .type .castclass,
   general "isinst" 0x75 .type .isinst,
   general "conv.r.un" 0x76 .none (.conv .rUn),
   general "throw" 0x7A .none .throw,
   general "ldfld" 0x7B .field .ldfld,
   general "ldflda" 0x7C .field .ldflda,
   general "stfld" 0x7D .field .stfld,
   general "ldsfld" 0x7E .field .ldsfld,
   general "ldsflda" 0x7F .field .ldsflda,
   general "stsfld" 0x80 .field .stsfld,
   general "stobj" 0x81 .type .stobj,
   general "conv.ovf.i1.un" 0x82 .none .convOvfUn,
   general "conv.ovf.i2.un" 0x83 .none .convOvfUn,
   general "conv.ovf.i4.un" 0x84 .none .convOvfUn,
   general "conv.ovf.i8.un" 0x85 .none .convOvfUn,
   general "conv.ovf.u1.un" 0x86 .none .convOvfUn,
   general "conv.ovf.u2.un" 0x87 .none .convOvfUn,
   general "conv.ovf.u4.un" 0x88 .none .convOvfUn,
   general "conv.ovf.u8.un" 0x89 .none .convOvfUn,
   general "conv.ovf.i.un" 0x8A .none .convOvfUn,
   general "conv.ovf.u.un" 0x8B .none .convOvfUn,
   general "box" 0x8C .type .box,
   general "newarr" 0x8D .type .newarr,
   general "ldlen" 0x8E .none .ldlen,
   general "ldelema" 0x8F .type .ldelema,
   general "ldelem.i1" 0x90 .none (.ldelem .i1),
   general "ldelem.u1" 0x91 .none (.ldelem .u1),
   general "ldelem.i2" 0x92 .none (.ldelem .i2),
   general "ldelem.u2" 0x93 .none (.ldelem .u2),
   general "ldelem.i4" 0x94 .none (.ldelem .i4),
   general "ldelem.u4" 0x95 .none (.ldelem .u4),
   general "ldelem.i8" 0x96 .none (.ldelem .i8),
   general "ldelem.i" 0x97 .none (.ldelem .i),
   general "ldelem.r4" 0x98 .none (.ldelem .r4),
   general "ldelem.r8" 0x99 .none (.ldelem .r8),
   general "ldelem.ref" 0x9A .none (.ldelem .ref),
   general "stelem.i" 0x9B .none (.stelem .i),
   general "stelem.i1" 0x9C .none (.stelem .i1),
   general "stelem.i2" 0x9D .none (.stelem .i2),
   general "stelem.i4" 0x9E .none (.stelem .i4),
   general "stelem.i8" 0x9F .none (.stelem .i8),
   general "stelem.r4" 0xA0 .none (.stelem .r4),
   general "stelem.r8" 0xA1 .none (.stelem .r8),
   general "stelem.ref" 0xA2 .none (.stelem .ref),
   general "ldelem" 0xA3 .type .ldelemAny,
   general "stelem" 0xA4 .type .stelemAny,
   general "unbox.any" 0xA5 .type .unboxAny,
   general "conv.ovf.i1" 0xB3 .none .convOvf,
   general "conv.ovf.u1" 0xB4 .none .convOvf,
   general "conv.ovf.i2" 0xB5 .none .convOvf,
   general "conv.ovf.u2" 0xB6 .none .convOvf,
   general "conv.ovf.i4" 0xB7 .none .convOvf,
   general "conv.ovf.u4" 0xB8 .none .convOvf,
   general "conv.ovf.i8" 0xB9 .none .convOvf,
   general "conv.ovf.u8" 0xBA .none .convOvf,
   general "ldtoken" 0xD0 .type .ldtoken,
   general "conv.u2" 0xD1 .none (.conv .u2),
   general "conv.u1" 0xD2 .none (.conv .u1),
   general "conv.i" 0xD3 .none (.conv .i),
   general "conv.ovf.i" 0xD4 .none .convOvf,
   general "conv.ovf.u" 0xD5 .none .convOvf,
   general "leave" 0xDD .target .leave,
   general "leave.s" 0xDE .shortTarget .leave,
   general "stind.i" 0xDF .none (.stind .i),
   general "conv.u" 0xE0 .none (.conv .u),
   general "ceq" 0xFE01 .none (.compare .eq),
   general "cgt" 0xFE02 .none (.compare .gt),
   general "cgt.un" 0xFE03 .none (.compare .gtUn),
   general "clt" 0xFE04 .none (.compare .lt),
   general "clt.un" 0xFE05 .none (.compare .ltUn),
   general "ldarg" 0xFE09 .var .ldarg,
   general "ldarga" 0xFE0A .var .ldarga,
   general "starg" 0xFE0B .var .starg,
   general "ldloc" 0xFE0C .var .ldloc,
   general "ldloca" 0xFE0D .var .ldloca,
   general "stloc" 0xFE0E .var .stloc,
   modifier "unaligned." 0xFE12 .shortI,
   modifier "volatile." 0xFE13 .none,
   modifier "tail." 0xFE14 .none,
   general "initobj" 0xFE15 .type .initobj,
   modifier "constrained." 0xFE16 .type,
   general "sizeof" 0xFE1C .type .sizeof,
   modifier "readonly." 0xFE1E .none]

def ofValue? (value : Nat) : Option Opcode := table.find? (·.value == value)

/-- The one-byte opcode `byte`. -/
def single? (byte : UInt8) : Option Opcode := ofValue? byte.toNat

/-- The opcode whose second byte is `byte`. -/
def extended? (byte : UInt8) : Option Opcode := ofValue? (leadByte * 256 + byte.toNat)

/-- Names are found in any case of the letters A to Z. -/
def ofName? (name : String) : Option Opcode :=
  let lower := name.map Char.toLower
  table.find? (·.name == lower)

end Opcode

end SpuCompiler.Bytecode
