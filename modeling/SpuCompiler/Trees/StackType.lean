import SpuCompiler.Metadata.Ty

/-! Types of values on the evaluation stack. -/

namespace SpuCompiler.Trees

open Metadata

inductive StackType where
  /-- No value. -/
  | void
  | int32 | int64 | nativeInt | float32 | float64
  | objectRef (ty : Ty)
  | valueType (ty : Ty)
  | managedPointer (pointee : Ty)
  deriving DecidableEq

namespace StackType

/-- What a value of basic type is on the stack. -/
def ofBasic : Basic → StackType
  | .void => .void
  | .bool | .char | .i1 | .u1 | .i2 | .u2 | .i4 | .u4 => .int32
  | .i8 | .u8 => .int64
  | .i | .u => .nativeInt
  | .r4 => .float32
  | .r8 => .float64
  | .object => .objectRef .object
  | .string => .objectRef .string

/-- What a value of the given type is on the stack. -/
def ofTy : Ty → StackType
  | .basic b => ofBasic b
  | .reference d => .objectRef (.reference d)
  | .array e => .objectRef (.array e)
  | .struct d => .valueType (.struct d)
  | .byRef p => .managedPointer p

def isValue : StackType → Bool
  | .void => false
  | _ => true

def isInteger : StackType → Bool
  | .int32 | .int64 | .nativeInt => true
  | _ => false

def isFloat : StackType → Bool
  | .float32 | .float64 => true
  | _ => false

def isNumeric (t : StackType) : Bool := t.isInteger || t.isFloat

/-- Fits a 32-bit word: integers of that size, addresses and references. -/
def isWord : StackType → Bool
  | .int32 | .nativeInt | .objectRef _ | .managedPointer _ => true
  | _ => false

def isReference : StackType → Bool
  | .objectRef _ | .managedPointer _ => true
  | _ => false

def name : StackType → String
  | .void => "none"
  | .int32 => "int32"
  | .int64 => "int64"
  | .nativeInt => "native int"
  | .float32 => "float32"
  | .float64 => "float64"
  | .objectRef t => "ref " ++ t.name
  | .valueType t => "valuetype " ++ t.name
  | .managedPointer t => t.name ++ "&"

end StackType

end SpuCompiler.Trees
