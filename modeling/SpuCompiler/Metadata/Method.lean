import SpuCompiler.Metadata.Ty

/-!
Methods of the source program and their bodies. Argument slot 0 is the receiver where a
method has one; a receiver of value type is passed by reference.
-/

namespace SpuCompiler.Metadata

/-- Methods that stand for single target instructions. -/
inductive Intrinsic where
  | stop (signal : Nat)
  | readChannel (channel : Nat)
  | writeChannel (channel : Nat)
  | channelCount (channel : Nat)
  deriving DecidableEq

structure Method where
  name : String
  declaring : Option Ty := none
  parameters : List Ty := []
  hasThis : Bool := false
  returnType : Ty := .void
  intrinsic : Option Intrinsic := none
  deriving DecidableEq

namespace Method

/-- The name of the object that holds the routine. -/
def symbol (m : Method) : String :=
  match m.declaring with
  | some ty => ty.name ++ "::" ++ m.name
  | none => m.name

def thisType (m : Method) : Option Ty :=
  if m.hasThis then
    match m.declaring with
    | some ty => some (if ty.isValueType then .byRef ty else ty)
    | none => some .object
  else none

/-- Types of the argument slots, the receiver first. -/
def argumentTypes (m : Method) : List Ty := m.thisType.toList ++ m.parameters

def argumentCount (m : Method) : Nat := m.parameters.length + if m.hasThis then 1 else 0

end Method

/-- Instruction bytes and declared locals. Bytes from `length` on are padding. -/
structure Body where
  code : List UInt8
  length : Nat := code.length
  locals : List Ty := []

/-- The bytes that hold instructions. -/
def Body.instructions (b : Body) : List UInt8 := b.code.take b.length

end SpuCompiler.Metadata
