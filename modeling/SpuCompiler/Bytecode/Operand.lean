import SpuCompiler.Metadata.Method

/-! Operands of decoded instructions and of tree nodes, over what they may refer to. -/

namespace SpuCompiler

open Metadata

/-- An operand. `ref` refers to a place in the code or in the method; the kinds of places are
the parameter. -/
inductive Operand (ρ : Type) where
  | none
  | int32 (value : BitVec 32)
  | int64 (value : BitVec 64)
  | float32 (bits : BitVec 32)
  | float64 (bits : BitVec 64)
  | field (field : Field)
  | method (method : Method)
  | type (ty : Ty)
  | string (text : String)
  | ref (place : ρ)
  deriving DecidableEq

end SpuCompiler
