import SpuCompiler.Objects.Arena
import SpuCompiler.Trees.Node

/-!
Why a node cannot be given code. All faults of a routine are reported together, in the order of
the nodes.
-/

namespace SpuCompiler.Selection

open Bytecode Trees Objects

inductive Fault where
  | frameTooLarge
  | noArgumentRegister (slot : Nat)
  | operandCount (expected found : Nat)
  | addressOfRegister
  | missingConstant
  | noAdd | noSubtract | noMultiply | noDivide | integerDivision | bitwise | shift | noNegate
  | complement
  | missingTarget
  | noComparison
  | returnOfStruct
  | objectAllocation | arrayAllocation | stringLiteral | exception
  | missingElementType | missingType | missingField
  | unexpectedOpcode
  | missingVariable
  | noStorage
  | longToFloat | floatToLong | nonScalar
  | elementTooLarge
  | undeclaredField (symbol : String)
  | missingCallee
  | undeclaredRoutine (symbol : String)
  | tooManyArguments
  | callOfStruct
  | layout (error : LayoutError)
  deriving DecidableEq

def Fault.message : Fault → String
  | .frameTooLarge => "frame too large for a back chain store"
  | .noArgumentRegister slot => s!"argument slot {slot} has no register"
  | .operandCount expected found => s!"expected {expected} operands, found {found}"
  | .addressOfRegister => "address of a register variable"
  | .missingConstant => "missing constant"
  | .noAdd => "no add for this type"
  | .noSubtract => "no subtract for this type"
  | .noMultiply => "no multiply for this type"
  | .noDivide => "division is only available for float32"
  | .integerDivision => "integer division has no hardware support"
  | .bitwise => "bitwise operation on a non-integer"
  | .shift => "shifts are only available for 32-bit values"
  | .noNegate => "no negate for this type"
  | .complement => "complement of a non-integer"
  | .missingTarget => "branch without a target block"
  | .noComparison => "no comparison for these operands"
  | .returnOfStruct => "returning a value type"
  | .objectAllocation => "object allocation"
  | .arrayAllocation => "array allocation"
  | .stringLiteral => "string literals"
  | .exception => "exceptions"
  | .missingElementType => "missing element type"
  | .missingType => "missing type operand"
  | .missingField => "missing field operand"
  | .unexpectedOpcode => "opcode should not survive tree building"
  | .missingVariable => "store without a variable"
  | .noStorage => "variable without storage"
  | .longToFloat => "64-bit integer to float"
  | .floatToLong => "float to 64-bit integer"
  | .nonScalar => "conversion of a non-scalar"
  | .elementTooLarge => "element too large to scale"
  | .undeclaredField symbol => s!"static field {symbol} was not declared"
  | .missingCallee => "call without a callee"
  | .undeclaredRoutine symbol => s!"call to undeclared routine {symbol}"
  | .tooManyArguments => "too many arguments for registers"
  | .callOfStruct => "value type return"
  | .layout e => e.message

/-- A fault with the node it was found at. -/
structure SelectionError where
  offset : Nat
  op : Op
  type : StackType
  fault : Fault
  deriving DecidableEq

def SelectionError.message (e : SelectionError) : String :=
  s!"{e.op.mnemonic} ({e.type.name}) at {Text.codeLabel e.offset}: {e.fault.message}"

/-- All faults of a routine. -/
structure SelectionErrors where
  routine : String
  errors : List SelectionError
  deriving DecidableEq

def SelectionErrors.message (e : SelectionErrors) : String :=
  e.errors.foldl (fun text error => text ++ "\n  " ++ error.message)
    s!"{e.errors.length} unsupported construct(s) in {e.routine}"

end SpuCompiler.Selection
