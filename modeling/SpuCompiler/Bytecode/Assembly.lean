import SpuCompiler.Binary.Bytes
import SpuCompiler.Binary.Float
import SpuCompiler.Bytecode.Opcode
import SpuCompiler.Text.Integer

/-!
Assembly of bytecode. Instructions are appended as chunks of bytes; a branch to a label is a
chunk whose bytes are known when all labels are. `finish` resolves the branches and joins the
chunks.
-/

namespace SpuCompiler.Bytecode

inductive AssemblyError where
  | unknownOpcode (name : String)
  | duplicateLabel (name : String)
  | unknownLabel (name : String)
  | operandMismatch (name : String) (expected : OperandKind)
  | operandOutOfRange (name : String) (value : Int)
  deriving DecidableEq

def AssemblyError.message : AssemblyError → String
  | .unknownOpcode n => s!"unknown opcode '{n}'"
  | .duplicateLabel n => s!"duplicate label '{n}'"
  | .unknownLabel n => s!"unknown label '{n}'"
  | .operandMismatch n k => s!"{n} expects a {k.name} operand"
  | .operandOutOfRange n v => s!"operand {v} does not fit {n}"

/-- Operand of an instruction to assemble. -/
inductive Arg where
  | none
  | int (value : Int)
  /-- Double precision bits. -/
  | float (bits : BitVec 64)
  | token (token : Nat)
  | label (name : String)
  /-- A distance from the end of the branch. -/
  | displacement (value : Int)

/-- A piece of assembled code. A branch keeps the position after its own last byte and the name
of its opcode. -/
inductive Chunk where
  | bytes (bytes : List UInt8)
  | branch (short : Bool) (label : String) (stop : Nat) (name : String)
  deriving DecidableEq

namespace Chunk

def length : Chunk → Nat
  | .bytes bs => bs.length
  | .branch short .. => if short then 1 else 4

/-- The bytes of a chunk, given the positions of the labels. A short displacement has to fit;
a long one is cut to its 32 bits. -/
def resolve (labels : List (String × Nat)) : Chunk → Except AssemblyError (List UInt8)
  | .bytes bs => .ok bs
  | .branch short label stop name =>
    match labels.lookup label with
    | none => .error (.unknownLabel label)
    | some target =>
      let displacement : Int := target - stop
      if short then
        if Text.fitsSigned 8 displacement then
          .ok (Binary.littleEndian 1 (BitVec.ofInt 8 displacement).toNat)
        else .error (.operandOutOfRange name displacement)
      else .ok (Binary.littleEndian 4 (BitVec.ofInt 32 displacement).toNat)

end Chunk

/-- Code assembled so far and the positions of its labels. -/
structure Assembly where
  chunks : Array Chunk := #[]
  position : Nat := 0
  labels : List (String × Nat) := []
  deriving DecidableEq

namespace Opcode

/-- Bytes of an integer operand that has to fit a word. -/
def integerBytes (o : Opcode) (width : Nat) (fits : Int → Bool) (v : Int) :
    Except AssemblyError Chunk :=
  if fits v then .ok (.bytes (Binary.littleEndian width (BitVec.ofInt (8 * width) v).toNat))
  else .error (.operandOutOfRange o.name v)

/-- The chunk of an operand at `position`. -/
def operandChunk (o : Opcode) (position : Nat) (arg : Arg) : Except AssemblyError Chunk :=
  match o.operand, arg with
  | .none, .none => .ok (.bytes [])
  | .shortVar, .int v => o.integerBytes 1 (Text.fitsUnsigned 8) v
  | .var, .int v => o.integerBytes 2 (Text.fitsUnsigned 16) v
  | .shortI, .int v => o.integerBytes 1 (Text.fitsSigned 8) v
  | .i, .int v => o.integerBytes 4 (Text.fitsSigned 32) v
  | .i8, .int v => .ok (.bytes (Binary.littleEndian 8 (BitVec.ofInt 64 v).toNat))
  | .r4, .float b => .ok (.bytes (Binary.littleEndian 4 (Binary.narrow b).toNat))
  | .r, .float b => .ok (.bytes (Binary.littleEndian 8 b.toNat))
  | .shortTarget, .displacement v => o.integerBytes 1 (Text.fitsSigned 8) v
  | .target, .displacement v =>
    .ok (.bytes (Binary.littleEndian 4 (BitVec.ofInt 32 v).toNat))
  | .shortTarget, .label name => .ok (.branch true name (position + 1) o.name)
  | .target, .label name => .ok (.branch false name (position + 4) o.name)
  | .field, .token t | .method, .token t | .type, .token t | .string, .token t =>
    .ok (.bytes (Binary.littleEndian 4 t))
  | expected, _ => .error (.operandMismatch o.name expected)

end Opcode

namespace Assembly

def append (a : Assembly) (c : Chunk) : Assembly :=
  { a with chunks := a.chunks.push c, position := a.position + c.length }

/-- Names the position reached. -/
def label (a : Assembly) (name : String) : Except AssemblyError Assembly :=
  if (a.labels.lookup name).isSome then .error (.duplicateLabel name)
  else .ok { a with labels := (name, a.position) :: a.labels }

/-- Appends one instruction. When the operand is refused, the bytes of the opcode stay. -/
def emit (a : Assembly) (name : String) (arg : Arg) : Assembly × Except AssemblyError Unit :=
  match Opcode.ofName? name with
  | none => (a, .error (.unknownOpcode name))
  | some o =>
    let a := a.append (.bytes o.selector)
    match o.operandChunk a.position arg with
    | .error e => (a, .error e)
    | .ok c => (a.append c, .ok ())

/-- All bytes, with the branches resolved in order. -/
def finish (a : Assembly) : Except AssemblyError (List UInt8) := do
  let parts ← a.chunks.toList.mapM (Chunk.resolve a.labels)
  return parts.flatten

end Assembly

end SpuCompiler.Bytecode
