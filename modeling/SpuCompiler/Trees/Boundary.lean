import SpuCompiler.Bytecode.Reader
import SpuCompiler.Trees.Typing

/-!
Where basic blocks start: at offset 0, at every branch target and after every branch. A branch
target has to be the start of an instruction.
-/

namespace SpuCompiler.Trees

open Metadata Bytecode

inductive StackFault where
  | depthMismatch (target expected found : Nat)
  | backwardBranch (target : Nat)
  | underflow
  | invalidTarget (target : Nat)
  | notEmpty (depth : Nat)
  deriving DecidableEq

/-- A breach of the stack discipline by the named instruction at `offset`. -/
structure StackError where
  offset : Nat
  name : String
  fault : StackFault
  deriving DecidableEq

def StackError.message (e : StackError) : String :=
  let subject := s!"{e.name} at {Text.codeLabel e.offset}"
  match e.fault with
  | .depthMismatch target expected found =>
    s!"{subject} reaches {Text.codeLabel target} with stack depth {found}, expected {expected}"
  | .backwardBranch target =>
    s!"{subject} branches back to {Text.codeLabel target} with values on the stack"
  | .underflow => s!"{subject} pops an empty stack"
  | .invalidTarget target =>
    s!"{subject} targets {Text.codeLabel target}, which is not an instruction start"
  | .notEmpty depth => s!"{subject} leaves {depth} values on the stack"

inductive BuildError where
  | decode (error : DecodeError)
  | stack (error : StackError)
  | type (error : TypeError)
  deriving DecidableEq

namespace BuildError

/-- The text of the error itself. -/
def source : BuildError → String
  | .decode e => e.message
  | .stack e => e.message
  | .type e => e.message

def message (e : BuildError) : String :=
  match e with
  | .decode _ => "decode error: " ++ e.source
  | .stack _ => "stack error: " ++ e.source
  | .type _ => "type error: " ++ e.source

end BuildError

/-- Adds a number to an increasing list, once. -/
def insertSorted (n : Nat) : List Nat → List Nat
  | [] => [n]
  | m :: ms => if n < m then n :: m :: ms else if n = m then m :: ms else m :: insertSorted n ms

def stackError {α : Type} (r : Record) (fault : StackFault) : Except BuildError α :=
  .error (.stack ⟨r.offset, r.name, fault⟩)

/-- Adds the boundaries that one record makes. -/
def addBoundaries (records : List Record) (length : Nat) (boundaries : List Nat) (r : Record) :
    Except BuildError (List Nat) :=
  match r.target? with
  | none => .ok boundaries
  | some target =>
    if r.op.isBranch then
      if records.any (·.offset == target) then
        let boundaries := insertSorted target boundaries
        .ok (if r.stop < length then insertSorted r.stop boundaries else boundaries)
      else stackError r (.invalidTarget target)
    else .ok boundaries

/-- Block starts of a body, given its records. -/
def boundariesOf (records : List Record) (length : Nat) : Except BuildError (List Nat) :=
  records.foldlM (addBoundaries records length) [0]

/-- The records of a body. -/
def readRecords (m : Method) (b : Body) (resolver : Resolver) :
    Except BuildError (List Record) :=
  (Reader.of m b resolver).readAll.mapError .decode

/-- Block starts of a body. -/
def scanBoundaries (m : Method) (b : Body) (resolver : Resolver) :
    Except BuildError (List Nat) := do
  boundariesOf (← readRecords m b resolver) b.instructions.length

end SpuCompiler.Trees
