import SpuCompiler.Binary.Decimal
import SpuCompiler.Bytecode.Assembly
import SpuCompiler.Text.Blank

/-!
Assembly text. A line holds one instruction, such as `ldc.i4.s 5` or `br.s done`, or names its
position, as in `.label done`. A comment starts at `#` or `//` and runs to the end of the line.
-/

namespace SpuCompiler.Bytecode

/-- What can be wrong with a line. -/
inductive SourceFault where
  | unreadable (line : String)
  | missingLabel
  | invalidOperand (token name : String)
  | assembly (error : AssemblyError)
  deriving DecidableEq

def SourceFault.message : SourceFault → String
  | .unreadable line => s!"cannot parse '{line}'"
  | .missingLabel => "missing label name"
  | .invalidOperand t n => s!"invalid operand '{t}' for {n}"
  | .assembly e => e.message

/-- A fault and its line, counted from one; line zero is the end of the text. -/
structure SourceError where
  line : Nat
  fault : SourceFault
  deriving DecidableEq

namespace SourceError

def message (e : SourceError) : String := e.fault.message

def text (e : SourceError) : String := s!"line {e.line}: {e.message}"

end SourceError

/-- A line without its comment and blanks: a word, and an argument that has no blanks. -/
structure Statement where
  word : String
  argument : Option String

namespace Statement

def dropComment : List Char → List Char
  | [] => []
  | '#' :: _ => []
  | '/' :: '/' :: _ => []
  | c :: cs => c :: dropComment cs

def isWordStart (c : Char) : Bool := c.isAlpha || c = '_'

def isWordChar (c : Char) : Bool := c.isAlphanum || c = '_' || c = '.'

/-- The word at the front: letters, digits, underscores and points, of which the first, or the
first after one point, is no digit and no point. -/
def splitWord (cs : List Char) : Option (List Char × List Char) :=
  let (point, body) :=
    match cs with
    | '.' :: r => (['.'], r)
    | r => ([], r)
  match body with
  | c :: _ =>
    if isWordStart c then
      let (word, rest) := body.span isWordChar
      some (point ++ word, rest)
    else none
  | [] => none

/-- A trimmed line that is not empty: a word alone, or a word, blanks and one argument. -/
def read? (line : List Char) : Option Statement := do
  let (word, rest) ← splitWord line
  match rest with
  | [] => some ⟨String.ofList word, none⟩
  | c :: _ =>
    let argument := rest.dropWhile Text.isBlank
    if Text.isBlank c ∧ argument ≠ [] ∧ argument.all (!Text.isBlank ·) then
      some ⟨String.ofList word, some (String.ofList argument)⟩
    else none

end Statement

/-- Reads the argument of an instruction by the kind of its operand. -/
def Opcode.readArg? (o : Opcode) (token : String) : Option Arg :=
  let cs := token.toList
  match o.operand with
  | .shortTarget | .target =>
    if cs.head? = some '+' ∨ cs.head? = some '-' then
      (Text.signed? 10 32 cs).map Arg.displacement
    else some (.label token)
  | .r4 | .r => (Binary.decimal? cs).map Arg.float
  | .field | .method | .type | .string =>
    (Text.literal? cs).map fun v => .token (BitVec.ofInt 32 v).toNat
  | _ => (Text.literal? cs).map Arg.int

namespace Assembly

def statement (a : Assembly) (s : Statement) : Except SourceFault Assembly :=
  if s.word = ".label" then
    match s.argument with
    | none => .error .missingLabel
    | some name => (a.label name).mapError .assembly
  else
    match Opcode.ofName? s.word with
    | none => .error (.assembly (.unknownOpcode s.word))
    | some o => do
      let arg ←
        match s.argument with
        | none => .ok .none
        | some token =>
          match o.readArg? token with
          | some arg => .ok arg
          | none => .error (.invalidOperand token o.name)
      match a.emit s.word arg with
      | (_, .error e) => .error (.assembly e)
      | (a, .ok ()) => .ok a

/-- One line of text; a line with nothing but blanks and a comment adds nothing. -/
def line (a : Assembly) (cs : List Char) : Except SourceFault Assembly :=
  match Text.trim (Statement.dropComment cs) with
  | [] => .ok a
  | c :: cs =>
    match Statement.read? (c :: cs) with
    | none => .error (.unreadable (String.ofList (c :: cs)))
    | some s => a.statement s

/-- Lines from number `n` on. -/
def lines (a : Assembly) (n : Nat) : List (List Char) → Except SourceError Assembly
  | [] => .ok a
  | l :: ls =>
    match a.line l with
    | .error fault => .error ⟨n, fault⟩
    | .ok a => a.lines (n + 1) ls

end Assembly

/-- The bytes of an assembly text. -/
def assemble (source : String) : Except SourceError (List UInt8) := do
  let a ← Assembly.lines {} 1 (Text.lines source.toList)
  a.finish.mapError fun e => ⟨0, .assembly e⟩

end SpuCompiler.Bytecode
