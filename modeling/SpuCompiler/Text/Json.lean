import SpuCompiler.Text.Integer

/-!
Pieces of JSON text as readers on characters: each gives what it read and the rest, or nothing.
A value can also be passed over, in which case the escapes of its strings have to be well formed
but need not denote characters.
-/

namespace SpuCompiler.Text.Json

def isBlank (c : Char) : Bool := c = ' ' || c = '\n' || c = '\t' || c = '\r'

def skipBlank (cs : List Char) : List Char := cs.dropWhile isBlank

/-- A character of a string: itself, or a code unit given by number. -/
inductive Piece where
  | char (c : Char)
  | unit (value : Nat)

/-- What a backslash and one character stand for. -/
def escape? : Char → Option Char
  | '"' => some '"'
  | '\\' => some '\\'
  | '/' => some '/'
  | 'b' => some '\x08'
  | 'f' => some '\x0c'
  | 'n' => some '\n'
  | 'r' => some '\r'
  | 't' => some '\t'
  | _ => none

def unit? (a b c d : Char) : Option Nat := Text.natural? 16 [a, b, c, d]

/-- Pieces of a string up to its closing quote. -/
def pieces? : List Char → Option (List Piece × List Char)
  | [] => none
  | '"' :: r => some ([], r)
  | '\\' :: 'u' :: a :: b :: c :: d :: r => do
    let u ← unit? a b c d
    let (ps, r) ← pieces? r
    return (.unit u :: ps, r)
  | '\\' :: c :: r => do
    let c ← escape? c
    let (ps, r) ← pieces? r
    return (.char c :: ps, r)
  | c :: r => do
    guard (0x20 ≤ c.toNat)
    let (ps, r) ← pieces? r
    return (.char c :: ps, r)

def isHigh (u : Nat) : Bool := 0xD800 ≤ u && u < 0xDC00

def isLow (u : Nat) : Bool := 0xDC00 ≤ u && u < 0xE000

/-- Characters of pieces; units of a pair have to come together. -/
def characters? : List Piece → Option (List Char)
  | [] => some []
  | .char c :: ps => (characters? ps).map (c :: ·)
  | [.unit u] => if isHigh u || isLow u then none else some [Char.ofNat u]
  | .unit u :: .char c :: ps =>
    if isHigh u || isLow u then none else (characters? ps).map (Char.ofNat u :: c :: ·)
  | .unit u :: .unit v :: ps =>
    if isHigh u && isLow v then
      (characters? ps).map (Char.ofNat (0x10000 + (u - 0xD800) * 0x400 + (v - 0xDC00)) :: ·)
    else if isHigh u || isLow u then none
    else (characters? (.unit v :: ps)).map (Char.ofNat u :: ·)

/-- A string after its opening quote. -/
def string? (cs : List Char) : Option (String × List Char) := do
  let (ps, r) ← pieces? cs
  let cs ← characters? ps
  return (String.ofList cs, r)

def digits? (cs : List Char) : Option (List Char × List Char) :=
  let ds := cs.takeWhile Char.isDigit
  if ds.isEmpty then none else some (ds, cs.dropWhile Char.isDigit)

/-- Digits without a leading zero. -/
def integer? (cs : List Char) : Option (List Char × List Char) := do
  let (ds, r) ← digits? cs
  guard (ds.head? ≠ some '0' ∨ ds.length = 1)
  return (ds, r)

def skipFraction? : List Char → Option (List Char)
  | '.' :: r => (digits? r).map (·.2)
  | r => some r

def skipSign : List Char → List Char
  | '+' :: r | '-' :: r => r
  | r => r

def skipExponent? : List Char → Option (List Char)
  | 'e' :: r | 'E' :: r => (digits? (skipSign r)).map (·.2)
  | r => some r

def skipNumber? (cs : List Char) : Option (List Char) := do
  let (_, r) ← integer? (if cs.head? = some '-' then cs.tail else cs)
  let r ← skipFraction? r
  skipExponent? r

/-- A number without sign, fraction and exponent. -/
def natural? (cs : List Char) : Option (Nat × List Char) := do
  let (ds, r) ← integer? cs
  guard (r.head? ∉ [some '.', some 'e', some 'E'])
  let n ← Text.natural? 10 ds
  return (n, r)

/-- The rest after a character, which blanks may precede. -/
def expect? (c : Char) (cs : List Char) : Option (List Char) :=
  match skipBlank cs with
  | [] => none
  | d :: r => if d = c then some r else none

mutual

/-- Passes over a value. -/
def skipValue? : (fuel : Nat) → List Char → Option (List Char)
  | 0, _ => none
  | fuel + 1, cs =>
    match skipBlank cs with
    | 'n' :: 'u' :: 'l' :: 'l' :: r => some r
    | 't' :: 'r' :: 'u' :: 'e' :: r => some r
    | 'f' :: 'a' :: 'l' :: 's' :: 'e' :: r => some r
    | '"' :: r => (pieces? r).map (·.2)
    | '[' :: r => (expect? ']' r).or (skipItems? fuel r)
    | '\x7b' :: r => (expect? '\x7d' r).or (skipMembers? fuel r)
    | r => skipNumber? r

/-- Passes over the items of an array and its closing bracket. -/
def skipItems? : (fuel : Nat) → List Char → Option (List Char)
  | 0, _ => none
  | fuel + 1, cs => do
    let r ← skipValue? fuel cs
    match expect? ',' r with
    | some r => skipItems? fuel r
    | none => expect? ']' r

/-- Passes over the members of an object and its closing bracket. -/
def skipMembers? : (fuel : Nat) → List Char → Option (List Char)
  | 0, _ => none
  | fuel + 1, cs => do
    let r ← expect? '"' cs
    let (_, r) ← pieces? r
    let r ← expect? ':' r
    let r ← skipValue? fuel r
    match expect? ',' r with
    | some r => skipMembers? fuel r
    | none => expect? '\x7d' r

end

/-- Passes over one value; every step reads a character or opens a list. -/
def skip? (cs : List Char) : Option (List Char) := skipValue? (2 * cs.length + 2) cs

end SpuCompiler.Text.Json
