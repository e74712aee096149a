import SpuCompiler.Binary.Float
import SpuCompiler.Text.Integer

/-!
Decimal texts of floating point numbers: digits with an optional point and exponent, or the
words for infinity and for what is not a number, after an optional sign.
-/

namespace SpuCompiler.Binary

/-- Exponent digits past this bound no longer count. -/
def exponentBound : Nat := 0x10000

/-- The value of one or more exponent digits. -/
def exponentDigits? : List Char → Option Nat
  | [] => none
  | c :: cs => (c :: cs).foldlM
      (fun n c => (Text.digit? 10 c).map fun d => if n < exponentBound then 10 * n + d else n) 0

/-- What follows the digits: nothing, or an exponent. -/
def exponent? : List Char → Option Int
  | [] => some 0
  | e :: cs =>
    if e = 'e' ∨ e = 'E' then
      match cs with
      | '-' :: ds => (exponentDigits? ds).map (-·)
      | '+' :: ds => (exponentDigits? ds).map (·)
      | ds => (exponentDigits? ds).map (·)
    else none

/-- Double precision magnitude of a number without sign. -/
def decimalMagnitude? (cs : List Char) : Option Nat := do
  let (whole, rest) := cs.span Char.isDigit
  let (part, rest) :=
    match rest with
    | '.' :: ds => ds.span Char.isDigit
    | ds => ([], ds)
  let digits ← Text.natural? 10 (whole ++ part)
  let exponent ← exponent? rest
  let (n, d) :=
    let e := exponent - part.length
    if 0 ≤ e then (digits * Nat.pow 10 e.toNat, 1) else (digits, Nat.pow 10 (-e).toNat)
  return FloatFormat.double.ofRatio n d

/-- Words for infinity and for what is not a number, in any case of the letters. -/
def wordMagnitude? (cs : List Char) : Option Nat :=
  let word := String.ofList (cs.map Char.toLower)
  if word = "inf" ∨ word = "infinity" then some FloatFormat.double.infinity
  else if word = "nan" then some (FloatFormat.double.infinity + Nat.pow 2 51)
  else none

def magnitude? (cs : List Char) : Option Nat := (decimalMagnitude? cs).or (wordMagnitude? cs)

/-- Double precision bits of a decimal text. -/
def decimal? : List Char → Option (BitVec 64)
  | '-' :: cs => (magnitude? cs).map (doubleOf true)
  | '+' :: cs => (magnitude? cs).map (doubleOf false)
  | cs => (magnitude? cs).map (doubleOf false)

end SpuCompiler.Binary
