/-! Lower-case hexadecimal text of natural numbers, padded with zeros on the left. -/

namespace SpuCompiler.Text

/-- At least `width` digits of `n`. -/
def hexPad (width n : Nat) : String :=
  let digits := Nat.toDigits 16 n
  String.ofList (List.replicate (width - digits.length) '0' ++ digits)

/-- At least `width` digits of `n` after `0x`. -/
def hex (width n : Nat) : String := "0x" ++ hexPad width n

/-- The name of a bytecode offset. -/
def codeLabel (offset : Nat) : String := "IL_" ++ hexPad 4 offset

end SpuCompiler.Text
