/-!
Integer literals. `signed?` reads digits with an optional sign into the range of a signed word;
`literal?` reads an operand, which is decimal or hexadecimal after `0x` and may be negated as a
whole.
-/

namespace SpuCompiler.Text

/-- The value of a digit, in either case of the letters. -/
def digit? (radix : Nat) (c : Char) : Option Nat :=
  let value? :=
    if '0' ≤ c ∧ c ≤ '9' then some (c.toNat - '0'.toNat)
    else if 'a' ≤ c ∧ c ≤ 'f' then some (c.toNat - 'a'.toNat + 10)
    else if 'A' ≤ c ∧ c ≤ 'F' then some (c.toNat - 'A'.toNat + 10)
    else none
  value?.filter (· < radix)

/-- The value of one or more digits. -/
def natural? (radix : Nat) : List Char → Option Nat
  | [] => none
  | c :: cs => (c :: cs).foldlM (fun n c => (digit? radix c).map (radix * n + ·)) 0

/-- The value of digits after at most one sign. -/
def integer? (radix : Nat) : List Char → Option Int
  | '-' :: cs => (natural? radix cs).map (-·)
  | '+' :: cs => (natural? radix cs).map (·)
  | cs => (natural? radix cs).map (·)

/-- Whether a signed word of `bits` bits holds the value. -/
def fitsSigned (bits : Nat) (v : Int) : Bool :=
  -Nat.pow 2 (bits - 1) ≤ v ∧ v < Nat.pow 2 (bits - 1)

/-- Whether an unsigned word of `bits` bits holds the value. -/
def fitsUnsigned (bits : Nat) (v : Int) : Bool := 0 ≤ v ∧ v < Nat.pow 2 bits

def signed? (radix bits : Nat) (cs : List Char) : Option Int :=
  (integer? radix cs).filter (fitsSigned bits)

/-- A 64-bit literal: decimal, or hexadecimal after `0x`. -/
def unnegated? : List Char → Option Int
  | '0' :: 'x' :: cs => signed? 16 64 cs
  | cs => signed? 10 64 cs

/-- An operand: a 64-bit literal, negated after a leading minus. -/
def literal? : List Char → Option Int
  | '-' :: cs => (unnegated? cs).map (-·)
  | cs => unnegated? cs

end SpuCompiler.Text
