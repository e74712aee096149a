/-!
Binary floating point numbers as bits. `FloatFormat.ofRatio` rounds a ratio of natural numbers
to the nearest number of a format, a tie to the even one; `narrow` takes a double precision
number to single precision.
-/

namespace SpuCompiler.Binary

/-- The nearest integer to `num / den`; of two, the even one. -/
def roundEven (num den : Nat) : Nat :=
  let q := num / den
  let r := num % den
  if 2 * r < den then q else if den < 2 * r then q + 1 else q + q % 2

/-- A format by the widths of its fraction and of its exponent. -/
structure FloatFormat where
  fraction : Nat
  exponent : Nat

namespace FloatFormat

def single : FloatFormat := ⟨23, 8⟩

def double : FloatFormat := ⟨52, 11⟩

/-- Bits of infinity without the sign. All finite numbers have smaller ones. -/
def infinity (f : FloatFormat) : Nat := (Nat.pow 2 f.exponent - 1) * Nat.pow 2 f.fraction

/-- The exponent of the least positive number, a power of two. -/
def leastExponent (f : FloatFormat) : Int := 2 - Nat.pow 2 (f.exponent - 1) - f.fraction

end FloatFormat

/-- `num / den` divided by `2 ^ e`, as a ratio. -/
def scaleDown (num den : Nat) (e : Int) : Nat × Nat :=
  if 0 ≤ e then (num, den * Nat.pow 2 e.toNat) else (num * Nat.pow 2 (-e).toNat, den)

namespace FloatFormat

/-- The exponent of the grid on which `num / den` is rounded: the finest one of the format on
which it has no more than the digits of a significand. -/
def gridExponent (f : FloatFormat) (num den : Nat) : Int :=
  let e : Int := num.log2 - den.log2 - (f.fraction + 1)
  let (n, d) := scaleDown num den e
  max f.leastExponent (if n / d < Nat.pow 2 (f.fraction + 1) then e else e + 1)

/-- Bits of the number nearest to `num / den`, without a sign. On the grid of exponent `e`, the
bits count the grid points below, so that a carry into the next exponent needs no care. -/
def ofRatio (f : FloatFormat) (num den : Nat) : Nat :=
  if num = 0 then 0
  else
    let e := f.gridExponent num den
    let (n, d) := scaleDown num den e
    min f.infinity ((e - f.leastExponent).toNat * Nat.pow 2 f.fraction + roundEven n d)

end FloatFormat

/-- Double precision bits of a sign and a magnitude. -/
def doubleOf (negative : Bool) (magnitude : Nat) : BitVec 64 :=
  BitVec.ofNat 64 ((if negative then Nat.pow 2 63 else 0) + magnitude)

/-- Single precision bits of a double precision number. Infinities stay; what is not a number
keeps its sign and the high bits of its fraction and becomes quiet. -/
def narrow (b : BitVec 64) : BitVec 32 :=
  let sign := b.toNat / Nat.pow 2 63
  let exponent : Nat := b.toNat / Nat.pow 2 52 % Nat.pow 2 11
  let fraction := b.toNat % Nat.pow 2 52
  let magnitude :=
    if exponent = Nat.pow 2 11 - 1 then
      if fraction = 0 then FloatFormat.single.infinity
      else FloatFormat.single.infinity + Nat.pow 2 22 + fraction / Nat.pow 2 29 % Nat.pow 2 22
    else
      let significand := if exponent = 0 then fraction else Nat.pow 2 52 + fraction
      let (n, d) := scaleDown significand 1 (1075 - (max exponent 1 : Nat))
      FloatFormat.single.ofRatio n d
  BitVec.ofNat 32 (sign * Nat.pow 2 31 + magnitude)

end SpuCompiler.Binary
