import Mathlib.Data.Rat.Floor
import Mathlib.Tactic

/-!
Doubles: 64 bits, with a sign, eleven bits of an exponent and 52 of a fraction. A finite double is
a rational number, and its integer part is a quotient of its significand.
-/

namespace SpuCompiler.Machine

def truncate (x : ℚ) : ℤ := if 0 ≤ x then ⌊x⌋ else ⌈x⌉

theorem truncate_of_nonneg {x : ℚ} (h : 0 ≤ x) : truncate x = ⌊x⌋ := if_pos h

theorem truncate_neg_of_nonneg {x : ℚ} (h : 0 ≤ x) : truncate (-x) = -⌊x⌋ := by
  unfold truncate
  split
  · rename_i hneg
    obtain rfl : x = 0 := le_antisymm (neg_nonneg.mp hneg) h
    simp
  · exact Int.ceil_neg

namespace Double

variable (d : BitVec 64)

def exponent : Nat := d.toNat / 2 ^ 52 % 2 ^ 11

def fraction : Nat := d.toNat % 2 ^ 52

/-- The fraction with its leading bit. The least exponent has none. -/
def significand : Nat := if exponent d = 0 then fraction d else 2 ^ 52 + fraction d

/-- The least exponent counts as the next one. -/
def magnitude : ℚ := significand d * 2 ^ ((max (exponent d) 1 : ℕ) - 1075 : ℤ)

/-- The number that the bits stand for. The greatest exponent is that of infinities and NaNs. -/
def value? : Option ℚ :=
  if exponent d = 2047 then none else some (if d.msb then -magnitude d else magnitude d)

theorem magnitude_nonneg : 0 ≤ magnitude d := by
  unfold magnitude
  positivity

theorem truncate_value? {x : ℚ} (h : value? d = some x) :
    truncate x = if d.msb then -⌊magnitude d⌋ else ⌊magnitude d⌋ := by
  unfold value? at h
  split at h
  · cases h
  · cases h
    split
    · exact truncate_neg_of_nonneg (magnitude_nonneg d)
    · exact truncate_of_nonneg (magnitude_nonneg d)

theorem fraction_lt : fraction d < 2 ^ 52 := Nat.mod_lt _ (by norm_num)

theorem significand_lt : significand d < 2 ^ 53 := by
  have := fraction_lt d
  unfold significand
  split <;> omega

variable {d}

theorem floor_magnitude (h : exponent d ≤ 1075) :
    ⌊magnitude d⌋ = (significand d / 2 ^ (1075 - max (exponent d) 1) : ℕ) := by
  have hexp : ((max (exponent d) 1 : ℕ) - 1075 : ℤ) = -(1075 - max (exponent d) 1 : ℕ) := by omega
  have hquotient : magnitude d =
      (significand d : ℚ) / ((2 ^ (1075 - max (exponent d) 1) : ℕ) : ℚ) := by
    rw [magnitude, hexp, zpow_neg, zpow_natCast, div_eq_mul_inv]
    norm_cast
  rw [hquotient, Rat.floor_natCast_div_natCast]
  norm_cast

/-- Below one there is no integer part. -/
theorem floor_magnitude_of_small (h : exponent d < 1023) : ⌊magnitude d⌋ = 0 := by
  have hlt : significand d < 2 ^ (1075 - max (exponent d) 1) :=
    (significand_lt d).trans_le (Nat.pow_le_pow_right (by omega) (by omega))
  rw [floor_magnitude (by omega), Nat.div_eq_of_lt hlt]
  rfl

theorem floor_magnitude_of_normal (h : 0 < exponent d) (hle : exponent d ≤ 1075) :
    ⌊magnitude d⌋ = ((2 ^ 52 + fraction d) / 2 ^ (1075 - exponent d) : ℕ) := by
  rw [floor_magnitude hle, significand, if_neg (by omega), max_eq_left h]

/-- From some exponent on there is nothing else, and it is large. -/
theorem le_floor_magnitude (h : 1075 < exponent d) : 2 ^ 53 ≤ ⌊magnitude d⌋ := by
  rw [Int.le_floor]
  have hexp : ((max (exponent d) 1 : ℕ) - 1075 : ℤ) = (exponent d - 1075 : ℕ) := by omega
  have hpow : 2 ≤ 2 ^ (exponent d - 1075) := by
    calc 2 = 2 ^ 1 := rfl
      _ ≤ 2 ^ (exponent d - 1075) := Nat.pow_le_pow_right (by omega) (by omega)
  have hproduct : 2 ^ 53 ≤ significand d * 2 ^ (exponent d - 1075) := by
    calc 2 ^ 53 = 2 ^ 52 * 2 := rfl
      _ ≤ significand d * 2 ^ (exponent d - 1075) := by
        refine Nat.mul_le_mul ?_ hpow
        rw [significand, if_neg (by omega)]
        omega
  rw [magnitude, hexp, zpow_natCast]
  exact_mod_cast hproduct

end Double

end SpuCompiler.Machine
