import Mathlib.Order.WithBot
import SpuCompiler.Proofs.Machine.Doubles

/-!
The order of doubles. Beside the finite numbers there are two infinities. The 63 bits behind the
sign grow with the magnitude, up to those of an infinity, so that a double has a position among the
integers in the order of its value. The two zeros have the same position, and only they share one.
-/

namespace SpuCompiler.Machine.Double

/-- Rational numbers, with an infinity below all and one above all. -/
abbrev Extended := WithBot (WithTop ℚ)

variable (d : BitVec 64)

/-- The number that the bits stand for, infinities included. A NaN stands for none. -/
def extended? : Option Extended :=
  match value? d with
  | some x => some (.some (.some x))
  | none => if fraction d = 0 then some (if d.msb then ⊥ else ⊤) else none

/-- The bits behind the sign. -/
def rest : Nat := d.toNat % 2 ^ 63

/-- Places below zero are negative. -/
def position : ℤ := if d.msb then -rest d else rest d

theorem exponent_lt : exponent d < 2 ^ 11 := Nat.mod_lt _ (by norm_num)

theorem rest_eq : rest d = exponent d * 2 ^ 52 + fraction d := by
  have := d.isLt
  unfold rest exponent fraction
  omega

theorem toNat_eq : d.toNat = if d.msb then 2 ^ 63 + rest d else rest d := by
  have := d.isLt
  rw [BitVec.msb_eq_decide, rest]
  by_cases h : 2 ^ 63 ≤ d.toNat
  · rw [if_pos (decide_eq_true h)]
    omega
  · rw [decide_eq_false h, if_neg Bool.false_ne_true]
    omega

/-! ## Magnitudes -/

/-- The magnitude in units of the least double. -/
def units : Nat := significand d * 2 ^ (exponent d - 1)

theorem magnitude_eq_units : magnitude d = units d * 2 ^ (-1074 : ℤ) := by
  have hexp : ((max (exponent d) 1 : ℕ) - 1075 : ℤ) = (exponent d - 1 : ℕ) + -1074 := by omega
  rw [magnitude, hexp, zpow_add₀ two_ne_zero, zpow_natCast, units, ← mul_assoc]
  norm_cast

variable {d}

theorem units_pos (h : 0 < rest d) : 0 < units d := by
  rw [rest_eq] at h
  refine Nat.mul_pos ?_ (Nat.two_pow_pos _)
  unfold significand
  split <;> omega

/-- A larger exponent outweighs all fractions, and with the same exponent the fraction decides. -/
theorem units_lt {a b : BitVec 64} (h : rest a < rest b) : units a < units b := by
  have hfa := fraction_lt a
  have hfb := fraction_lt b
  rw [rest_eq, rest_eq] at h
  rcases Nat.lt_or_ge (exponent a) (exponent b) with hexp | hexp
  · have hsmall : significand a * 2 ^ (exponent a - 1) < 2 ^ 52 * 2 ^ exponent a := by
      unfold significand
      split
      · rename_i hzero
        simpa [hzero] using hfa
      · rename_i hzero
        have hdouble : 2 ^ exponent a = 2 * 2 ^ (exponent a - 1) := by
          rw [← Nat.pow_succ', Nat.succ_eq_add_one, Nat.sub_add_cancel (Nat.pos_of_ne_zero hzero)]
        rw [hdouble, ← Nat.mul_assoc]
        exact Nat.mul_lt_mul_of_pos_right (by omega) (Nat.two_pow_pos _)
    have hlarge : 2 ^ 52 * 2 ^ exponent a ≤ significand b * 2 ^ (exponent b - 1) := by
      refine Nat.mul_le_mul ?_ (Nat.pow_le_pow_right (by omega) (by omega))
      rw [significand, if_neg (by omega)]
      omega
    exact hsmall.trans_le hlarge
  · have hexp : exponent a = exponent b := by omega
    unfold units significand
    rw [hexp]
    refine Nat.mul_lt_mul_of_pos_right ?_ (Nat.two_pow_pos _)
    split <;> omega

/-! ## Values -/

theorem value?_eq_units {x : ℚ} (h : value? d = some x) :
    x = (if d.msb then -(units d : ℤ) else units d : ℤ) * 2 ^ (-1074 : ℤ) := by
  unfold value? at h
  split at h
  · cases h
  · rw [← Option.some.inj h, magnitude_eq_units]
    split
    · rw [Int.cast_neg, Int.cast_natCast, neg_mul]
    · rw [Int.cast_natCast]

theorem value?_lt {a b : BitVec 64} {x y : ℚ} (hx : value? a = some x) (hy : value? b = some y)
    (h : position a < position b) : x < y := by
  rw [value?_eq_units hx, value?_eq_units hy]
  refine mul_lt_mul_of_pos_right (Int.cast_lt.mpr ?_) (by positivity)
  unfold position at h
  cases ha : a.msb <;> cases hb : b.msb <;>
    simp only [ha, hb, if_true, if_false, Bool.false_eq_true] at h ⊢
  · have hunits : units a < units b := units_lt (by omega)
    omega
  · omega
  · -- Not both are zero.
    rcases Nat.eq_zero_or_pos (rest a) with hzero | hpos
    · have hunits : 0 < units b := units_pos (by omega)
      omega
    · have hunits := units_pos hpos
      omega
  · have hunits : units b < units a := units_lt (by omega)
    omega

/-- An infinity has the greatest position on its side. -/
theorem extended?_cases {x : Extended} (h : extended? d = some x) :
    x = ⊥ ∧ position d = -(2047 * 2 ^ 52) ∨
      (∃ q, value? d = some q ∧ x = .some (.some q) ∧
        -(2047 * 2 ^ 52) < position d ∧ position d < 2047 * 2 ^ 52) ∨
      x = ⊤ ∧ position d = 2047 * 2 ^ 52 := by
  have hexp := exponent_lt d
  have hfraction := fraction_lt d
  have hrest := rest_eq d
  unfold extended? at h
  split at h
  · rename_i q hq
    refine .inr (.inl ⟨q, hq, (Option.some.inj h).symm, ?_⟩)
    unfold value? at hq
    unfold position
    split at hq
    · cases hq
    · split <;> omega
  · rename_i hnone
    have hinfinite : exponent d = 2047 := by
      by_contra hne
      simp [value?, hne] at hnone
    split at h
    · unfold position
      cases hsign : d.msb with
      | true => exact .inl ⟨by simpa [hsign] using h.symm, by rw [if_pos rfl]; omega⟩
      | false =>
        exact .inr (.inr ⟨by simpa [hsign] using h.symm, by rw [if_neg Bool.false_ne_true]; omega⟩)
    · cases h

theorem extended?_lt {a b : BitVec 64} {x y : Extended} (hx : extended? a = some x)
    (hy : extended? b = some y) (h : position a < position b) : x < y := by
  obtain ⟨rfl, ha⟩ | ⟨p, hp, rfl, ha⟩ | ⟨rfl, ha⟩ := extended?_cases hx <;>
    obtain ⟨rfl, hb⟩ | ⟨q, hq, rfl, hb⟩ | ⟨rfl, hb⟩ := extended?_cases hy
  · omega
  · exact WithBot.bot_lt_coe _
  · exact WithBot.bot_lt_coe _
  · omega
  · exact WithBot.coe_lt_coe.mpr (WithTop.coe_lt_coe.mpr (value?_lt hp hq h))
  · exact WithBot.coe_lt_coe.mpr (WithTop.coe_lt_top p)
  · omega
  · omega
  · omega

theorem units_eq_zero (h : rest d = 0) : units d = 0 := by
  rw [rest_eq] at h
  have hsignificand : significand d = 0 := by
    rw [significand, if_pos (by omega)]
    omega
  rw [units, hsignificand, Nat.zero_mul]

theorem eq_of_rest_eq {a b : BitVec 64} (h : rest a = rest b) (hsign : a.msb = b.msb) : a = b := by
  apply BitVec.eq_of_toNat_eq
  rw [toNat_eq a, toNat_eq b, h, hsign]

/-- Doubles of one sign share no position, and those of both signs only that of the zeros. -/
theorem position_eq_cases {a b : BitVec 64} (h : position a = position b) :
    a = b ∨ rest a = 0 ∧ rest b = 0 := by
  unfold position at h
  cases ha : a.msb <;> cases hb : b.msb <;>
    simp only [ha, hb, if_true, if_false, Bool.false_eq_true] at h
  · exact .inl (eq_of_rest_eq (by omega) (ha.trans hb.symm))
  · exact .inr (by omega)
  · exact .inr (by omega)
  · exact .inl (eq_of_rest_eq (by omega) (ha.trans hb.symm))

theorem extended?_of_rest_eq_zero (h : rest d = 0) : extended? d = some 0 := by
  have hexponent : exponent d ≠ 2047 := by
    have := rest_eq d
    omega
  have hvalue : value? d = some 0 := by
    rw [value?, if_neg hexponent, magnitude_eq_units, units_eq_zero h]
    simp
  rw [extended?, hvalue]
  rfl

theorem extended?_congr {a b : BitVec 64} (h : position a = position b) :
    extended? a = extended? b := by
  obtain rfl | ⟨ha, hb⟩ := position_eq_cases h
  · rfl
  · rw [extended?_of_rest_eq_zero ha, extended?_of_rest_eq_zero hb]

section Compared

variable {a b : BitVec 64} {x y : Extended} (hx : extended? a = some x) (hy : extended? b = some y)

include hx hy

theorem extended?_eq_iff : x = y ↔ position a = position b := by
  constructor
  · intro h
    rcases lt_trichotomy (position a) (position b) with hlt | heq | hgt
    · exact absurd h (extended?_lt hx hy hlt).ne
    · exact heq
    · exact absurd h (extended?_lt hy hx hgt).ne'
  · intro h
    exact Option.some.inj (hx.symm.trans ((extended?_congr h).trans hy))

theorem extended?_lt_iff : x < y ↔ position a < position b := by
  refine ⟨fun h => ?_, extended?_lt hx hy⟩
  rcases lt_trichotomy (position a) (position b) with hlt | heq | hgt
  · exact hlt
  · exact absurd ((extended?_eq_iff hx hy).mpr heq) h.ne
  · exact absurd (extended?_lt hy hx hgt) h.not_gt

/-- Zeros apart, equal numbers have the same bits. -/
theorem extended?_eq_iff_eq (hzero : x = 0 → y = 0 → a.msb = b.msb) : x = y ↔ a = b := by
  refine ⟨fun h => ?_, fun h => Option.some.inj (hx.symm.trans (h ▸ hy))⟩
  obtain heq | ⟨ha, hb⟩ := position_eq_cases ((extended?_eq_iff hx hy).mp h)
  · exact heq
  · have hx' : x = 0 := Option.some.inj (hx.symm.trans (extended?_of_rest_eq_zero ha))
    have hy' : y = 0 := Option.some.inj (hy.symm.trans (extended?_of_rest_eq_zero hb))
    exact eq_of_rest_eq (ha.trans hb.symm) (hzero hx' hy')

end Compared

/-! ## Keys -/

/-- The bits as an unsigned integer that grows with the double: complemented below zero, and with
the sign bit set above. -/
def orderKey (d : BitVec 64) : BitVec 64 := if d.msb then ~~~d else d ^^^ BitVec.intMin 64

theorem toNat_orderKey (d : BitVec 64) :
    (orderKey d).toNat = if d.msb then 2 ^ 63 - 1 - rest d else 2 ^ 63 + rest d := by
  have hd := toNat_eq d
  unfold orderKey
  cases hsign : d.msb with
  | true =>
    rw [hsign, if_pos rfl] at hd
    rw [if_pos rfl, if_pos rfl, BitVec.toNat_not]
    omega
  | false =>
    rw [hsign, if_neg Bool.false_ne_true] at hd
    rw [if_neg Bool.false_ne_true, if_neg Bool.false_ne_true, BitVec.toNat_xor,
      BitVec.toNat_intMin_of_pos (by decide), hd]
    have hrest : rest d < 2 ^ 63 := Nat.mod_lt _ (by norm_num)
    rw [← Nat.div_add_mod (rest d ^^^ 2 ^ 63) (2 ^ 63), Nat.xor_div_two_pow, Nat.xor_mod_two_pow,
      Nat.div_eq_of_lt hrest, Nat.mod_eq_of_lt hrest]
    simp

/-- Keys are in the order of positions, and that of the negative zero is the one below the other. -/
theorem orderKey_lt_iff {a b : BitVec 64} :
    (orderKey a).toNat < (orderKey b).toNat ↔
      position a < position b ∨ position a = position b ∧ a.msb = true ∧ b.msb = false := by
  have ha : rest a < 2 ^ 63 := Nat.mod_lt _ (by norm_num)
  have hb : rest b < 2 ^ 63 := Nat.mod_lt _ (by norm_num)
  rw [toNat_orderKey, toNat_orderKey, position, position]
  cases a.msb <;> cases b.msb <;>
    simp only [if_true, if_false, Bool.false_eq_true, and_true, and_false, or_false,
      reduceCtorEq] <;> omega

end SpuCompiler.Machine.Double
