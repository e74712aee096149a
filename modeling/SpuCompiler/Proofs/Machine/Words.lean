import SpuCompiler.Binary.Bytes
import SpuCompiler.Proofs.Machine.Execution

/-!
Arithmetic of words and of pairs of words. Sequences of instructions that stand for one operation
of the source compute it: products from halves, right shifts from negated counts, extensions, and
comparisons of 64-bit values from comparisons of their words.
-/

namespace SpuCompiler.Machine

theorem toNat_append_eq_add {m n : Nat} (h : BitVec m) (l : BitVec n) :
    (h ++ l).toNat = h.toNat * 2 ^ n + l.toNat := by
  rw [BitVec.toNat_append, ← Nat.shiftLeft_add_eq_or_of_lt l.isLt, Nat.shiftLeft_eq]

/-! ## Products -/

theorem toNat_multiplyHigh (a b : BitVec 32) :
    (multiplyHigh a b).toNat = a.toNat / 0x10000 * (b.toNat % 0x10000) * 0x10000 % 2 ^ 32 := by
  have ha : a.toNat / 2 ^ 16 % 2 ^ 16 = a.toNat / 0x10000 := by omega
  rw [multiplyHigh, toNat_append_eq_add, BitVec.toNat_mul, BitVec.extractLsb'_toNat,
    BitVec.extractLsb'_toNat, Nat.shiftRight_eq_div_pow, ha]
  simp only [Nat.shiftRight_zero, BitVec.toNat_ofNat, Nat.zero_mod, Nat.add_zero]
  generalize a.toNat / 0x10000 * (b.toNat % 0x10000) = x
  omega

theorem toNat_multiplyUnsigned (a b : BitVec 32) :
    (multiplyUnsigned a b).toNat = a.toNat % 0x10000 * (b.toNat % 0x10000) % 2 ^ 32 := by
  simp [multiplyUnsigned]

/-- A product is made of three products of halves; that of the high halves is out of range. -/
theorem multiply_halves (a b : BitVec 32) :
    multiplyHigh a b + multiplyHigh b a + multiplyUnsigned a b = a * b := by
  apply BitVec.eq_of_toNat_eq
  rw [BitVec.toNat_add, BitVec.toNat_add, BitVec.toNat_mul, toNat_multiplyHigh, toNat_multiplyHigh,
    toNat_multiplyUnsigned]
  simp only [Nat.mod_add_mod, Nat.add_mod_mod]
  have ha := Nat.div_add_mod a.toNat 0x10000
  have hb := Nat.div_add_mod b.toNat 0x10000
  generalize a.toNat / 0x10000 = ah at *
  generalize b.toNat / 0x10000 = bh at *
  generalize a.toNat % 0x10000 = al at *
  generalize b.toNat % 0x10000 = bl at *
  have hprod : a.toNat * b.toNat =
      ah * bl * 0x10000 + bh * al * 0x10000 + al * bl + 2 ^ 32 * (ah * bh) := by
    rw [← ha, ← hb]
    ring
  rw [hprod, Nat.add_mul_mod_self_left]

/-! ## Shifts and extensions -/

theorem immediateWord_zero : immediateWord 10 0 = 0#32 := by decide

theorem shiftLeft_of_lt {count : BitVec 32} (a : BitVec 32) (h : count.toNat < 32) :
    shiftLeft a count = a <<< count.toNat := by
  rw [shiftLeft, Nat.mod_eq_of_lt (by omega)]

theorem rotateMask_negated {count : BitVec 32} (a : BitVec 32) (h : count.toNat < 32) :
    rotateMask a (0#32 - count) = a >>> count.toNat := by
  rw [rotateMask, BitVec.zero_sub, BitVec.neg_neg, Nat.mod_eq_of_lt (by omega)]

theorem rotateMaskSigned_negated {count : BitVec 32} (a : BitVec 32) (h : count.toNat < 32) :
    rotateMaskSigned a (0#32 - count) = a.sshiftRight count.toNat := by
  rw [rotateMaskSigned, BitVec.zero_sub, BitVec.neg_neg, Nat.mod_eq_of_lt (by omega)]

theorem extendHalf_eq (a : BitVec 32) : extendHalf a = (a.setWidth 16).signExtend 32 := by
  ext k hk
  simp [extendHalf, BitVec.getElem_signExtend]
  grind

theorem extendHalf_extendBytes (a : BitVec 32) :
    extendHalf (extendBytes a) = (a.setWidth 8).signExtend 32 := by
  ext k hk
  simp [extendHalf, extendBytes, BitVec.getElem_signExtend]
  grind

theorem and_byteMask (a : BitVec 32) : a &&& immediateWord 10 0xFF = (a.setWidth 8).setWidth 32 := by
  apply BitVec.eq_of_toNat_eq
  have hmask : (immediateWord 10 0xFF).toNat = 2 ^ 8 - 1 := by decide
  rw [BitVec.toNat_and, hmask, Nat.and_two_pow_sub_one_eq_mod, BitVec.toNat_setWidth,
    BitVec.toNat_setWidth]
  omega

/-- A half is freed from the bits above it by two shifts. -/
theorem rotateMask_shiftLeft (a : BitVec 32) :
    rotateMask (shiftLeft a (immediateWord 7 16)) (immediateWord 7 (-16)) =
      (a.setWidth 16).setWidth 32 := by
  have hleft : (immediateWord 7 16).toNat % 64 = 16 := by decide
  have hright : (-immediateWord 7 (-16)).toNat % 64 = 16 := by decide
  rw [rotateMask, shiftLeft, hleft, hright]
  ext k hk
  simp
  grind

theorem rotateMaskSigned_sign (a : BitVec 32) :
    rotateMaskSigned a (immediateWord 7 (-31)) = a.sshiftRight 31 := by
  have hcount : (-immediateWord 7 (-31)).toNat % 64 = 31 := by decide
  rw [rotateMaskSigned, hcount]

/-- The sign bit, in all places. -/
theorem sshiftRight_sign (a : BitVec 32) : a.sshiftRight 31 = wordMask a.msb := by
  have hlt : a.toInt < 2 ^ 31 := BitVec.toInt_lt
  have hle : -2 ^ 31 ≤ a.toInt := BitVec.le_toInt a
  apply BitVec.eq_of_toInt_eq
  rw [BitVec.toInt_sshiftRight, Int.shiftRight_eq_div_pow, BitVec.msb_eq_toInt]
  by_cases hneg : a.toInt < 0
  · rw [decide_eq_true hneg, show (wordMask true).toInt = -1 by decide]
    omega
  · rw [decide_eq_false hneg, show (wordMask false).toInt = 0 by decide]
    omega

theorem signExtend_eq_append (a : BitVec 32) : a.signExtend 64 = a.sshiftRight 31 ++ a := by
  ext k hk
  simp [BitVec.getElem_signExtend]
  grind

theorem setWidth_eq_zero_append {n : Nat} (m : Nat) (a : BitVec n) :
    a.setWidth (m + n) = 0#m ++ a := by
  apply BitVec.eq_of_toNat_eq
  have hlt : a.toNat < 2 ^ (m + n) :=
    Nat.lt_of_lt_of_le a.isLt (Nat.pow_le_pow_right (by omega) (by omega))
  rw [toNat_append_eq_add, BitVec.toNat_setWidth, Nat.mod_eq_of_lt hlt]
  simp

/-! ## Constants -/

/-- A word that fits in a field comes back from it. -/
theorem signExtend_ofInt {v : BitVec 32} {w : Nat} (hw : w ≤ 32)
    (h : v.toInt.bmod (2 ^ w) = v.toInt) : (BitVec.ofInt w v.toInt).signExtend 32 = v := by
  apply BitVec.eq_of_toInt_eq
  rw [BitVec.toInt_signExtend_of_le hw, BitVec.toInt_ofInt, h]

/-- So does a short immediate. -/
theorem immediateWord_eq {c : Int} (h : -512 ≤ c ∧ c ≤ 511) :
    immediateWord 10 c = BitVec.ofInt 32 c := by
  apply BitVec.eq_of_toInt_eq
  rw [immediateWord, BitVec.toInt_signExtend_of_le (by decide), BitVec.toInt_ofInt,
    BitVec.toInt_ofInt]
  rw [Int.bmod_eq_of_le (by omega) (by omega), Int.bmod_eq_of_le (by omega) (by omega)]

/-- A word is the sum of its halves. -/
theorem ofInt_halves (v : BitVec 32) :
    (BitVec.ofInt 16 (v.toNat / 0x10000 : Nat) ++ 0#16) |||
      (BitVec.ofInt 16 (v.toNat % 0x10000 : Nat)).setWidth 32 = v := by
  apply BitVec.eq_of_toNat_eq
  have := v.isLt
  rw [setWidth_eq_zero_append 16, BitVec.or_append, toNat_append_eq_add]
  simp
  omega

/-! ## Masks -/

theorem wordMask_and (p q : Bool) : wordMask p &&& wordMask q = wordMask (p && q) := by
  cases p <;> cases q <;> decide

theorem wordMask_or (p q : Bool) : wordMask p ||| wordMask q = wordMask (p || q) := by
  cases p <;> cases q <;> decide

theorem wordMask_and_one (p : Bool) : wordMask p &&& immediateWord 10 1 = if p then 1 else 0 := by
  cases p <;> decide

/-! ## Pairs of words -/

theorem append_beq (h l h' l' : BitVec 32) :
    ((h ++ l) == (h' ++ l')) = (h == h' && l == l') := by
  rw [Bool.eq_iff_iff]
  simp only [Bool.and_eq_true, beq_iff_eq, ← BitVec.toNat_inj, toNat_append_eq_add]
  have := l.isLt
  have := l'.isLt
  omega

/-- A pair of words is zero if no bit of either is set. -/
theorem append_beq_zero (h l : BitVec 32) : ((h ++ l) == 0#64) = (h ||| l == 0#32) := by
  rw [show 0#64 = 0#32 ++ 0#32 from rfl, append_beq, Bool.eq_iff_iff]
  simp only [Bool.and_eq_true, beq_iff_eq, BitVec.or_eq_zero_iff]

/-- The high words decide, and where they are equal the low ones. -/
theorem append_ult (h l h' l' : BitVec 32) :
    (h ++ l).ult (h' ++ l') = (h.ult h' || (h == h' && l.ult l')) := by
  rw [Bool.eq_iff_iff]
  simp only [Bool.or_eq_true, Bool.and_eq_true, beq_iff_eq, ← BitVec.toNat_inj, BitVec.ult,
    decide_eq_true_eq, toNat_append_eq_add]
  have := l.isLt
  have := l'.isLt
  omega

/-- Only the high words have a sign. -/
theorem append_slt (h l h' l' : BitVec 32) :
    (h ++ l).slt (h' ++ l') = (h.slt h' || (h == h' && l.ult l')) := by
  rw [Bool.eq_iff_iff]
  simp only [Bool.or_eq_true, Bool.and_eq_true, beq_iff_eq, ← BitVec.toInt_inj, BitVec.ult,
    BitVec.slt, decide_eq_true_eq, BitVec.toInt_append]
  have := l.isLt
  have := l'.isLt
  simp
  omega

/-! ## Rotations of registers -/

theorem word_rotate_four (q : Quadword) (i : Fin 4) :
    (q.rotateBytes (Fin.ofNat 16 (immediateWord 7 4).toNat)).word i = q.word (i + 1) := by
  have h : Fin.ofNat 16 (immediateWord 7 4).toNat = 4 * (1 : Fin 4).castLE (by omega) := by decide
  rw [h, Quadword.word_rotateBytes]

theorem word_rotate_twelve (q : Quadword) (i : Fin 4) :
    (q.rotateBytes (Fin.ofNat 16 (immediateWord 7 12).toNat)).word i = q.word (i + 3) := by
  have h : Fin.ofNat 16 (immediateWord 7 12).toNat = 4 * (3 : Fin 4).castLE (by omega) := by decide
  rw [h, Quadword.word_rotateBytes]

/-! ## Constants in memory -/

/-- A 64-bit value that stands first in a quadword of memory is read back. -/
theorem long_load {s : State} {address : Address} {v : BitVec 64} {rest : List UInt8}
    (haligned : address &&& 0x3FFF0#18 = address)
    (h : ∀ j b, (Binary.bigEndian 8 v.toNat ++ rest)[j]? = some b →
      s.store (address + BitVec.ofNat 18 j) = b.toBitVec) : (s.load address).long = v := by
  have hbyte (j : Fin 16) (b : UInt8) (hj : (Binary.bigEndian 8 v.toNat ++ rest)[j.val]? = some b) :
      s.store (address + BitVec.ofNat 18 j) = b.toBitVec := h j b hj
  apply BitVec.eq_of_toNat_eq
  rw [State.load, Quadword.long, Quadword.word_ofBytes, Quadword.word_ofBytes, haligned]
  change (Quadword.bytesWord _ 0 ++ Quadword.bytesWord _ 4).toNat = v.toNat
  rw [Quadword.bytesWord, Quadword.bytesWord, hbyte 0 _ rfl, hbyte (0 + 1) _ rfl,
    hbyte (0 + 2) _ rfl, hbyte (0 + 3) _ rfl, hbyte 4 _ rfl, hbyte (4 + 1) _ rfl,
    hbyte (4 + 2) _ rfl, hbyte (4 + 3) _ rfl]
  have := v.isLt
  simp only [toNat_append_eq_add, UInt8.toNat_toBitVec, UInt8.toNat_ofNat']
  omega

end SpuCompiler.Machine
