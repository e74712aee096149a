import SpuCompiler.Proofs.Machine.Doubles
import SpuCompiler.Proofs.Machine.LocalStore
import SpuCompiler.Proofs.Selection.Fragments

/-!
Conversion of doubles to words. The code works on the bits of a double: it shifts the significand
until its last bit counts one, takes a word of it and gives it the sign. The word is the integer
part of the double wherever a word can hold that.
-/

namespace SpuCompiler.Selection.Emit

open Machine Trees

variable {address : Nat → Address} {a : Stream} {s : State} {ra rb : Register}

/-! ## The parts of the code -/

def doubleShift (value : Register) : Emit Register := do
  let biased ← ri .rotmi value (-20)
  let exponentMask ← loadImmediate 0x7FF
  let exponent ← rr .and biased exponentMask
  let bias ← loadImmediate 1075
  rr .sf exponent bias

/-- The significand of a double that is no subnormal. -/
def doubleSignificand (value : Register) : Emit Register := do
  let fractionMask ← loadImmediate 0x000FFFFF
  let fraction ← rr .and value fractionMask
  let implicit ← imm .ilhu 0x0010
  let highWord ← rr .or fraction implicit
  let firstWord ← imm .fsmbi 0xF000
  rrr .selb value highWord firstWord

/-- Shifts by whole bytes and by the bits that remain, and takes the second word. -/
def shiftedWord (significand shift : Register) : Emit Register := do
  let bytes ← ri .rotmi shift (-3)
  let byteCount ← ri .sfi bytes 0
  let bits ← ri .andi shift 7
  let bitCount ← ri .sfi bits 0
  let byBytes ← rr .rotqmby significand byteCount
  let byBits ← rr .rotqmbi byBytes bitCount
  ri .rotqbyi byBits 4

/-- Negates a word where the first bit of a value is a sign and is set. -/
def applySign (signed : Bool) (value magnitude : Register) : Emit Register :=
  if signed then do
    let sign ← ri .rotmai value (-31)
    let flipped ← rr .xor magnitude sign
    rr .sf sign flipped
  else pure magnitude

theorem doubleToWord_eq (signed : Bool) (value : Register) :
    doubleToWord signed value = (do
      let shift ← doubleShift value
      let significand ← doubleSignificand value
      let magnitude ← shiftedWord significand shift
      let truncated ← applySign signed value magnitude
      let fractional ← ri .cgti shift 52
      rr .andc truncated fractional) := by
  cases signed <;>
    simp only [doubleToWord, doubleShift, doubleSignificand, shiftedWord, applySign, bind_assoc,
      pure_bind, Bool.false_eq_true, if_false, if_true]

/-! ## What the parts compute -/

theorem toNat_long_eq (q : Quadword) :
    q.long.toNat = (q.word 0).toNat * 2 ^ 32 + (q.word 1).toNat := by
  rw [Quadword.long, toNat_append_eq_add]

theorem exponent_long (q : Quadword) :
    rotateMask (q.word 0) (immediateWord 7 (-20)) &&& 0x7FF#32 =
      BitVec.ofNat 32 (Double.exponent q.long) := by
  have hcount : (-immediateWord 7 (-20)).toNat % 64 = 20 := by decide
  have hmask : (0x7FF#32).toNat = 2 ^ 11 - 1 := by decide
  have hlow := (q.word 1).isLt
  apply BitVec.eq_of_toNat_eq
  rw [rotateMask, hcount, BitVec.toNat_and, BitVec.toNat_ushiftRight, Nat.shiftRight_eq_div_pow, hmask,
    Nat.and_two_pow_sub_one_eq_mod, Double.exponent, toNat_long_eq, BitVec.toNat_ofNat]
  omega

theorem doubleShift_computes {q : Quadword} (hq : Gives q ra a s) :
    Computes address (doubleShift ra) a s
      (Holds (.word (1075#32 - BitVec.ofNat 32 (Double.exponent q.long)))) := by
  refine (ri_computes rfl hq (-20)).bind fun _ b₁ s₁ h₁ biased => ?_
  refine (loadImmediate_computes 0x7FF#32).bind fun _ b₂ s₂ h₂ mask => ?_
  refine (rr_computes rfl (biased.after h₂) mask).bind fun _ b₃ s₃ h₃ exponent => ?_
  refine (loadImmediate_computes 1075#32).bind fun _ b₄ s₄ h₄ bias => ?_
  refine (rr_computes rfl (exponent.after h₄) bias).mono fun _ _ _ _ hr => hr.holds ?_
  rw [InSlot, Quadword.word_map₂, Quadword.word_and, Quadword.word_map, Quadword.word_splat,
    Quadword.word_splat, exponent_long]

theorem significand_words (h l : BitVec 32) :
    ((h &&& 0xFFFFF#32 ||| 0x100000#32) ++ l).toNat = 2 ^ 52 + (h ++ l).toNat % 2 ^ 52 := by
  have hmask : (0xFFFFF#32).toNat = 2 ^ 20 - 1 := by decide
  have hbit : (0x100000#32).toNat = 2 ^ 20 * 1 := by decide
  have hlow := l.isLt
  rw [toNat_append_eq_add, toNat_append_eq_add, BitVec.toNat_or, BitVec.toNat_and, hmask, hbit,
    Nat.and_two_pow_sub_one_eq_mod, Nat.or_comm,
    ← Nat.two_pow_add_eq_or_of_lt (Nat.mod_lt _ (by norm_num))]
  omega

theorem doubleSignificand_computes {q : Quadword} (hq : Gives q ra a s) :
    Computes address (doubleSignificand ra) a s fun r b t =>
      ∃ m, Gives m r b t ∧ m.long.toNat = 2 ^ 52 + Double.fraction q.long := by
  refine (loadImmediate_computes 0x000FFFFF#32).bind fun _ b₁ s₁ h₁ mask => ?_
  refine (rr_computes rfl (hq.after h₁) mask).bind fun _ b₂ s₂ h₂ fraction => ?_
  refine (imm_computes rfl 0x0010).bind fun _ b₃ s₃ h₃ implicit => ?_
  refine (rr_computes rfl (fraction.after h₃) implicit).bind fun _ b₄ s₄ h₄ highWord => ?_
  refine (imm_computes rfl 0xF000).bind fun _ b₅ s₅ h₅ firstWord => ?_
  have h₁₅ := h₁.trans (h₂.trans (h₃.trans (h₄.trans h₅)))
  refine (rrr_computes rfl (hq.after h₁₅) (highWord.after h₅) firstWord).mono
    fun _ _ _ _ hr => ⟨_, hr, ?_⟩
  have hmask₀ : (Quadword.byteMask (BitVec.ofInt 16 0xF000)).word 0 = BitVec.allOnes 32 := by decide
  have hmask₁ : (Quadword.byteMask (BitVec.ofInt 16 0xF000)).word 1 = 0#32 := by decide
  have himplicit : BitVec.ofInt 16 0x0010 ++ 0#16 = 0x100000#32 := by decide
  simp only [Quadword.long, Quadword.select, Quadword.word_or, Quadword.word_and, Quadword.word_not,
    Quadword.word_splat, hmask₀, hmask₁, himplicit, BitVec.not_zero, BitVec.not_allOnes,
    BitVec.and_allOnes, BitVec.and_zero, BitVec.or_zero, BitVec.zero_or]
  exact significand_words (q.word 0) (q.word 1)

/-- A shift by bytes and a shift by bits are one shift. -/
theorem word_shifted (m : Quadword) (k : BitVec 32) (h : k.toNat < 128) :
    Quadword.word (m >>> (8 * ((k >>> 3).toNat % 32)) >>> ((k &&& 7#32).toNat % 8)) 1 =
      BitVec.ofNat 32 (m.long.toNat / 2 ^ k.toNat) := by
  have hbytes : 8 * ((k >>> 3).toNat % 32) + (k &&& 7#32).toNat % 8 = k.toNat := by
    have hmask : (7#32).toNat = 2 ^ 3 - 1 := by decide
    rw [BitVec.toNat_ushiftRight, Nat.shiftRight_eq_div_pow, BitVec.toNat_and, hmask,
      Nat.and_two_pow_sub_one_eq_mod]
    omega
  apply BitVec.eq_of_toNat_eq
  rw [← BitVec.shiftRight_add, hbytes, Quadword.word, BitVec.extractLsb'_toNat,
    BitVec.toNat_ushiftRight, BitVec.toNat_ofNat, Quadword.toNat_long, Nat.shiftRight_eq_div_pow,
    Nat.shiftRight_eq_div_pow, Nat.div_div_eq_div_mul, Nat.div_div_eq_div_mul, Nat.mul_comm]
  rfl

theorem shiftedWord_computes {m : Quadword} {k : BitVec 32} (hm : Gives m ra a s)
    (hk : Holds (.word k) rb a s) :
    Computes address (shiftedWord ra rb) a s fun r b t => ∃ w, Holds (.word w) r b t ∧
      (k.toNat < 128 → w = BitVec.ofNat 32 (m.long.toNat / 2 ^ k.toNat)) := by
  have hword : (s.registers rb).word 0 = k := hk.2
  refine (ri_computes rfl hk.gives (-3)).bind fun _ b₁ s₁ h₁ bytes => ?_
  refine (ri_computes rfl bytes 0).bind fun _ b₂ s₂ h₂ byteCount => ?_
  refine (ri_computes rfl (hk.gives.after (h₁.trans h₂)) 7).bind fun _ b₃ s₃ h₃ bits => ?_
  refine (ri_computes rfl bits 0).bind fun _ b₄ s₄ h₄ bitCount => ?_
  have h₁₄ := h₁.trans (h₂.trans (h₃.trans h₄))
  refine (rr_computes rfl (hm.after h₁₄) (byteCount.after (h₃.trans h₄))).bind
    fun _ b₅ s₅ h₅ byBytes => ?_
  refine (rr_computes rfl byBytes (bitCount.after h₅)).bind fun _ b₆ s₆ h₆ byBits => ?_
  refine (ri_computes rfl byBits 4).mono fun _ _ _ _ hr => ⟨_, hr.holds rfl, fun hlt => ?_⟩
  have hcount : (-immediateWord 7 (-3)).toNat % 64 = 3 := by decide
  have hmask : immediateWord 10 7 = 7#32 := by decide
  simp only [word_rotate_four, Quadword.word_map, hword, rotateMask, hcount, hmask, immediateWord_zero,
    BitVec.zero_sub, BitVec.neg_neg]
  exact word_shifted m k hlt

theorem applySign_word (h w : BitVec 32) :
    (w ^^^ rotateMaskSigned h (immediateWord 7 (-31))) - rotateMaskSigned h (immediateWord 7 (-31)) =
      if h.msb then -w else w := by
  rw [rotateMaskSigned_sign, sshiftRight_sign, wordMask]
  split
  · have hone : -BitVec.allOnes 32 = 1#32 := by decide
    rw [BitVec.xor_allOnes, BitVec.sub_eq_add_neg, hone, BitVec.neg_eq_not_add]
  · change (w ^^^ 0#32) - 0#32 = w
    rw [BitVec.sub_zero, BitVec.xor_zero]

theorem applySign_computes (signed : Bool) {q : Quadword} {w : BitVec 32} (hq : Gives q ra a s)
    (hw : Holds (.word w) rb a s) :
    Computes address (applySign signed ra rb) a s
      (Holds (.word (if signed && q.long.msb then -w else w))) := by
  cases signed with
  | false => exact .pure hw
  | true =>
    have hword : (s.registers rb).word 0 = w := hw.2
    refine (ri_computes rfl hq (-31)).bind fun _ b₁ s₁ h₁ sign => ?_
    refine (rr_computes rfl (hw.gives.after h₁) sign).bind fun _ b₂ s₂ h₂ flipped => ?_
    refine (rr_computes rfl (sign.after h₂) flipped).mono fun _ _ _ _ hr => hr.holds ?_
    rw [InSlot, Quadword.word_map₂, Quadword.word_xor, Quadword.word_map, hword, applySign_word,
      Quadword.long, BitVec.msb_append]
    rfl

/-! ## The whole conversion -/

theorem shift_eq {e : Nat} (h : e ≤ 1075) :
    1075#32 - BitVec.ofNat 32 e = BitVec.ofNat 32 (1075 - e) := by
  apply BitVec.eq_of_toNat_eq
  rw [BitVec.toNat_sub, BitVec.toNat_ofNat, BitVec.toNat_ofNat, BitVec.toNat_ofNat]
  omega

theorem slt_ofNat {m n : Nat} (hm : m < 2 ^ 31) (hn : n < 2 ^ 31) :
    (BitVec.ofNat 32 m).slt (BitVec.ofNat 32 n) = decide (m < n) := by
  have hm' : (BitVec.ofNat 32 m).toNat = m := by
    rw [BitVec.toNat_ofNat]
    omega
  have hn' : (BitVec.ofNat 32 n).toNat = n := by
    rw [BitVec.toNat_ofNat]
    omega
  rw [BitVec.slt_eq_decide, BitVec.toInt_eq_toNat_of_lt (by omega), BitVec.toInt_eq_toNat_of_lt (by omega),
    hm', hn']
  simp

/-- The integer part fits in a word, with a sign or without one. -/
def InWord (signed : Bool) (n : ℤ) : Prop :=
  if signed then -2 ^ 31 ≤ n ∧ n < 2 ^ 31 else 0 ≤ n ∧ n < 2 ^ 32

theorem signed_ofNat {n : Nat} {signed negative : Bool}
    (h : InWord signed (if negative then -(n : ℤ) else n)) :
    (if signed && negative then -BitVec.ofNat 32 n else BitVec.ofNat 32 n) =
      BitVec.ofInt 32 (if negative then -(n : ℤ) else n) := by
  cases negative with
  | false => simp
  | true =>
    cases signed with
    | true => simp [BitVec.ofInt_neg]
    | false =>
      -- Without a sign there is no negative integer part but zero.
      obtain rfl : n = 0 := by
        simp only [InWord, Bool.false_eq_true, if_false, if_true] at h
        omega
      rfl

/-- The word of the significand with its sign, or zero where there is no integer part. -/
theorem word_of_truncate {d : BitVec 64} {x : ℚ} {signed : Bool} {w : BitVec 32}
    (hx : Double.value? d = some x) (hword : InWord signed (truncate x))
    (hw : (1075#32 - BitVec.ofNat 32 (Double.exponent d)).toNat < 128 →
      w = BitVec.ofNat 32 ((2 ^ 52 + Double.fraction d) /
        2 ^ (1075#32 - BitVec.ofNat 32 (Double.exponent d)).toNat)) :
    (if signed && d.msb then -w else w) &&&
        ~~~wordMask ((52#32).slt (1075#32 - BitVec.ofNat 32 (Double.exponent d))) =
      BitVec.ofInt 32 (truncate x) := by
  rw [Double.truncate_value? d hx] at hword ⊢
  rcases Nat.lt_or_ge 1075 (Double.exponent d) with hlarge | hle
  · -- No word holds such a number.
    have hfloor := Double.le_floor_magnitude hlarge
    unfold InWord at hword
    split at hword <;> split at hword <;> omega
  · rw [shift_eq hle, slt_ofNat (by omega) (by omega)]
    rw [shift_eq hle, BitVec.toNat_ofNat, Nat.mod_eq_of_lt (by omega)] at hw
    rcases Nat.lt_or_ge (Double.exponent d) 1023 with hsmall | hge
    · have hmask : wordMask (decide (52 < 1075 - Double.exponent d)) = BitVec.allOnes 32 := by
        rw [decide_eq_true (by omega)]
        rfl
      rw [hmask, Double.floor_magnitude_of_small hsmall, BitVec.not_allOnes, BitVec.and_zero]
      split <;> rfl
    · have hmask : wordMask (decide (52 < 1075 - Double.exponent d)) = 0#32 := by
        rw [decide_eq_false (by omega)]
        rfl
      rw [Double.floor_magnitude_of_normal (by omega) hle] at hword ⊢
      rw [hw (by omega), hmask, BitVec.not_zero, BitVec.and_allOnes]
      exact signed_ofNat hword

/-- A double is converted to its integer part: for every finite double, zeros and subnormals
included, and whatever is in the rest of the register, provided that a word holds the integer part. -/
theorem doubleToWord_truncates (address : Nat → Address) (a : Stream) (s : State) (signed : Bool)
    {value : Register} (hknown : Known a.next value) {x : ℚ}
    (hx : Double.value? (s.registers value).long = some x) (hword : InWord signed (truncate x)) :
    Computes address (doubleToWord signed value) a s
      (Holds (.word (BitVec.ofInt 32 (truncate x)))) := by
  have hq : Gives (s.registers value) value a s := ⟨hknown, rfl⟩
  rw [doubleToWord_eq]
  refine (doubleShift_computes hq).bind fun _ b₁ s₁ h₁ shift => ?_
  refine (doubleSignificand_computes (hq.after h₁)).bind fun _ b₂ s₂ h₂ ⟨m, significand, hm⟩ => ?_
  have h₁₂ := h₁.trans h₂
  refine (shiftedWord_computes significand (shift.after h₂)).bind
    fun _ b₃ s₃ h₃ ⟨w, magnitude, hw⟩ => ?_
  rw [hm] at hw
  have h₁₃ := h₁₂.trans h₃
  refine (applySign_computes signed (hq.after h₁₃) magnitude).bind fun _ b₄ s₄ h₄ truncated => ?_
  have hshift := shift.after (h₂.trans (h₃.trans h₄))
  refine (ri_computes rfl hshift.gives 52).bind fun _ b₅ s₅ h₅ fractional => ?_
  refine (rr_computes rfl (truncated.gives.after h₅) fractional).mono fun _ _ _ _ hr => hr.holds ?_
  have hconstant : immediateWord 10 52 = 52#32 := by decide
  rw [InSlot, Quadword.word_and, Quadword.word_not, Quadword.word_map, hconstant,
    show (s₄.registers _).word 0 = _ from truncated.2, show (s₄.registers _).word 0 = _ from hshift.2]
  exact word_of_truncate hx hword hw

/-- A half below the least word, with garbage behind it. -/
def belowLeastWord : State where
  registers _ := 0xC1E0000000100000#64 ++ 0x0123456789ABCDEF#64
  store _ := 0

theorem belowLeastWord_value :
    Double.value? (belowLeastWord.registers (.virtual 0)).long = some (-(4294967297 / 2)) := by
  have hbits : (belowLeastWord.registers (.virtual 0)).long = 0xC1E0000000100000#64 := by decide
  have hexponent : Double.exponent 0xC1E0000000100000#64 = 1054 := by decide
  have hsignificand : Double.significand 0xC1E0000000100000#64 = 4503599628419072 := by decide
  have hsign : (0xC1E0000000100000#64).msb = true := by decide
  rw [hbits, Double.value?, hexponent, Double.magnitude, hexponent, hsignificand, hsign]
  norm_num

theorem belowLeastWord_truncates :
    InWord true (truncate (-(4294967297 / 2))) ∧
      Computes (fun _ => 0) (doubleToWord true (.virtual 0)) ⟨1, #[]⟩ belowLeastWord
        (Holds (.word 0x80000000#32)) := by
  have htruncate : truncate (-(4294967297 / 2)) = -2147483648 := by
    rw [truncate_neg_of_nonneg (by norm_num)]
    norm_num
  have hword : InWord true (truncate (-(4294967297 / 2))) := by
    rw [htruncate]
    exact ⟨by norm_num, by norm_num⟩
  have hknown : Known 1 (.virtual 0) := Nat.one_pos
  have hconverted := doubleToWord_truncates (fun _ => 0) ⟨1, #[]⟩ belowLeastWord true hknown
    belowLeastWord_value hword
  rw [htruncate] at hconverted
  exact ⟨hword, hconverted⟩

end SpuCompiler.Selection.Emit
