import SpuCompiler.Proofs.Machine.Encoding

/-!
Words are uniquely decodable. The bits that select an opcode are of six widths, and none of them is
the start of another, so a word has at most one opcode; and under the layout of that opcode every
register and the whole immediate can be read off again.
-/

namespace SpuCompiler.Machine

variable {j k l m n : Nat} {v : Int}

/-! ## Opcodes -/

def Word.leading (w : Word) (width : Nat) : Nat := w.toNat >>> (32 - width)

def Format.opcodeWidth : Format → Nat
  | .rr | .ri7 | .stop => 11
  | .ri8 => 10
  | .ri16 => 9
  | .ri10 => 8
  | .ri18 => 7
  | .rrr => 4
  | .pseudo => 0

theorem Format.opcodeWidth_le (format : Format) : format.opcodeWidth ≤ 32 := by
  cases format <;> decide

namespace Opcode

/-- The leading bits of the word select the opcode. -/
def isIn (op : Opcode) (w : Word) : Bool :=
  op ≠ .ret && w.leading op.format.opcodeWidth = op.bits

/-- The bits of two opcodes differ before the shorter ones end. -/
def Apart (o p : Opcode) : Prop :=
  o.bits >>> (o.format.opcodeWidth - p.format.opcodeWidth) ≠
    p.bits >>> (p.format.opcodeWidth - o.format.opcodeWidth)

instance (o p : Opcode) : Decidable (Apart o p) := inferInstanceAs (Decidable (_ ≠ _))

instance : Std.Symm Apart := ⟨fun _ _ => Ne.symm⟩

theorem mem_all (op : Opcode) : op ∈ all := by
  cases op <;> decide

theorem all_apart : (all.filter (· ≠ .ret)).Pairwise Apart := by
  decide +kernel

theorem apart_of_ne {o p : Opcode} (ho : o ≠ .ret) (hp : p ≠ .ret) (h : o ≠ p) : Apart o p :=
  all_apart.forall (by simp [mem_all, ho]) (by simp [mem_all, hp]) h

end Opcode

/-- Fewer leading bits are the start of more. -/
theorem Word.leading_shiftRight (w : Word) (hk : k ≤ 32) :
    w.leading k >>> (k - j) = w.leading (min k j) := by
  unfold Word.leading
  rw [← Nat.shiftRight_add]
  congr 1
  omega

theorem Opcode.eq_of_isIn {o p : Opcode} {w : Word} (ho : o.isIn w = true) (hp : p.isIn w = true) :
    o = p := by
  simp only [isIn, Bool.and_eq_true, decide_eq_true_eq] at ho hp
  by_contra hne
  refine apart_of_ne ho.1 hp.1 hne ?_
  rw [← ho.2, ← hp.2, Word.leading_shiftRight w o.format.opcodeWidth_le,
    Word.leading_shiftRight w p.format.opcodeWidth_le, min_comm]

/-! ## Fields -/

/-- The fields that a layout has; the others are zero. -/
def Fields.shown (f : Fields) : Format → Fields
  | .rr => { rt := f.rt, ra := f.ra, rb := f.rb }
  | .rrr => { rt := f.rt, ra := f.ra, rb := f.rb, rc := f.rc }
  | .ri7 | .ri8 | .ri10 => { rt := f.rt, ra := f.ra, immediate := f.immediate }
  | .ri16 | .ri18 => { rt := f.rt, immediate := f.immediate }
  | .stop => { immediate := f.immediate }
  | .pseudo => {}

def Word.register (w : Word) (start : Nat) : Nat := (w.extractLsb' start 7).toNat

def Opcode.fieldsIn (op : Opcode) (w : Word) : Fields :=
  match op.format with
  | .rr => { rt := w.register 0, ra := w.register 7, rb := w.register 14 }
  | .rrr =>
    { rt := w.register 21, ra := w.register 7, rb := w.register 14,
      rc := w.register 0 }
  | .ri7 =>
    { rt := w.register 0, ra := w.register 7, immediate := (w.extractLsb' 14 7).toInt }
  | .ri8 =>
    { rt := w.register 0, ra := w.register 7, immediate := (w.extractLsb' 14 8).toNat }
  | .ri10 =>
    { rt := w.register 0, ra := w.register 7, immediate := (w.extractLsb' 14 10).toInt }
  | .ri16 =>
    { rt := w.register 0
      immediate := if op.hasUnsignedImmediate then (w.extractLsb' 7 16).toNat else immediate16 w }
  | .ri18 => { rt := w.register 0, immediate := immediate18 w }
  | .stop => { immediate := (w.extractLsb' 0 14).toNat }
  | .pseudo => {}

def decode (w : Word) : Option (Opcode × Fields) :=
  (Opcode.all.find? (·.isIn w)).map fun op => (op, op.fieldsIn w)

/-! ## Reading back what was encoded -/

theorem toNat_ofInt_of_range (h : 0 ≤ v) (h' : v < 2 ^ k) :
    ((BitVec.ofInt k v).toNat : Int) = v := by
  rw [BitVec.toNat_ofInt, Int.emod_eq_of_lt h (by exact_mod_cast h'), Int.toNat_of_nonneg h]

theorem toInt_ofInt_of_range (h : -2 ^ k ≤ v) (h' : v < 2 ^ k) :
    (BitVec.ofInt (k + 1) v).toInt = v := by
  rw [BitVec.toInt_ofInt]
  apply Int.bmod_eq_of_le
  · rw [Nat.pow_succ]
    push_cast
    omega
  · rw [Nat.pow_succ]
    push_cast
    omega

theorem toNat_register {r : Nat} (h : r ≤ 127) : (BitVec.ofNat 7 r).toNat = r := by
  rw [BitVec.toNat_ofNat]
  exact Nat.mod_eq_of_lt (by omega)

theorem Word.leading_eq (w : Word) (hk : k ≤ 32) :
    w.leading k = (w.extractLsb' (32 - k) k).toNat := by
  rw [BitVec.extractLsb'_toNat, Word.leading]
  refine (Nat.mod_eq_of_lt ?_).symm
  rw [Nat.shiftRight_eq_div_pow, Nat.div_lt_iff_lt_mul (by positivity), ← Nat.pow_add,
    Nat.add_sub_cancel' hk]
  exact w.isLt

theorem Opcode.bits_lt (op : Opcode) : op.bits < 2 ^ op.format.opcodeWidth := by
  cases op <;> decide

/-- Bits above the low part are bits of the high part. -/
theorem extractLsb'_high (high : BitVec m) (low : BitVec n) (start width : Nat) :
    (high ++ low).extractLsb' (n + start) width = high.extractLsb' start width := by
  rw [BitVec.extractLsb'_append_eq_of_le (Nat.le_add_right n start), Nat.add_sub_cancel_left]

/-- The three parts of a concatenation, the last one first. -/
theorem extractLsb'_three (a : BitVec m) (b : BitVec n) (c : BitVec k) :
    (a ++ b ++ c).extractLsb' 0 k = c ∧ (a ++ b ++ c).extractLsb' k n = b ∧
      (a ++ b ++ c).extractLsb' (k + n) m = a := by
  refine ⟨BitVec.extractLsb'_append_eq_right, extractLsb'_middle a b c, ?_⟩
  rw [extractLsb'_high]
  exact BitVec.extractLsb'_append_eq_left

/-- The four parts of a concatenation, the last one first. -/
theorem extractLsb'_four (a : BitVec m) (b : BitVec n) (c : BitVec k) (d : BitVec l) :
    (a ++ b ++ c ++ d).extractLsb' 0 l = d ∧ (a ++ b ++ c ++ d).extractLsb' l k = c ∧
      (a ++ b ++ c ++ d).extractLsb' (l + k) n = b ∧
      (a ++ b ++ c ++ d).extractLsb' (l + (k + n)) m = a := by
  obtain ⟨hc, hb, ha⟩ := extractLsb'_three a b c
  refine ⟨BitVec.extractLsb'_append_eq_right, extractLsb'_middle _ c d, ?_, ?_⟩
  · rw [extractLsb'_high, hb]
  · rw [extractLsb'_high, ha]

/-- The five parts of a concatenation, the last one first. -/
theorem extractLsb'_five (a : BitVec m) (b : BitVec n) (c : BitVec k) (d : BitVec l)
    (e : BitVec j) :
    (a ++ b ++ c ++ d ++ e).extractLsb' 0 j = e ∧ (a ++ b ++ c ++ d ++ e).extractLsb' j l = d ∧
      (a ++ b ++ c ++ d ++ e).extractLsb' (j + l) k = c ∧
      (a ++ b ++ c ++ d ++ e).extractLsb' (j + (l + k)) n = b ∧
      (a ++ b ++ c ++ d ++ e).extractLsb' (j + (l + (k + n))) m = a := by
  obtain ⟨hd, hc, hb, ha⟩ := extractLsb'_four a b c d
  refine ⟨BitVec.extractLsb'_append_eq_right, extractLsb'_middle _ d e, ?_, ?_, ?_⟩
  · rw [extractLsb'_high, hc]
  · rw [extractLsb'_high, hb]
  · rw [extractLsb'_high, ha]

/-- The word holds the fields and the opcode bits where the layout has them, from the last bit up. -/
def Fields.LaidOut (f : Fields) (bits : Nat) (w : Word) : Format → Prop
  | .rr =>
    w.extractLsb' 0 7 = BitVec.ofNat 7 f.rt ∧ w.extractLsb' 7 7 = BitVec.ofNat 7 f.ra ∧
      w.extractLsb' 14 7 = BitVec.ofNat 7 f.rb ∧ w.extractLsb' 21 11 = BitVec.ofNat 11 bits
  | .rrr =>
    w.extractLsb' 0 7 = BitVec.ofNat 7 f.rc ∧ w.extractLsb' 7 7 = BitVec.ofNat 7 f.ra ∧
      w.extractLsb' 14 7 = BitVec.ofNat 7 f.rb ∧ w.extractLsb' 21 7 = BitVec.ofNat 7 f.rt ∧
      w.extractLsb' 28 4 = BitVec.ofNat 4 bits
  | .ri7 =>
    w.extractLsb' 0 7 = BitVec.ofNat 7 f.rt ∧ w.extractLsb' 7 7 = BitVec.ofNat 7 f.ra ∧
      w.extractLsb' 14 7 = BitVec.ofInt 7 f.immediate ∧ w.extractLsb' 21 11 = BitVec.ofNat 11 bits
  | .ri8 =>
    w.extractLsb' 0 7 = BitVec.ofNat 7 f.rt ∧ w.extractLsb' 7 7 = BitVec.ofNat 7 f.ra ∧
      w.extractLsb' 14 8 = BitVec.ofInt 8 f.immediate ∧ w.extractLsb' 22 10 = BitVec.ofNat 10 bits
  | .ri10 =>
    w.extractLsb' 0 7 = BitVec.ofNat 7 f.rt ∧ w.extractLsb' 7 7 = BitVec.ofNat 7 f.ra ∧
      w.extractLsb' 14 10 = BitVec.ofInt 10 f.immediate ∧ w.extractLsb' 24 8 = BitVec.ofNat 8 bits
  | .ri16 =>
    w.extractLsb' 0 7 = BitVec.ofNat 7 f.rt ∧ w.extractLsb' 7 16 = BitVec.ofInt 16 f.immediate ∧
      w.extractLsb' 23 9 = BitVec.ofNat 9 bits
  | .ri18 =>
    w.extractLsb' 0 7 = BitVec.ofNat 7 f.rt ∧ w.extractLsb' 7 18 = BitVec.ofInt 18 f.immediate ∧
      w.extractLsb' 25 7 = BitVec.ofNat 7 bits
  | .stop =>
    w.extractLsb' 0 14 = BitVec.ofInt 14 f.immediate ∧ w.extractLsb' 14 7 = 0 ∧
      w.extractLsb' 21 11 = BitVec.ofNat 11 bits
  | .pseudo => False

section Encoded

variable {op : Opcode} {f : Fields} {w : Word} {bits : Nat} {format : Format}

theorem laidOut_of_word? (h : f.word? bits format = some w) : f.LaidOut bits w format := by
  cases format with
  | rr | ri7 | ri8 | ri10 =>
    cases h
    exact extractLsb'_four _ _ _ _
  | rrr =>
    cases h
    exact extractLsb'_five _ _ _ _ _
  | ri16 | ri18 | stop =>
    cases h
    exact extractLsb'_three _ _ _
  | pseudo => cases h

theorem leading_of_laidOut (h : f.LaidOut bits w format) :
    w.leading format.opcodeWidth = (BitVec.ofNat format.opcodeWidth bits).toNat := by
  rw [w.leading_eq format.opcodeWidth_le]
  apply congrArg BitVec.toNat
  cases format with
  | rr | ri7 | ri8 | ri10 => exact h.2.2.2
  | rrr => exact h.2.2.2.2
  | ri16 | ri18 | stop => exact h.2.2
  | pseudo => cases h

theorem isIn_of_encode (h : encode op f = .ok w) : op.isIn w = true := by
  obtain ⟨-, -, hword⟩ := encode_eq_ok_iff.mp h
  have hret : op ≠ .ret := by
    rintro rfl
    cases hword
  have hbits := leading_of_laidOut (laidOut_of_word? hword)
  rw [BitVec.toNat_ofNat, Nat.mod_eq_of_lt op.bits_lt] at hbits
  simp [Opcode.isIn, hret, hbits]

theorem fieldsIn_of_encode (h : encode op f = .ok w) : op.fieldsIn w = f.shown op.format := by
  obtain ⟨hregisters, hadmits, hword⟩ := encode_eq_ok_iff.mp h
  have hrt := toNat_register (hregisters f.rt (by simp [Fields.registers]))
  have hra := toNat_register (hregisters f.ra (by simp [Fields.registers]))
  have hrb := toNat_register (hregisters f.rb (by simp [Fields.registers]))
  have hrc := toNat_register (hregisters f.rc (by simp [Fields.registers]))
  have hparts := laidOut_of_word? hword
  simp only [Opcode.fieldsIn, Fields.shown, Word.register, immediate16, immediate18]
  cases hformat : op.format with
  | rr =>
    rw [hformat] at hparts
    obtain ⟨ht, ha, hb, -⟩ := hparts
    simp only [ht, ha, hb, hrt, hra, hrb]
  | rrr =>
    rw [hformat] at hparts
    obtain ⟨hc, ha, hb, ht, -⟩ := hparts
    simp only [ht, ha, hb, hc, hrt, hra, hrb, hrc]
  | ri7 =>
    rw [hformat] at hparts
    obtain ⟨ht, ha, hi, -⟩ := hparts
    have hrange := hadmits (-64) 63 (by simp [Opcode.immediateRange, hformat])
    have himm : (BitVec.ofInt 7 f.immediate).toInt = f.immediate :=
      toInt_ofInt_of_range (by omega) (by omega)
    simp only [ht, ha, hi, hrt, hra, himm]
  | ri8 =>
    rw [hformat] at hparts
    obtain ⟨ht, ha, hi, -⟩ := hparts
    have hrange := hadmits 0 255 (by simp [Opcode.immediateRange, hformat])
    have himm : ((BitVec.ofInt 8 f.immediate).toNat : Int) = f.immediate :=
      toNat_ofInt_of_range hrange.1 (by omega)
    simp only [ht, ha, hi, hrt, hra, himm]
  | ri10 =>
    rw [hformat] at hparts
    obtain ⟨ht, ha, hi, -⟩ := hparts
    have hrange := hadmits (-512) 511 (by simp [Opcode.immediateRange, hformat])
    have himm : (BitVec.ofInt 10 f.immediate).toInt = f.immediate :=
      toInt_ofInt_of_range (by omega) (by omega)
    simp only [ht, ha, hi, hrt, hra, himm]
  | ri16 =>
    rw [hformat] at hparts
    obtain ⟨ht, hi, -⟩ := hparts
    simp only [ht, hi, hrt]
    split
    · rename_i hunsigned
      have hrange := hadmits 0 0xFFFF (by simp [Opcode.immediateRange, hformat, hunsigned])
      rw [toNat_ofInt_of_range hrange.1 (by omega)]
    · rename_i hsigned
      have hrange := hadmits (-0x8000) 0x7FFF (by simp [Opcode.immediateRange, hformat, hsigned])
      rw [toInt_ofInt_of_range (by omega) (by omega)]
  | ri18 =>
    rw [hformat] at hparts
    obtain ⟨ht, hi, -⟩ := hparts
    have hrange := hadmits 0 0x3FFFF (by simp [Opcode.immediateRange, hformat])
    have himm : ((BitVec.ofInt 18 f.immediate).toNat : Int) = f.immediate :=
      toNat_ofInt_of_range hrange.1 (by omega)
    simp only [ht, hi, hrt, himm]
  | stop =>
    rw [hformat] at hparts
    obtain ⟨hi, -, -⟩ := hparts
    have hrange := hadmits 0 0x3FFF (by simp [Opcode.immediateRange, hformat])
    have himm : ((BitVec.ofInt 14 f.immediate).toNat : Int) = f.immediate :=
      toNat_ofInt_of_range hrange.1 (by omega)
    simp only [hi, himm]
  | pseudo => rfl

/-- The opcode and the fields of an encoded word are read back. -/
theorem decode_encode (h : encode op f = .ok w) : decode w = some (op, f.shown op.format) := by
  have hin := isIn_of_encode h
  obtain ⟨p, hp⟩ : ∃ p, Opcode.all.find? (·.isIn w) = some p := by
    rw [← Option.isSome_iff_exists, List.find?_isSome]
    exact ⟨op, op.mem_all, hin⟩
  have hfound : p.isIn w = true := by simpa using List.find?_some hp
  obtain rfl := Opcode.eq_of_isIn hfound hin
  rw [decode, hp, Option.map_some, fieldsIn_of_encode h]

end Encoded

/-- A word is the word of one opcode only, and of one choice of the registers and the immediate that
its layout has. A wide immediate is the one that is read from the word: a 16-bit one up to a multiple
of 2 ^ 16, an 18-bit one as it is. -/
theorem encode_unique {o p : Opcode} {f g : Fields} {w : Word} (hf : encode o f = .ok w)
    (hg : encode p g = .ok w) :
    o = p ∧ f.shown o.format = g.shown o.format ∧
      (o.format = .ri16 → immediate16 w % 2 ^ 16 = f.immediate % 2 ^ 16) ∧
      (o.format = .ri18 → (immediate18 w : Int) = f.immediate) := by
  have hsame := (decode_encode hf).symm.trans (decode_encode hg)
  simp only [Option.some.injEq, Prod.mk.injEq] at hsame
  obtain ⟨rfl, hfields⟩ := hsame
  have hread := fieldsIn_of_encode hf
  refine ⟨rfl, hfields, ?_, ?_⟩
  · intro hformat
    have hword := laidOut_of_word? (encode_eq_ok_iff.mp hf).2.2
    rw [hformat] at hword
    rw [immediate16, hword.2.1, BitVec.toInt_ofInt]
    exact Int.bmod_emod
  · intro hformat
    simp only [Opcode.fieldsIn, hformat, Fields.shown, Fields.mk.injEq] at hread
    exact hread.2.2.2.2

/-- A branch back by two words. The layout has no place for `ra`, so its value makes no difference. -/
theorem branchBack_unique :
    encode .brnz { rt := 3, immediate := -2 } = .ok 0x217FFF03 ∧
      encode .brnz { rt := 3, ra := 5, immediate := -2 } = .ok 0x217FFF03 ∧
      immediate16 0x217FFF03 % 2 ^ 16 = -2 % 2 ^ 16 := by
  have hword : encode .brnz { rt := 3, immediate := -2 } = .ok 0x217FFF03 := by decide
  have hword' : encode .brnz { rt := 3, ra := 5, immediate := -2 } = .ok 0x217FFF03 := by decide
  obtain ⟨-, -, himmediate, -⟩ := encode_unique hword hword'
  exact ⟨hword, hword', himmediate rfl⟩

end SpuCompiler.Machine
