import SpuCompiler.Proofs.Machine.Words

/-!
Scalars in the local store. The machine moves quadwords only: a scalar is rotated out of the quadword
around it, or shuffled into that quadword and stored with the rest of it. A scalar at a multiple of
its size lies within one quadword, so what is rotated is the scalar and nothing of its neighbours,
and what is stored changes the bytes of the scalar and no others.
-/

namespace SpuCompiler.Machine

namespace Quadword

/-! ## Bytes of registers -/

/-- A byte of a register is one of a word. -/
theorem byte_eq_word (q : Quadword) (i m : Fin 4) :
    q.byte (4 * i.castLE (by decide) + m.castLE (by decide)) =
      (q.word i).extractLsb' (24 - 8 * m) 8 := by
  have hm := m.isLt
  have hi := i.isLt
  have hj : (4 * i.castLE (by omega) + m.castLE (by omega) : Fin 16).val = 4 * i.val + m.val := by
    simp [Fin.val_add, Fin.val_mul]
    omega
  ext k hk
  simp only [byte, word, BitVec.getElem_extractLsb', BitVec.getLsbD_extractLsb', hj]
  rw [decide_eq_true (show 24 - 8 * m.val + k < 32 by omega), Bool.true_and]
  congr 1
  omega

theorem extractLsb'_bytesWord (f : Fin 16 → BitVec 8) (j : Fin 16) (m : Fin 4) :
    (bytesWord f j).extractLsb' (24 - 8 * m) 8 = f (j + m.castLE (by decide)) := by
  apply BitVec.eq_of_toNat_eq
  rw [BitVec.extractLsb'_toNat, bytesWord]
  simp only [toNat_append_eq_add, Nat.shiftRight_eq_div_pow]
  have h₀ := (f j).isLt
  have h₁ := (f (j + 1)).isLt
  have h₂ := (f (j + 2)).isLt
  have h₃ := (f (j + 3)).isLt
  fin_cases m
  · change _ = (f (j + 0)).toNat
    rw [add_zero]
    simp
    omega
  · change _ = (f (j + 1)).toNat
    simp
    omega
  · change _ = (f (j + 2)).toNat
    simp
    omega
  · change _ = (f (j + 3)).toNat
    simp
    omega

theorem exists_place (j : Fin 16) :
    ∃ i m : Fin 4, j = 4 * i.castLE (by decide) + m.castLE (by decide) := by
  decide +revert

@[simp] theorem byte_ofBytes (f : Fin 16 → BitVec 8) (j : Fin 16) : (ofBytes f).byte j = f j := by
  obtain ⟨i, m, rfl⟩ := exists_place j
  rw [byte_eq_word, word_ofBytes, extractLsb'_bytesWord]

theorem ofWords_word (q : Quadword) : ofWords q.word = q := by
  ext k hk
  simp [word, ofWords]
  grind

theorem ofBytes_byte (q : Quadword) : ofBytes q.byte = q := by
  have hwords : (fun i : Fin 4 => bytesWord q.byte (4 * i.castLE (by omega))) = q.word :=
    funext (bytesWord_byte q)
  rw [ofBytes, hwords, ofWords_word]

theorem toNat_byte (q : Quadword) (j : Fin 16) :
    (q.byte j).toNat = q.toNat / 2 ^ (120 - 8 * j.val) % 256 := by
  rw [byte, BitVec.extractLsb'_toNat, Nat.shiftRight_eq_div_pow]

theorem toNat_first (q : Quadword) : (q.word 0).toNat = q.toNat / 2 ^ 96 := by
  have := q.isLt
  rw [word, BitVec.extractLsb'_toNat, Nat.shiftRight_eq_div_pow]
  change q.toNat / 2 ^ 96 % 2 ^ 32 = _
  omega

theorem toNat_long (q : Quadword) : q.long.toNat = q.toNat / 2 ^ 64 := by
  have := q.isLt
  have hsecond : (q.word 1).toNat = q.toNat / 2 ^ 64 % 2 ^ 32 := by
    rw [word, BitVec.extractLsb'_toNat, Nat.shiftRight_eq_div_pow]
    rfl
  rw [long, toNat_append_eq_add, toNat_first, hsecond]
  omega

/-- The number in the slot of a scalar: the first two words, or the first one. -/
def slot (q : Quadword) (size : Nat) : Nat := if size = 8 then q.long.toNat else (q.word 0).toNat

theorem eq_of_dvd_eight {size : Nat} (h : size ∣ 8) : size = 1 ∨ size = 2 ∨ size = 4 ∨ size = 8 := by
  have hle := Nat.le_of_dvd (by omega) h
  interval_cases size <;> omega

/-- A scalar is at the end of its slot. -/
theorem toNat_byte_slot (q : Quadword) {size k : Nat} (hsize : size ∣ 8) (hk : k < size) :
    (q.byte (Fin.ofNat 16 (4 - size + k))).toNat = q.slot size / 256 ^ (size - 1 - k) % 256 := by
  rw [toNat_byte, slot, toNat_long, toNat_first]
  rcases eq_of_dvd_eight hsize with rfl | rfl | rfl | rfl <;>
    interval_cases k <;> simp [Nat.div_div_eq_div_mul]

end Quadword

/-! ## Numbers in the local store -/

/-- The number that bytes from an address on stand for, the most significant first. -/
def readNat (store : Address → BitVec 8) (a : Address) : (size : Nat) → Nat
  | 0 => 0
  | n + 1 => readNat store a n * 256 + (store (a + BitVec.ofNat 18 n)).toNat

def writeNat (store : Address → BitVec 8) (a : Address) (size value : Nat) : Address → BitVec 8 :=
  fun x =>
    if (x - a).toNat < size then BitVec.ofNat 8 (value / 256 ^ (size - 1 - (x - a).toNat))
    else store x

/-- Bytes of a number are read as that number. The first `n` bytes are its quotient by what the
others count. -/
theorem readNat_eq {store : Address → BitVec 8} {a : Address} {size value : Nat}
    (h : ∀ k < size, (store (a + BitVec.ofNat 18 k)).toNat = value / 256 ^ (size - 1 - k) % 256) :
    readNat store a size = value % 256 ^ size := by
  have hfirst : ∀ n ≤ size, readNat store a n = value / 256 ^ (size - n) % 256 ^ n := by
    intro n
    induction n with
    | zero => simp [readNat, Nat.mod_one]
    | succ n ih =>
      intro hn
      have hexp : size - n = size - 1 - n + 1 := by omega
      have hrest : size - (n + 1) = size - 1 - n := by omega
      rw [readNat, ih (by omega), h n (by omega), hexp, hrest, Nat.pow_succ, ← Nat.div_div_eq_div_mul,
        Nat.pow_succ', Nat.mod_mul]
      omega
  simpa using hfirst size (Nat.le_refl size)

theorem writeNat_add (store : Address → BitVec 8) (a : Address) {size k : Nat} (value : Nat)
    (hk : k < size) (hsize : size ∣ 8) :
    (writeNat store a size value (a + BitVec.ofNat 18 k)).toNat =
      value / 256 ^ (size - 1 - k) % 256 := by
  have hle := Nat.le_of_dvd (by omega) hsize
  have hindex : (a + BitVec.ofNat 18 k - a).toNat = k := by
    rw [BitVec.add_comm, BitVec.add_sub_cancel, BitVec.toNat_ofNat, Nat.mod_eq_of_lt (by omega)]
  rw [writeNat, hindex, if_pos hk, BitVec.toNat_ofNat]

/-- What was written is read back. -/
theorem readNat_writeNat (store : Address → BitVec 8) (a : Address) {size : Nat} (value : Nat)
    (hsize : size ∣ 8) : readNat (writeNat store a size value) a size = value % 256 ^ size :=
  readNat_eq fun _ hk => writeNat_add store a value hk hsize

/-! ## Quadwords around addresses -/

theorem toNat_quadword (a : Address) : (a &&& 0x3FFF0#18).toNat = a.toNat / 16 * 16 := by
  have hshift : a &&& 0x3FFF0#18 = a >>> 4 <<< 4 := by
    ext k hk
    interval_cases k <;> simp
  have := a.isLt
  rw [hshift, BitVec.toNat_shiftLeft, BitVec.toNat_ushiftRight, Nat.shiftRight_eq_div_pow,
    Nat.shiftLeft_eq, Nat.mod_eq_of_lt]
  omega

theorem byte_load (s : State) (a : Address) (j : Fin 16) :
    (s.load a).byte j = s.store ((a &&& 0x3FFF0#18) + BitVec.ofNat 18 j) :=
  Quadword.byte_ofBytes _ j

theorem load_congr {s t : State} (h : t.store = s.store) (a : Address) : t.load a = s.load a := by
  rw [State.load, State.load, h]

/-- What was stored is loaded. -/
theorem load_save (s : State) (a : Address) (q : Quadword) : (s.save a q).load a = q := by
  refine Eq.trans ?_ q.ofBytes_byte
  rw [State.load]
  congr 1
  funext j
  have hj := j.isLt
  have hquad := toNat_quadword a
  have hlt := a.isLt
  have hsum : ((a &&& 0x3FFF0#18) + BitVec.ofNat 18 j).toNat = a.toNat / 16 * 16 + j := by
    rw [BitVec.toNat_add, hquad, BitVec.toNat_ofNat]
    omega
  have hsame : ((a &&& 0x3FFF0#18) + BitVec.ofNat 18 j) &&& 0x3FFF0#18 = a &&& 0x3FFF0#18 := by
    apply BitVec.eq_of_toNat_eq
    rw [toNat_quadword, hsum, hquad]
    omega
  have hplace : Fin.ofNat 16 ((a &&& 0x3FFF0#18) + BitVec.ofNat 18 j).toNat = j := by
    apply Fin.ext
    rw [hsum]
    simp
  rw [State.save]
  dsimp only
  rw [if_pos hsame, hplace]

section Scalar

variable {a : Address} {size : Nat} (hsize : size ∣ 8) (ha : size ∣ a.toNat)

include hsize ha

/-- The bytes of an aligned scalar are in the quadword of the first one. -/
theorem mod_add_le : a.toNat % 16 + size ≤ 16 := by
  rcases Quadword.eq_of_dvd_eight hsize with rfl | rfl | rfl | rfl <;> omega

theorem add_eq_quadword_add {k : Nat} (hk : k < size) :
    a + BitVec.ofNat 18 k = (a &&& 0x3FFF0#18) + BitVec.ofNat 18 ((a.toNat + k) % 16) := by
  have hle := mod_add_le hsize ha
  apply BitVec.eq_of_toNat_eq
  rw [BitVec.toNat_add, BitVec.toNat_add, toNat_quadword, BitVec.toNat_ofNat, BitVec.toNat_ofNat]
  omega

/-- A quadword that is rotated until the scalar is at the end of its slot. -/
theorem slot_rotated (s : State) {q : Quadword} {shift : Nat}
    (hq : ∀ j, q.byte j = (s.load a).byte (j + Fin.ofNat 16 shift))
    (hshift : (shift + (4 - size)) % 16 = a.toNat % 16) :
    readNat s.store a size = q.slot size % 256 ^ size := by
  apply readNat_eq
  intro k hk
  have hbyte : (Fin.ofNat 16 (4 - size + k) + Fin.ofNat 16 shift).val = (a.toNat + k) % 16 := by
    simp [Fin.val_add]
    omega
  rw [← q.toNat_byte_slot hsize hk, hq, byte_load, hbyte, ← add_eq_quadword_add hsize ha hk]

/-- The pattern takes the bytes of the scalar from its slot, and all others from the quadword. -/
theorem byte_inserted (p q : Quadword) (j : Fin 16) :
    (p.shuffle q (.insertPattern size (a.toNat % 16))).byte j =
      if a.toNat % 16 ≤ j ∧ j < a.toNat % 16 + size then
        p.byte (Fin.ofNat 16 (4 - size + (j - a.toNat % 16)))
      else q.byte j := by
  have hle := mod_add_le hsize ha
  have hj := j.isLt
  rw [Quadword.shuffle, Quadword.byte_ofBytes, Quadword.insertPattern, Quadword.byte_ofBytes,
    Quadword.shuffleByte, BitVec.toNat_ofNat]
  split
  · rename_i hin
    have hsmall : (j.val - a.toNat % 16 + (4 - size)) % 2 ^ 8 = 4 - size + (j - a.toNat % 16) := by omega
    rw [hsmall, if_pos (by omega), if_pos (by omega)]
  · have hsmall : (16 + j.val) % 2 ^ 8 = 16 + j := by omega
    have hbyte : Fin.ofNat 16 (16 + j.val) = j := Fin.ext (by simp)
    rw [hsmall, if_pos (by omega), if_neg (by omega), hbyte]

/-- Storing the quadword with the scalar in it changes the bytes of the scalar. -/
theorem save_inserted (s : State) (p : Quadword) :
    (s.save a (p.shuffle (s.load a) (.insertPattern size (a.toNat % 16)))).store =
      writeNat s.store a size (p.slot size) := by
  have hle := mod_add_le hsize ha
  funext x
  have hdistance : (x - a).toNat = (2 ^ 18 - a.toNat + x.toNat) % 2 ^ 18 := BitVec.toNat_sub ..
  have hx := x.isLt
  rw [State.save, writeNat]
  dsimp only
  split
  · rename_i hsame
    have hquad : x.toNat / 16 * 16 = a.toNat / 16 * 16 := by
      rw [← toNat_quadword, ← toNat_quadword, hsame]
    have hplace : (Fin.ofNat 16 x.toNat).val = x.toNat % 16 := rfl
    rw [byte_inserted hsize ha, hplace]
    by_cases hin : a.toNat % 16 ≤ x.toNat % 16 ∧ x.toNat % 16 < a.toNat % 16 + size
    · have hk : x.toNat % 16 - a.toNat % 16 = (x - a).toNat := by omega
      rw [if_pos hin, hk, if_pos (by omega)]
      apply BitVec.eq_of_toNat_eq
      rw [p.toNat_byte_slot hsize (by omega), BitVec.toNat_ofNat]
    · rw [if_neg hin, if_neg (by omega), byte_load, hplace]
      congr 1
      apply BitVec.eq_of_toNat_eq
      rw [BitVec.toNat_add, toNat_quadword, BitVec.toNat_ofNat]
      omega
  · rename_i hother
    have hquad : x.toNat / 16 * 16 ≠ a.toNat / 16 * 16 := by
      rw [← toNat_quadword, ← toNat_quadword]
      exact fun h => hother (BitVec.eq_of_toNat_eq h)
    rw [if_neg (by omega)]

end Scalar

/-! ## Regions of the local store -/

/-- The number of a quadword counts sixteen bytes each. -/
theorem quadwordAddress_eq {c : Int} (h : -512 ≤ c ∧ c ≤ 511) (q : Quadword) :
    State.quadwordAddress q c = (q.word 0 + BitVec.ofInt 32 (16 * c)).setWidth 18 := by
  have hshift : BitVec.ofInt 32 c <<< 4 = BitVec.ofInt 32 (16 * c) := by
    rw [BitVec.shiftLeft_eq_mul_twoPow, Int.mul_comm, BitVec.ofInt_mul]
    rfl
  rw [State.quadwordAddress, immediateWord_eq h, hshift]

theorem setWidth_add_ofNat (x : BitVec 32) (k : Nat) :
    (x + BitVec.ofNat 32 k).setWidth 18 = x.setWidth 18 + BitVec.ofNat 18 k := by
  rw [BitVec.setWidth_add _ _ (by decide), BitVec.setWidth_ofNat_of_le (by decide)]

/-- The stores differ only at distances from the base that are at least `low` and below `high`. -/
def SameOutside (base : Address) (low high : Nat) (store store' : Address → BitVec 8) : Prop :=
  ∀ x : Address, (x - base).toNat < low ∨ high ≤ (x - base).toNat → store' x = store x

section Regions

variable {base : Address} {low high : Nat} {store store' store'' : Address → BitVec 8}

namespace SameOutside

theorem refl (store : Address → BitVec 8) : SameOutside base low high store store := fun _ _ => rfl

theorem trans (h : SameOutside base low high store store')
    (h' : SameOutside base low high store' store'') : SameOutside base low high store store'' :=
  fun x hx => (h' x hx).trans (h x hx)

theorem mono (h : SameOutside base low high store store') {low' high' : Nat} (hlow : low' ≤ low)
    (hhigh : high ≤ high') : SameOutside base low' high' store store' :=
  fun x hx => h x (by omega)

end SameOutside

theorem save_sameOutside (hbase : 16 ∣ base.toNat) (hlow : 16 ∣ low) (hhigh : 16 ∣ high)
    (hfits : high ≤ 2 ^ 18) {k : Nat} (hk : low ≤ k ∧ k < high) (s : State) (q : Quadword) :
    SameOutside base low high s.store (s.save (base + BitVec.ofNat 18 k) q).store := by
  intro x hx
  have hdistance : (x - base).toNat = (2 ^ 18 - base.toNat + x.toNat) % 2 ^ 18 := BitVec.toNat_sub ..
  have hlt := x.isLt
  have hlt' := base.isLt
  rw [State.save]
  dsimp only
  rw [if_neg]
  intro hsame
  have hquad : x.toNat / 16 * 16 = (base + BitVec.ofNat 18 k).toNat / 16 * 16 := by
    rw [← toNat_quadword, ← toNat_quadword, hsame]
  rw [BitVec.toNat_add, BitVec.toNat_ofNat] at hquad
  omega

theorem SameOutside.load_eq {s t : State} (h : SameOutside base low high s.store t.store)
    (hbase : 16 ∣ base.toNat) {k : Nat} (hk : 16 ∣ k) (hfits : k + 16 ≤ 2 ^ 18)
    (hout : k + 16 ≤ low ∨ high ≤ k) :
    t.load (base + BitVec.ofNat 18 k) = s.load (base + BitVec.ofNat 18 k) := by
  rw [State.load, State.load]
  congr 1
  funext j
  apply h
  have hj := j.isLt
  have hlt := base.isLt
  rw [BitVec.toNat_sub, BitVec.toNat_add, toNat_quadword, BitVec.toNat_add, BitVec.toNat_ofNat,
    BitVec.toNat_ofNat]
  omega

end Regions

end SpuCompiler.Machine
