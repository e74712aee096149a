import SpuCompiler.Proofs.Metadata.FieldLayout
import SpuCompiler.Proofs.Selection.Fragments

/-!
Addresses of array elements. An index is scaled by the size of an element: not at all, by a shift,
or by a product that reads the low half of the index only, with its sign. A type laid out in
sequence has a power of two as its size, or at least a quadword; so where the size is no power of
two, an element within the local store has an index that the low half holds.
-/

namespace SpuCompiler.Machine

/-- A number with a sign bit to spare is kept by sign extension. -/
theorem signExtend_ofNat {w k : Nat} (hw : w ≤ 32) (hk : 2 * k < 2 ^ w) :
    (BitVec.ofNat w k).signExtend 32 = BitVec.ofNat 32 k := by
  have hmsb : (BitVec.ofNat w k).msb = false := by
    rw [BitVec.msb_eq_false_iff_two_mul_lt, BitVec.toNat_ofNat, Nat.mod_eq_of_lt (by omega)]
    exact hk
  rw [BitVec.signExtend_eq_setWidth_of_msb_false hmsb,
    BitVec.setWidth_ofNat_of_le_of_lt hw (by omega)]

theorem immediateWord_natCast {w k : Nat} (hw : w ≤ 32) (hk : 2 * k < 2 ^ w) :
    immediateWord w (k : Int) = BitVec.ofNat 32 k := by
  rw [immediateWord, BitVec.ofInt_natCast, signExtend_ofNat hw hk]

theorem extendHalf_ofNat {k : Nat} (hk : k < 2 ^ 15) :
    extendHalf (BitVec.ofNat 32 k) = BitVec.ofNat 32 k := by
  rw [extendHalf_eq, BitVec.setWidth_ofNat_of_le (by decide),
    signExtend_ofNat (by decide) (by omega)]

theorem shiftLeft_ofNat (n : Nat) {k : Nat} (hk : k < 64) :
    shiftLeft (BitVec.ofNat 32 n) (immediateWord 7 k) = BitVec.ofNat 32 (n * 2 ^ k) := by
  have hcount : (immediateWord 7 k).toNat % 64 = k := by
    rw [immediateWord_natCast (by decide) (by omega), BitVec.toNat_ofNat]
    omega
  apply BitVec.eq_of_toNat_eq
  rw [shiftLeft, hcount, BitVec.toNat_shiftLeft, Nat.shiftLeft_eq, BitVec.toNat_ofNat,
    BitVec.toNat_ofNat, Nat.mod_mul_mod]

end SpuCompiler.Machine

namespace SpuCompiler.Metadata.Ty

/-- The sizes that an index is multiplied by are zero, or at least a quadword. -/
theorem Sequential.size_cases {ty : Ty} (h : ty.Sequential) :
    ty.size = 0 ∨ 2 ^ ty.size.log2 = ty.size ∨ 16 ≤ ty.size := by
  cases h with
  | @scalar ty h =>
    cases ty with
    | basic b => cases b <;> decide
    | struct d => cases h
    | reference | array | byRef => exact .inr (.inl (show 2 ^ Nat.log2 4 = 4 by decide))
  | @struct name fields _ => exact .inr (.inr (TypeDef.sequential_arranged name fields).positive)

end SpuCompiler.Metadata.Ty

namespace SpuCompiler.Selection.Emit

open Machine Metadata

variable {address : Nat → Address} {a : Stream} {s : State} {array index : Register} {i size : Nat}

/-- A product reads the low half of the index, which then has to be all of it. -/
theorem scaleIndex?_computes {e : Emit Register} (he : scaleIndex? size index = some e)
    (hindex : Holds (.word (BitVec.ofNat 32 i)) index a s) (hsize : size < 2 ^ 64)
    (hlow : 2 ^ size.log2 ≠ size → size = 0 ∨ i < 2 ^ 15) :
    Computes address e a s (Holds (.word (BitVec.ofNat 32 (i * size)))) := by
  have hword : (s.registers index).word 0 = BitVec.ofNat 32 i := hindex.2
  unfold scaleIndex? at he
  rw [Nat.pow_eq] at he
  split at he
  · rename_i hone
    cases he
    exact .pure (by rwa [hone, Nat.mul_one])
  split at he
  · rename_i hpower
    cases he
    have hlog : size.log2 < 64 := (Nat.log2_lt hpower.1).mpr hsize
    refine (ri_computes rfl hindex.gives size.log2).mono fun _ _ _ _ hr => hr.holds ?_
    rw [InSlot, Quadword.word_map, hword, shiftLeft_ofNat i hlog, hpower.2]
  split at he
  · rename_i hpower hshort
    cases he
    refine (ri_computes rfl hindex.gives size).mono fun _ _ _ _ hr => hr.holds ?_
    rw [InSlot, Quadword.word_map, hword, immediateWord_natCast (by decide) (by omega),
      BitVec.ofNat_mul]
    by_cases hzero : size = 0
    · rw [hzero, BitVec.mul_zero, BitVec.mul_zero]
    · have hhalf := (hlow fun hpow => hpower ⟨hzero, hpow⟩).resolve_left hzero
      rw [extendHalf_ofNat hhalf]
  · cases he

/-- Element addresses are exact. Whatever the way an index is scaled, the code for the address of
an element that ends within the local store leaves the address of the array plus its header and
the elements before. -/
theorem elementAddress_exact {ty : Ty} (hty : ty.Sequential) {e : Emit Register}
    (he : elementAddress? ty.size array index = some e) (address : Nat → Address) (a : Stream)
    (s : State) {start : Nat} (harray : Holds (.word (BitVec.ofNat 32 start)) array a s)
    (hindex : Holds (.word (BitVec.ofNat 32 i)) index a s)
    (hfits : start + 16 + (i + 1) * ty.size ≤ 2 ^ 18) :
    Computes address e a s (Holds (.word (BitVec.ofNat 32 (start + 16 + i * ty.size)))) := by
  obtain ⟨scale, hscale, rfl⟩ := Option.map_eq_some_iff.mp he
  have helement : ty.size ≤ (i + 1) * ty.size := Nat.le_mul_of_pos_left _ (Nat.succ_pos i)
  have hlow : 2 ^ ty.size.log2 ≠ ty.size → ty.size = 0 ∨ i < 2 ^ 15 := by
    intro hpower
    rcases hty.size_cases with hzero | hpow | hlarge
    · exact .inl hzero
    · exact absurd hpow hpower
    · have hcount : (i + 1) * 16 ≤ (i + 1) * ty.size := Nat.mul_le_mul_left _ hlarge
      exact .inr (by omega)
  refine (scaleIndex?_computes hscale hindex (by omega) hlow).bind fun scaled b t h hscaled => ?_
  have hstart : (s.registers array).word 0 = BitVec.ofNat 32 start := harray.2
  have hword : (t.registers scaled).word 0 = BitVec.ofNat 32 (i * ty.size) := hscaled.2
  refine (rr_computes rfl (harray.gives.after h) hscaled.gives).bind fun element c u h' hsum => ?_
  refine (ri_computes rfl hsum arrayHeaderSize).mono fun _ _ _ _ hr => hr.holds ?_
  have hheader : immediateWord 10 arrayHeaderSize = BitVec.ofNat 32 16 := by decide
  rw [InSlot, Quadword.word_map, Quadword.word_map₂, hheader, hstart, hword, ← BitVec.ofNat_add,
    ← BitVec.ofNat_add, Nat.add_right_comm]

/-- Five doubles, which take three quadwords. -/
def fiveDoubles : Ty :=
  .struct (.sequential "Five" [("a", .r8), ("b", .r8), ("c", .r8), ("d", .r8), ("e", .r8)])

/-- An array in the first register, and an index in the others. -/
def arrayAndIndex : State where
  registers r := if r = .virtual 0 then .splat 0x1000#32 else .splat 5000#32
  store _ := 0#8

/-- The index is multiplied, near the end of the local store. -/
theorem fiveDoubles_exact :
    fiveDoubles.Sequential ∧ fiveDoubles.size = 48 ∧ 0x1000 + 16 + (5000 + 1) * 48 ≤ 2 ^ 18 ∧
      ∃ e, elementAddress? 48 (.virtual 0) (.virtual 1) = some e ∧
        Computes (fun _ => 0) e ⟨2, #[]⟩ arrayAndIndex (Holds (.word 0x3B990#32)) := by
  have hsequential : fiveDoubles.Sequential := by
    refine .struct fun field hfield => ?_
    simp only [List.mem_cons, List.not_mem_nil, or_false] at hfield
    rcases hfield with rfl | rfl | rfl | rfl | rfl <;> exact .scalar rfl
  have harray : Holds (.word (BitVec.ofNat 32 0x1000)) (.virtual 0) ⟨2, #[]⟩ arrayAndIndex :=
    ⟨Nat.two_pos, Quadword.word_splat ..⟩
  have hindex : Holds (.word (BitVec.ofNat 32 5000)) (.virtual 1) ⟨2, #[]⟩ arrayAndIndex :=
    ⟨Nat.one_lt_two, Quadword.word_splat ..⟩
  have hsome : (elementAddress? 48 (.virtual 0) (.virtual 1)).isSome = true := by decide
  obtain ⟨e, he⟩ := Option.isSome_iff_exists.mp hsome
  exact ⟨hsequential, rfl, by decide, e, he, elementAddress_exact hsequential he (fun _ => 0)
    ⟨2, #[]⟩ arrayAndIndex harray hindex (show 0x1000 + 16 + (5000 + 1) * 48 ≤ 2 ^ 18 by decide)⟩

end SpuCompiler.Selection.Emit
