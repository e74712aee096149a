import SpuCompiler.Proofs.Trees.Boundaries
import SpuCompiler.Proofs.Trees.Building

/-!
Where the builder stands. Records come in order and blocks start at records, so the builder passes
from each block to the next one: before a record at `o` every block that starts below `o` has been
entered, and a block that starts at `o` is the one after the current block.
-/

namespace SpuCompiler.Trees

open Metadata Bytecode

variable {bs : List Nat} {i j x y length : Nat} {records : List Record}

theorem getElem?_lt_of_increasing (h : bs.Pairwise (· < ·)) (hi : bs[i]? = some x)
    (hj : bs[j]? = some y) (hij : i < j) : x < y := by
  obtain ⟨hi', rfl⟩ := List.getElem?_eq_some_iff.mp hi
  obtain ⟨hj', rfl⟩ := List.getElem?_eq_some_iff.mp hj
  exact List.pairwise_iff_getElem.mp h i j hi' hj' hij

theorem getElem?_lt_iff_of_increasing (h : bs.Pairwise (· < ·)) (hi : bs[i]? = some x)
    (hj : bs[j]? = some y) : i < j ↔ x < y := by
  constructor
  · exact getElem?_lt_of_increasing h hi hj
  · intro hxy
    by_contra hij
    rcases Nat.lt_or_eq_of_le (Nat.le_of_not_lt hij) with hlt | heq
    · have := getElem?_lt_of_increasing h hj hi hlt
      omega
    · subst heq
      rw [hi] at hj
      cases hj
      omega

namespace Builder

variable {b : Builder} {o : Nat}

theorem currentOffset_eq (h : b.offsets[b.current]? = some x) : b.currentOffset = x := by
  simp only [offsets, List.getElem?_map, Array.getElem?_toList] at h
  simp [currentOffset, h]

theorem blockAt?_eq_some_iff (hinc : b.offsets.Pairwise (· < ·)) {k : Nat} :
    b.blockAt? x = some k ↔ b.offsets[k]? = some x := by
  have hget : ∀ i y, b.offsets[i]? = some y ↔ ∃ hi : i < b.blocks.size, b.blocks[i].offset = y := by
    intro i y
    simp [offsets, Array.getElem?_eq_some_iff]
  unfold blockAt?
  rw [Array.findIdx?_eq_some_iff_getElem, hget]
  constructor
  · rintro ⟨hk, hx, -⟩
    exact ⟨hk, by simpa using hx⟩
  · rintro ⟨hk, hx⟩
    refine ⟨hk, by simpa using hx, ?_⟩
    intro j hj
    have hlt := getElem?_lt_of_increasing hinc ((hget j _).mpr ⟨by omega, rfl⟩)
      ((hget k _).mpr ⟨hk, hx⟩) hj
    simp only [beq_iff_eq]
    omega

theorem blockAt?_isSome_iff (hinc : b.offsets.Pairwise (· < ·)) :
    (b.blockAt? x).isSome = true ↔ x ∈ b.offsets := by
  rw [Option.isSome_iff_exists, List.mem_iff_getElem?]
  exact exists_congr fun k => blockAt?_eq_some_iff hinc

/-- Before a record at `o`: the current block starts at or below `o`, and no later block starts
below `o`. -/
structure Positioned (bs : List Nat) (o : Nat) (b : Builder) : Prop where
  offsets : b.offsets = bs
  current : ∃ x, bs[b.current]? = some x ∧ x ≤ o
  before : ∀ k x, bs[k]? = some x → x < o → k ≤ b.current

structure Entered (bs : List Nat) (o : Nat) (b : Builder) : Prop where
  offsets : b.offsets = bs
  current : ∃ x, bs[b.current]? = some x ∧ x ≤ o ∧ (o ∈ bs → x = o)
  upTo : ∀ k x, bs[k]? = some x → x ≤ o → k ≤ b.current

/-- A record starts the next block, or stays in the current one. -/
theorem Positioned.enterAt_cases (hinc : bs.Pairwise (· < ·)) (h : Positioned bs o b) :
    (b.enterAt o = b ∧ (o ∉ bs ∨ bs[b.current]? = some o)) ∨
      (bs[b.current + 1]? = some o ∧ b.enterAt o = b.enter (b.current + 1) o) := by
  obtain ⟨x, hx, hle⟩ := h.current
  have hcur : b.currentOffset = x := currentOffset_eq (by rw [h.offsets, hx])
  unfold enterAt
  rw [hcur]
  by_cases hox : o = x
  · subst hox
    exact .inl ⟨by simp, .inr hx⟩
  · rw [if_neg hox]
    cases hb : b.blockAt? o with
    | none =>
      refine .inl ⟨rfl, .inl ?_⟩
      intro hmem
      rw [← h.offsets, ← blockAt?_isSome_iff (by rwa [h.offsets]), hb] at hmem
      simp at hmem
    | some k =>
      have hk := (blockAt?_eq_some_iff (by rwa [h.offsets])).mp hb
      rw [h.offsets] at hk
      have hlt := (getElem?_lt_iff_of_increasing hinc hx hk).mpr (by omega)
      have hnext : k = b.current + 1 := by
        by_contra hne
        obtain ⟨y, hy⟩ : ∃ y, bs[b.current + 1]? = some y := by
          have := (List.getElem?_eq_some_iff.mp hk).1
          exact ⟨_, List.getElem?_eq_getElem (by omega)⟩
        have hyo := getElem?_lt_of_increasing hinc hy hk (by omega)
        have := h.before _ _ hy hyo
        omega
      subst hnext
      exact .inr ⟨hk, rfl⟩

theorem Positioned.entered (hinc : bs.Pairwise (· < ·)) (h : Positioned bs o b) :
    Entered bs o (b.enterAt o) := by
  obtain ⟨x, hx, hle⟩ := h.current
  rcases h.enterAt_cases hinc with ⟨heq, hcase⟩ | ⟨hk, heq⟩
  · rw [heq]
    refine ⟨h.offsets, ⟨x, hx, hle, ?_⟩, ?_⟩
    · intro hmem
      rcases hcase with hno | ho
      · exact absurd hmem hno
      · rw [hx] at ho
        exact Option.some.inj ho
    · intro k y hy hyo
      rcases Nat.lt_or_eq_of_le hyo with hlt | rfl
      · exact h.before k y hy hlt
      · rcases hcase with hno | ho
        · exact absurd (List.mem_of_getElem? hy) hno
        · by_contra hlt
          have := getElem?_lt_of_increasing hinc ho hy (by omega)
          omega
  · rw [heq]
    refine ⟨h.offsets, ⟨o, hk, le_refl _, fun _ => rfl⟩, ?_⟩
    intro k y hy hyo
    by_contra hlt
    have := getElem?_lt_of_increasing hinc hk hy (by simpa [enter] using hlt)
    omega

/-- Behind a record, no block has been passed over. -/
theorem Entered.positioned (hbs : Boundaries records length bs) (htiles : Tiles 0 length records)
    {r : Record} (hr : r ∈ records) {b' : Builder} (h : Entered bs r.offset b)
    (hoff : b'.offsets = b.offsets) (hcur : b'.current = b.current) : Positioned bs r.stop b' := by
  obtain ⟨x, hx, hle, -⟩ := h.current
  refine ⟨hoff.trans h.offsets, ⟨x, by rw [hcur, hx], ?_⟩, ?_⟩
  · unfold Record.stop
    omega
  · intro k y hy hlt
    rw [hcur]
    exact h.upTo k y hy (hbs.not_inside htiles (List.mem_of_getElem? hy) hr hlt)

theorem start_positioned (m : Method) (body : Body) (h0 : bs[0]? = some 0) :
    Positioned bs 0 (start m body bs) := by
  refine ⟨by simp [start, offsets, Function.comp_def], ⟨0, h0, le_refl _⟩, ?_⟩
  intro k x _ hx
  omega

end Builder

theorem Boundaries.nodup (h : Boundaries records length bs) : bs.Nodup :=
  h.increasing.imp Nat.ne_of_lt

/-- The first block starts at offset 0. -/
theorem Boundaries.head (h : Boundaries records length bs) : bs[0]? = some 0 := by
  have hmem : 0 ∈ bs := (h.mem_iff 0).mpr (.inl rfl)
  obtain ⟨k, hk⟩ := List.mem_iff_getElem?.mp hmem
  cases k with
  | zero => exact hk
  | succ k =>
    have hlt := (List.getElem?_eq_some_iff.mp hk).1
    have := getElem?_lt_of_increasing h.increasing
      (List.getElem?_eq_getElem (show 0 < bs.length by omega)) hk (by omega)
    omega

end SpuCompiler.Trees
