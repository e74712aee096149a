import SpuCompiler.Proofs.Bytecode.Instructions
import SpuCompiler.Proofs.Outcome
import SpuCompiler.Trees.Boundary

/-!
Block starts of a body. They increase, and they are exactly offset 0, the targets of branches
and the ends of branches inside the code; each of them is the start of a record.
-/

namespace SpuCompiler.Trees

open Metadata Bytecode

variable {n length : Nat} {l bs bs' : List Nat} {records : List Record} {r : Record}

theorem mem_insertSorted {x : Nat} : x ∈ insertSorted n l ↔ x = n ∨ x ∈ l := by
  induction l with
  | nil => simp [insertSorted]
  | cons m l ih =>
    unfold insertSorted
    split
    · simp
    · split
      · rename_i h
        simp [h]
      · simp only [List.mem_cons, ih]
        exact or_left_comm

theorem insertSorted_increasing (h : l.Pairwise (· < ·)) : (insertSorted n l).Pairwise (· < ·) := by
  induction l with
  | nil => simp [insertSorted]
  | cons m l ih =>
    obtain ⟨hm, hl⟩ := List.pairwise_cons.mp h
    unfold insertSorted
    split
    · rename_i hlt
      refine List.pairwise_cons.mpr ⟨?_, h⟩
      intro x hx
      rcases List.mem_cons.mp hx with rfl | hx
      · exact hlt
      · exact hlt.trans (hm x hx)
    · split
      · exact h
      · refine List.pairwise_cons.mpr ⟨?_, ih hl⟩
        intro x hx
        rcases mem_insertSorted.mp hx with rfl | hx
        · omega
        · exact hm x hx

def Marks (length : Nat) (r : Record) (x : Nat) : Prop :=
  r.op.isBranch = true ∧ ∃ t, r.target? = some t ∧ (x = t ∨ x = r.stop ∧ r.stop < length)

theorem addBoundaries_ok (h : addBoundaries records length bs r = .ok bs') :
    (bs.Pairwise (· < ·) → bs'.Pairwise (· < ·)) ∧
      (∀ x, x ∈ bs' ↔ x ∈ bs ∨ Marks length r x) ∧
      ∀ t, r.target? = some t → r.op.isBranch = true → ∃ q ∈ records, q.offset = t := by
  unfold addBoundaries at h
  split at h
  · rename_i ht
    cases h
    exact ⟨id, by simp [Marks, ht], by simp [ht]⟩
  · rename_i target ht
    split at h
    · rename_i hb
      split at h
      · rename_i hany
        simp only [List.any_eq_true, beq_iff_eq] at hany
        cases h
        refine ⟨?_, ?_, ?_⟩
        · intro hbs
          split
          · exact insertSorted_increasing (insertSorted_increasing hbs)
          · exact insertSorted_increasing hbs
        · intro x
          split
          · rename_i hlt
            simp only [mem_insertSorted, Marks, hb, ht, true_and, hlt, and_true,
              Option.some.injEq, exists_eq_left']
            tauto
          · rename_i hlt
            simp only [mem_insertSorted, Marks, hb, ht, true_and, hlt, and_false, or_false,
              Option.some.injEq, exists_eq_left']
            exact or_comm
        · intro t ht' _
          rw [ht] at ht'
          cases ht'
          exact hany
      · simp [stackError] at h
    · rename_i hb
      cases h
      exact ⟨id, by simp [Marks, hb], fun _ _ h => absurd h hb⟩

theorem foldlM_addBoundaries_ok {rs : List Record}
    (h : rs.foldlM (addBoundaries records length) bs = .ok bs') :
    (bs.Pairwise (· < ·) → bs'.Pairwise (· < ·)) ∧
      (∀ x, x ∈ bs' ↔ x ∈ bs ∨ ∃ r ∈ rs, Marks length r x) ∧
      ∀ r ∈ rs, ∀ t, r.target? = some t → r.op.isBranch = true → ∃ q ∈ records, q.offset = t := by
  induction rs generalizing bs with
  | nil =>
    cases h
    simp
  | cons r rs ih =>
    obtain ⟨mid, hr, hrs⟩ := foldlM_cons_eq_ok.mp h
    obtain ⟨hinc, hmem, htar⟩ := addBoundaries_ok hr
    obtain ⟨hinc', hmem', htar'⟩ := ih hrs
    refine ⟨fun hb => hinc' (hinc hb), ?_, ?_⟩
    · intro x
      rw [hmem', hmem, or_assoc]
      simp
    · intro q hq
      rcases List.mem_cons.mp hq with rfl | hq
      · exact htar
      · exact htar' q hq

theorem addBoundaries_isOk (length : Nat) (bs : List Nat)
    (htar : ∀ t, r.target? = some t → r.op.isBranch = true → ∃ q ∈ records, q.offset = t) :
    ∃ bs', addBoundaries records length bs r = .ok bs' := by
  unfold addBoundaries
  split
  · exact ⟨_, rfl⟩
  · rename_i target ht
    split
    · rename_i hb
      rw [if_pos (by simpa using htar target ht hb)]
      exact ⟨_, rfl⟩
    · exact ⟨_, rfl⟩

/-- Boundaries are found where every branch goes to the start of a record. -/
theorem boundariesOf_isOk (htar : ∀ r ∈ records, ∀ t, r.target? = some t → r.op.isBranch = true → ∃
      q ∈ records, q.offset = t) : ∃ bs, boundariesOf records length = .ok bs := by
  unfold boundariesOf
  cases h : records.foldlM (addBoundaries records length) [0] with
  | ok bs => exact ⟨bs, rfl⟩
  | error e =>
    obtain ⟨pre, r, post, d, hsplit, -, he⟩ := exists_of_foldlM_error h
    obtain ⟨bs', hbs'⟩ := addBoundaries_isOk length d (htar r (by rw [hsplit]; simp))
    rw [hbs'] at he
    cases he

structure Boundaries (records : List Record) (length : Nat) (bs : List Nat) : Prop where
  increasing : bs.Pairwise (· < ·)
  mem_iff : ∀ x, x ∈ bs ↔ x = 0 ∨ ∃ r ∈ records, Marks length r x
  targets : ∀ r ∈ records, ∀ t, r.target? = some t → r.op.isBranch = true →
    ∃ q ∈ records, q.offset = t

theorem boundariesOf_ok (h : boundariesOf records length = .ok bs) :
    Boundaries records length bs := by
  obtain ⟨hinc, hmem, htar⟩ := foldlM_addBoundaries_ok h
  exact ⟨hinc (by simp), by simpa using hmem, htar⟩

namespace Boundaries

variable {records : List Record} {length : Nat} {bs : List Nat}
variable {x : Nat}

/-- A block starts where a record starts. -/
theorem exists_record (h : Boundaries records length bs) (htiles : Tiles 0 length records)
    (hx : x ∈ bs) : x = 0 ∨ ∃ q ∈ records, q.offset = x := by
  rcases (h.mem_iff x).mp hx with rfl | ⟨r, hr, hb, t, ht, rfl | ⟨rfl, hlt⟩⟩
  · exact .inl rfl
  · exact .inr (h.targets r hr x ht hb)
  · exact .inr (htiles.exists_next hr hlt)

/-- No block starts inside a record. -/
theorem not_inside (h : Boundaries records length bs) (htiles : Tiles 0 length records)
    (hx : x ∈ bs) (hr : r ∈ records) (hlt : x < r.stop) : x ≤ r.offset := by
  rcases h.exists_record htiles hx with rfl | ⟨q, hq, rfl⟩
  · exact Nat.zero_le _
  · have := htiles.separate hq hr
    omega

end Boundaries

end SpuCompiler.Trees
