import SpuCompiler.Proofs.Selection.SingleAssignment

/-!
The layout of a frame. Slots of variables follow one another from the link area on, in whole
quadwords, so they do not overlap; all other variables have registers of their own.
-/

namespace SpuCompiler

theorem Options.linkArea_of_validate {o : Options} {u : Unit} (h : o.validate = .ok u) :
    32 ≤ o.linkAreaSize ∧ 16 ∣ o.linkAreaSize := by
  unfold Options.validate at h
  by_contra hlink
  have hbad : o.linkAreaSize < 32 ∨ o.linkAreaSize % 16 ≠ 0 := by omega
  simp only [hbad, if_true] at h
  split at h
  · cases h
  · split at h
    · cases h
    · split at h <;> cases h

end SpuCompiler

namespace SpuCompiler.Selection

open Metadata Trees Objects

/-- The address of the variable is taken, or it is of a value type. -/
def InMemory (v : Variable) : Prop :=
  v.escapes = .yes ∨ ∃ ty, storageType? v = some ty ∧ ty.isValueType = true

theorem livesInMemory_iff {v : Variable} : livesInMemory v = true ↔ InMemory v := by
  simp [livesInMemory, InMemory, Option.any_eq_true]

/-- The size of the type of a variable, as far as it has one. -/
def typeSize (v : Variable) : Nat := ((storageType? v).map Ty.size).getD 0

theorem slotSize_eq (v : Variable) : slotSize v = Binary.alignUp (max 16 (typeSize v)) 16 := by
  unfold slotSize typeSize
  cases storageType? v <;> rfl

theorem sixteen_dvd_slotSize (v : Variable) : 16 ∣ slotSize v := by
  unfold slotSize Binary.alignUp
  exact Nat.dvd_mul_left ..

namespace Frame

/-- Slots and what follows them are at multiples of a quadword. -/
theorem assign_aligned {offset : Nat} (hoffset : 16 ∣ offset) (vs : List Variable) (register : Nat) :
    16 ∣ (assign offset register vs).2.1 ∧ ∀ v ∈ (assign offset register vs).1, ∀ x,
      v.storage = .frame x → 16 ∣ x := by
  induction vs generalizing offset register with
  | nil => simpa [assign] using hoffset
  | cons v vs ih =>
    unfold assign
    split
    · obtain ⟨hend, hslots⟩ := ih (hoffset.add (sixteen_dvd_slotSize v)) register
      refine ⟨hend, ?_⟩
      rintro w (_ | ⟨_, hw⟩) x hx
      · cases hx
        exact hoffset
      · exact hslots w hw x hx
    · obtain ⟨hend, hslots⟩ := ih hoffset (register + 1)
      refine ⟨hend, ?_⟩
      rintro w (_ | ⟨_, hw⟩) x hx
      · cases hx
      · exact hslots w hw x hx

/-- A slot ends before the next one starts. -/
theorem assign_ordered (vs : List Variable) (offset register : Nat) :
    (assign offset register vs).1.Pairwise fun v w => ∀ x y, v.storage = .frame x →
      w.storage = .frame y → x + slotSize v ≤ y := by
  induction vs generalizing offset register with
  | nil => exact .nil
  | cons v vs ih =>
    unfold assign
    split
    · refine .cons (fun w hw x y hx hy => ?_) (ih (offset + slotSize v) register)
      cases hx
      exact ((assign_slots vs (offset + slotSize v) register).2 w hw y hy).1
    · exact .cons (fun w _ x y hx _ => by cases hx) (ih offset (register + 1))

/-- Where the variables of a routine are, in a frame for them. A slot has the size of the type,
rounded up to a multiple of 16, and at least 16 bytes. -/
structure Allocates (o : Options) (vars : Variables) (f : Frame) : Prop where
  size : 16 ∣ f.size
  linkArea : o.linkAreaSize ≤ f.size
  slot : ∀ id v, vars.get? id = some v → InMemory v →
    ∃ x, f.vars.get? id = some { v with storage := .frame x } ∧
      16 ∣ x ∧ o.linkAreaSize ≤ x ∧ x + Binary.alignUp (max 16 (typeSize v)) 16 ≤ f.size
  disjoint : ∀ id id' v w x y, id ≠ id' → f.vars.get? id = some v → f.vars.get? id' = some w →
    v.storage = .frame x → w.storage = .frame y →
      x + Binary.alignUp (max 16 (typeSize v)) 16 ≤ y ∨
        y + Binary.alignUp (max 16 (typeSize w)) 16 ≤ x
  register : ∀ id v, vars.get? id = some v → ¬ InMemory v →
    ∃ k, f.vars.get? id = some { v with storage := .register k }
  distinct : ∀ id id' v w k, f.vars.get? id = some v → f.vars.get? id' = some w →
    v.storage = .register k → w.storage = .register k → id = id'

section Placed

variable {o : Options} {vars : Variables}

theorem getElem?_assign {id : Nat} {v : Variable} (h : (Frame.of o vars).vars.get? id = some v) :
    (assign o.linkAreaSize 0 vars.entries.toList).1[id]? = some v := by
  simpa [Frame.of, Variables.get?] using h

/-- A slot is behind the link area and within the frame. -/
theorem slot_bounds (hlink : 16 ∣ o.linkAreaSize) {id x : Nat} {v : Variable}
    (hv : (Frame.of o vars).vars.get? id = some v) (hx : v.storage = .frame x) :
    16 ∣ x ∧ o.linkAreaSize ≤ x ∧ x + slotSize v ≤ (Frame.of o vars).size := by
  have hmem := List.mem_of_getElem? (getElem?_assign hv)
  obtain ⟨hlow, hhigh⟩ := (assign_slots vars.entries.toList o.linkAreaSize 0).2 v hmem x hx
  have haligned := (assign_aligned hlink vars.entries.toList 0).2 v hmem x hx
  exact ⟨haligned, hlow, hhigh.trans (Binary.le_alignUp _ (by decide))⟩

theorem slots_disjoint {id id' x y : Nat} {v w : Variable} (hne : id ≠ id')
    (hv : (Frame.of o vars).vars.get? id = some v) (hw : (Frame.of o vars).vars.get? id' = some w)
    (hx : v.storage = .frame x) (hy : w.storage = .frame y) :
    x + slotSize v ≤ y ∨ y + slotSize w ≤ x := by
  have hordered := List.pairwise_iff_getElem.mp (assign_ordered vars.entries.toList o.linkAreaSize 0)
  obtain ⟨hi, rfl⟩ := List.getElem?_eq_some_iff.mp (getElem?_assign hv)
  obtain ⟨hj, rfl⟩ := List.getElem?_eq_some_iff.mp (getElem?_assign hw)
  rcases Nat.lt_or_gt_of_ne hne with hlt | hgt
  · exact .inl (hordered _ _ hi hj hlt x y hx hy)
  · exact .inr (hordered _ _ hj hi hgt y x hy hx)

theorem of_allocates (hlink : 16 ∣ o.linkAreaSize) : (Frame.of o vars).Allocates o vars where
  size := size_dvd o vars
  linkArea := (assign_slots vars.entries.toList o.linkAreaSize 0).1.trans
    (Binary.le_alignUp _ (by decide))
  slot id v hv hmemory := by
    obtain ⟨s, hs, hstorage⟩ := exists_storage hv o
    rw [if_pos (livesInMemory_iff.mpr hmemory)] at hstorage
    obtain ⟨x, rfl⟩ := hstorage
    have hbounds := slot_bounds hlink hs rfl
    rw [slotSize_eq] at hbounds
    exact ⟨x, hs, hbounds⟩
  disjoint id id' v w x y hne hv hw hx hy := by
    rw [← slotSize_eq, ← slotSize_eq]
    exact slots_disjoint hne hv hw hx hy
  register id v hv hmemory := by
    obtain ⟨s, hs, hstorage⟩ := exists_storage hv o
    rw [if_neg (fun h => hmemory (livesInMemory_iff.mp h))] at hstorage
    obtain ⟨k, rfl⟩ := hstorage
    exact ⟨k, hs⟩
  distinct id id' v w k := register_injective

end Placed

end Frame

end SpuCompiler.Selection
