import SpuCompiler.Proofs.Outcome
import SpuCompiler.Trees.Typing

/-!
What the variables of a routine stand for. The role of a variable, its kind and its index, never
changes; typing a node gives a type to variables and leaves roles alone.
-/

namespace SpuCompiler.Trees

open Metadata Bytecode

namespace Variables

def role (v : Variables) (id : Nat) : Option (VariableKind × Nat) :=
  (v.get? id).map fun x => (x.kind, x.index)

theorem role_eq_none_iff {v : Variables} {id : Nat} : v.role id = none ↔ v.size ≤ id := by
  simp [role, get?, size]

theorem size_eq_of_role_eq {v v' : Variables} (h : v'.role = v.role) : v'.size = v.size := by
  have hle : ∀ id, v'.size ≤ id ↔ v.size ≤ id := by
    intro id
    rw [← role_eq_none_iff, ← role_eq_none_iff, h]
  have h1 := hle v.size
  have h2 := hle v'.size
  omega

theorem role_modify (v : Variables) (id : Nat) (f : Variable → Variable)
    (hf : ∀ x, (f x).kind = x.kind ∧ (f x).index = x.index) : (v.modify id f).role = v.role := by
  funext i
  simp only [role, get?, modify, Array.getElem?_modify]
  split
  · cases v.entries[i]? with
    | none => rfl
    | some x => simp [(hf x).1, (hf x).2]
  · rfl

theorem role_markEscaping (v : Variables) (id : Nat) : (v.markEscaping id).role = v.role :=
  role_modify v id _ fun _ => ⟨rfl, rfl⟩

/-! ## More variables -/

theorem size_declareAll (v : Variables) (kind : VariableKind) (start : Nat) (tys : List Ty) :
    (v.declareAll kind start tys).size = v.size + tys.length := by
  induction tys generalizing v start with
  | nil => rfl
  | cons ty tys ih =>
    rw [declareAll, ih]
    simp only [declare, size, Array.size_push, List.length_cons]
    omega

theorem size_addSynthetic (v : Variables) : v.addSynthetic.2.size = v.size + 1 := by
  simp [addSynthetic, size]

/-- The fresh variable stands behind all others, which stay as they are. -/
theorem role_addSynthetic (v : Variables) (id : Nat) :
    v.addSynthetic.2.role id =
      if id = v.size then some (.synthetic, syntheticBase + v.synthetics) else v.role id := by
  simp only [role, get?, addSynthetic, size, Array.getElem?_push]
  split <;> simp_all

end Variables

/-- Variables that are there keep their roles, and all later ones are synthetic. -/
structure Variables.Extends (v v' : Variables) : Prop where
  role : ∀ id, id < v.size → v'.role id = v.role id
  synthetic : ∀ id, v.size ≤ id → id < v'.size → ∃ index, v'.role id = some (.synthetic, index)
  size_le : v.size ≤ v'.size

namespace Variables.Extends

variable {v v' v'' : Variables}

theorem of_role_eq (h : v'.role = v.role) : v.Extends v' := by
  have hsize := Variables.size_eq_of_role_eq h
  refine ⟨fun id _ => by rw [h], ?_, le_of_eq hsize.symm⟩
  intro id hle hlt
  omega

theorem refl (v : Variables) : v.Extends v := of_role_eq rfl

theorem trans (h : v.Extends v') (h' : v'.Extends v'') : v.Extends v'' := by
  refine ⟨?_, ?_, h.size_le.trans h'.size_le⟩
  · intro id hid
    rw [h'.role id (lt_of_lt_of_le hid h.size_le), h.role id hid]
  · intro id hle hlt
    by_cases hid : id < v'.size
    · obtain ⟨index, hr⟩ := h.synthetic id hle hid
      exact ⟨index, by rw [h'.role id hid, hr]⟩
    · exact h'.synthetic id (Nat.le_of_not_lt hid) hlt

theorem addSynthetic (v : Variables) : v.Extends v.addSynthetic.2 := by
  refine ⟨?_, ?_, by rw [Variables.size_addSynthetic]; omega⟩
  · intro id hid
    rw [Variables.role_addSynthetic, if_neg (Nat.ne_of_lt hid)]
  · intro id hle hlt
    rw [Variables.size_addSynthetic] at hlt
    rw [Variables.role_addSynthetic, if_pos (by omega)]
    exact ⟨_, rfl⟩

end Variables.Extends

theorem Variables.addSynthetics_spec (v : Variables) (count : Nat) :
    (v.addSynthetics count).1 = List.range' v.size count ∧
      (v.addSynthetics count).2.size = v.size + count ∧
      v.Extends (v.addSynthetics count).2 := by
  induction count generalizing v with
  | zero => exact ⟨rfl, rfl, .refl v⟩
  | succ count ih =>
    obtain ⟨hids, hsize, hext⟩ := ih v.addSynthetic.2
    rw [Variables.size_addSynthetic] at hids hsize
    refine ⟨?_, ?_, (Variables.Extends.addSynthetic v).trans hext⟩
    · simp only [Variables.addSynthetics, List.range'_succ]
      rw [← hids]
      rfl
    · simp only [Variables.addSynthetics]
      rw [hsize]
      omega

/-! ## Typing -/

/-- A store gives a type to one variable at most. -/
theorem afterStore_ok {v v' : Variables} {n : Node} (h : afterStore v n = .ok v') :
    v' = v ∨ ∃ id t, v' = v.modify id fun x => { x with stackType := some t } := by
  unfold afterStore Variables.setStackType at h
  repeat' split at h
  all_goals cases h
  all_goals first
    | exact .inl rfl
    | exact .inr ⟨_, _, rfl⟩

theorem derive_ok {vars vars' : Variables} {n n' : Node} (h : derive vars n = .ok (n', vars')) :
    ∃ t, typeOf vars n = .ok t ∧ n' = n.withType t ∧ vars'.role = vars.role := by
  obtain ⟨t, ht, h⟩ := bind_eq_ok.mp h
  obtain ⟨vs, hvs, h⟩ := bind_eq_ok.mp h
  cases h
  refine ⟨t, ht, rfl, ?_⟩
  rcases afterStore_ok hvs with rfl | ⟨id, t, rfl⟩
  · rfl
  · exact Variables.role_modify vars id _ fun _ => ⟨rfl, rfl⟩

end SpuCompiler.Trees
