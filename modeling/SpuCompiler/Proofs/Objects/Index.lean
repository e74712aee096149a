import SpuCompiler.Proofs.Objects.Placement

/-!
Objects that are added, and the index of names. Names stay distinct, so the index gives every
object under its name. Dropping the objects that were added since some time gives back the arena
of that time, index included.
-/

namespace SpuCompiler.Objects

namespace Arena

variable {a a' b c : Arena} {o o' : Object} {id : ObjectId}

theorem insert_ok (h : a.insert o = .ok (id, a')) : id = a.size ∧ a' = a.push o := by
  unfold insert at h
  split at h
  · cases h
  · cases h
    exact ⟨rfl, rfl⟩

theorem find?_of_insert (h : a.insert o = .ok (id, a')) : a.find? o.name = none := by
  unfold insert at h
  split at h
  · cases h
  · rename_i hfind
    simpa using hfind

@[simp] theorem objects_push (a : Arena) (o : Object) : (a.push o).objects = a.objects.push o := rfl

theorem get?_push (h : (a.push o).get? id = some o') :
    a.get? id = some o' ∨ (id = a.size ∧ o' = o) := by
  have h : (a.objects.push o)[id]? = some o' := h
  rw [Array.getElem?_push] at h
  split at h
  · rename_i hid
    exact .inr ⟨hid, (Option.some.inj h).symm⟩
  · exact .inl h

theorem get?_push_size (a : Arena) (o : Object) : (a.push o).get? a.size = some o :=
  Array.getElem?_push_size

theorem get?_push_of_get? (h : a.get? id = some o') : (a.push o).get? id = some o' := by
  have hlt := lt_size_of_get? h
  exact (Array.getElem?_push_lt hlt).trans ((Array.getElem?_eq_getElem hlt).symm.trans h)

theorem find?_push (a : Arena) (o : Object) (name : String) :
    (a.push o).find? name = if name = o.name then some a.size else a.find? name := by
  by_cases h : name = o.name
  · simp [find?, push, h]
  · have hne : (name == o.name) = false := by simpa using h
    simp only [find?, push, List.lookup_cons, hne, if_neg h]

/-! ## The index -/

/-- The index gives every object under its name, and nothing else. -/
def Indexed (a : Arena) : Prop :=
  ∀ name id, a.find? name = some id ↔ ∃ o, a.get? id = some o ∧ o.name = name

theorem Indexed.insert (h : a.Indexed) (hi : a.insert o = .ok (id, a')) : a'.Indexed := by
  have hfresh := find?_of_insert hi
  obtain ⟨-, rfl⟩ := insert_ok hi
  intro name id
  rw [find?_push]
  split
  · rename_i hname
    constructor
    · rintro ⟨⟩
      exact ⟨o, get?_push_size a o, hname.symm⟩
    · rintro ⟨o', ho', hname'⟩
      rcases get?_push ho' with ho' | ⟨rfl, -⟩
      · -- an older object of that name would have been found
        have hold := (h name id).mpr ⟨o', ho', hname'⟩
        rw [hname, hfresh] at hold
        cases hold
      · rfl
  · rename_i hname
    rw [h]
    constructor
    · rintro ⟨o', ho', hname'⟩
      exact ⟨o', get?_push_of_get? ho', hname'⟩
    · rintro ⟨o', ho', hname'⟩
      rcases get?_push ho' with ho' | ⟨-, rfl⟩
      · exact ⟨o', ho', hname'⟩
      · exact absurd hname'.symm hname

theorem Indexed.modify {f : Object → Object} (h : a.Indexed) (hname : ∀ o, (f o).name = o.name) :
    (a.modify id f).Indexed := by
  intro name j
  refine (h name j).trans ?_
  rw [get?_modify]
  split
  · cases a.get? j <;> simp [hname]
  · rfl

/-! ## Dropping what was added -/

theorem truncate_size (a : Arena) : a.truncate a.size = a := by
  have hdrop : a.objects.toList.drop a.objects.size = [] := List.drop_eq_nil_of_le (by simp)
  simp [truncate, size, hdrop]

/-- The name of a new object is no other one's, so it goes with the object. -/
theorem truncate_insert {n : Nat} (h : a.insert o = .ok (id, b)) (hn : n ≤ a.size) :
    b.truncate n = a.truncate n := by
  have hfresh : ∀ entry ∈ a.names, (o.name == entry.1) = false := by
    simpa [find?, List.lookup_eq_none_iff] using find?_of_insert h
  obtain ⟨-, rfl⟩ := insert_ok h
  have hdrop : (a.objects.push o).toList.drop n = a.objects.toList.drop n ++ [o] := by
    rw [Array.toList_push, List.drop_append_of_le_length (by simpa [size] using hn)]
  have htake : (a.objects.push o).take n = a.objects.take n := by
    apply Array.toList_inj.mp
    simp [List.take_append_of_le_length (show n ≤ a.objects.toList.length by simpa [size] using hn)]
  have hnames : ((o.name, a.size) :: a.names).filter
      (fun entry => !(a.objects.toList.drop n ++ [o]).any (·.name == entry.1)) =
      a.names.filter fun entry => !(a.objects.toList.drop n).any (·.name == entry.1) := by
    rw [List.filter_cons_of_neg (by simp)]
    refine List.filter_congr fun entry hentry => ?_
    simp [hfresh entry hentry]
  simp only [truncate, push, hdrop, htake, hnames]

def Adds : Arena → Arena → Prop :=
  Relation.ReflTransGen fun a b => ∃ o id, a.insert o = .ok (id, b)

theorem Adds.insert (h : a.insert o = .ok (id, b)) : a.Adds b := .single ⟨o, id, h⟩

theorem Adds.size_le (h : a.Adds b) : a.size ≤ b.size := by
  induction h with
  | refl => exact Nat.le_refl _
  | tail _ hstep ih =>
    obtain ⟨o, id, hadd⟩ := hstep
    obtain ⟨-, rfl⟩ := insert_ok hadd
    exact ih.trans (by simp [size])

theorem Adds.get? (h : a.Adds b) : ∀ id o, a.get? id = some o → b.get? id = some o := by
  induction h with
  | refl => exact fun _ _ ho => ho
  | tail _ hstep ih =>
    obtain ⟨_, _, hadd⟩ := hstep
    obtain ⟨-, rfl⟩ := insert_ok hadd
    exact fun id o ho => get?_push_of_get? (ih id o ho)

theorem Adds.find? (h : a.Adds b) : ∀ name id, a.find? name = some id → b.find? name = some id := by
  induction h with
  | refl => exact fun _ _ hfind => hfind
  | tail _ hstep ih =>
    obtain ⟨o, _, hadd⟩ := hstep
    intro name id hfind
    have hold := ih name id hfind
    have hne : name ≠ o.name := by
      rintro rfl
      rw [find?_of_insert hadd] at hold
      cases hold
    obtain ⟨-, rfl⟩ := insert_ok hadd
    rw [find?_push, if_neg hne, hold]

theorem Adds.indexed (h : a.Adds b) (ha : a.Indexed) : b.Indexed := by
  induction h with
  | refl => exact ha
  | tail _ hstep ih =>
    obtain ⟨_, _, hadd⟩ := hstep
    exact ih.insert hadd

/-- What was added since some time can be dropped. -/
theorem Adds.truncate (h : a.Adds b) : b.truncate a.size = a := by
  induction h with
  | refl => exact truncate_size a
  | tail hab hstep ih =>
    obtain ⟨_, _, hadd⟩ := hstep
    rw [truncate_insert hadd (Adds.size_le hab), ih]

end Arena

namespace Layout

variable {α β : Type}

/-- However the computation ends, all it has done is to add objects. -/
def Adding (x : LayoutM α) : Prop := ∀ a : Arena, a.Adds (x.run.run a).2

theorem Adding.pure (v : α) : Adding (pure v) := fun _ => .refl

theorem Adding.bind {x : LayoutM α} {f : α → LayoutM β} (hx : Adding x) (hf : ∀ v, Adding (f v)) :
    Adding (x >>= f) := by
  intro a
  have hfirst := hx a
  rw [run_bind]
  rcases hrun : x.run.run a with ⟨_ | v, b⟩
  · rwa [hrun] at hfirst
  · rw [hrun] at hfirst
    exact hfirst.trans (hf v b)

theorem Adding.adds {x : LayoutM α} (h : Adding x) {a b : Arena} {v : α} (hrun : Runs x a v b) :
    a.Adds b := by
  have := h a
  rwa [hrun] at this

end Layout

end SpuCompiler.Objects
