import Mathlib.Tactic
import SpuCompiler.Objects.Layout
import SpuCompiler.Proofs.Outcome

/-!
What placement does to an arena. Every step places some objects that had no place and resolves
their code; it changes nothing else. Blocks are placed one behind the other, and each routine or
data object behind the one before it.
-/

namespace SpuCompiler.Objects

open Machine

variable {a a' : Arena} {stop cursor : Nat} {ids : List ObjectId}

/-! ## Successful steps -/

namespace Layout

variable {α β : Type}
variable {b : Arena} {u : Unit}

/-- The computation succeeds with a value, and leaves an arena behind. -/
def Runs (x : LayoutM α) (a : Arena) (v : α) (a' : Arena) : Prop := x.run.run a = (.ok v, a')

theorem run_bind (x : LayoutM α) (f : α → LayoutM β) (a : Arena) :
    (x >>= f).run.run a =
      match x.run.run a with
      | (.ok u, b) => (f u).run.run b
      | (.error e, b) => (.error e, b) := by
  rw [ExceptT.run_bind, StateT.run_bind]
  rcases x.run.run a with ⟨_ | _, _⟩ <;> rfl

theorem runs_bind {x : LayoutM α} {f : α → LayoutM β} {v : β} :
    Runs (x >>= f) a v a' ↔ ∃ u b, Runs x a u b ∧ Runs (f u) b v a' := by
  unfold Runs
  rw [run_bind]
  rcases hx : x.run.run a with ⟨e | u, b⟩
  · refine ⟨fun h => ?_, fun ⟨u, b, h, _⟩ => ?_⟩ <;> cases h
  · refine ⟨fun h => ⟨u, b, rfl, h⟩, fun ⟨u', b', h, h'⟩ => ?_⟩
    cases h
    exact h'

theorem runs_pure {u v : α} : Runs (pure u) a v a' ↔ u = v ∧ a = a' := by
  change ((.ok u, a) : Except LayoutError α × Arena) = (.ok v, a') ↔ _
  simp

theorem runs_get : Runs get a b a' ↔ a = b ∧ a = a' := by
  change ((.ok a, a) : Except LayoutError Arena × Arena) = (.ok b, a') ↔ _
  simp

theorem runs_set : Runs (set b) a u a' ↔ b = a' := by
  change ((.ok (), b) : Except LayoutError Unit × Arena) = (.ok u, a') ↔ _
  simp

theorem runs_lift {e : Except LayoutError α} {v : α} :
    Runs (liftM e) a v a' ↔ e = .ok v ∧ a = a' := by
  change ((e, a) : Except LayoutError α × Arena) = (.ok v, a') ↔ _
  simp

theorem not_runs_throw {e : LayoutError} {v : α} : ¬ Runs (throw e) a v a' := by
  change ¬ ((.error e, a) : Except LayoutError α × Arena) = (.ok v, a')
  simp

theorem setOffset_runs {id offset : Nat} :
    Runs (setOffset id offset) a u a' ↔ a.setOffset id offset = .ok a' := by
  simp [setOffset, runs_bind, runs_get, runs_set, runs_lift]

end Layout

/-! ## Arenas that differ in places and code -/

namespace Arena

variable {id : Nat}

def place? (a : Arena) (id : ObjectId) : Option Nat := (a.get? id).bind Object.offset

/-- Objects that have no place may get one, and code may change but not in length. -/
structure Places (a a' : Arena) : Prop where
  size : a'.size = a.size
  get : ∀ id o, a.get? id = some o → ∃ offset code,
    a'.get? id = some { o with offset := offset, code := code } ∧ code.size = o.code.size ∧
      ∀ x, o.offset = some x → offset = some x

theorem get?_eq_none_iff : a.get? id = none ↔ a.size ≤ id :=
  Array.getElem?_eq_none_iff

theorem exists_get? (h : id < a.size) : ∃ o, a.get? id = some o :=
  ⟨_, Array.getElem?_eq_getElem h⟩

theorem lt_size_of_get? {o : Object} (h : a.get? id = some o) : id < a.size :=
  (Array.getElem?_eq_some_iff.mp h).1

theorem get?_modify (a : Arena) (id j : ObjectId) (f : Object → Object) :
    (a.modify id f).get? j = if id = j then (a.get? j).map f else a.get? j :=
  Array.getElem?_modify

namespace Places

variable {a a' a'' : Arena} {id : ObjectId}

theorem refl (a : Arena) : a.Places a :=
  ⟨rfl, fun _ o h => ⟨o.offset, o.code, h, rfl, fun _ hx => hx⟩⟩

theorem trans (h : a.Places a') (h' : a'.Places a'') : a.Places a'' := by
  refine ⟨h'.size.trans h.size, ?_⟩
  intro id o ho
  obtain ⟨offset, code, hget, hcode, hoff⟩ := h.get id o ho
  obtain ⟨offset', code', hget', hcode', hoff'⟩ := h'.get id _ hget
  exact ⟨offset', code', hget', hcode'.trans hcode, fun x hx => hoff' x (hoff x hx)⟩

/-- One object changes. -/
theorem of_modify {f : Object → Object}
    (hf : ∀ o, a.get? id = some o → ∃ offset code, f o = { o with offset := offset, code := code } ∧
      code.size = o.code.size ∧ ∀ x, o.offset = some x → offset = some x) :
    a.Places (a.modify id f) := by
  refine ⟨by simp [Arena.modify, Arena.size], ?_⟩
  intro j o ho
  rw [get?_modify, ho]
  by_cases hj : id = j
  · subst hj
    obtain ⟨offset, code, heq, hcode, hoff⟩ := hf o ho
    exact ⟨offset, code, by simp [heq], hcode, hoff⟩
  · exact ⟨o.offset, o.code, by simp [hj], rfl, fun _ hx => hx⟩

/-- Both arenas have the object, or neither. -/
theorem get?_cases (h : a.Places a') (id : ObjectId) :
    (a.get? id = none ∧ a'.get? id = none) ∨ ∃ o o', a.get? id = some o ∧ a'.get? id = some o' ∧
      o'.name = o.name ∧ o'.kind = o.kind ∧ o'.data = o.data ∧ o'.code.size = o.code.size := by
  cases ho : a.get? id with
  | none =>
    refine .inl ⟨rfl, ?_⟩
    rw [get?_eq_none_iff] at ho ⊢
    exact h.size ▸ ho
  | some o =>
    obtain ⟨offset, code, hget, hcode, -⟩ := h.get id o ho
    exact .inr ⟨o, _, rfl, hget, rfl, rfl, rfl, hcode⟩

theorem exists_before (h : a.Places a') {o' : Object} (ho' : a'.get? id = some o') :
    ∃ o, a.get? id = some o ∧ o'.name = o.name ∧ o'.kind = o.kind ∧ o'.data = o.data ∧
      o'.code.size = o.code.size := by
  rcases h.get?_cases id with ⟨-, hn⟩ | ⟨o, o'', ho, hget, hsame⟩
  · rw [hn] at ho'
    cases ho'
  · obtain rfl : o' = o'' := Option.some.inj (ho'.symm.trans hget)
    exact ⟨o, ho, hsame⟩

theorem place? (h : a.Places a') {x : Nat} (hx : a.place? id = some x) : a'.place? id = some x := by
  obtain ⟨o, ho, hox⟩ := Option.bind_eq_some_iff.mp hx
  obtain ⟨offset, code, hget, -, hoff⟩ := h.get id o ho
  simp [Arena.place?, hget, hoff x hox]

/-- What has no place afterwards had none before. -/
theorem place?_eq_none (h : a.Places a') (hnone : a'.place? id = none) : a.place? id = none := by
  by_contra hne
  obtain ⟨x, hx⟩ := Option.ne_none_iff_exists'.mp hne
  rw [h.place? hx] at hnone
  cases hnone

theorem kind (h : a.Places a') (id : ObjectId) :
    (a'.get? id).map Object.kind = (a.get? id).map Object.kind := by
  rcases h.get?_cases id with ⟨hn, hn'⟩ | ⟨o, o', ho, ho', -, hk, -⟩
  · rw [hn, hn']
  · simp [ho, ho', hk]

theorem contentSize (h : a.Places a') (id : ObjectId) : a'.contentSize id = a.contentSize id := by
  rcases h.get?_cases id with ⟨hn, hn'⟩ | ⟨o, o', ho, ho', -, hk, hd, hc⟩
  · simp [Arena.contentSize, hn, hn']
  · simp [Arena.contentSize, ho, ho', Object.contentSize, hk, hd, hc]

theorem blocksOf (h : a.Places a') (id : ObjectId) : a'.blocksOf id = a.blocksOf id := by
  unfold Arena.blocksOf Arena.ids
  rw [h.size]
  refine List.filter_congr ?_
  intro j _
  rcases h.get?_cases j with ⟨hn, hn'⟩ | ⟨o, o', ho, ho', -, hk, -⟩
  · rw [hn, hn']
  · simp [ho, ho', Object.isBlockOf, hk]

end Places

theorem setOffset_places {id : ObjectId} {x : Nat} (h : a.setOffset id x = .ok a') :
    a.Places a' ∧ a.place? id = none ∧ (id < a.size → a'.place? id = some x) ∧
      ∀ j, j ≠ id → a'.get? j = a.get? j := by
  unfold Arena.setOffset at h
  cases ho : a.get? id with
  | none =>
    simp only [ho] at h
    cases h
    refine ⟨.refl _, by simp [Arena.place?, ho], ?_, fun _ _ => rfl⟩
    intro hlt
    exact absurd hlt (Nat.not_lt.mpr (get?_eq_none_iff.mp ho))
  | some o =>
    simp only [ho] at h
    cases hoff : o.offset with
    | some existing => simp [hoff] at h
    | none =>
      simp only [hoff] at h
      cases h
      refine ⟨.of_modify ?_, by simp [Arena.place?, ho, hoff], ?_, ?_⟩
      · intro o' ho'
        obtain rfl : o = o' := Option.some.inj (ho.symm.trans ho')
        exact ⟨some x, o.code, rfl, rfl, by simp [hoff]⟩
      · intro _
        simp [Arena.place?, get?_modify, ho]
      · intro j hj
        rw [get?_modify, if_neg (Ne.symm hj)]

end Arena

namespace Layout

theorem length_scanCode (block : Object) (id : ObjectId) (start : Nat) (epilogue : Option ObjectId)
    (index : Nat) (is : List Instr) :
    (scanCode block id start epilogue index is).1.length = is.length := by
  induction is generalizing index with
  | nil => rfl
  | cons i is ih =>
    unfold scanCode
    split
    · rfl
    · split
      · simp
      · simp [ih]

theorem placeBlock_places {id x : Nat} {epilogue : Option ObjectId} {ps : List Patch}
    (h : Runs (placeBlock id x epilogue) a ps a') :
    a.Places a' ∧ a.place? id = none ∧ (id < a.size → a'.place? id = some x) ∧
      ∀ j, j ≠ id → a'.get? j = a.get? j := by
  simp only [placeBlock, runs_bind, setOffset_runs, runs_get] at h
  obtain ⟨-, b, hb, _, _, ⟨rfl, rfl⟩, h⟩ := h
  obtain ⟨hplaces, hnone, hplace, hother⟩ := Arena.setOffset_places hb
  cases ho : b.get? id with
  | none =>
    rw [ho] at h
    obtain ⟨-, rfl⟩ := runs_pure.mp h
    exact ⟨hplaces, hnone, hplace, hother⟩
  | some o =>
    simp only [ho, runs_bind, runs_lift, runs_set] at h
    obtain ⟨-, _, ⟨-, rfl⟩, -, c, rfl, -, rfl⟩ := h
    have hcode : b.Places
        (b.setCode id (scanCode o id x epilogue 0 o.code.toList).1.toArray) := by
      refine .of_modify ?_
      intro o' ho'
      obtain rfl : o = o' := Option.some.inj (ho.symm.trans ho')
      exact ⟨o.offset, _, rfl, by simp [length_scanCode], fun _ hx => hx⟩
    refine ⟨hplaces.trans hcode, hnone, fun hlt => hcode.place? (hplace hlt), ?_⟩
    intro j hj
    rw [Arena.setCode, Arena.get?_modify, if_neg (Ne.symm hj), hother j hj]

end Layout

/-! ## One behind the other -/

theorem mem_blocksOf {routine id : ObjectId} :
    id ∈ a.blocksOf routine ↔ ∃ o, a.get? id = some o ∧ o.kind = .block routine := by
  simp only [Arena.blocksOf, Arena.ids, List.mem_filter, List.mem_range, Option.any_eq_true,
    Object.isBlockOf, decide_eq_true_eq]
  constructor
  · rintro ⟨-, h⟩
    exact h
  · rintro ⟨o, ho, hk⟩
    exact ⟨Arena.lt_size_of_get? ho, o, ho, hk⟩

/-- Objects lie one behind the other, from an offset to another one. -/
inductive Stacked (a : Arena) : Nat → List ObjectId → Nat → Prop
  | nil (cursor : Nat) : Stacked a cursor [] cursor
  | cons {cursor stop : Nat} {id : ObjectId} {ids : List ObjectId} :
      a.place? id = some cursor → Stacked a (cursor + a.contentSize id) ids stop →
      Stacked a cursor (id :: ids) stop

theorem Stacked.mono (hp : a.Places a') (h : Stacked a cursor ids stop) :
    Stacked a' cursor ids stop := by
  induction h with
  | nil cursor => exact .nil cursor
  | cons hplace _ ih => exact .cons (hp.place? hplace) (by rw [hp.contentSize]; exact ih)

/-- The objects with bytes that a routine or a data object consists of. -/
def Arena.parts (a : Arena) (id : ObjectId) : List ObjectId :=
  match (a.get? id).map Object.kind with
  | some (.routine _) => a.blocksOf id
  | _ => [id]

theorem Arena.Places.parts (h : a.Places a') (id : ObjectId) : a'.parts id = a.parts id := by
  unfold Arena.parts
  rw [h.kind, h.blocksOf]

/-- Objects lie one behind the other with all their parts, and gaps between them. -/
inductive Arranged (a : Arena) : Nat → List ObjectId → Nat → Prop
  | nil (cursor : Nat) : Arranged a cursor [] cursor
  | cons {cursor start next stop : Nat} {id : ObjectId} {ids : List ObjectId} :
      cursor ≤ start → a.place? id = some start → a.parts id ≠ [] →
      Stacked a start (a.parts id) next → Arranged a next ids stop →
      Arranged a cursor (id :: ids) stop

theorem Arranged.mono (hp : a.Places a') (h : Arranged a cursor ids stop) :
    Arranged a' cursor ids stop := by
  induction h with
  | nil cursor => exact .nil cursor
  | cons hle hplace hne hstack _ ih =>
    exact .cons hle (hp.place? hplace) (by rwa [hp.parts]) (by rw [hp.parts]; exact hstack.mono hp) ih

namespace Layout

variable {ps ps' : Array Patch}

theorem placeBlocks_places {epilogue : Option ObjectId}
    (h : Runs (placeBlocks epilogue cursor ps ids) a (stop, ps') a')
    (hids : ∀ id ∈ ids, id < a.size) :
    a.Places a' ∧ (∀ id ∈ ids, a.place? id = none) ∧ Stacked a' cursor ids stop ∧
      ∀ j, j ∉ ids → a'.get? j = a.get? j := by
  induction ids generalizing cursor ps a with
  | nil =>
    obtain ⟨heq, rfl⟩ := runs_pure.mp h
    cases heq
    exact ⟨.refl _, by simp, .nil _, fun _ _ => rfl⟩
  | cons id ids ih =>
    simp only [placeBlocks, runs_bind, runs_get] at h
    obtain ⟨more, b, hb, _, _, ⟨rfl, rfl⟩, h⟩ := h
    obtain ⟨hplaces, hnone, hplace, hother⟩ := placeBlock_places hb
    obtain ⟨hplaces', hnone', hstack, hother'⟩ := ih h fun j hj => by
      rw [hplaces.size]
      exact hids j (by simp [hj])
    refine ⟨hplaces.trans hplaces', ?_, .cons (hplaces'.place? (hplace (hids id (by simp)))) ?_, ?_⟩
    · rintro j (_ | ⟨_, hj⟩)
      · exact hnone
      · exact hplaces.place?_eq_none (hnone' j hj)
    · rw [hplaces'.contentSize]
      exact hstack
    · intro j hj
      rw [List.mem_cons, not_or] at hj
      rw [hother' j hj.2, hother j hj.1]

/-- A routine or a data object lies at the cursor with all its parts, which had no place before, and
nothing else moves. -/
theorem placeObject_places {id : ObjectId} (h : Runs (placeObject id cursor ps) a (stop, ps') a')
    (hid : id < a.size) :
    a.Places a' ∧ (∀ j ∈ a.parts id, a.place? j = none) ∧ a'.place? id = some cursor ∧
      a'.parts id ≠ [] ∧ Stacked a' cursor (a'.parts id) stop ∧
      ∀ j, j ≠ id → j ∉ a.parts id → a'.get? j = a.get? j := by
  simp only [placeObject, runs_bind, setOffset_runs, runs_get] at h
  obtain ⟨-, b, hb, _, _, ⟨rfl, rfl⟩, h⟩ := h
  obtain ⟨hplaces, hnone, hplace, hother⟩ := Arena.setOffset_places hb
  obtain ⟨o, ho⟩ := Arena.exists_get? (hplaces.size ▸ hid)
  simp only [ho] at h
  split at h
  · rename_i epilogue hk
    have hparts : b.parts id = b.blocksOf id := by simp [Arena.parts, ho, hk]
    split at h
    · simp only [runs_bind] at h
      obtain ⟨_, _, hthrow, -⟩ := h
      exact absurd hthrow not_runs_throw
    · rename_i hne
      simp only [runs_bind, runs_lift, runs_pure] at h
      obtain ⟨⟨stop', ps''⟩, c, hc, -, _, ⟨-, rfl⟩, heq, rfl⟩ := h
      cases heq
      obtain ⟨hplaces', hnone', hstack, hother'⟩ := placeBlocks_places hc fun j hj =>
        (mem_blocksOf.mp hj).elim fun _ h => Arena.lt_size_of_get? h.1
      refine ⟨hplaces.trans hplaces', ?_, hplaces'.place? (hplace hid), ?_, ?_, ?_⟩
      · intro j hj
        rw [← hplaces.parts, hparts] at hj
        exact hplaces.place?_eq_none (hnone' j hj)
      · rw [hplaces'.parts, hparts]
        simpa using hne
      · rw [hplaces'.parts, hparts]
        exact hstack
      · intro j hj hjparts
        rw [← hplaces.parts, hparts] at hjparts
        rw [hother' j hjparts, hother j hj]
  · rename_i hk
    have hparts : b.parts id = [id] := by
      unfold Arena.parts
      rw [ho, Option.map_some]
      split
      · rename_i epilogue hk'
        exact absurd (Option.some.inj hk') (hk epilogue)
      · rfl
    simp only [runs_bind, runs_lift, runs_pure] at h
    obtain ⟨-, _, ⟨-, rfl⟩, heq, rfl⟩ := h
    cases heq
    refine ⟨hplaces, ?_, hplace hid, by simp [hparts], ?_, fun j hj _ => hother j hj⟩
    · intro j hj
      rw [← hplaces.parts, hparts, List.mem_singleton] at hj
      exact hj ▸ hnone
    rw [hparts]
    refine .cons (hplace hid) ?_
    rw [Arena.contentSize, ho]
    exact .nil _

theorem placeObjects_places {base : Nat}
    (h : Runs (placeObjects base cursor ps ids) a (stop, ps') a') (hids : ∀ id ∈ ids, id < a.size) :
    a.Places a' ∧ (∀ id ∈ ids, ∀ j ∈ a.parts id, a.place? j = none) ∧
      Arranged a' cursor ids stop ∧
      ∀ j, j ∉ ids → (∀ id ∈ ids, j ∉ a.parts id) → a'.get? j = a.get? j := by
  induction ids generalizing cursor ps a with
  | nil =>
    obtain ⟨heq, rfl⟩ := runs_pure.mp h
    cases heq
    exact ⟨.refl _, by simp, .nil _, fun _ _ _ => rfl⟩
  | cons id ids ih =>
    simp only [placeObjects, runs_bind] at h
    obtain ⟨⟨next, more⟩, b, hb, h⟩ := h
    obtain ⟨hplaces, hnone, hplace, hne, hstack, hother⟩ :=
      placeObject_places hb (hids id (by simp))
    obtain ⟨hplaces', hnone', harr, hother'⟩ := ih h fun j hj => by
      rw [hplaces.size]
      exact hids j (by simp [hj])
    refine ⟨hplaces.trans hplaces', ?_, .cons ?_ (hplaces'.place? hplace) ?_ ?_ harr, ?_⟩
    · rintro i (_ | ⟨_, hi⟩) j hj
      · exact hnone j hj
      · exact hplaces.place?_eq_none (hnone' i hi j (by rwa [hplaces.parts]))
    · have := Binary.le_alignUp (cursor - base) (show 0 < 16 by decide)
      omega
    · rwa [hplaces'.parts]
    · rw [hplaces'.parts]
      exact hstack.mono hplaces'
    · intro j hj hjparts
      rw [List.mem_cons, not_or] at hj
      rw [hother' j hj.2, hother j hj.1 (hjparts id (by simp))]
      intro i hi
      rw [hplaces.parts]
      exact hjparts i (by simp [hi])

theorem applyPatches_places {ps : List Patch} {u : Unit} (h : Runs (applyPatches ps) a u a') :
    a.Places a' := by
  induction ps generalizing a with
  | nil =>
    obtain ⟨-, rfl⟩ := runs_pure.mp h
    exact .refl _
  | cons p ps ih =>
    simp only [applyPatches, applyPatch, runs_bind, runs_get, runs_lift, runs_set] at h
    obtain ⟨-, _, ⟨_, _, ⟨rfl, rfl⟩, _, _, ⟨-, rfl⟩, rfl⟩, h⟩ := h
    refine Arena.Places.trans (.of_modify ?_) (ih h)
    intro o _
    exact ⟨o.offset, _, rfl, by simp, fun _ hx => hx⟩

end Layout

end SpuCompiler.Objects
