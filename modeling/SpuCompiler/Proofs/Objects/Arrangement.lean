import SpuCompiler.Proofs.Objects.Index

/-!
The order of placed objects. In an arena that was built from nothing no object has a place and
parents are older than what is derived from them, so offsets are well-founded; after placement
every object with bytes lies behind the one before it.
-/

namespace SpuCompiler.Objects

open Machine

variable {a a' : Arena} {id : ObjectId} {ids : List ObjectId}
  {base stop limit start stop' cursor start' : Nat} {image : Image}

/-! ## Arenas built from nothing -/

/-- The arena is made by additions and updates. Owners and parents are objects of the arena. -/
inductive Built : Arena → Prop
  | empty : Built {}
  | addRoutine {a a' : Arena} {name : String} {id : ObjectId} : Built a →
      a.addRoutine name = .ok (id, a') → Built a'
  | addBlock {a a' : Arena} {name : String} {routine id : ObjectId} : Built a →
      routine < a.size → a.addBlock routine name = .ok (id, a') → Built a'
  | addData {a a' : Arena} {name : String} {data : List UInt8} {id : ObjectId} : Built a →
      a.addData name data = .ok (id, a') → Built a'
  | addDerived {a a' : Arena} {name : String} {parent id : ObjectId} {delta : Nat} : Built a →
      parent < a.size → a.addDerived name parent delta = .ok (id, a') → Built a'
  | setCode {a : Arena} (id : ObjectId) (code : Array Instr) : Built a → Built (a.setCode id code)
  | setEpilogue {a : Arena} (id epilogue : ObjectId) : Built a → Built (a.setEpilogue id epilogue)
  | declareSize {a : Arena} (id : ObjectId) (size : Option Nat) : Built a →
      Built (a.declareSize id size)

/-- Parents are older than what is derived from them. -/
def Arena.Chained (a : Arena) : Prop :=
  ∀ (id : Nat) (o : Object) (parent delta : Nat), a.get? id = some o →
    o.kind = .derived parent delta → parent < id

def Arena.Unplaced (a : Arena) : Prop := ∀ id o, a.get? id = some o → o.offset = none

theorem Built.insert {o : Object} (h : a.Chained ∧ a.Unplaced) (hi : a.insert o = .ok (id, a'))
    (hoff : o.offset = none)
    (hparent : ∀ parent delta, o.kind = .derived parent delta → parent < a.size) :
    a'.Chained ∧ a'.Unplaced := by
  obtain ⟨-, rfl⟩ := Arena.insert_ok hi
  constructor
  · intro id o' parent delta ho hk
    rcases Arena.get?_push ho with ho | ⟨rfl, rfl⟩
    · exact h.1 id o' parent delta ho hk
    · exact hparent parent delta hk
  · intro id o' ho
    rcases Arena.get?_push ho with ho | ⟨-, rfl⟩
    · exact h.2 id o' ho
    · exact hoff

theorem Built.modify {f : Object → Object} (h : a.Chained ∧ a.Unplaced)
    (hoff : ∀ o, (f o).offset = o.offset)
    (hkind : ∀ o parent delta, (f o).kind = .derived parent delta →
      o.kind = .derived parent delta) :
    (a.modify id f).Chained ∧ (a.modify id f).Unplaced := by
  have hget : ∀ j o', (a.modify id f).get? j = some o' →
      ∃ o, a.get? j = some o ∧ (o' = o ∨ o' = f o) := by
    intro j o' ho
    rw [Arena.get?_modify] at ho
    split at ho
    · obtain ⟨o, hget, rfl⟩ := Option.map_eq_some_iff.mp ho
      exact ⟨o, hget, .inr rfl⟩
    · exact ⟨o', ho, .inl rfl⟩
  constructor
  · intro j o' parent delta ho hk
    obtain ⟨o, hj, rfl | rfl⟩ := hget j o' ho
    · exact h.1 j o' parent delta hj hk
    · exact h.1 j o parent delta hj (hkind o parent delta hk)
  · intro j o' ho
    obtain ⟨o, hj, rfl | rfl⟩ := hget j o' ho
    · exact h.2 j o' hj
    · rw [hoff]
      exact h.2 j o hj

theorem Built.chained_unplaced (h : Built a) : a.Chained ∧ a.Unplaced := by
  induction h with
  | empty => constructor <;> intro id o <;> simp [Arena.get?]
  | addRoutine _ hi ih => exact Built.insert ih hi rfl (by simp)
  | addBlock _ _ hi ih => exact Built.insert ih hi rfl (by simp)
  | addData _ hi ih => exact Built.insert ih hi rfl (by simp)
  | addDerived _ hlt hi ih =>
    refine Built.insert ih hi rfl ?_
    rintro _ _ ⟨⟩
    exact hlt
  | setCode id code _ ih => exact Built.modify ih (fun _ => rfl) (fun _ _ _ hk => hk)
  | setEpilogue id epilogue _ ih =>
    refine Built.modify ih ?_ ?_
    · intro o
      split <;> rfl
    · intro o parent delta hk
      split at hk
      · cases hk
      · exact hk
  | declareSize id size _ ih => exact Built.modify ih (fun _ => rfl) (fun _ _ _ hk => hk)

theorem Built.indexed (h : Built a) : a.Indexed := by
  induction h with
  | empty => simp [Arena.Indexed, Arena.find?, Arena.get?]
  | addRoutine _ hi ih => exact ih.insert hi
  | addBlock _ _ hi ih => exact ih.insert hi
  | addData _ hi ih => exact ih.insert hi
  | addDerived _ _ hi ih => exact ih.insert hi
  | setCode id code _ ih => exact ih.modify fun _ => rfl
  | setEpilogue id epilogue _ ih =>
    refine ih.modify fun o => ?_
    split <;> rfl
  | declareSize id size _ ih => exact ih.modify fun _ => rfl

/-! ## Offsets -/

namespace Arena

variable {a a' : Arena} {o : Object} {id parent delta x : Nat}
variable {fuel : Nat}

/-- A chain from an object is no longer than its number. -/
theorem Chained.offsetWithin_eq (h : a.Chained) (hlt : id < fuel) :
    a.offsetWithin fuel id = a.offsetWithin (id + 1) id := by
  induction id using Nat.strongRecOn generalizing fuel with
  | ind id ih =>
    obtain ⟨fuel, rfl⟩ : ∃ k, fuel = k + 1 := ⟨fuel - 1, by omega⟩
    simp only [offsetWithin]
    split
    · rfl
    · rename_i o ho
      split
      · rename_i parent delta hk
        have hp := h id o parent delta ho hk
        rw [ih parent hp (lt_of_lt_of_le hp (Nat.le_of_lt_succ hlt)), ih parent hp hp]
      · rfl

theorem Chained.offset_derived (h : a.Chained) (ho : a.get? id = some o)
    (hk : o.kind = .derived parent delta) : a.offset id = (a.offset parent).map (· + delta) := by
  have hp := h id o parent delta ho hk
  have hid := lt_size_of_get? ho
  unfold offset
  rw [h.offsetWithin_eq hid, h.offsetWithin_eq (hp.trans hid), offsetWithin, ho]
  simp only [hk]
  rw [h.offsetWithin_eq hp]

theorem offset_own (ho : a.get? id = some o) (hk : ∀ parent delta, o.kind ≠ .derived parent delta) :
    a.offset id = .ok x ↔ a.place? id = some x := by
  obtain ⟨n, hn⟩ : ∃ n, a.size = n + 1 := ⟨a.size - 1, by have := lt_size_of_get? ho; omega⟩
  rw [offset, hn, offsetWithin, ho]
  simp only [place?, ho, Option.bind_some]
  cases hk' : o.kind with
  | derived parent delta => exact absurd hk' (hk parent delta)
  | _ => cases o.offset <;> simp

theorem exists_get?_of_offset (h : a.offset id = .ok x) : ∃ o, a.get? id = some o := by
  cases ho : a.get? id with
  | some o => exact ⟨o, rfl⟩
  | none =>
    unfold offset at h
    cases hn : a.size <;> simp [hn, offsetWithin, ho] at h

theorem Places.chained (h : a.Places a') (hc : a.Chained) : a'.Chained := by
  intro id o' parent delta ho' hk
  obtain ⟨o, ho, -, hkind, -⟩ := h.exists_before ho'
  exact hc id o parent delta ho (hkind ▸ hk)

theorem Places.offsetWithin (h : a.Places a') (hx : a.offsetWithin fuel id = .ok x) :
    a'.offsetWithin fuel id = .ok x := by
  induction fuel generalizing id x with
  | zero => cases hx
  | succ fuel ih =>
    unfold Arena.offsetWithin at hx ⊢
    cases ho : a.get? id with
    | none => simp [ho] at hx
    | some o =>
      obtain ⟨offset, code, hget, -, hoff⟩ := h.get id o ho
      simp only [ho, hget] at hx ⊢
      cases hk : o.kind with
      | derived parent delta =>
        simp only [hk] at hx ⊢
        cases hp : a.offsetWithin fuel parent with
        | error e => simp [hp, Except.map] at hx
        | ok y =>
          rw [hp] at hx
          rwa [ih hp]
      | _ =>
        simp only [hk] at hx ⊢
        cases hown : o.offset with
        | none => simp [hown] at hx
        | some y =>
          simp only [hown] at hx
          rw [hoff y hown]
          exact hx

/-- What has an offset keeps it. -/
theorem Places.offset (h : a.Places a') (hx : a.offset id = .ok x) : a'.offset id = .ok x := by
  unfold Arena.offset at hx ⊢
  rw [h.size]
  exact h.offsetWithin hx

end Arena

theorem Layout.checkAlignment_ok {u : Unit} (h : checkAlignment a ids = .ok u) :
    ∀ id ∈ ids, ∃ x, a.offset id = .ok x ∧
      ∀ o, a.get? id = some o → x % o.alignment = 0 := by
  induction ids with
  | nil => simp
  | cons id ids ih =>
    obtain ⟨x, hx, h⟩ := bind_eq_ok.mp h
    cases ho : a.get? id with
    | none =>
      simp only [ho] at h
      rintro j (_ | ⟨_, hj⟩)
      · exact ⟨x, hx, by simp [ho]⟩
      · exact ih h j hj
    | some o =>
      simp only [ho] at h
      split at h
      · rename_i hmod
        rintro j (_ | ⟨_, hj⟩)
        · refine ⟨x, hx, ?_⟩
          intro o' ho'
          obtain rfl : o = o' := Option.some.inj (ho.symm.trans ho')
          exact hmod
        · exact ih h j hj
      · cases h

/-! ## Order -/

/-- The bytes of one object end before those of another one start. -/
def Precedes (a : Arena) (i j : ObjectId) : Prop :=
  ∀ x y, a.place? i = some x → a.place? j = some y → x + a.contentSize i ≤ y

def Within (a : Arena) (start stop : Nat) (id : ObjectId) : Prop :=
  ∃ x, a.place? id = some x ∧ start ≤ x ∧ x + a.contentSize id ≤ stop

theorem Within.mono (h : Within a start stop id) (hs : start' ≤ start) (hs' : stop ≤ stop') :
    Within a start' stop' id := by
  obtain ⟨x, hx, hle, hle'⟩ := h
  exact ⟨x, hx, hs.trans hle, hle'.trans hs'⟩

theorem Within.precedes {i j : ObjectId} (h : Within a start stop i) (h' : Within a start' stop' j)
    (hle : stop ≤ start') : Precedes a i j := by
  obtain ⟨x, hx, -, hstop⟩ := h
  obtain ⟨y, hy, hstart, -⟩ := h'
  intro x' y' hx' hy'
  obtain rfl : x = x' := Option.some.inj (hx.symm.trans hx')
  obtain rfl : y = y' := Option.some.inj (hy.symm.trans hy')
  omega

theorem Stacked.ordered (h : Stacked a cursor ids stop) :
    cursor ≤ stop ∧ (∀ id ∈ ids, Within a cursor stop id) ∧ ids.Pairwise (Precedes a) := by
  induction h with
  | nil cursor => exact ⟨le_refl _, by simp, .nil⟩
  | cons hplace _ ih =>
    obtain ⟨hle, hin, hpair⟩ := ih
    have hfirst := Nat.le_add_right _ _ |>.trans hle
    refine ⟨hfirst, ?_, List.pairwise_cons.mpr ⟨?_, hpair⟩⟩
    · rintro j (_ | ⟨_, hj⟩)
      · exact ⟨_, hplace, le_refl _, hle⟩
      · exact (hin j hj).mono (Nat.le_add_right _ _) (le_refl _)
    · intro j hj
      exact Within.precedes ⟨_, hplace, le_refl _, le_refl _⟩ (hin j hj) (le_refl _)

theorem Arranged.ordered (h : Arranged a cursor ids stop) :
    cursor ≤ stop ∧ (∀ id ∈ ids.flatMap a.parts, Within a cursor stop id) ∧
      (ids.flatMap a.parts).Pairwise (Precedes a) := by
  induction h with
  | nil cursor => exact ⟨le_refl _, by simp, .nil⟩
  | cons hle _ _ hstack _ ih =>
    obtain ⟨hle', hin, hpair⟩ := hstack.ordered
    obtain ⟨hle'', hin', hpair'⟩ := ih
    refine ⟨by omega, ?_, ?_⟩
    · intro j hj
      rcases List.mem_append.mp (List.flatMap_cons ▸ hj) with hj | hj
      · exact (hin j hj).mono hle hle''
      · exact (hin' j hj).mono (by omega) (le_refl _)
    · rw [List.flatMap_cons, List.pairwise_append]
      exact ⟨hpair, hpair', fun i hi j hj => (hin i hi).precedes (hin' j hj) (le_refl _)⟩

/-- Routines and data objects start in order. -/
theorem Arranged.starts (h : Arranged a cursor ids stop) :
    (∀ id ∈ ids, ∀ x, a.place? id = some x → cursor ≤ x) ∧
      ids.Pairwise fun i j => ∀ x y, a.place? i = some x → a.place? j = some y → x ≤ y := by
  induction h with
  | nil cursor => exact ⟨by simp, .nil⟩
  | @cons cursor start next stop id ids hle hplace _ hstack _ ih =>
    obtain ⟨hge, hpair⟩ := ih
    have hnext := hstack.ordered.1
    have hstart : ∀ x, a.place? id = some x → x = start := by
      intro x hx
      exact Option.some.inj (hx.symm.trans hplace)
    refine ⟨?_, List.pairwise_cons.mpr ⟨?_, hpair⟩⟩
    · rintro j (_ | ⟨_, hj⟩) x hx
      · rw [hstart x hx]
        exact hle
      · have := hge j hj x hx
        omega
    · intro j hj x y hx hy
      have := hge j hj y hy
      rw [hstart x hx]
      omega

theorem Arranged.stacked (h : Arranged a cursor ids stop) (hid : id ∈ ids) :
    ∃ start next, a.place? id = some start ∧ a.parts id ≠ [] ∧ Stacked a start (a.parts id) next := by
  induction h with
  | nil cursor => cases hid
  | cons _ hplace hne hstack _ ih =>
    rcases List.mem_cons.mp hid with rfl | hid
    · exact ⟨_, _, hplace, hne, hstack⟩
    · exact ih hid

/-! ## A whole layout -/

def Arena.topLevel (a : Arena) : List ObjectId :=
  a.ids.filter fun id => (a.get? id).any Object.isTopLevel

theorem Arena.mem_topLevel : id ∈ a.topLevel ↔ ∃ o, a.get? id = some o ∧ o.isTopLevel = true := by
  simp only [Arena.topLevel, Arena.ids, List.mem_filter, List.mem_range, Option.any_eq_true]
  constructor
  · rintro ⟨-, h⟩
    exact h
  · rintro ⟨o, ho, ht⟩
    exact ⟨Arena.lt_size_of_get? ho, o, ho, ht⟩

theorem Arena.lt_size_of_mem_topLevel (h : id ∈ a.topLevel) : id < a.size := by
  obtain ⟨o, ho, -⟩ := Arena.mem_topLevel.mp h
  exact Arena.lt_size_of_get? ho

theorem Arena.Places.topLevel (h : a.Places a') : a'.topLevel = a.topLevel := by
  unfold Arena.topLevel Arena.ids
  rw [h.size]
  refine List.filter_congr ?_
  intro j _
  rcases h.get?_cases j with ⟨hn, hn'⟩ | ⟨o, o', ho, ho', -, hk, -⟩
  · rw [hn, hn']
  · simp [ho, ho', Object.isTopLevel, hk]

/-- A successful placement: the arena it leaves behind, where the objects lie, and the image. -/
structure LaidOut (a : Arena) (base limit : Nat) (image : Image) (f : Arena) (stop : Nat) :
    Prop where
  places : a.Places f
  chained : f.Chained
  arranged : Arranged f base f.topLevel stop
  covered : ∀ id o, f.get? id = some o → (∀ parent delta, o.kind ≠ .derived parent delta) →
    id ∈ f.topLevel ∨ id ∈ f.topLevel.flatMap f.parts
  offset : ∀ id o, f.get? id = some o → ∃ x, f.offset id = .ok x ∧ x % o.alignment = 0
  limit : stop ≤ limit
  image : image = ⟨base, stop - base, Layout.placedObjects f⟩

open Layout in
/-- A successful placement places the objects, finds every offset aligned and the end below the
limit, and then applies the patches. -/
theorem Arena.layout_ok (h : (a.layout base limit).1 = .ok image) :
    ∃ b f stop ps, Runs (placeObjects base base #[] a.topLevel) a (stop, ps) b ∧
      (∀ id o, b.get? id = some o → ∃ x, b.offset id = .ok x ∧ x % o.alignment = 0) ∧
      stop ≤ limit ∧ Runs (applyPatches ps.toList) b () f ∧
      image = ⟨base, stop - base, placedObjects f⟩ := by
  obtain ⟨f, hrun⟩ : ∃ f, Runs (run base limit) a image f := ⟨(a.layout base limit).2, Prod.ext h rfl⟩
  simp only [run, runs_bind, runs_get, runs_lift] at hrun
  obtain ⟨_, _, ⟨rfl, rfl⟩, ⟨stop, ps⟩, b, hb, _, _, ⟨rfl, rfl⟩, _, _, ⟨halign, rfl⟩, hrun⟩ := hrun
  split at hrun
  · simp only [runs_bind] at hrun
    obtain ⟨_, _, hthrow, -⟩ := hrun
    exact absurd hthrow not_runs_throw
  · rename_i hlimit
    simp only [runs_bind, runs_get, runs_pure] at hrun
    obtain ⟨_, c, hpatch, _, _, ⟨rfl, rfl⟩, rfl, rfl⟩ := hrun
    refine ⟨b, c, stop, ps, hb, ?_, by omega, hpatch, rfl⟩
    intro id o ho
    obtain ⟨x, hx, hmod⟩ := checkAlignment_ok halign id
      (List.mem_range.mpr (Arena.lt_size_of_get? ho))
    exact ⟨x, hx, hmod o ho⟩

open Layout in
theorem Built.laidOut (h : Built a) (hl : (a.layout base limit).1 = .ok image) :
    ∃ f stop, LaidOut a base limit image f stop := by
  obtain ⟨hchained, hunplaced⟩ := h.chained_unplaced
  obtain ⟨b, c, stop, ps, hb, hoffset, hlimit, hpatch, rfl⟩ := Arena.layout_ok hl
  obtain ⟨hplaces, -, harr, hother⟩ :=
    placeObjects_places hb fun _ => Arena.lt_size_of_mem_topLevel
  have hplaces' := applyPatches_places hpatch
  have hchained' := hplaces.chained hchained
  refine ⟨c, stop, hplaces.trans hplaces', hplaces'.chained hchained', ?_, ?_, ?_, hlimit, rfl⟩
  · rw [hplaces'.topLevel, hplaces.topLevel]
    exact harr.mono hplaces'
  · -- an object that placement does not touch would have no offset
    intro id o' ho' hk
    obtain ⟨o, ho, -, hkind, -⟩ := hplaces'.exists_before ho'
    rw [hplaces'.topLevel, hplaces.topLevel]
    by_contra hno
    rw [not_or] at hno
    have hsame := hother id hno.1 fun r hr hmem => hno.2
      (List.mem_flatMap.mpr ⟨r, hr, by rw [hplaces'.parts, hplaces.parts]; exact hmem⟩)
    obtain ⟨x, hx, -⟩ := hoffset id o ho
    rw [Arena.offset_own ho (by rw [← hkind]; exact hk)] at hx
    rw [Arena.place?, hsame] at hx
    obtain ⟨o0, ho0, hx⟩ := Option.bind_eq_some_iff.mp hx
    rw [hunplaced id o0 ho0] at hx
    cases hx
  · intro id o' ho'
    obtain ⟨o, ho, -, hkind, -⟩ := hplaces'.exists_before ho'
    obtain ⟨x, hx, hmod⟩ := hoffset id o ho
    refine ⟨x, hplaces'.offset hx, ?_⟩
    rw [Object.alignment, hkind]
    exact hmod

end SpuCompiler.Objects
