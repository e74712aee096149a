import SpuCompiler.Proofs.Objects.Arrangement
import SpuCompiler.Proofs.Objects.Naming

/-!
Histories of an arena. Objects are added, refused, changed and dropped in any order. The index
stays exact, since an object is never renamed and its name goes when it goes; what an object is
derived from is older than itself, so its offset is found in a chain that ends. Dropped objects that
are added again get the numbers they had.
-/

namespace SpuCompiler.Objects

open Machine

/-- The object that a block belongs to, or that a derived object is placed by. -/
def ObjectKind.owner? : ObjectKind → Option ObjectId
  | .block owner => some owner
  | .derived parent _ => some parent
  | .routine _ | .data => none

inductive Update where
  | addRoutine (name : String)
  | addBlock (routine : ObjectId) (name : String)
  | addData (name : String) (data : List UInt8)
  | addDerived (name : String) (parent : ObjectId) (delta : Nat)
  | truncate (size : Nat)
  | setCode (id : ObjectId) (code : Array Instr)
  | setEpilogue (id epilogue : ObjectId)
  | setOffset (id : ObjectId) (offset : Nat)

def Update.added? : Update → Option Object
  | .addRoutine name => some { name := name, kind := .routine none }
  | .addBlock routine name => some { name := name, kind := .block routine }
  | .addData name data => some { name := name, kind := .data, data := data }
  | .addDerived name parent delta => some { name := name, kind := .derived parent delta }
  | .truncate _ | .setCode _ _ | .setEpilogue _ _ | .setOffset _ _ => none

def Object.addition (o : Object) : Update :=
  match o.kind with
  | .routine _ => .addRoutine o.name
  | .block routine => .addBlock routine o.name
  | .data => .addData o.name o.data
  | .derived parent delta => .addDerived o.name parent delta

namespace Arena

def attempt (a : Arena) : Update → Except LayoutError (Option ObjectId × Arena)
  | .addRoutine name => (a.addRoutine name).map fun r => (some r.1, r.2)
  | .addBlock routine name => (a.addBlock routine name).map fun r => (some r.1, r.2)
  | .addData name data => (a.addData name data).map fun r => (some r.1, r.2)
  | .addDerived name parent delta => (a.addDerived name parent delta).map fun r => (some r.1, r.2)
  | .truncate size => .ok (none, a.truncate size)
  | .setCode id code => .ok (none, a.setCode id code)
  | .setEpilogue id epilogue => .ok (none, a.setEpilogue id epilogue)
  | .setOffset id offset => (a.setOffset id offset).map fun b => (none, b)

/-- What a call returns, and the arena after it, which is the same if the call fails. -/
def answer (a : Arena) (u : Update) : Except LayoutError (Option ObjectId) × Arena :=
  match a.attempt u with
  | .ok (id, b) => (.ok id, b)
  | .error e => (.error e, a)

def serve (a : Arena) : List Update → List (Except LayoutError (Option ObjectId)) × Arena
  | [] => ([], a)
  | u :: us => ((a.answer u).1 :: ((a.answer u).2.serve us).1, ((a.answer u).2.serve us).2)

/-- Owners and parents are objects of the arena. -/
def Admits (a : Arena) (u : Update) : Prop :=
  ∀ o ∈ u.added?, ∀ owner ∈ o.kind.owner?, owner < a.size

/-- The arena is what calls have made of an empty one, whether they succeeded or not. -/
inductive Reached : Arena → Prop
  | new : Reached {}
  | answer {a : Arena} {u : Update} : Reached a → a.Admits u → Reached (a.answer u).2

def AdmitsAll (a : Arena) : List Update → Prop
  | [] => True
  | u :: us => a.Admits u ∧ (a.answer u).2.AdmitsAll us

instance (a : Arena) (u : Update) : Decidable (a.Admits u) :=
  inferInstanceAs (Decidable (∀ o ∈ u.added?, ∀ owner ∈ o.kind.owner?, owner < a.size))

instance decidableAdmitsAll (a : Arena) : (us : List Update) → Decidable (a.AdmitsAll us)
  | [] => inferInstanceAs (Decidable True)
  | u :: us =>
    have := decidableAdmitsAll (a.answer u).2 us
    inferInstanceAs (Decidable (a.Admits u ∧ (a.answer u).2.AdmitsAll us))

theorem Reached.serve {a : Arena} (h : Reached a) {us : List Update} (hus : a.AdmitsAll us) :
    Reached (a.serve us).2 := by
  induction us generalizing a with
  | nil => exact h
  | cons u us ih => exact ih (h.answer hus.1) hus.2

/-! ## What a call does -/

variable {a b : Arena} {o : Object} {id : ObjectId} {u : Update}

theorem attempt_of_added? (h : u.added? = some o) :
    a.attempt u = (a.insert o).map fun r => (some r.1, r.2) := by
  cases u <;> cases h <;> rfl

theorem answer_added (h : u.added? = some o) : a.answer u =
    if (a.find? o.name).isSome then (.error (.duplicateName o.name), a)
    else (.ok (some a.size), a.push o) := by
  rw [answer, attempt_of_added? h, insert]
  by_cases htaken : (a.find? o.name).isSome
  · rw [if_pos htaken, if_pos htaken]
    rfl
  · rw [if_neg htaken, if_neg htaken]
    rfl

theorem owner?_withEpilogue (epilogue : ObjectId) (o : Object) :
    (o.withEpilogue epilogue).kind.owner? = o.kind.owner? := by
  unfold Object.withEpilogue
  split
  · rename_i hk
    rw [hk]
    rfl
  · rfl

theorem setOffset_eq_ok {offset : Nat} (h : a.setOffset id offset = .ok b) :
    b = a ∨ b = a.modify id fun o => { o with offset := some offset } := by
  unfold setOffset at h
  split at h
  · cases h
    exact .inl rfl
  · split at h
    · cases h
    · cases h
      exact .inr rfl

/-- An object is added under a new name, objects are dropped, or an object changes that keeps its
name and its owner; or nothing happens. -/
theorem answer_cases (a : Arena) (u : Update) :
    (a.answer u).2 = a ∨
      (∃ o id, u.added? = some o ∧ a.insert o = .ok (id, (a.answer u).2)) ∨
      (∃ n, (a.answer u).2 = a.truncate n) ∨
      ∃ id f, (a.answer u).2 = a.modify id f ∧
        ∀ o : Object, (f o).name = o.name ∧ (f o).kind.owner? = o.kind.owner? := by
  cases hadded : u.added? with
  | some o =>
    rw [answer, attempt_of_added? hadded]
    rcases hi : a.insert o with _ | ⟨id, b⟩
    · exact .inl rfl
    · exact .inr (.inl ⟨o, id, rfl, hi⟩)
  | none =>
    cases u with
    | addRoutine | addBlock | addData | addDerived => cases hadded
    | truncate n => exact .inr (.inr (.inl ⟨n, rfl⟩))
    | setCode id code => exact .inr (.inr (.inr ⟨id, _, rfl, fun _ => ⟨rfl, rfl⟩⟩))
    | setEpilogue id epilogue =>
      exact .inr (.inr (.inr ⟨id, Object.withEpilogue epilogue, rfl, fun o =>
        ⟨o.name_withEpilogue epilogue, owner?_withEpilogue epilogue o⟩⟩))
    | setOffset id offset =>
      rw [answer, attempt]
      rcases hset : a.setOffset id offset with _ | b
      · exact .inl rfl
      · rcases setOffset_eq_ok hset with rfl | rfl
        · exact .inl rfl
        · exact .inr (.inr (.inr ⟨id, _, rfl, fun _ => ⟨rfl, rfl⟩⟩))

/-- A call that fails changes nothing. -/
theorem answer_of_error {e : LayoutError} (h : (a.answer u).1 = .error e) : (a.answer u).2 = a := by
  unfold answer at h ⊢
  cases hattempt : a.attempt u with
  | error e => rfl
  | ok r =>
    rw [hattempt] at h
    cases h

/-! ## Dropping objects -/

theorem get?_truncate (a : Arena) (n : Nat) (id : ObjectId) :
    (a.truncate n).get? id = if id < n then a.get? id else none := by
  change (a.objects.take n)[id]? = if id < n then a.objects[id]? else none
  rw [← Array.getElem?_toList]
  simp [List.getElem?_take]

theorem size_truncate (a : Arena) (n : Nat) : (a.truncate n).size = min n a.size := by
  change (a.objects.take n).size = _
  simp [size]

theorem lookup_filter {α : Type} (p : String → Bool) (entries : List (String × α)) (name : String) :
    (entries.filter fun entry => p entry.1).lookup name =
      if p name then entries.lookup name else none := by
  induction entries with
  | nil => simp
  | cons entry entries ih =>
    obtain ⟨key, value⟩ := entry
    by_cases hname : name = key
    · subst hname
      cases hp : p name <;> simp [hp, ih]
    · have hne : (name == key) = false := by simpa using hname
      cases hp : p key <;> simp [hp, ih, List.lookup_cons, hne]

/-- The names of dropped objects are not found any more. -/
theorem find?_truncate (a : Arena) (n : Nat) (name : String) (id : ObjectId) :
    (a.truncate n).find? name = some id ↔
      a.find? name = some id ∧ ∀ k o, n ≤ k → a.get? k = some o → o.name ≠ name := by
  have hkept : (!(a.objects.toList.drop n).any (·.name == name)) = true ↔
      ∀ k o, n ≤ k → a.get? k = some o → o.name ≠ name := by
    simp only [Bool.not_eq_true', List.any_eq_false, beq_iff_eq]
    constructor
    · intro h k o hk ho
      refine h o (List.mem_iff_getElem?.mpr ⟨k - n, ?_⟩)
      rw [List.getElem?_drop, Array.getElem?_toList, Nat.add_sub_cancel' hk]
      exact ho
    · intro h o ho
      obtain ⟨k, hk⟩ := List.mem_iff_getElem?.mp ho
      rw [List.getElem?_drop, Array.getElem?_toList] at hk
      exact h (n + k) o (Nat.le_add_right _ _) hk
  rw [← hkept]
  change (a.names.filter _).lookup name = some id ↔ _
  rw [lookup_filter (fun name => !(a.objects.toList.drop n).any (·.name == name))]
  cases !(a.objects.toList.drop n).any (·.name == name) <;> simp [find?]

theorem Indexed.truncate (h : a.Indexed) (n : Nat) : (a.truncate n).Indexed := by
  intro name id
  rw [find?_truncate, get?_truncate, h]
  constructor
  · rintro ⟨⟨o, ho, hname⟩, hkept⟩
    have hid : id < n := by
      by_contra hle
      exact hkept id o (Nat.le_of_not_lt hle) ho hname
    exact ⟨o, by rw [if_pos hid, ho], hname⟩
  · rintro ⟨o, ho, hname⟩
    split at ho
    · rename_i hid
      refine ⟨⟨o, ho, hname⟩, fun k o' hk ho' hname' => ?_⟩
      -- two objects of one name would both be found under it
      have hfound := (h name id).mpr ⟨o, ho, hname⟩
      rw [(h name k).mpr ⟨o', ho', hname'⟩] at hfound
      cases hfound
      exact absurd hid (Nat.not_lt.mpr hk)
    · cases ho

/-! ## Owners -/

/-- Owners and parents are older than what belongs to them. -/
def Older (a : Arena) : Prop :=
  ∀ (id : ObjectId) (o : Object) (owner : ObjectId), a.get? id = some o →
    o.kind.owner? = some owner → owner < id

theorem Older.chained (h : a.Older) : a.Chained := by
  intro id o parent delta ho hk
  exact h id o parent ho (by rw [hk]; rfl)

theorem Older.insert (h : a.Older) (hi : a.insert o = .ok (id, b))
    (howner : ∀ owner ∈ o.kind.owner?, owner < a.size) : b.Older := by
  obtain ⟨-, rfl⟩ := insert_ok hi
  intro k o' owner ho' hk
  rcases get?_push ho' with ho' | ⟨rfl, rfl⟩
  · exact h k o' owner ho' hk
  · exact howner owner hk

theorem Older.modify {f : Object → Object} (h : a.Older)
    (hf : ∀ o, (f o).kind.owner? = o.kind.owner?) : (a.modify id f).Older := by
  intro k o' owner ho' hk
  rw [get?_modify] at ho'
  split at ho'
  · obtain ⟨o, ho, rfl⟩ := Option.map_eq_some_iff.mp ho'
    exact h k o owner ho (hf o ▸ hk)
  · exact h k o' owner ho' hk

theorem Older.truncate (h : a.Older) (n : Nat) : (a.truncate n).Older := by
  intro k o owner ho hk
  rw [get?_truncate] at ho
  split at ho
  · exact h k o owner ho hk
  · cases ho

/-! ## Whole histories -/

theorem Reached.indexed (h : Reached a) : a.Indexed := by
  induction h with
  | new => simp [Indexed, find?, get?]
  | @answer a u _ _ ih =>
    rcases answer_cases a u with h | ⟨o, id, -, hi⟩ | ⟨n, h⟩ | ⟨id, f, h, hf⟩
    · rwa [h]
    · exact ih.insert hi
    · rw [h]
      exact ih.truncate n
    · rw [h]
      exact ih.modify fun o => (hf o).1

theorem Reached.older (h : Reached a) : a.Older := by
  induction h with
  | new =>
    intro id o owner ho
    simp [get?] at ho
  | @answer a u _ hadmits ih =>
    rcases answer_cases a u with h | ⟨o, id, hadded, hi⟩ | ⟨n, h⟩ | ⟨id, f, h, hf⟩
    · rwa [h]
    · exact ih.insert hi (hadmits o hadded)
    · rw [h]
      exact ih.truncate n
    · rw [h]
      exact ih.modify fun o => (hf o).2

/-! ## Offsets -/

/-- The way from an object over its parents to one that is not derived, with the distances. -/
inductive Chain (a : Arena) : ObjectId → Object → List Nat → Prop
  | own {id : ObjectId} {o : Object} : a.get? id = some o →
      (∀ parent delta, o.kind ≠ .derived parent delta) → Chain a id o []
  | derived {id parent : ObjectId} {o root : Object} {delta : Nat} {deltas : List Nat} :
      a.get? id = some o → o.kind = .derived parent delta → Chain a parent root deltas →
      Chain a id root (delta :: deltas)

/-- Parents are older, so the way ends. -/
theorem Older.exists_chain (h : a.Older) (hid : id < a.size) :
    ∃ root deltas, a.Chain id root deltas := by
  induction id using Nat.strongRecOn with
  | ind id ih =>
    obtain ⟨o, ho⟩ := exists_get? hid
    by_cases hk : ∃ parent delta, o.kind = .derived parent delta
    · obtain ⟨parent, delta, hk⟩ := hk
      have hlt := h.chained id o parent delta ho hk
      obtain ⟨root, deltas, hchain⟩ := ih parent hlt (hlt.trans hid)
      exact ⟨root, delta :: deltas, .derived ho hk hchain⟩
    · exact ⟨o, [], .own ho fun parent delta hd => hk ⟨parent, delta, hd⟩⟩

def offsetFrom (root : Object) (distance : Nat) : Except LayoutError Nat :=
  match root.offset with
  | some start => .ok (start + distance)
  | none => .error (.unassigned root.name)

theorem offset_of_not_derived (ho : a.get? id = some o)
    (hk : ∀ parent delta, o.kind ≠ .derived parent delta) : a.offset id = offsetFrom o 0 := by
  obtain ⟨n, hn⟩ : ∃ n, a.size = n + 1 := ⟨a.size - 1, by have := lt_size_of_get? ho; omega⟩
  rw [offset, hn, offsetWithin, ho]
  cases hk' : o.kind with
  | derived parent delta => exact absurd hk' (hk parent delta)
  | routine | block | data => cases hoffset : o.offset <;> simp [offsetFrom, hoffset]

theorem Older.offset_eq (h : a.Older) {root : Object} {deltas : List Nat}
    (hchain : a.Chain id root deltas) : a.offset id = offsetFrom root deltas.sum := by
  induction hchain with
  | own ho hk => exact offset_of_not_derived ho hk
  | @derived id parent o root delta deltas ho hk _ ih =>
    rw [h.chained.offset_derived ho hk, ih, offsetFrom, offsetFrom, List.sum_cons]
    cases root.offset with
    | none => rfl
    | some start =>
      change Except.ok (start + deltas.sum + delta) = Except.ok (start + (delta + deltas.sum))
      rw [Nat.add_assoc, Nat.add_comm delta]

/-- No chain is longer than the arena, so the limit is never reached. -/
theorem Older.offsetWithin_eq_offset (h : a.Older) {fuel : Nat} (hfuel : a.size ≤ fuel)
    (id : ObjectId) : a.offsetWithin fuel id = a.offset id := by
  by_cases hid : id < a.size
  · rw [offset, h.chained.offsetWithin_eq (hid.trans_le hfuel), h.chained.offsetWithin_eq hid]
  · have hnone := get?_eq_none_iff.mpr (Nat.le_of_not_lt hid)
    have hwithin : ∀ n, a.offsetWithin n id = .error (.unassigned "") := by
      intro n
      cases n with
      | zero => rfl
      | succ n => simp only [offsetWithin, hnone]
    rw [offset, hwithin, hwithin]

/-! ## Adding dropped objects again -/

theorem Indexed.find?_eq_some_iff (h : a.Indexed) {name : String} :
    a.find? name = some id ↔ a.nameOf id = some name := by
  rw [h, nameOf, Option.map_eq_some_iff]

/-- The objects below a number have the names that they have in another arena, and there are no
others. -/
structure Regains (a : Arena) (n : Nat) (b : Arena) : Prop where
  reached : Reached b
  size : b.size = n
  names : ∀ id < n, b.nameOf id = a.nameOf id

theorem exists_added_addition (o : Object) : ∃ o', o.addition.added? = some o' ∧
    o'.name = o.name ∧ o'.kind.owner? = o.kind.owner? := by
  unfold Object.addition
  cases o.kind <;> exact ⟨_, rfl, rfl, rfl⟩

theorem Reached.regains_truncate (h : Reached a) (n : Nat) :
    a.Regains (min n a.size) (a.truncate n) where
  reached := .answer (u := .truncate n) h (by simp [Admits, Update.added?])
  size := size_truncate a n
  names id hid := by rw [nameOf, get?_truncate, if_pos (lt_min_iff.mp hid).1, nameOf]

/-- The next object is not there yet, and its owner is, so it gets its number back. -/
theorem Regains.answer_addition (h : Reached a) {n : Nat} (hb : a.Regains n b)
    (ho : a.get? n = some o) : (b.answer o.addition).1 = .ok (some n) ∧
      a.Regains (n + 1) (b.answer o.addition).2 := by
  obtain ⟨o', hadded, hname, howner⟩ := exists_added_addition o
  have hat : a.nameOf n = some o'.name := hname ▸ nameOf_of_get? ho
  have hfree : b.find? o'.name = none := by
    cases hfind : b.find? o'.name with
    | none => rfl
    | some id =>
      have hid : id < n := by
        obtain ⟨x, hx, -⟩ := (hb.reached.indexed _ _).mp hfind
        exact hb.size ▸ lt_size_of_get? hx
      rw [hb.reached.indexed.find?_eq_some_iff, hb.names id hid,
        ← h.indexed.find?_eq_some_iff, h.indexed.find?_eq_some_iff.mpr hat] at hfind
      cases hfind
      exact absurd hid (Nat.lt_irrefl _)
  have hanswer : b.answer o.addition = (.ok (some b.size), b.push o') := by
    rw [answer_added hadded, hfree]
    rfl
  have hadmits : b.Admits o.addition := by
    intro x hx owner hk
    obtain rfl : o' = x := Option.some.inj (hadded.symm.trans hx)
    rw [hb.size]
    exact h.older n o owner ho (howner ▸ hk)
  refine ⟨by rw [hanswer, hb.size], hb.reached.answer hadmits, ?_, fun id hid => ?_⟩
  · rw [hanswer, ← hb.size]
    exact Array.size_push ..
  · rw [hanswer]
    rcases Nat.lt_succ_iff_lt_or_eq.mp hid with hid | rfl
    · obtain ⟨x, hx⟩ := exists_get? (hb.size ▸ hid)
      rw [← hb.names id hid, nameOf_of_get? hx, nameOf_of_get? (get?_push_of_get? hx)]
    · rw [hat, nameOf_of_get? (hb.size ▸ get?_push_size b o')]

/-- A whole run: the objects from a number on get their numbers back, one after the other. -/
theorem Regains.serve_additions (h : Reached a) {n : Nat} (hb : a.Regains n b) {os : List Object}
    (hos : a.objects.toList.drop n = os) :
    (b.serve (os.map Object.addition)).1 = (List.range' n os.length).map (fun id => .ok (some id)) ∧
      a.Regains (n + os.length) (b.serve (os.map Object.addition)).2 := by
  induction os generalizing n b with
  | nil => exact ⟨rfl, hb⟩
  | cons o os ih =>
    have ho : a.get? n = some o := by
      have hhead := congrArg List.head? hos
      rwa [List.head?_drop, List.head?_cons, Array.getElem?_toList] at hhead
    obtain ⟨hid, hnext⟩ := hb.answer_addition h ho
    obtain ⟨hids, hrest⟩ := ih hnext (by rw [← List.drop_drop, hos]; rfl)
    constructor
    · rw [List.map_cons, serve, hid, hids]
      rfl
    · rw [List.length_cons, Nat.add_comm os.length, ← Nat.add_assoc]
      exact hrest

/-- Whatever is dropped comes back under the same numbers. -/
theorem Reached.serve_dropped (h : Reached a) (n : Nat) :
    ∃ b, (a.truncate n).serve ((a.objects.toList.drop n).map Object.addition) =
        ((List.range' n (a.size - n)).map (fun id => .ok (some id)), b) ∧
      Reached b ∧ ∀ name, b.find? name = a.find? name := by
  have hlength : (a.objects.toList.drop n).length = a.size - n := by simp [size]
  -- past the end nothing is dropped, and nothing comes back
  have hstart : a.objects.toList.drop (min n a.size) = a.objects.toList.drop n := by
    rcases Nat.le_total n a.size with hn | hn
    · rw [min_eq_left hn]
    · rw [min_eq_right hn, List.drop_of_length_le (by simp [size]),
        List.drop_of_length_le (by simpa [size] using hn)]
  have hsize : min n a.size + (a.size - n) = a.size := by omega
  obtain ⟨hids, hb⟩ := (h.regains_truncate n).serve_additions h hstart
  rw [hlength, hsize] at hb
  refine ⟨_, Prod.ext ?_ rfl, hb.reached, fun name => Option.ext fun id => ?_⟩
  · rw [hids, hlength]
    rcases Nat.le_total n a.size with hn | hn
    · rw [min_eq_left hn]
    · rw [Nat.sub_eq_zero_of_le hn]
      rfl
  · rw [hb.reached.indexed.find?_eq_some_iff, h.indexed.find?_eq_some_iff]
    by_cases hid : id < a.size
    · rw [hb.names id hid]
    · rw [nameOf, nameOf, get?_eq_none_iff.mpr (Nat.le_of_not_lt hid),
        get?_eq_none_iff.mpr (hb.size ▸ Nat.le_of_not_lt hid)]

/-! ## What a history leaves -/

/-- What holds of an arena whose index is exact and whose objects are older than what is derived
from them. -/
structure Exact (a : Arena) : Prop where
  found : ∀ name id, a.find? name = some id ↔ ∃ o, a.get? id = some o ∧ o.name = name
  distinct : (a.objects.toList.map Object.name).Nodup
  /-- An object gets the next number, unless its name is taken. -/
  added : ∀ u o, u.added? = some o → a.answer u =
    if (a.find? o.name).isSome then (.error (.duplicateName o.name), a)
    else (.ok (some a.size), a.push o)
  failed : ∀ u e, (a.answer u).1 = .error e → (a.answer u).2 = a
  older : ∀ id o parent delta, a.get? id = some o → o.kind = .derived parent delta → parent < id
  /-- Every way to an object that is not derived ends, and its distances add up. -/
  placed : ∀ id < a.size, ∃ root deltas, a.Chain id root deltas ∧
    a.offset id = offsetFrom root deltas.sum
  unlimited : ∀ fuel ≥ a.size, ∀ id, a.offsetWithin fuel id = a.offset id
  /-- Dropped objects that are added again get their numbers back. -/
  restored : ∀ n, ∃ b, (a.truncate n).serve ((a.objects.toList.drop n).map Object.addition) =
      ((List.range' n (a.size - n)).map (fun id => .ok (some id)), b) ∧
    ∀ name, b.find? name = a.find? name

/-- Whatever has been added, refused, changed and dropped, the arena is exact. -/
theorem Reached.index_exact (h : Reached a) : a.Exact where
  found := h.indexed
  distinct := h.indexed.nodup_names
  added _ _ := answer_added
  failed _ _ := answer_of_error
  older := h.older.chained
  placed id hid := by
    obtain ⟨root, deltas, hchain⟩ := h.older.exists_chain hid
    exact ⟨root, deltas, hchain, h.older.offset_eq hchain⟩
  unlimited fuel hfuel id := h.older.offsetWithin_eq_offset hfuel id
  restored n := by
    obtain ⟨b, hserve, -, hfind⟩ := h.serve_dropped n
    exact ⟨b, hserve, hfind⟩

/-- A table with two places in it, after a refused name, a refused offset and a dropped routine. -/
def relocation : List Update :=
  [.addRoutine "main", .addBlock 0 "main.entry", .addData "table" [1, 2, 3, 4],
    .addData "main" [], .addDerived "table.second" 2 2, .addDerived "table.last" 3 1,
    .setEpilogue 0 1, .setOffset 2 128, .setOffset 2 256, .addRoutine "rest", .truncate 5]

theorem relocation_exact : Reached (({} : Arena).serve relocation).2 ∧
    (({} : Arena).serve relocation).2.find? "rest" = none ∧
    (({} : Arena).serve relocation).2.offset 4 = .ok 131 ∧
    (({} : Arena).serve relocation).2.Exact := by
  have h : Reached (({} : Arena).serve relocation).2 := Reached.new.serve (by decide)
  exact ⟨h, by decide, by decide, h.index_exact⟩

end Arena

end SpuCompiler.Objects
