import SpuCompiler.Proofs.Objects.Index

/-!
Objects by name. The number of an object says when it was made; its name says what it is. Here
objects are read with names in the place of numbers, so that arenas can be compared in which the
same objects were made at different times.
-/

namespace SpuCompiler.Objects

open Machine

/-! ## Names for numbers -/

inductive NamedTarget where
  | block (id : Nat)
  | object (name : Option String)
  deriving DecidableEq

/-- An instruction, its target apart. -/
structure NamedInstr where
  instr : Instr
  target : Option NamedTarget
  deriving DecidableEq

inductive NamedKind where
  | routine (epilogue : Option (Option String))
  | block (routine : Option String)
  | data
  | derived (parent : Option String) (delta : Nat)
  deriving DecidableEq

structure NamedObject where
  kind : NamedKind
  offset : Option Nat
  code : List NamedInstr
  data : List UInt8
  declaredSize : Option Nat
  deriving DecidableEq

section Names

variable (names : ObjectId → Option String)

def nameTarget : Target → NamedTarget
  | .block b => .block b
  | .object id => .object (names id)

def nameInstr (i : Instr) : NamedInstr :=
  ⟨{ i with target := none }, i.target.map (nameTarget names)⟩

def nameCode (code : Array Instr) : List NamedInstr := code.toList.map (nameInstr names)

def nameKind : ObjectKind → NamedKind
  | .routine epilogue => .routine (epilogue.map names)
  | .block routine => .block (names routine)
  | .data => .data
  | .derived parent delta => .derived (names parent) delta

def nameObject (x : Object) : NamedObject where
  kind := nameKind names x.kind
  offset := x.offset
  code := nameCode names x.code
  data := x.data
  declaredSize := x.declaredSize

def nameObjects (xs : List Object) : List (String × NamedObject) :=
  xs.map fun x => (x.name, nameObject names x)

end Names

/-- A routine gets an epilogue; nothing else has one. -/
def NamedObject.withEpilogue (epilogue : Option String) (x : NamedObject) : NamedObject :=
  match x.kind with
  | .routine _ => { x with kind := .routine (some epilogue) }
  | _ => x

def Object.withEpilogue (epilogue : ObjectId) (x : Object) : Object :=
  match x.kind with
  | .routine _ => { x with kind := .routine (some epilogue) }
  | _ => x

theorem Object.name_withEpilogue (epilogue : ObjectId) (x : Object) :
    (x.withEpilogue epilogue).name = x.name := by
  unfold withEpilogue
  split <;> rfl

theorem nameObject_withEpilogue (names : ObjectId → Option String) (epilogue : ObjectId)
    (x : Object) : nameObject names (x.withEpilogue epilogue) =
      (nameObject names x).withEpilogue (names epilogue) := by
  unfold Object.withEpilogue NamedObject.withEpilogue
  match hk : x.kind with
  | .routine e | .block e | .data | .derived e d => simp [nameObject, nameKind, hk]

namespace Arena

def nameOf (a : Arena) (id : ObjectId) : Option String := (a.get? id).map Object.name

/-- What there is under a name, with names in the place of numbers. -/
def named (a : Arena) (name : String) : Option NamedObject :=
  ((a.find? name).bind a.get?).map (nameObject a.nameOf)

def namedFrom (a : Arena) (start : ObjectId) : List (String × NamedObject) :=
  nameObjects a.nameOf (a.objects.toList.drop start)

variable {a b : Arena} {id : ObjectId} {name : String} {x : Object}

theorem nameOf_of_get? (h : a.get? id = some x) : a.nameOf id = some x.name := by
  rw [nameOf, h]
  rfl

theorem Indexed.named (ha : a.Indexed) (h : a.get? id = some x) :
    a.named x.name = some (nameObject a.nameOf x) := by
  rw [Arena.named, (ha x.name id).mpr ⟨x, h, rfl⟩, Option.bind_some, h]
  rfl

theorem Indexed.named_eq_none (ha : a.Indexed) (h : ∀ id x, a.get? id = some x → x.name ≠ name) :
    a.named name = none := by
  rw [Arena.named]
  cases hfind : a.find? name with
  | none => rfl
  | some id =>
    obtain ⟨x, hx, hname⟩ := (ha name id).mp hfind
    exact absurd hname (h id x hx)

theorem Indexed.exists_of_named (ha : a.Indexed) {y : NamedObject} (h : a.named name = some y) :
    ∃ id x, a.get? id = some x ∧ x.name = name ∧ nameObject a.nameOf x = y := by
  unfold Arena.named at h
  obtain ⟨x, hx, rfl⟩ := Option.map_eq_some_iff.mp h
  obtain ⟨id, hfind, hget⟩ := Option.bind_eq_some_iff.mp hx
  obtain ⟨x', hx', hname⟩ := (ha name id).mp hfind
  obtain rfl : x = x' := Option.some.inj (hget.symm.trans hx')
  exact ⟨id, x, hget, hname, rfl⟩

end Arena

/-! ## Other names -/

theorem nameInstr_congr {names names' : ObjectId → Option String} {i : Instr}
    (h : ∀ id, i.target ≠ some (.object id)) : nameInstr names i = nameInstr names' i := by
  unfold nameInstr
  match htarget : i.target with
  | none | some (.block b) => rfl
  | some (.object id) => exact absurd htarget (h id)

namespace Arena

variable {a b : Arena} {id : ObjectId} {x : Object} {names : ObjectId → Option String}
variable {name : String} {y : NamedObject} {start : ObjectId}

theorem nameOf_modify {f : Object → Object} (hf : ∀ x, (f x).name = x.name) :
    (a.modify id f).nameOf = a.nameOf := by
  funext k
  rw [nameOf, get?_modify, nameOf]
  split
  · cases a.get? k <;> simp [hf]
  · rfl

/-- The names are those of the objects of the arena; other numbers may have names too. -/
def NamedBy (a : Arena) (names : ObjectId → Option String) : Prop :=
  ∀ id x, a.get? id = some x → names id = some x.name

theorem namedBy_nameOf (a : Arena) : a.NamedBy a.nameOf := fun _ _ => nameOf_of_get?

theorem NamedBy.before (h : b.NamedBy names) (hab : a.Adds b) : a.NamedBy names :=
  fun id x hx => h id x (hab.get? id x hx)

theorem NamedBy.of_nameOf_eq (h : b.NamedBy names) (hab : b.nameOf = a.nameOf) :
    a.NamedBy names := by
  intro id x hx
  have hname : b.nameOf id = some x.name := hab ▸ nameOf_of_get? hx
  obtain ⟨y, hy, hyname⟩ := Option.map_eq_some_iff.mp hname
  rw [h id y hy, hyname]

/-- Objects refer to objects of the arena only, so names of other numbers do not matter. -/
def Closed (a : Arena) : Prop :=
  ∀ names, a.NamedBy names → ∀ id x, a.get? id = some x → nameObject names x = nameObject a.nameOf x

theorem Closed.insert (h : a.Closed) (hi : a.insert x = .ok (id, b))
    (hx : ∀ names names', nameObject names x = nameObject names' x) : b.Closed := by
  intro names hnames k y hy
  have hadds := Adds.insert hi
  obtain ⟨-, rfl⟩ := insert_ok hi
  rcases get?_push hy with hy | ⟨-, rfl⟩
  · rw [h names (hnames.before hadds) k y hy, h _ ((namedBy_nameOf _).before hadds) k y hy]
  · exact hx _ _

/-- Where the objects with a name are the same, so is what there is under it. -/
theorem Closed.named_eq (h : a.Closed) (ha : a.Indexed) (hb : b.Indexed)
    (hnames : a.NamedBy b.nameOf)
    (hold : ∀ k x, a.get? k = some x → x.name = name → b.get? k = some x)
    (hnew : ∀ k x, b.get? k = some x → x.name = name → ∃ y, a.get? k = some y ∧ y.name = name) :
    b.named name = a.named name := by
  cases hfind : a.find? name with
  | some id =>
    obtain ⟨x, hx, rfl⟩ := (ha name id).mp hfind
    rw [hb.named (hold id x hx rfl), ha.named hx, h _ hnames id x hx]
  | none =>
    have hnone : b.named name = none := by
      refine hb.named_eq_none fun k x hx hname => ?_
      have hfound := (ha name k).mpr (hnew k x hx hname)
      rw [hfind] at hfound
      cases hfound
    rw [hnone, named, hfind]
    rfl

theorem Closed.named_insert (h : a.Closed) (ha : a.Indexed) (hi : a.insert x = .ok (id, b))
    (name : String) :
    b.named name = if name = x.name then some (nameObject b.nameOf x) else a.named name := by
  have hb := ha.insert hi
  have hadds := Adds.insert hi
  split
  · rename_i hname
    obtain ⟨rfl, rfl⟩ := insert_ok hi
    rw [hname, hb.named (get?_push_size a x)]
  · rename_i hname
    refine h.named_eq ha hb ((namedBy_nameOf b).before hadds) (fun k y hy _ => hadds.get? k y hy) ?_
    intro k y hy hyname
    obtain ⟨rfl, rfl⟩ := insert_ok hi
    rcases get?_push hy with hy | ⟨-, rfl⟩
    · exact ⟨y, hy, hyname⟩
    · exact absurd hyname.symm hname

theorem mem_objects_iff {a : Arena} {x : Object} :
    x ∈ a.objects.toList ↔ ∃ id, a.get? id = some x := by
  simp only [List.mem_iff_getElem?, Array.getElem?_toList, get?]

theorem Indexed.mem_nameObjects (ha : a.Indexed) :
    (name, y) ∈ nameObjects a.nameOf a.objects.toList ↔ a.named name = some y := by
  unfold nameObjects
  rw [List.mem_map]
  constructor
  · rintro ⟨x, hx, ⟨⟩⟩
    obtain ⟨id, hid⟩ := mem_objects_iff.mp hx
    exact ha.named hid
  · intro h
    obtain ⟨id, x, hx, rfl, rfl⟩ := ha.exists_of_named h
    exact ⟨x, mem_objects_iff.mpr ⟨id, hx⟩, rfl⟩

theorem lookup_namedFrom_eq_some (h : (a.namedFrom start).lookup name = some y) :
    ∃ id x, start ≤ id ∧ a.get? id = some x ∧ x.name = name ∧ nameObject a.nameOf x = y := by
  obtain ⟨l, l', hl, -⟩ := List.lookup_eq_some_iff.mp h
  have hmem : (name, y) ∈ a.namedFrom start := by simp [hl]
  obtain ⟨x, hx, hxy⟩ := List.mem_map.mp hmem
  obtain ⟨rfl, rfl⟩ := Prod.mk.inj hxy
  obtain ⟨k, hk⟩ := List.mem_iff_getElem?.mp hx
  rw [List.getElem?_drop, Array.getElem?_toList] at hk
  exact ⟨start + k, x, Nat.le_add_right _ _, hk, rfl, rfl⟩

theorem lookup_namedFrom_eq_none (h : (a.namedFrom start).lookup name = none)
    (hx : a.get? id = some x) (hname : x.name = name) : id < start := by
  by_contra hle
  have hdrop : (a.objects.toList.drop start)[id - start]? = some x := by
    rw [List.getElem?_drop, Array.getElem?_toList, Nat.add_sub_cancel' (not_lt.mp hle)]
    exact hx
  have hmem : (x.name, nameObject a.nameOf x) ∈ a.namedFrom start :=
    List.mem_map.mpr ⟨x, List.mem_of_getElem? hdrop, rfl⟩
  have hne := List.lookup_eq_none_iff.mp h _ hmem
  simp [hname] at hne

theorem Indexed.nodup_names (ha : a.Indexed) : (a.objects.toList.map Object.name).Nodup := by
  rw [List.Nodup, List.pairwise_map, List.pairwise_iff_getElem]
  have hfind : ∀ k (hk : k < a.objects.toList.length),
      a.find? a.objects.toList[k].name = some k := by
    intro k hk
    refine (ha _ k).mpr ⟨_, ?_, rfl⟩
    rw [get?, ← Array.getElem?_toList, List.getElem?_eq_getElem hk]
  intro i j hi hj hlt hname
  have hfound := hfind i hi
  rw [hname, hfind j hj] at hfound
  cases hfound
  omega

theorem Indexed.nodup_nameObjects (ha : a.Indexed) :
    (nameObjects a.nameOf a.objects.toList).Nodup := by
  refine List.Nodup.of_map Prod.fst ?_
  rw [nameObjects, List.map_map]
  exact ha.nodup_names

/-- Arenas with the same objects under all names have the same objects, in some order. -/
theorem Indexed.perm_nameObjects (ha : a.Indexed) (hb : b.Indexed)
    (h : ∀ name, a.named name = b.named name) :
    (nameObjects a.nameOf a.objects.toList).Perm (nameObjects b.nameOf b.objects.toList) := by
  refine (List.perm_ext_iff_of_nodup ha.nodup_nameObjects hb.nodup_nameObjects).mpr ?_
  rintro ⟨name, y⟩
  rw [ha.mem_nameObjects, hb.mem_nameObjects, h]

end Arena

end SpuCompiler.Objects
