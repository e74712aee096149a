import SpuCompiler.Proofs.Objects.Arrangement

/-!
Images of laid out programs. Every object has its place: routines and data in order and aligned,
the blocks of a routine one behind the other, derived objects at their distance. No two objects
share a byte, so the bytes of an image are those of its objects, and zero elsewhere.
-/

namespace SpuCompiler.Objects

open Machine

variable {α : Type} {a : Arena} {id : ObjectId} {p : PlacedObject} {map : RegisterMap} {j : Nat}
  {image : Image}

namespace PlacedObject

def size (p : PlacedObject) : Nat :=
  match p.kind with
  | .block _ => 4 * p.code.size
  | .data => p.data.length
  | .routine _ | .derived _ _ => 0

def hasBytes (p : PlacedObject) : Bool :=
  match p.kind with
  | .block _ | .data => true
  | .routine _ | .derived _ _ => false

def isTopLevel (p : PlacedObject) : Bool :=
  match p.kind with
  | .routine _ | .data => true
  | .block _ | .derived _ _ => false

def Covers (p : PlacedObject) (x : Nat) : Prop :=
  p.hasBytes = true ∧ p.offset ≤ x ∧ x < p.offset + p.size

end PlacedObject

def Consecutive : Nat → List PlacedObject → Prop
  | _, [] => True
  | start, p :: ps => p.offset = start ∧ Consecutive (start + p.size) ps

/-- The image of an arena: every object is placed, in order, and apart from the others. -/
structure Image.Arranges (image : Image) (a : Arena) (base limit : Nat) : Prop where
  starts : image.base = base
  length : image.objects.length = a.size
  placed : ∀ id o, a.get? id = some o → ∃ p, image.objects[id]? = some p ∧ p.id = id ∧
    p.name = o.name ∧ p.kind = o.kind ∧ p.data = o.data ∧ p.code.size = o.code.size
  aligned : ∀ p ∈ image.objects, p.isTopLevel = true → 16 ∣ p.offset
  ordered : ∀ (i j : Nat) p q, i < j → image.objects[i]? = some p → image.objects[j]? = some q →
    p.isTopLevel = true → q.isTopLevel = true → p.offset ≤ q.offset
  blocks : ∀ (r : Nat) p epilogue, image.objects[r]? = some p → p.kind = .routine epilogue →
    Consecutive p.offset (image.objects.filter (·.kind = .block r))
  derived : ∀ p ∈ image.objects, ∀ parent delta, p.kind = .derived parent delta →
    ∃ q, image.objects[parent]? = some q ∧ p.offset = q.offset + delta
  disjoint : ∀ (i j : Nat) p q, i ≠ j → image.objects[i]? = some p → image.objects[j]? = some q →
    p.hasBytes = true → q.hasBytes = true →
    p.offset + p.size ≤ q.offset ∨ q.offset + q.size ≤ p.offset
  inside : ∀ p ∈ image.objects, p.hasBytes = true →
    base ≤ p.offset ∧ p.offset + p.size ≤ base + image.size
  fits : base + image.size ≤ limit

/-- What the bytes of an image are: the words of the blocks, the most significant byte first,
the data, and zero where no object is. -/
structure Image.Shows (image : Image) (map : RegisterMap) (out : Array UInt8) : Prop where
  size : out.size = image.size
  block : ∀ p ∈ image.objects, ∀ r, p.kind = .block r → ∀ (k : Nat) i, p.code[k]? = some i →
    ∃ w : Word, i.encode map = .ok w ∧ ∀ j < 4,
      out[p.offset - image.base + 4 * k + j]? = some (UInt8.ofNat (w.toNat / 256 ^ (3 - j)))
  data : ∀ p ∈ image.objects, p.kind = .data → ∀ (k : Nat) b, p.data[k]? = some b →
    out[p.offset - image.base + k]? = some b
  zero : ∀ x < image.size, (∀ p ∈ image.objects, ¬ p.Covers (image.base + x)) → out[x]? = some 0

/-! ## Placed objects -/

theorem getElem?_filterMap_range {g : Nat → Option α} {n : Nat} (h : ∀ i < n, (g i).isSome = true)
    (i : Nat) : ((List.range n).filterMap g)[i]? = if i < n then g i else none := by
  have hlen : ∀ n, (∀ i < n, (g i).isSome = true) → ((List.range n).filterMap g).length = n := by
    intro n h
    induction n with
    | zero => rfl
    | succ n ih =>
      obtain ⟨x, hx⟩ := Option.isSome_iff_exists.mp (h n (Nat.lt_succ_self n))
      rw [List.range_succ, List.filterMap_append, List.length_append,
        ih fun i hi => h i (Nat.lt_succ_of_lt hi)]
      simp [hx]
  induction n with
  | zero => simp
  | succ n ih =>
    have h' : ∀ i < n, (g i).isSome = true := fun i hi => h i (Nat.lt_succ_of_lt hi)
    obtain ⟨x, hx⟩ := Option.isSome_iff_exists.mp (h n (Nat.lt_succ_self n))
    rw [List.range_succ, List.filterMap_append, List.getElem?_append, hlen n h', ih h']
    rcases Nat.lt_trichotomy i n with hlt | rfl | hgt
    · simp [hlt, Nat.lt_succ_of_lt hlt]
    · simp [hx]
    · have hnone : [x][i - n]? = none := List.getElem?_eq_none (by simp only [List.length_singleton]; omega)
      rw [if_neg (by omega), if_neg (by omega)]
      simpa [hx] using hnone

theorem pairwise_or {R : α → α → Prop} {l : List α} (h : l.Pairwise R) {x y : α} (hx : x ∈ l)
    (hy : y ∈ l) (hne : x ≠ y) : R x y ∨ R y x := by
  have hor : l.Pairwise fun x y => R x y ∨ R y x := h.imp Or.inl
  have : Std.Symm fun x y => R x y ∨ R y x := ⟨fun _ _ => Or.symm⟩
  exact hor.forall hx hy hne

def Object.placedAt (o : Object) (id : ObjectId) (offset : Nat) : PlacedObject :=
  ⟨id, o.name, o.kind, offset, o.code, o.data⟩

def Arena.placed? (a : Arena) (id : ObjectId) : Option PlacedObject :=
  match a.offset id, a.get? id with
  | .ok offset, some o => some (o.placedAt id offset)
  | _, _ => none

theorem Arena.placedObjects_eq (a : Arena) :
    Layout.placedObjects a = (List.range a.size).filterMap a.placed? := rfl

theorem Arena.placed?_eq_some_iff :
    a.placed? id = some p ↔
      ∃ o x, a.get? id = some o ∧ a.offset id = .ok x ∧ p = o.placedAt id x := by
  unfold Arena.placed?
  cases hx : a.offset id with
  | error e => simp
  | ok x =>
    cases ho : a.get? id with
    | none => simp
    | some o => simp [eq_comm]

theorem size_placedAt (o : Object) (id : ObjectId) (x : Nat) :
    (o.placedAt id x).size = o.contentSize := by
  unfold PlacedObject.size Object.contentSize Object.placedAt
  cases o.kind <;> rfl

theorem Arena.contentSize_of_get? {o : Object} (h : a.get? id = some o) :
    a.contentSize id = o.contentSize := by
  simp [Arena.contentSize, h]

/-- Where every object has an offset, the placed objects are numbered as the objects are. -/
theorem Arena.getElem?_placedObjects (h : ∀ id o, a.get? id = some o → ∃ x, a.offset id = .ok x)
    {id : Nat} :
    (Layout.placedObjects a)[id]? = some p ↔
      ∃ o x, a.get? id = some o ∧ a.offset id = .ok x ∧ p = o.placedAt id x := by
  have hsome : ∀ i < a.size, (a.placed? i).isSome = true := by
    intro i hi
    obtain ⟨o, ho⟩ := Arena.exists_get? hi
    obtain ⟨x, hx⟩ := h i o ho
    exact Option.isSome_iff_exists.mpr ⟨_, Arena.placed?_eq_some_iff.mpr ⟨o, x, ho, hx, rfl⟩⟩
  rw [← Arena.placed?_eq_some_iff, Arena.placedObjects_eq, getElem?_filterMap_range hsome]
  split
  · rfl
  · rename_i hid
    constructor
    · rintro ⟨⟩
    · intro hp
      obtain ⟨o, _, ho, -⟩ := Arena.placed?_eq_some_iff.mp hp
      exact absurd (Arena.lt_size_of_get? ho) hid

section Laid

variable {a f : Arena} {base limit stop : Nat} {image : Image}

theorem LaidOut.getElem?_objects (h : LaidOut a base limit image f stop) {id : Nat} :
    image.objects[id]? = some p ↔
      ∃ o x, f.get? id = some o ∧ f.offset id = .ok x ∧ p = o.placedAt id x := by
  rw [h.image]
  exact Arena.getElem?_placedObjects fun id o ho => (h.offset id o ho).imp fun _ hx => hx.1

theorem LaidOut.length_objects (h : LaidOut a base limit image f stop) :
    image.objects.length = f.size := by
  refine Nat.le_antisymm (Nat.le_of_not_lt fun hlt => ?_) (Nat.le_of_not_lt fun hlt => ?_)
  · obtain ⟨o, _, ho, -⟩ := h.getElem?_objects.mp (List.getElem?_eq_getElem hlt)
    exact absurd (Arena.lt_size_of_get? ho) (Nat.lt_irrefl _)
  · obtain ⟨o, ho⟩ := Arena.exists_get? hlt
    obtain ⟨x, hx, -⟩ := h.offset _ o ho
    have hget := h.getElem?_objects.mpr ⟨o, x, ho, hx, rfl⟩
    exact absurd (List.getElem?_eq_some_iff.mp hget).1 (Nat.lt_irrefl _)

/-- An object with a place of its own is placed there. -/
theorem LaidOut.place?_eq (h : LaidOut a base limit image f stop) {id : Nat}
    (hp : image.objects[id]? = some p) (hk : ∀ parent delta, p.kind ≠ .derived parent delta) :
    f.place? id = some p.offset ∧ f.contentSize id = p.size ∧
      (id ∈ f.topLevel ∨ id ∈ f.topLevel.flatMap f.parts) := by
  obtain ⟨o, x, ho, hx, rfl⟩ := h.getElem?_objects.mp hp
  refine ⟨(Arena.offset_own ho hk).mp hx, ?_, h.covered id o ho hk⟩
  rw [Arena.contentSize_of_get? ho, size_placedAt]

/-- Objects with bytes are parts of routines and data. -/
theorem LaidOut.mem_parts (h : LaidOut a base limit image f stop) {id : Nat}
    (hp : image.objects[id]? = some p) (hb : p.hasBytes = true) :
    f.place? id = some p.offset ∧ f.contentSize id = p.size ∧ id ∈ f.topLevel.flatMap f.parts := by
  have hk : ∀ parent delta, p.kind ≠ .derived parent delta := by
    intro parent delta hk
    simp [PlacedObject.hasBytes, hk] at hb
  obtain ⟨hplace, hsize, hmem⟩ := h.place?_eq hp hk
  refine ⟨hplace, hsize, ?_⟩
  rcases hmem with hmem | hmem
  · -- a data object is its own part
    obtain ⟨o, x, ho, -, rfl⟩ := h.getElem?_objects.mp hp
    refine List.mem_flatMap.mpr ⟨id, hmem, ?_⟩
    have hk' : ∀ epilogue, o.kind ≠ .routine epilogue := by
      intro epilogue hk'
      simp [PlacedObject.hasBytes, Object.placedAt, hk'] at hb
    unfold Arena.parts
    rw [ho, Option.map_some]
    split
    · rename_i epilogue he
      exact absurd (Option.some.inj he) (hk' epilogue)
    · simp
  · exact hmem

theorem LaidOut.mem_topLevel (h : LaidOut a base limit image f stop) {id : Nat}
    (hp : image.objects[id]? = some p) (ht : p.isTopLevel = true) :
    id ∈ f.topLevel ∧ f.place? id = some p.offset := by
  obtain ⟨o, x, ho, hx, rfl⟩ := h.getElem?_objects.mp hp
  have hmem : o.isTopLevel = true := by
    unfold PlacedObject.isTopLevel Object.placedAt at ht
    unfold Object.isTopLevel
    cases hk : o.kind <;> simp_all
  refine ⟨Arena.mem_topLevel.mpr ⟨o, ho, hmem⟩, (Arena.offset_own ho ?_).mp hx⟩
  intro parent delta hk
  simp [Object.isTopLevel, hk] at hmem

theorem Stacked.consecutive {start stop : Nat} {ids : List ObjectId} (h : Stacked f start ids stop)
    (hids : ∀ id ∈ ids, ∃ o x, f.get? id = some o ∧ f.offset id = .ok x ∧
      ∀ parent delta, o.kind ≠ .derived parent delta) :
    Consecutive start (ids.filterMap f.placed?) := by
  induction h with
  | nil start => trivial
  | @cons start stop id ids hplace _ ih =>
    obtain ⟨o, x, ho, hx, hk⟩ := hids id (by simp)
    have hp : f.placed? id = some (o.placedAt id x) :=
      Arena.placed?_eq_some_iff.mpr ⟨o, x, ho, hx, rfl⟩
    rw [List.filterMap_cons_some hp]
    refine ⟨?_, ?_⟩
    · exact Option.some.inj (((Arena.offset_own ho hk).mp hx).symm.trans hplace)
    · rw [size_placedAt, ← Arena.contentSize_of_get? ho]
      exact ih fun j hj => hids j (by simp [hj])

theorem LaidOut.blocks_eq (h : LaidOut a base limit image f stop) (r : Nat) :
    image.objects.filter (·.kind = .block r) = (f.blocksOf r).filterMap f.placed? := by
  rw [h.image]
  change (Layout.placedObjects f).filter _ = _
  rw [Arena.placedObjects_eq, Arena.blocksOf, List.filter_filterMap, List.filterMap_filter]
  refine List.filterMap_congr ?_
  intro id _
  cases hp : f.placed? id with
  | none => simp
  | some p =>
    obtain ⟨o, x, ho, -, rfl⟩ := Arena.placed?_eq_some_iff.mp hp
    by_cases hk : o.kind = .block r <;> simp [ho, Object.isBlockOf, Object.placedAt, hk]

/-- The blocks of a routine in the image are the objects of its blocks. -/
theorem LaidOut.filter_blocks (h : LaidOut a base limit image f stop) (r : Nat) :
    image.objects.filter (·.kind = .block r) =
      (a.blocksOf r).filterMap fun id => image.objects[id]? := by
  rw [h.blocks_eq, h.places.blocksOf]
  refine List.filterMap_congr fun id _ => Option.ext fun p => ?_
  rw [Arena.placed?_eq_some_iff, h.getElem?_objects]

theorem LaidOut.arranges (h : LaidOut a base limit image f stop) :
    image.Arranges a base limit := by
  obtain ⟨hle, hwithin, hpair⟩ := h.arranged.ordered
  obtain ⟨-, hstarts⟩ := h.arranged.starts
  have hsize : image.size = stop - base := by rw [h.image]
  constructor
  case starts => rw [h.image]
  case length => rw [h.length_objects, h.places.size]
  case placed =>
    intro id o ho
    rcases h.places.get?_cases id with ⟨hn, -⟩ | ⟨o', o'', ho', ho'', hname, hkind, hdata, hcode⟩
    · rw [hn] at ho
      cases ho
    obtain rfl : o = o' := Option.some.inj (ho.symm.trans ho')
    obtain ⟨x, hx, -⟩ := h.offset id o'' ho''
    exact ⟨_, h.getElem?_objects.mpr ⟨o'', x, ho'', hx, rfl⟩, rfl, hname, hkind, hdata, hcode⟩
  case aligned =>
    intro p hp ht
    obtain ⟨id, hp⟩ := List.mem_iff_getElem?.mp hp
    obtain ⟨o, x, ho, hx, rfl⟩ := h.getElem?_objects.mp hp
    obtain ⟨y, hy, hmod⟩ := h.offset id o ho
    obtain rfl : x = y := Except.ok.inj (hx.symm.trans hy)
    have halign : o.alignment = 16 := by
      unfold PlacedObject.isTopLevel Object.placedAt at ht
      unfold Object.alignment
      cases hk : o.kind <;> simp_all
    exact Nat.dvd_of_mod_eq_zero (halign ▸ hmod)
  case ordered =>
    intro i j p q hij hp hq htp htq
    obtain ⟨hi, hpi⟩ := h.mem_topLevel hp htp
    obtain ⟨hj, hqj⟩ := h.mem_topLevel hq htq
    have hsorted : f.topLevel.Pairwise (· < ·) := List.pairwise_lt_range.filter _
    rcases pairwise_or (hsorted.and hstarts) hi hj (Nat.ne_of_lt hij) with ⟨-, hle⟩ | ⟨hji, -⟩
    · exact hle _ _ hpi hqj
    · exact absurd hji (Nat.lt_asymm hij)
  case blocks =>
    intro r p epilogue hp hk
    obtain ⟨hr, hplace⟩ := h.mem_topLevel hp (by simp [PlacedObject.isTopLevel, hk])
    obtain ⟨start, next, hstart, -, hstack⟩ := h.arranged.stacked hr
    obtain ⟨o, x, ho, -, rfl⟩ := h.getElem?_objects.mp hp
    have hparts : f.parts r = f.blocksOf r := by
      have hk : o.kind = .routine epilogue := hk
      simp [Arena.parts, ho, hk]
    obtain rfl : start = _ := Option.some.inj (hstart.symm.trans hplace)
    rw [h.blocks_eq]
    rw [hparts] at hstack
    refine hstack.consecutive ?_
    intro id hid
    obtain ⟨o, ho, hk⟩ := mem_blocksOf.mp hid
    obtain ⟨x, hx, -⟩ := h.offset id o ho
    exact ⟨o, x, ho, hx, by simp [hk]⟩
  case derived =>
    intro p hp parent delta hk
    obtain ⟨id, hp⟩ := List.mem_iff_getElem?.mp hp
    obtain ⟨o, x, ho, hx, rfl⟩ := h.getElem?_objects.mp hp
    rw [h.chained.offset_derived ho hk] at hx
    cases hy : f.offset parent with
    | error e => simp [hy, Except.map] at hx
    | ok y =>
      obtain ⟨o', ho'⟩ := Arena.exists_get?_of_offset hy
      rw [hy] at hx
      exact ⟨_, h.getElem?_objects.mpr ⟨o', y, ho', hy, rfl⟩, (Except.ok.inj hx).symm⟩
  case disjoint =>
    intro i j p q hij hp hq hbp hbq
    obtain ⟨hpi, hsi, hi⟩ := h.mem_parts hp hbp
    obtain ⟨hpj, hsj, hj⟩ := h.mem_parts hq hbq
    rcases pairwise_or hpair hi hj hij with hpre | hpre
    · exact .inl (hsi ▸ hpre _ _ hpi hpj)
    · exact .inr (hsj ▸ hpre _ _ hpj hpi)
  case inside =>
    intro p hp hb
    obtain ⟨id, hp⟩ := List.mem_iff_getElem?.mp hp
    obtain ⟨hplace, hs, hmem⟩ := h.mem_parts hp hb
    obtain ⟨x, hx, hlo, hhi⟩ := hwithin id hmem
    obtain rfl : x = p.offset := Option.some.inj (hx.symm.trans hplace)
    rw [hs] at hhi
    omega
  case fits =>
    have := h.limit
    omega

end Laid

/-! ## Bytes -/

theorem size_overwrite (out : Array UInt8) (start : Nat) (bs : List UInt8) :
    (overwrite out start bs).size = out.size := by
  induction bs generalizing out start with
  | nil => rfl
  | cons b bs ih => simp [overwrite, ih]

theorem getElem?_overwrite (out : Array UInt8) (start : Nat) (bs : List UInt8) (x : Nat)
    (hfit : start + bs.length ≤ out.size) :
    (overwrite out start bs)[x]? =
      if start ≤ x ∧ x < start + bs.length then bs[x - start]? else out[x]? := by
  induction bs generalizing out start with
  | nil =>
    rw [if_neg (by simp only [List.length_nil]; omega)]
    rfl
  | cons b bs ih =>
    rw [List.length_cons] at hfit ⊢
    rw [overwrite, ih _ _ (by simp only [Array.size_setIfInBounds]; omega),
      Array.getElem?_setIfInBounds]
    rcases Nat.lt_trichotomy x start with hlt | rfl | hgt
    · rw [if_neg (by omega), if_neg (by omega), if_neg (by omega)]
    · rw [if_neg (by omega), if_pos rfl, if_pos (by omega), if_pos (by omega), Nat.sub_self]
      rfl
    · by_cases hin : x < start + 1 + bs.length
      · rw [if_pos (by omega), if_pos (by omega)]
        obtain ⟨d, rfl⟩ : ∃ d, x = start + 1 + d := ⟨x - (start + 1), by omega⟩
        rw [show start + 1 + d - start = d + 1 by omega, Nat.add_sub_cancel_left]
        rfl
      · rw [if_neg (by omega), if_neg (by omega), if_neg (by omega)]

theorem encodeFrom_ok {is : List Instr} (h : ∀ i ∈ is, ∃ w, i.encode map = .ok w) (name : String)
    (index : Nat) :
    ∃ ws, PlacedObject.encodeFrom name map index is = .ok ws ∧
      List.Forall₂ (fun i w => i.encode map = .ok w) is ws := by
  induction is generalizing index with
  | nil => exact ⟨[], rfl, .nil⟩
  | cons i is ih =>
    obtain ⟨w, hw⟩ := h i (by simp)
    obtain ⟨ws, hws, hall⟩ := ih (fun j hj => h j (by simp [hj])) (index + 1)
    refine ⟨w :: ws, ?_, .cons hw hall⟩
    simp [PlacedObject.encodeFrom, hw, hws, Except.map]

theorem getElem?_bigEndian (n : Nat) (hj : j < 4) :
    (Binary.bigEndian 4 n)[j]? = some (UInt8.ofNat (n / 256 ^ (3 - j))) := by
  have : j = 0 ∨ j = 1 ∨ j = 2 ∨ j = 3 := by omega
  rcases this with rfl | rfl | rfl | rfl <;>
    simp [Binary.bigEndian, Binary.littleEndian, Nat.div_div_eq_div_mul]

theorem getElem?_flatMap_bigEndian {ws : List Word} {k : Nat} {w : Word} (hw : ws[k]? = some w)
    (hj : j < 4) :
    (ws.flatMap fun w => Binary.bigEndian 4 w.toNat)[4 * k + j]? =
      some (UInt8.ofNat (w.toNat / 256 ^ (3 - j))) := by
  have hlen : ∀ w : Word, (Binary.bigEndian 4 w.toNat).length = 4 := fun _ => rfl
  induction ws generalizing k with
  | nil => cases hw
  | cons v ws ih =>
    rw [List.flatMap_cons]
    cases k with
    | zero =>
      cases hw
      rw [List.getElem?_append_left (by rw [hlen]; omega), Nat.mul_zero, Nat.zero_add,
        getElem?_bigEndian _ hj]
    | succ k =>
      rw [List.getElem?_append_right (by rw [hlen]; omega), hlen,
        show 4 * (k + 1) + j - 4 = 4 * k + j by omega]
      exact ih hw

/-- The bytes of an object are as many as its size. -/
theorem PlacedObject.bytes_ok
    (h : ∀ r, p.kind = .block r → ∀ i ∈ p.code, ∃ w, i.encode map = .ok w) :
    ∃ bs, p.bytes map = .ok bs ∧ bs.length = p.size ∧
      (∀ r, p.kind = .block r → ∀ (k : Nat) i, p.code[k]? = some i →
        ∃ w : Word, i.encode map = .ok w ∧ ∀ j < 4,
          bs[4 * k + j]? = some (UInt8.ofNat (w.toNat / 256 ^ (3 - j)))) ∧
      (p.kind = .data → bs = p.data) := by
  unfold PlacedObject.bytes PlacedObject.size
  cases hk : p.kind with
  | routine epilogue => exact ⟨[], rfl, rfl, by simp, by simp⟩
  | derived parent delta => exact ⟨[], rfl, rfl, by simp, by simp⟩
  | data => exact ⟨p.data, rfl, rfl, by simp, fun _ => rfl⟩
  | block r =>
    have hcode : ∀ i ∈ p.code.toList, ∃ w, i.encode map = .ok w :=
      fun i hi => h r hk i (Array.mem_toList_iff.mp hi)
    obtain ⟨ws, hws, hall⟩ := encodeFrom_ok hcode p.name 0
    obtain ⟨hlen, hget⟩ := List.forall₂_iff_get.mp hall
    refine ⟨ws.flatMap fun w => Binary.bigEndian 4 w.toNat, ?_, ?_, ?_, by simp⟩
    · simp only [PlacedObject.encode, hws]
      rfl
    · rw [← Array.length_toList, hlen, List.length_flatMap]
      have hfour : ∀ w : Word, (Binary.bigEndian 4 w.toNat).length = 4 := fun _ => rfl
      simp [hfour, Nat.mul_comm]
    · intro _ _ k i hi
      obtain ⟨hk, rfl⟩ := Array.getElem?_eq_some_iff.mp hi
      have hk' : k < ws.length := hlen ▸ hk
      exact ⟨ws.get ⟨k, hk'⟩, hget k hk hk', fun j hj =>
        getElem?_flatMap_bigEndian (List.getElem?_eq_getElem hk') hj⟩

def Apart (p q : PlacedObject) : Prop := ∀ x, p.Covers x → ¬ q.Covers x

theorem PlacedObject.covers_of_lt {x : Nat} (hle : p.offset ≤ x) (hlt : x < p.offset + p.size) :
    p.Covers x := by
  refine ⟨?_, hle, hlt⟩
  unfold PlacedObject.size at hlt
  unfold PlacedObject.hasBytes
  cases hk : p.kind <;> simp_all <;> omega

/-- Objects that are apart are all written, and nothing else is. -/
theorem Image.writeObjects_ok {os : List PlacedObject}
    (hbytes : ∀ p ∈ os, ∃ bs, p.bytes map = .ok bs ∧ bs.length = p.size)
    (hapart : os.Pairwise Apart) (hinside : ∀ p ∈ os, 0 < p.size → image.base ≤ p.offset ∧ p.offset
      + p.size ≤ image.base + image.size) {out : Array UInt8} (hsize : out.size = image.size) :
    ∃ out', image.writeObjects map out os = .ok out' ∧ out'.size = image.size ∧
      (∀ p ∈ os, ∀ bs, p.bytes map = .ok bs → ∀ (k : Nat) b, bs[k]? = some b →
        out'[p.offset - image.base + k]? = some b) ∧
      ∀ x, (∀ p ∈ os, ¬ p.Covers (image.base + x)) → out'[x]? = out[x]? := by
  induction os generalizing out with
  | nil => exact ⟨out, rfl, hsize, by simp, fun _ _ => rfl⟩
  | cons p os ih =>
    obtain ⟨bs, hbs, hlen⟩ := hbytes p (by simp)
    obtain ⟨hhead, hpair⟩ := List.pairwise_cons.mp hapart
    have hwrite : ∀ x, (overwrite out (p.offset - image.base) bs)[x]? =
        if p.offset ≤ image.base + x ∧ image.base + x < p.offset + p.size then
          bs[x - (p.offset - image.base)]?
        else out[x]? := by
      intro x
      rcases Nat.eq_zero_or_pos p.size with hzero | hpos
      · obtain rfl : bs = [] := List.length_eq_zero_iff.mp (hlen.trans hzero)
        rw [if_neg (by omega)]
        rfl
      · obtain ⟨hlo, hhi⟩ := hinside p (by simp) hpos
        rw [getElem?_overwrite _ _ _ _ (by omega), hlen]
        refine if_congr ?_ rfl rfl
        omega
    have hwritten : (overwrite out (p.offset - image.base) bs).size = image.size := by
      rw [size_overwrite, hsize]
    obtain ⟨out', hout', hsize', hobjects, hother⟩ := ih (fun q hq => hbytes q (by simp [hq])) hpair
      (fun q hq => hinside q (by simp [hq])) hwritten
    refine ⟨out', by simp only [Image.writeObjects, hbs, hout'], hsize', ?_, ?_⟩
    · rintro q (_ | ⟨_, hq⟩) bs' hbs' k b hb
      · obtain rfl : bs = bs' := Except.ok.inj (hbs.symm.trans hbs')
        have hk := (List.getElem?_eq_some_iff.mp hb).1
        obtain ⟨hlo, hhi⟩ := hinside p (by simp) (by omega)
        have hcovers : p.Covers (image.base + (p.offset - image.base + k)) :=
          PlacedObject.covers_of_lt (by omega) (by omega)
        rw [hother _ fun q hq => hhead q hq _ hcovers, hwrite, if_pos hcovers.2,
          Nat.add_sub_cancel_left, hb]
      · exact hobjects q hq bs' hbs' k b hb
    · intro x hx
      rw [hother x fun q hq => hx q (by simp [hq]), hwrite, if_neg]
      intro hin
      exact hx p (by simp) (PlacedObject.covers_of_lt hin.1 hin.2)

theorem Image.Arranges.shows {base limit : Nat} (h : image.Arranges a base limit) (hencode : ∀ p ∈
      image.objects, ∀ r, p.kind = .block r → ∀ i ∈ p.code, ∃ w, i.encode map = .ok w) :
    ∃ out, image.toBytes map = .ok out ∧ image.Shows map out := by
  have hbytes : ∀ p ∈ image.objects, ∃ bs, p.bytes map = .ok bs ∧ bs.length = p.size := by
    intro p hp
    obtain ⟨bs, hbs, hlen, -⟩ := PlacedObject.bytes_ok (hencode p hp)
    exact ⟨bs, hbs, hlen⟩
  have hapart : image.objects.Pairwise Apart := by
    rw [List.pairwise_iff_getElem]
    intro i j hi hj hij x hp hq
    have := h.disjoint i j _ _ (Nat.ne_of_lt hij) (List.getElem?_eq_getElem hi)
      (List.getElem?_eq_getElem hj) hp.1 hq.1
    have := hp.2
    have := hq.2
    omega
  have hinside : ∀ p ∈ image.objects, 0 < p.size → image.base ≤ p.offset ∧
      p.offset + p.size ≤ image.base + image.size := by
    intro p hp hpos
    rw [h.starts]
    exact h.inside p hp (PlacedObject.covers_of_lt (le_refl _) (by omega)).1
  obtain ⟨out, hout, hsize, hobjects, hother⟩ := Image.writeObjects_ok hbytes hapart hinside
    (Array.size_replicate (n := image.size) (v := (0 : UInt8)))
  refine ⟨out, hout, hsize, ?_, ?_, ?_⟩
  · intro p hp r hk k i hi
    obtain ⟨bs, hbs, -, hwords, -⟩ := PlacedObject.bytes_ok (hencode p hp)
    obtain ⟨w, hw, hbytes⟩ := hwords r hk k i hi
    refine ⟨w, hw, fun j hj => ?_⟩
    rw [Nat.add_assoc]
    exact hobjects p hp bs hbs _ _ (hbytes j hj)
  · intro p hp hk k b hb
    obtain ⟨bs, hbs, -, -, hdata⟩ := PlacedObject.bytes_ok (hencode p hp)
    exact hobjects p hp bs hbs k b (by rw [hdata hk]; exact hb)
  · intro x hx hnone
    rw [hother x hnone]
    simp [hx]

/-- A successful placement puts every object of an arena into the image once: routines and data
at multiples of a quadword in order of creation, the blocks of a routine one behind the other
from its own offset on, derived objects at their distance, and all bytes apart and below the
limit. Wherever the instructions have encodings, the bytes of the image are the words of the
blocks and the data, and zero elsewhere. -/
theorem layout_arranges {a : Arena} (h : Built a) {base limit : Nat} {image : Image}
    (hl : (a.layout base limit).1 = .ok image) :
    image.Arranges a base limit ∧
      ∀ map, (∀ p ∈ image.objects, ∀ r, p.kind = .block r → ∀ i ∈ p.code,
          ∃ w, i.encode map = .ok w) →
        ∃ out, image.toBytes map = .ok out ∧ image.Shows map out := by
  obtain ⟨f, stop, hlaid⟩ := h.laidOut hl
  have harr := hlaid.arranges
  exact ⟨harr, fun map hencode => harr.shows hencode⟩

def readerEntry : Array Instr :=
  #[.withTarget .lqr (some (.hardware 3)) (.object 4), { opcode := .ret }]

/-- A routine of two blocks that reads from data, with an address inside the data. -/
def reader : Except LayoutError Arena := do
  let (routine, a) ← ({} : Arena).addRoutine "read"
  let (table, a) ← a.addData "table" (List.replicate 20 7)
  let (entry, a) ← a.addBlock routine "read.entry"
  let (exit, a) ← a.addBlock routine "read.exit"
  let (_, a) ← a.addDerived "table.second" table 16
  let a := (a.setCode entry readerEntry).setCode exit #[{ opcode := .bi, ra := some .lr }]
  return (a.setEpilogue routine exit).declareSize table (some 20)

theorem built_reader (h : reader = .ok a) : Built a := by
  obtain ⟨⟨r, a1⟩, h1, h⟩ := bind_eq_ok.mp h
  obtain ⟨⟨t, a2⟩, h2, h⟩ := bind_eq_ok.mp h
  obtain ⟨⟨b, a3⟩, h3, h⟩ := bind_eq_ok.mp h
  obtain ⟨⟨e, a4⟩, h4, h⟩ := bind_eq_ok.mp h
  obtain ⟨⟨d, a5⟩, h5, h⟩ := bind_eq_ok.mp h
  cases h
  obtain ⟨rfl, rfl⟩ := Arena.insert_ok h1
  obtain ⟨rfl, rfl⟩ := Arena.insert_ok h2
  obtain ⟨rfl, rfl⟩ := Arena.insert_ok h3
  obtain ⟨rfl, rfl⟩ := Arena.insert_ok h4
  have hb2 := Built.addData (.addRoutine .empty h1) h2
  have hb4 := Built.addBlock (.addBlock hb2 (by simp [Arena.size]) h3) (by simp [Arena.size]) h4
  exact ((((hb4.addDerived (by simp [Arena.size]) h5).setCode _ _).setCode _ _).setEpilogue
    _ _).declareSize _ _

/-- The reader lies at the start of the local store, with its data behind it. -/
theorem reader_arranged : ∃ a image, reader = .ok a ∧ Built a ∧
    (a.layout 0 0x40000).1 = .ok image ∧ image.Arranges a 0 0x40000 ∧
    ∃ out, image.toBytes (fun _ => none) = .ok out ∧ image.Shows (fun _ => none) out := by
  have hrun : (match reader with
      | .ok a =>
        match (a.layout 0 0x40000).1 with
        | .ok image => image.objects.all fun p => p.code.all fun i => (i.encode fun _ => none).isOk
        | .error _ => false
      | .error _ => false) = true := by decide +kernel
  cases ha : reader with
  | error e => simp [ha] at hrun
  | ok a =>
    cases himage : (a.layout 0 0x40000).1 with
    | error e => simp [ha, himage] at hrun
    | ok image =>
      simp only [ha, himage, List.all_eq_true, Array.all_eq_true'] at hrun
      obtain ⟨harr, hbytes⟩ := layout_arranges (built_reader ha) himage
      refine ⟨a, image, rfl, built_reader ha, himage, harr, hbytes _ ?_⟩
      intro p hp r _ i hi
      have hok := hrun p hp i hi
      cases hw : i.encode fun _ => none with
      | ok w => exact ⟨w, rfl⟩
      | error e => simp [hw, Except.isOk, Except.toBool] at hok

end SpuCompiler.Objects
