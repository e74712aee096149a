import Mathlib.Data.Nat.Log
import Mathlib.Tactic
import SpuCompiler.Metadata.Ty

/-!
Fields of value types. Fields laid out in sequence stand one behind the other, each at a multiple
of its alignment, and the whole is a number of quadwords. A field may be a value type itself, to any
depth: wherever a scalar is in a value, it is at a multiple of its size, lies within one quadword
and shares no byte with a field that it is not a part of.
-/

namespace SpuCompiler.Metadata

/-! ## Alignment -/

/-- The size rounded up to a power of two, and at most a quadword. -/
def roundedSize (size : Nat) : Nat := min (2 ^ Nat.clog 2 size) 16

namespace TypeDef

theorem alignment_eq_pow (size : Nat) : alignment size = 2 ^ min (Nat.clog 2 size) 4 := by
  have hclog : ∀ k, 2 ^ k < size → size ≤ 2 ^ (k + 1) → Nat.clog 2 size = k + 1 := fun k hlt hle =>
    le_antisymm (Nat.clog_le_of_le_pow hle) ((Nat.lt_clog_iff_pow_lt Nat.one_lt_two).mpr hlt)
  unfold alignment
  split
  · rename_i h
    rw [Nat.clog_of_right_le_one h]
    rfl
  split
  · rw [hclog 0 (by omega) (by omega)]
    rfl
  split
  · rw [hclog 1 (by omega) (by omega)]
    rfl
  split
  · rw [hclog 2 (by omega) (by omega)]
    rfl
  · have hlarge : 3 < Nat.clog 2 size := (Nat.lt_clog_iff_pow_lt Nat.one_lt_two).mpr (by omega)
    rw [min_eq_right hlarge]
    rfl

theorem alignment_eq (size : Nat) : alignment size = roundedSize size := by
  have hmono : Monotone fun k : Nat => 2 ^ k := pow_right_mono₀ Nat.one_lt_two.le
  rw [alignment_eq_pow]
  exact hmono.map_min

theorem alignment_pos (size : Nat) : 0 < alignment size := by
  rw [alignment_eq_pow]
  exact Nat.two_pow_pos _

/-- A type is aligned at least as its parts are. -/
theorem alignment_dvd {size size' : Nat} (h : size ≤ size') : alignment size ∣ alignment size' := by
  rw [alignment_eq_pow, alignment_eq_pow]
  exact pow_dvd_pow 2 (min_le_min_right 4 (Nat.clog_mono_right 2 h))

theorem alignment_dvd_quadword (size : Nat) : alignment size ∣ 16 := by
  rw [alignment_eq_pow]
  exact pow_dvd_pow 2 (min_le_right _ 4)

end TypeDef

/-! ## Fields in sequence -/

def Field.stop (f : Field) : Nat := f.offset + f.ty.size

/-- Fields in order of declaration, each aligned, behind the one before it and less than an
alignment away from it, in a whole number of quadwords. -/
structure TypeDef.Arranged (d : TypeDef) (fields : List (String × Ty)) : Prop where
  order : d.fields.map (fun f => (f.name, f.ty)) = fields
  aligned : ∀ f ∈ d.fields, roundedSize f.ty.size ∣ f.offset
  first : ∀ f ∈ d.fields.head?, f.offset = 0
  next : d.fields.IsChain fun f g => f.stop ≤ g.offset ∧ g.offset < f.stop + roundedSize g.ty.size
  last : ∀ f ∈ d.fields.getLast?, f.stop ≤ d.size
  quadwords : 16 ∣ d.size
  positive : 16 ≤ d.size

namespace TypeDef

variable (declaring : String)
variable {start : Nat} {fields : List (String × Ty)} {f : Field}

theorem map_layOut (start : Nat) (fields : List (String × Ty)) :
    (layOut declaring start fields).1.map (fun f => (f.name, f.ty)) = fields := by
  induction fields generalizing start with
  | nil => rfl
  | cons field fields ih => exact congrArg (field :: ·) (ih _)

theorem dvd_offset_of_mem_layOut (h : f ∈ (layOut declaring start fields).1) :
    roundedSize f.ty.size ∣ f.offset := by
  induction fields generalizing start with
  | nil => cases h
  | cons field fields ih =>
    rcases List.mem_cons.mp h with rfl | h
    · rw [← alignment_eq]
      exact Binary.dvd_alignUp _ _
    · exact ih h

/-- The field that comes first is less than its alignment away from the start. -/
theorem head_layOut :
    ∀ f ∈ (layOut declaring start fields).1.head?,
      start ≤ f.offset ∧ f.offset < start + roundedSize f.ty.size := by
  cases fields with
  | nil => simp [layOut]
  | cons field fields =>
    rintro f ⟨⟩
    rw [← alignment_eq]
    exact ⟨Binary.le_alignUp _ (alignment_pos _), Binary.alignUp_lt _ (alignment_pos _)⟩

theorem isChain_layOut (start : Nat) (fields : List (String × Ty)) :
    (layOut declaring start fields).1.IsChain fun f g =>
      f.stop ≤ g.offset ∧ g.offset < f.stop + roundedSize g.ty.size := by
  induction fields generalizing start with
  | nil => exact .nil
  | cons field fields ih => exact List.isChain_cons.mpr ⟨head_layOut declaring, ih _⟩

theorem le_stop_layOut (start : Nat) (fields : List (String × Ty)) :
    start ≤ (layOut declaring start fields).2 := by
  induction fields generalizing start with
  | nil => exact le_refl _
  | cons field fields ih =>
    calc
      start ≤ Binary.alignUp start (alignment field.2.size) :=
        Binary.le_alignUp _ (alignment_pos _)
      _ ≤ Binary.alignUp start (alignment field.2.size) + field.2.size := Nat.le_add_right _ _
      _ ≤ _ := ih _

theorem stop_le_of_mem_layOut (h : f ∈ (layOut declaring start fields).1) :
    f.stop ≤ (layOut declaring start fields).2 := by
  induction fields generalizing start with
  | nil => cases h
  | cons field fields ih =>
    rcases List.mem_cons.mp h with rfl | h
    · exact le_stop_layOut declaring _ fields
    · exact ih h

theorem sequential_arranged (name : String) (fields : List (String × Ty)) :
    (sequential name fields).Arranged fields where
  order := map_layOut name 0 fields
  aligned _ hf := dvd_offset_of_mem_layOut name hf
  first := by
    intro f hf
    obtain ⟨-, hlt⟩ := head_layOut name f hf
    have hdvd := dvd_offset_of_mem_layOut name (List.mem_of_mem_head? hf)
    exact Nat.eq_zero_of_dvd_of_lt hdvd (by simpa using hlt)
  next := isChain_layOut name 0 fields
  last := by
    intro f hf
    have hstop := stop_le_of_mem_layOut name (List.mem_of_getLast? hf)
    exact hstop.trans ((Binary.le_alignUp _ (by decide)).trans (le_max_left _ _))
  quadwords := by
    change 16 ∣ max (Binary.alignUp _ 16) 16
    rcases max_choice (Binary.alignUp (layOut name 0 fields).2 16) 16 with h | h <;> rw [h]
    exact Binary.dvd_alignUp _ _
  positive := le_max_right _ _

namespace Arranged

variable {d : TypeDef} {fields : List (String × Ty)} (h : d.Arranged fields)

include h

/-- No field reaches into a later one. -/
theorem pairwise : d.fields.Pairwise fun f g => f.stop ≤ g.offset := by
  have : IsTrans Field fun f g => f.stop ≤ g.offset :=
    ⟨fun _ g _ hfg hgk => hfg.trans ((Nat.le_add_right g.offset _).trans hgk)⟩
  exact (h.next.imp fun _ _ hfg => hfg.1).pairwise

theorem stop_le (hf : f ∈ d.fields) : f.stop ≤ d.size := by
  obtain ⟨init, last, hfields⟩ : ∃ init last, d.fields = init ++ [last] :=
    ⟨_, _, (List.dropLast_append_getLast (List.ne_nil_of_mem hf)).symm⟩
  have hlast : last.stop ≤ d.size := h.last last (by simp [hfields])
  have hbefore := List.pairwise_append.mp (hfields ▸ h.pairwise)
  rw [hfields, List.mem_append, List.mem_singleton] at hf
  rcases hf with hf | rfl
  · have hle := hbefore.2.2 f hf last (List.mem_singleton_self last)
    exact hle.trans ((Nat.le_add_right last.offset _).trans hlast)
  · exact hlast

theorem stop_le_offset {i j : Nat} {g : Field} (hf : d.fields[i]? = some f)
    (hg : d.fields[j]? = some g) (hij : i < j) : f.stop ≤ g.offset := by
  obtain ⟨hi, rfl⟩ := List.getElem?_eq_some_iff.mp hf
  obtain ⟨hj, rfl⟩ := List.getElem?_eq_some_iff.mp hg
  exact List.pairwise_iff_getElem.mp h.pairwise i j hi hj hij

theorem mem_fields (hf : f ∈ d.fields) : (f.name, f.ty) ∈ fields := by
  rw [← h.order]
  exact List.mem_map_of_mem hf

end Arranged

end TypeDef

/-! ## Values within values -/

namespace Ty

/-- The part of a value that a path of field numbers leads to: its distance from the start of the
value, and its type. -/
def part? : Ty → List Nat → Option (Nat × Ty)
  | ty, [] => some (0, ty)
  | .struct d, number :: path =>
    d.fields[number]?.bind fun f => (f.ty.part? path).map fun part => (f.offset + part.1, part.2)
  | _, _ :: _ => none

/-- Value types are laid out in sequence, and so are those within them. -/
inductive Sequential : Ty → Prop
  | scalar {ty : Ty} : ty.isValueType = false → ty.Sequential
  | struct {name : String} {fields : List (String × Ty)} : (∀ field ∈ fields, field.2.Sequential) →
      (Ty.struct (.sequential name fields)).Sequential

variable {ty part part' : Ty} {path path' : List Nat} {i offset offset' : Nat}

/-- The first step of a path leads to a field, and the others to a part of it. -/
theorem exists_of_part?_cons (h : ty.part? (i :: path) = some (offset, part)) :
    ∃ d f distance, ty = .struct d ∧ d.fields[i]? = some f ∧
      f.ty.part? path = some (distance, part) ∧ offset = f.offset + distance := by
  cases ty with
  | struct d =>
    obtain ⟨f, hf, hpart⟩ := Option.bind_eq_some_iff.mp h
    obtain ⟨⟨distance, _⟩, hrest, ⟨⟩⟩ := Option.map_eq_some_iff.mp hpart
    exact ⟨d, f, distance, rfl, hf, hrest, rfl⟩
  | basic | reference | array | byRef => cases h

theorem Sequential.arranged {d : TypeDef} (h : (Ty.struct d).Sequential) :
    ∃ fields, d.Arranged fields ∧ ∀ f ∈ d.fields, f.ty.Sequential := by
  cases h with
  | scalar h => cases h
  | @struct name fields hfields =>
    have harranged := TypeDef.sequential_arranged name fields
    exact ⟨fields, harranged, fun f hf => hfields _ (harranged.mem_fields hf)⟩

/-- A part lies within the value, at a multiple of its alignment. -/
theorem Sequential.part_within (h : ty.Sequential) (hpart : ty.part? path = some (offset, part)) :
    TypeDef.alignment part.size ∣ offset ∧ offset + part.size ≤ ty.size := by
  induction path generalizing ty offset with
  | nil =>
    cases hpart
    exact ⟨dvd_zero _, (Nat.zero_add _).le⟩
  | cons i path ih =>
    obtain ⟨d, f, distance, rfl, hf, hrest, rfl⟩ := exists_of_part?_cons hpart
    obtain ⟨fields, harranged, hfields⟩ := h.arranged
    have hmem := List.mem_of_getElem? hf
    obtain ⟨hdvd, hle⟩ := ih (hfields f hmem) hrest
    have hfield : TypeDef.alignment f.ty.size ∣ f.offset := by
      rw [TypeDef.alignment_eq]
      exact harranged.aligned f hmem
    refine ⟨dvd_add ((TypeDef.alignment_dvd (by omega)).trans hfield) hdvd, ?_⟩
    have hstop : f.offset + f.ty.size ≤ d.size := harranged.stop_le hmem
    change _ ≤ d.size
    omega

/-- Parts share no byte, unless one of them is within the other. -/
theorem Sequential.parts_apart (h : ty.Sequential) (hpart : ty.part? path = some (offset, part))
    (hpart' : ty.part? path' = some (offset', part')) (hpath : ¬ path <+: path')
    (hpath' : ¬ path' <+: path) :
    offset + part.size ≤ offset' ∨ offset' + part'.size ≤ offset := by
  induction path generalizing ty offset offset' path' with
  | nil => exact absurd List.nil_prefix hpath
  | cons i path ih =>
    cases path' with
    | nil => exact absurd List.nil_prefix hpath'
    | cons j path' =>
      obtain ⟨d, f, distance, rfl, hf, hrest, rfl⟩ := exists_of_part?_cons hpart
      obtain ⟨_, g, distance', ⟨⟩, hg, hrest', rfl⟩ := exists_of_part?_cons hpart'
      obtain ⟨fields, harranged, hfields⟩ := h.arranged
      have hftype := hfields f (List.mem_of_getElem? hf)
      have hwithin := (hftype.part_within hrest).2
      have hwithin' := ((hfields g (List.mem_of_getElem? hg)).part_within hrest').2
      rcases Nat.lt_trichotomy i j with hij | rfl | hij
      · have hstop : f.offset + f.ty.size ≤ g.offset := harranged.stop_le_offset hf hg hij
        omega
      · -- the paths part later, within one field
        obtain rfl : f = g := Option.some.inj (hf.symm.trans hg)
        have hapart := ih hftype hrest hrest'
          (fun hp => hpath (List.cons_prefix_cons.mpr ⟨rfl, hp⟩))
          (fun hp => hpath' (List.cons_prefix_cons.mpr ⟨rfl, hp⟩))
        omega
      · have hstop : g.offset + g.ty.size ≤ f.offset := harranged.stop_le_offset hg hf hij
        omega

/-! ## Scalars -/

theorem size_le_alignment (h : ty.isValueType = false) : ty.size ≤ TypeDef.alignment ty.size := by
  cases ty with
  | basic b => cases b <;> decide
  | struct d => cases h
  | reference | array | byRef => exact le_refl 4

theorem alignment_size (h : ty.isValueType = false) (hvoid : ty ≠ .void) :
    TypeDef.alignment ty.size = ty.size := by
  cases ty with
  | basic b =>
    cases b
    case void => exact absurd rfl hvoid
    all_goals rfl
  | struct d => cases h
  | reference | array | byRef => rfl

/-- A scalar has no parts. -/
theorem prefix_of_scalar (hpart : ty.part? path = some (offset, part))
    (h : part.isValueType = false) (hpart' : ty.part? path' = some (offset', part'))
    (hpath : path <+: path') : path' <+: path := by
  induction path generalizing ty offset offset' path' with
  | nil =>
    cases hpart
    cases path' with
    | nil => exact List.prefix_rfl
    | cons j path' =>
      obtain ⟨d, _, _, rfl, -⟩ := exists_of_part?_cons hpart'
      cases h
  | cons i path ih =>
    cases path' with
    | nil => exact List.nil_prefix
    | cons j path' =>
      obtain ⟨rfl, htail⟩ := List.cons_prefix_cons.mp hpath
      obtain ⟨d, f, _, rfl, hf, hrest, -⟩ := exists_of_part?_cons hpart
      obtain ⟨_, g, _, ⟨⟩, hg, hrest', -⟩ := exists_of_part?_cons hpart'
      obtain rfl : f = g := Option.some.inj (hf.symm.trans hg)
      exact List.cons_prefix_cons.mpr ⟨rfl, ih hrest hrest' htail⟩

end Ty

/-- What is shorter than its alignment does not reach into the next quadword. -/
theorem add_div_quadword {align a k : Nat} (halign : align ∣ 16) (ha : align ∣ a) (hk : k < align) :
    (a + k) / 16 = a / 16 := by
  obtain ⟨m, hm⟩ := halign
  obtain ⟨n, rfl⟩ := ha
  have hpos : 0 < align := by omega
  rw [hm, ← Nat.div_div_eq_div_mul, ← Nat.div_div_eq_div_mul, Nat.mul_add_div hpos,
    Nat.div_eq_of_lt hk, Nat.add_zero, Nat.mul_div_cancel_left n hpos]

/-- The layout in sequence is sound. The fields keep their order, each at a multiple of its
alignment and behind the one before it. In a value at a multiple of a quadword, every scalar is at a
multiple of its size and within one quadword, however deep it is in fields that are laid out in
sequence themselves, and it shares no byte with a field that it is not a part of. Only `void` has no
bytes, and no multiples of its size. -/
theorem sequential_sound (name : String) (fields : List (String × Ty)) :
    (TypeDef.sequential name fields).Arranged fields ∧
      ((∀ field ∈ fields, field.2.Sequential) →
        ∀ base : Nat, 16 ∣ base →
        ∀ path offset part,
          (Ty.struct (.sequential name fields)).part? path = some (offset, part) →
          part.isValueType = false →
          (part ≠ .void → part.size ∣ base + offset) ∧
          (∀ k < part.size, (base + offset + k) / 16 = (base + offset) / 16) ∧
          offset + part.size ≤ (TypeDef.sequential name fields).size ∧
          ∀ path' offset' part',
            (Ty.struct (.sequential name fields)).part? path' = some (offset', part') →
            ¬ path' <+: path →
            offset + part.size ≤ offset' ∨ offset' + part'.size ≤ offset) := by
  refine ⟨TypeDef.sequential_arranged name fields, ?_⟩
  intro hfields base hbase path offset part hpart hscalar
  have hsequential : (Ty.struct (.sequential name fields)).Sequential := .struct hfields
  obtain ⟨hdvd, hle⟩ := hsequential.part_within hpart
  have haligned : TypeDef.alignment part.size ∣ base + offset :=
    dvd_add ((TypeDef.alignment_dvd_quadword _).trans hbase) hdvd
  refine ⟨?_, ?_, hle, ?_⟩
  · intro hvoid
    rwa [Ty.alignment_size hscalar hvoid] at haligned
  · intro k hk
    exact add_div_quadword (TypeDef.alignment_dvd_quadword _) haligned
      (hk.trans_le (Ty.size_le_alignment hscalar))
  · intro path' offset' part' hpart' hpath'
    refine hsequential.parts_apart hpart hpart' (fun hpath => hpath' ?_) hpath'
    exact Ty.prefix_of_scalar hpart hscalar hpart' hpath

def readingFields : List (String × Ty) := [("tag", .u1), ("value", .r8), ("unit", .i2)]

def sampleFields : List (String × Ty) :=
  [("flag", .u1), ("reading", .struct (.sequential "Reading" readingFields)), ("count", .i4)]

def sampleType : Ty := .struct (.sequential "Sample" sampleFields)

theorem sampleFields_sequential : ∀ field ∈ sampleFields, field.2.Sequential := by
  have hreading : ∀ field ∈ readingFields, field.2.Sequential := by
    intro field hfield
    simp only [readingFields, List.mem_cons, List.not_mem_nil, or_false] at hfield
    rcases hfield with rfl | rfl | rfl <;> exact .scalar rfl
  intro field hfield
  simp only [sampleFields, List.mem_cons, List.not_mem_nil, or_false] at hfield
  rcases hfield with rfl | rfl | rfl
  · exact .scalar rfl
  · exact .struct hreading
  · exact .scalar rfl

/-- The double within the reading of a sample is aligned, and apart from the count behind it. -/
theorem sampleValue_sound :
    (∀ field ∈ sampleFields, field.2.Sequential) ∧ 16 ∣ 0x130 ∧
      sampleType.part? [1, 1] = some (24, .r8) ∧ sampleType.part? [2] = some (48, .i4) ∧
      Ty.r8.size ∣ 0x130 + 24 ∧
      (∀ k < Ty.r8.size, (0x130 + 24 + k) / 16 = (0x130 + 24) / 16) ∧
      (24 + Ty.r8.size ≤ 48 ∨ 48 + Ty.i4.size ≤ 24) := by
  have hbase : 16 ∣ 0x130 := by decide
  have hvalue : sampleType.part? [1, 1] = some (24, .r8) := rfl
  have hcount : sampleType.part? [2] = some (48, .i4) := rfl
  obtain ⟨haligned, hwithin, -, hapart⟩ := (sequential_sound "Sample" sampleFields).2
    sampleFields_sequential 0x130 hbase [1, 1] 24 .r8 hvalue rfl
  exact ⟨sampleFields_sequential, hbase, hvalue, hcount, haligned (by decide), hwithin,
    hapart [2] 48 .i4 hcount (by decide)⟩

end SpuCompiler.Metadata
