import SpuCompiler.Proofs.Selection.RegisterUse
import SpuCompiler.Proofs.Selection.Steady
import SpuCompiler.Proofs.Selection.StraightLine

/-!
Fragments that are put together from single instructions. Each step reads what it was given and the
results of the steps before it, and has its result in a fresh register. Such a fragment is straight
code that refers to no object, and it sets fresh registers only, so all of this is shown by one walk
over its steps.
-/

namespace SpuCompiler.Machine

/-- The opcode computes its first register, and refers to nothing. -/
def Opcode.computes (op : Opcode) : Bool := op.setsFirst && !op.refers

def Opcode.hasRoom (op : Opcode) (value : Int) : Bool := decide (op.Admits value)

theorem Opcode.takes_of {op : Opcode} {value : Int} (h : (op.computes && op.hasRoom value) = true) :
    op.setsFirst = true ∧ op.Takes value := by
  simpa [computes, hasRoom, Takes, and_assoc] using h

end SpuCompiler.Machine

namespace SpuCompiler.Selection

open Machine Metadata Bytecode Trees

/-- From the given registers the fragment computes results by straight code in fresh registers. -/
structure Composed {α : Type} (fits : Prop) (known : List Register) (e : Emit α)
    (results : α → List Register) : Prop where
  steady : Steady e
  emits (vars start : Nat) : Emits vars start known e results
  straight (names : Nat → Prop) : (∀ r ∈ known, r.Valid) →
    Straight fits names e fun x => ∀ r ∈ results x, r.Valid

variable {fits : Prop} {names : Nat → Prop} {known rs : List Register} {r : Register}

theorem Given.valid (h : Given known r) (hknown : ∀ r ∈ known, r.Valid) : r.Valid := by
  rcases h with rfl | hr
  · exact Emit.valid_sp
  · exact hknown r hr

/-- The register can be read: it is a given one or the result of a step. -/
class Reads (known : List Register) (r : Register) : Prop where
  given : Given known r

namespace Reads

instance sp : Reads known .sp := ⟨given_sp⟩

instance head : Reads (r :: known) r := ⟨given_cons.mpr (.inl rfl)⟩

instance tail {x : Register} [h : Reads known r] : Reads (x :: known) r :=
  ⟨given_cons.mpr (.inr h.given)⟩

instance appendLeft [h : Reads rs r] : Reads (rs ++ known) r :=
  ⟨h.given.imp_right (List.mem_append_left known)⟩

instance appendRight [h : Reads known r] : Reads (rs ++ known) r :=
  ⟨given_append.mpr (.inr h.given)⟩

instance ite {c : Prop} [Decidable c] {a b : Register} [Reads known a] [Reads known b] :
    Reads known (if c then a else b) := by
  split <;> infer_instance

theorem valid (h : Reads known r) (hknown : ∀ r ∈ known, r.Valid) : r.Valid := h.given.valid hknown

end Reads

namespace Composed

variable {α β : Type} {op : Machine.Opcode} {c : Int} {ra rb rc : Register} {e : Emit Register}

/-- The register of a result is valid. -/
theorem valid (h : Composed fits known e ([·])) (hknown : ∀ r ∈ known, r.Valid) :
    Straight fits names e Register.Valid :=
  (h.straight names hknown).imp fun _ hx => hx _ List.mem_cons_self

theorem effect {e : Emit Unit} (h : Composed fits known e fun _ => [])
    (hknown : ∀ r ∈ known, r.Valid) : Straight fits names e fun _ => True :=
  (h.straight names hknown).imp fun _ _ => trivial

theorem closed (h : Composed fits [] e ([·])) : Straight fits names e Register.Valid :=
  h.valid (by simp)

theorem effectOn {e : Emit Unit} (hr : r.Valid) (h : Composed fits [r] e fun _ => []) :
    Straight fits names e fun _ => True :=
  h.effect (by simpa using hr)

theorem pure {x : α} {results : α → List Register} (h : ∀ r ∈ results x, Given known r) :
    Composed fits known (Pure.pure x) results where
  steady := .pure x
  emits _ _ := .pure h
  straight _ hknown := .pure fun r hr => (h r hr).valid hknown

theorem done : Composed fits known (Pure.pure ()) fun _ => [] := pure (by simp)

theorem read [h : Reads known r] : Composed fits known (Pure.pure r) ([·]) :=
  pure (by simpa using h.given)

theorem bind {e : Emit α} {f : α → Emit β} {results : α → List Register}
    {results' : β → List Register} (he : Composed fits known e results)
    (hf : ∀ x, Composed fits (results x ++ known) (f x) results') :
    Composed fits known (e >>= f) results' where
  steady := he.steady.step fun x => (hf x).steady
  emits vars start := (he.emits vars start).bind fun x => (hf x).emits vars start
  straight names hknown := (he.straight names hknown).bind fun x hx =>
    (hf x).straight names (List.forall_mem_append.mpr ⟨hx, hknown⟩)

/-- An instruction with a fresh register for its result. -/
theorem fresh {i : Register → Instr} (hi : ∀ rt, (i rt).target = none) (hemits : ∀ vars start,
      Emits vars start known (do let rt ← Emit.fresh; Emit.instr (i rt); return rt) ([·]))
    (hplain : ∀ names, (∀ r ∈ known, r.Valid) → ∀ rt : Register, rt.Valid →
      Plain fits names (i rt)) :
    Composed fits known (do let rt ← Emit.fresh; Emit.instr (i rt); return rt) ([·]) where
  steady := Steady.fresh.step fun rt => (Steady.instr (by simp [hi rt])).step fun _ => .pure rt
  emits := hemits
  straight names hknown := (Emit.fresh_straight (hplain names hknown)).imp fun _ hx => by
    simpa using hx

section Instructions

variable [ha : Reads known ra] [hb : Reads known rb] [hc : Reads known rc]

theorem rr (hop : (op.computes && op.hasRoom 0) = true) :
    Composed fits known (Emit.rr op ra rb) ([·]) :=
  fresh (fun _ => rfl) (fun _ _ => Emit.rr_emits (Opcode.takes_of hop).1 ha.given hb.given)
    fun _ hknown _ ht => plain_rr (Opcode.takes_of hop).2 ht (ha.valid hknown) (hb.valid hknown)

theorem rrr (hop : (op.computes && op.hasRoom 0) = true) :
    Composed fits known (Emit.rrr op ra rb rc) ([·]) :=
  fresh (fun _ => rfl) (fun _ _ => Emit.rrr_emits (Opcode.takes_of hop).1 ha.given hb.given hc.given)
    fun _ hknown _ ht => plain_rrr (Opcode.takes_of hop).2 ht (ha.valid hknown) (hb.valid hknown)
      (hc.valid hknown)

/-- An immediate that has room where `fits` holds. -/
theorem riOf (hop : op.computes = true) (hroom : fits → op.hasRoom c = true) :
    Composed fits known (Emit.ri op ra c) ([·]) := by
  obtain ⟨hsets, hrefers⟩ : op.setsFirst = true ∧ op.refers = false := by
    simpa [Opcode.computes] using hop
  exact fresh (fun _ => rfl) (fun _ _ => Emit.ri_emits hsets ha.given) fun _ hknown _ ht =>
    plain_ri hrefers (fun hf => of_decide_eq_true (hroom hf)) ht (ha.valid hknown)

theorem ri (hop : (op.computes && op.hasRoom c) = true) :
    Composed fits known (Emit.ri op ra c) ([·]) :=
  riOf (Bool.and_eq_true_iff.mp hop).1 fun _ => (Bool.and_eq_true_iff.mp hop).2

/-- A store at a short distance from an address. -/
theorem stqd (hroom : fits → Machine.Opcode.stqd.hasRoom c = true) :
    Composed fits known (Emit.instr (.ri .stqd ra rb c)) fun _ => [] where
  steady := inferInstance
  emits _ _ := Emit.stqd_emits ha.given hb.given
  straight _ hknown := (Straight.instr (plain_ri rfl (fun hf => of_decide_eq_true (hroom hf))
    (ha.valid hknown) (hb.valid hknown))).imp fun _ _ => by simp

end Instructions

theorem imm (hop : (op.computes && op.hasRoom c) = true) :
    Composed fits known (Emit.imm op c) ([·]) :=
  fresh (fun _ => rfl) (fun _ _ => Emit.imm_emits (Opcode.takes_of hop).1) fun _ _ _ ht =>
    plain_imm (Opcode.takes_of hop).2 ht

/-- `ilhu` and the `iohl` behind it set one register. -/
theorem halves {high low : Int} (hhigh : Machine.Opcode.ilhu.hasRoom high = true)
    (hlow : Machine.Opcode.iohl.hasRoom low = true) : Composed fits known (do
      let rt ← Emit.imm .ilhu high
      Emit.instr (.imm .iohl rt low)
      return rt) ([·]) where
  steady := inferInstance
  emits _ _ := Emit.halves_emits high low
  straight names hknown := by
    have hfirst : Composed fits known (Emit.imm .ilhu high) ([·]) := imm hhigh
    have hplain : ∀ rt : Register, rt.Valid → Plain fits names (.imm .iohl rt low) :=
      fun rt ht => plain_imm ⟨rfl, of_decide_eq_true hlow⟩ ht
    exact (hfirst.valid hknown).bind fun rt ht => (Straight.instr (hplain rt ht)).bind
      fun _ _ => .pure (by simpa using ht)

end Composed

namespace Emit

variable {a b left right value address destination : Register} {e : Emit Register}
  {op : Machine.Opcode} {c : Int}

/-! ## Immediates -/

theorem hasRoom_half (h : isHalf c = true) : Machine.Opcode.il.hasRoom c = true := by
  refine decide_eq_true ?_
  rintro low high ⟨⟩
  simpa [isHalf] using h

theorem hasRoom_unsigned {n : Nat} (hrange : op.immediateRange = some (0, 0xFFFF))
    (h : n < 0x10000) : op.hasRoom n = true := by
  refine decide_eq_true fun low high hlow => ?_
  cases hrange.symm.trans hlow
  omega

theorem hasRoom_short (hop : op.refers = false) (hformat : op.format = .ri10)
    (h : isShort c = true) : op.hasRoom c = true :=
  decide_eq_true (takes_short hop hformat h).2

theorem loadImmediate_composed (value : Int) :
    Composed fits known (loadImmediate value) ([·]) := by
  have hbits := (BitVec.ofInt 32 value).isLt
  unfold loadImmediate
  split
  · rename_i h
    exact .imm (hasRoom_half h)
  · dsimp only
    split
    · exact .halves (hasRoom_unsigned rfl (by omega)) (hasRoom_unsigned rfl (by omega))
    · exact .imm (hasRoom_unsigned rfl (by omega))

theorem addImmediate_composed [Reads known address] (value : Int) :
    Composed fits known (addImmediate address value) ([·]) := by
  unfold addImmediate
  split
  · exact .read
  · split
    · rename_i hshort
      exact .riOf rfl fun _ => hasRoom_short rfl rfl hshort
    · exact .bind (loadImmediate_composed value) fun _ => .rr rfl

/-! ## Memory -/

theorem extend_composed [Reads known value] (ty : Ty) :
    Composed fits known (extend value ty) ([·]) := by
  unfold extend
  split
  · exact .bind (.rr rfl) fun _ => .rr rfl
  · exact .rr rfl
  · exact .ri rfl
  · exact .ri rfl
  · exact .bind (.ri rfl) fun _ => .ri rfl

/-- Quadwords are numbered by short immediates. -/
theorem hasRoom_quadword {index count : Nat} (hop : op.refers = false) (hformat : op.format = .ri10)
    (h : fits → index + (count + 1) ≤ 512) (hf : fits) : op.hasRoom index = true := by
  have := h hf
  refine hasRoom_short hop hformat ?_
  simp only [isShort, decide_eq_true_eq]
  omega

theorem copyQuadwords_composed {source : Register} {index count : Nat} [Reads known destination]
    [Reads known source] (h : fits → index + count ≤ 512) :
    Composed fits known (copyQuadwords destination source index count) fun _ => [] := by
  induction count generalizing index known with
  | zero => exact .done
  | succ count ih =>
    refine .bind (.riOf rfl (hasRoom_quadword rfl rfl h)) fun _ => ?_
    refine .bind (.stqd (hasRoom_quadword rfl rfl h)) fun _ => ?_
    exact ih fun hf => by have := h hf; omega

theorem fillQuadwords_composed {index count : Nat} [Reads known value]
    [Reads known destination] (h : fits → index + count ≤ 512) :
    Composed fits known (fillQuadwords value destination index count) fun _ => [] := by
  induction count generalizing index with
  | zero => exact .done
  | succ count ih =>
    refine .bind (.stqd (hasRoom_quadword rfl rfl h)) fun _ => ?_
    exact ih fun hf => by have := h hf; omega

theorem insertOpcode_computes (size : Nat) :
    ((insertOpcode size).computes && (insertOpcode size).hasRoom 0) = true := by
  unfold insertOpcode
  split <;> rfl

theorem loadMemory_composed [Reads known address] (offset : Int) (ty : Ty) :
    Composed fits known (loadMemory address offset ty) ([·]) := by
  unfold loadMemory
  refine .bind (addImmediate_composed offset) fun _ => ?_
  split
  · exact .read
  · refine .bind (.ri rfl) fun _ => ?_
    split
    · exact .bind (.ri rfl) fun _ => .bind (.rr rfl) fun _ => extend_composed ty
    · exact .bind (.ri rfl) fun _ => .bind (.rr rfl) fun _ => extend_composed ty
    · exact .rr rfl

theorem storeMemory_composed {ty : Ty} [Reads known address] [Reads known value]
    (offset : Int) (h : fits → Movable ty) :
    Composed fits known (storeMemory address offset value ty) fun _ => [] := by
  unfold storeMemory
  refine .bind (addImmediate_composed offset) fun _ => ?_
  split
  · rename_i hstruct
    refine copyQuadwords_composed fun hf => ?_
    rw [Nat.zero_add]
    exact (h hf).quadwords_le hstruct
  · refine .bind (.ri rfl) fun _ => ?_
    refine .bind (.ri (insertOpcode_computes _)) fun _ => ?_
    exact .bind (.rrr rfl) fun _ => .stqd fun _ => rfl

theorem clearMemory_composed {ty : Ty} [Reads known address] (h : fits → Movable ty) :
    Composed fits known (clearMemory address ty) fun _ => [] := by
  unfold clearMemory
  refine .bind (.imm rfl) fun _ => ?_
  split
  · rename_i hstruct
    refine fillQuadwords_composed fun hf => ?_
    rw [Nat.zero_add]
    exact (h hf).quadwords_le hstruct
  · exact storeMemory_composed 0 h

/-- An index is shifted by at most 63. -/
theorem elementAddress?_composed {size : Nat} [Reads known a] [Reads known b]
    (he : elementAddress? size a b = some e) (h : fits → size < 2 ^ 64) :
    Composed fits known e ([·]) := by
  obtain ⟨scale, hscale, rfl⟩ := Option.map_eq_some_iff.mp he
  have hscaled : Composed fits known scale ([·]) := by
    unfold scaleIndex? at hscale
    split at hscale
    · cases hscale
      exact .read
    · split at hscale
      · rename_i hpow
        cases hscale
        refine .riOf rfl fun hf => decide_eq_true ?_
        have hlog : size.log2 < 64 := (Nat.log2_lt hpow.1).mpr (h hf)
        rintro low high ⟨⟩
        omega
      · split at hscale
        · rename_i hsize
          cases hscale
          refine .riOf rfl fun _ => hasRoom_short rfl rfl ?_
          simp only [isShort, decide_eq_true_eq]
          omega
        · cases hscale
  exact .bind hscaled fun _ => .bind (.rr rfl) fun _ => .ri rfl

/-! ## Arithmetic -/

theorem doubleSignMask_composed : Composed fits known doubleSignMask ([·]) :=
  .bind (.imm rfl) fun _ => .bind (.imm rfl) fun _ => .rr rfl

theorem multiplyWord_composed [Reads known left] [Reads known right] :
    Composed fits known (multiplyWord left right) ([·]) :=
  .bind (.rr rfl) fun _ => .bind (.rr rfl) fun _ => .bind (.rr rfl) fun _ =>
    .bind (.rr rfl) fun _ => .rr rfl

theorem divideSingle_composed [Reads known left] [Reads known right] :
    Composed fits known (divideSingle left right) ([·]) :=
  .bind (.rr rfl) fun _ => .bind (.rr rfl) fun _ => .bind (.rr rfl) fun _ =>
    .bind (.rrr rfl) fun _ => .rrr rfl

theorem negateSingle_composed [Reads known value] :
    Composed fits known (negateSingle value) ([·]) := .bind (.imm rfl) fun _ => .rr rfl

theorem negateDouble_composed [Reads known value] :
    Composed fits known (negateDouble value) ([·]) := .bind doubleSignMask_composed fun _ => .rr rfl

theorem shiftRight_composed (hop : (op.computes && op.hasRoom 0) = true)
    [Reads known a] [Reads known b] : Composed fits known (shiftRight op a b) ([·]) :=
  .bind (.ri rfl) fun _ => .rr hop

theorem equalLong_composed [Reads known a] [Reads known b] :
    Composed fits known (equalLong a b) ([·]) :=
  .bind (.rr rfl) fun _ => .bind (.ri rfl) fun _ => .rr rfl

theorem greaterLong_composed (signed : Bool) [Reads known a] [Reads known b] :
    Composed fits known (greaterLong signed a b) ([·]) :=
  .bind (.rr rfl) fun _ => .bind (.rr (by cases signed <;> rfl)) fun _ =>
    .bind (.rr rfl) fun _ => .bind (.ri rfl) fun _ => .bind (.rr rfl) fun _ => .rr rfl

theorem orderedKey_composed [Reads known value] :
    Composed fits known (orderedKey value) ([·]) := by
  have hassoc : orderedKey value = (do
      let signWords ← ri .rotmai value (-31)
      let pattern ← (do let rt ← imm .ilhu 0x0001; instr (.imm .iohl rt 0x0203); return rt)
      let sign ← rrr .shufb signWords signWords pattern
      let signBit ← doubleSignMask
      let flip ← rr .or sign signBit
      rr .xor value flip) := rfl
  rw [hassoc]
  exact .bind (.ri rfl) fun _ => .bind (.halves rfl rfl) fun _ => .bind (.rrr rfl) fun _ =>
    .bind doubleSignMask_composed fun _ => .bind (.rr rfl) fun _ => .rr rfl

theorem greaterDouble_composed [Reads known a] [Reads known b] :
    Composed fits known (greaterDouble a b) ([·]) :=
  .bind orderedKey_composed fun _ => .bind orderedKey_composed fun _ =>
    greaterLong_composed false

theorem compare?_composed {kind : ValueKind} {c : Comparison} [Reads known left]
    [Reads known right] (h : compare? kind c left right = some e) :
    Composed fits known e ([·]) := by
  cases kind with
  | word =>
    cases h
    refine .rr ?_
    cases c.equal <;> cases c.signed <;> rfl
  | single =>
    cases h
    refine .rr ?_
    cases c.equal <;> rfl
  | long =>
    cases h
    split
    · exact equalLong_composed
    · exact greaterLong_composed _
  | double =>
    cases h
    split
    · exact equalLong_composed
    · exact greaterDouble_composed
  | struct | void => cases h

/-! ## Conversions -/

theorem widen_composed (signed : Bool) [Reads known value] :
    Composed fits known (widen signed value) ([·]) := by
  have hrest : ∀ high : Register, Composed fits ([high] ++ known) (do
      let low ← ri .rotqbyi value 12
      let secondWord ← imm .fsmbi 0x0F00
      rrr .selb high low secondWord) ([·]) :=
    fun high => .bind (.ri rfl) fun _ => .bind (.imm rfl) fun _ => .rrr rfl
  cases signed with
  | false => exact .bind (.imm rfl) hrest
  | true => exact .bind (.ri rfl) hrest

theorem wordToDouble_composed (signed : Bool) [Reads known value] :
    Composed fits known (wordToDouble signed value) ([·]) :=
  .bind (.ri (by cases signed <;> rfl)) fun _ =>
    .bind (.ri rfl) fun _ => .bind (.ri rfl) fun _ => .bind (.ri rfl) fun _ =>
    .bind (.ri rfl) fun _ => .bind (.rr rfl) fun _ => .bind (.rr rfl) fun _ =>
    .bind (.imm rfl) fun _ => .bind (.rr rfl) fun _ => .bind (.rr rfl) fun _ => .rr rfl

theorem doubleToWord_composed (signed : Bool) [Reads known value] :
    Composed fits known (doubleToWord signed value) ([·]) := by
  unfold doubleToWord
  refine .bind (.ri rfl) fun _ => .bind (loadImmediate_composed _) fun _ => ?_
  refine .bind (.rr rfl) fun _ => .bind (loadImmediate_composed _) fun _ => ?_
  refine .bind (.rr rfl) fun shift => .bind (loadImmediate_composed _) fun _ => ?_
  refine .bind (.rr rfl) fun _ => .bind (.imm rfl) fun _ => .bind (.rr rfl) fun _ => ?_
  refine .bind (.imm rfl) fun _ => .bind (.rrr rfl) fun _ => .bind (.ri rfl) fun _ => ?_
  refine .bind (.ri rfl) fun _ => .bind (.ri rfl) fun _ => .bind (.ri rfl) fun _ => ?_
  refine .bind (.rr rfl) fun _ => .bind (.rr rfl) fun _ => .bind (.ri rfl) fun _ => ?_
  have hrest : ∀ (known : List Register) (truncated : Register) [Reads known truncated]
      [Reads known shift], Composed fits known (do
        let fractional ← ri .cgti shift 52
        rr .andc truncated fractional) ([·]) :=
    fun _ _ => .bind (.ri rfl) fun _ => .rr rfl
  cases signed with
  | false => exact hrest _ _
  | true =>
    refine .bind (.ri rfl) fun _ => .bind (.rr rfl) fun _ => ?_
    exact .bind (.rr rfl) fun _ => hrest _ _

theorem narrow_composed (c : Conv) [Reads known value] :
    Composed fits known (narrow c value) ([·]) := by
  unfold narrow
  split
  · exact extend_composed _
  · exact extend_composed _
  · exact extend_composed _
  · exact extend_composed _
  · exact .read

/-! ## Objects -/

section Objects

variable {vars start id : Nat}

/-- The part of the quadword at the front of an object is moved to where values stand. -/
theorem exists_loadObject (ty : Ty) : ∃ f : Register → Emit Register,
    (∀ object, loadObject object ty = targeted .lqr object >>= f) ∧
      ∀ fits known quadword, [Reads known quadword] → Composed fits known (f quadword) ([·]) := by
  refine ⟨_, fun _ => rfl, fun fits known quadword _ => ?_⟩
  split
  · exact .bind (.ri rfl) fun _ => extend_composed ty
  · exact .bind (.ri rfl) fun _ => extend_composed ty
  · exact .read

theorem loadObject_accesses (id : Nat) (ty : Ty) :
    Writes (loadObject (.object id) ty) (Accesses fits id) Register.Valid := by
  obtain ⟨f, hf, hcomposed⟩ := exists_loadObject ty
  rw [hf]
  exact targeted_accesses (by simp) fun quadword hquadword =>
    (hcomposed fits [quadword] quadword).valid (by simpa using hquadword)

theorem loadObject_emits (object : Target) (ty : Ty) :
    Emits vars start known (loadObject object ty) ([·]) := by
  obtain ⟨f, hf, hcomposed⟩ := exists_loadObject ty
  rw [hf]
  exact (targeted_emits rfl object).bind fun quadword =>
    (hcomposed False ([quadword] ++ known) quadword).emits vars start

def merge (value quadword : Register) (ty : Ty) : Emit Register := do
  let mask ← ri (insertOpcode ty.size) .sp 0
  rrr .shufb value quadword mask

theorem merge_composed (value quadword : Register) (ty : Ty) [Reads known value]
    [Reads known quadword] : Composed fits known (merge value quadword ty) ([·]) :=
  .bind (.ri (insertOpcode_computes _)) fun _ => .rrr rfl

theorem storeObject_eq (object : Target) (ty : Ty) :
    storeObject object value ty = (do
      let quadword ← targeted .lqr object
      let merged ← merge value quadword ty
      instr (.withTarget .stqr (some merged) object)) := rfl

theorem storeObject_accesses (id : Nat) (ty : Ty) (hvalue : value.Valid) :
    Writes (storeObject (.object id) value ty) (Accesses fits id) fun _ => True := by
  rw [storeObject_eq]
  refine targeted_accesses (by simp) fun quadword hquadword => ?_
  have hmerge : Composed fits [value, quadword] (merge value quadword ty) ([·]) :=
    merge_composed value quadword ty
  refine (hmerge.valid (by simp [hvalue, hquadword])).bind fun merged hmerged => ?_
  exact .instr (plain_withTarget (by simp) hmerged rfl)

theorem storeObject_emits (object : Target) [Reads known value] (ty : Ty) :
    Emits vars start known (storeObject object value ty) fun _ => [] := by
  rw [storeObject_eq]
  refine (targeted_emits rfl object).bind fun quadword => ?_
  have hmerge : Composed False ([quadword] ++ known) (merge value quadword ty) ([·]) :=
    merge_composed value quadword ty
  refine (hmerge.emits vars start).bind fun merged => .settled rfl ?_
  simp [Instr.withTarget, Instr.uses, Opcode.setsFirst, Opcode.readsFirst, Readable]

end Objects

end Emit

end SpuCompiler.Selection
