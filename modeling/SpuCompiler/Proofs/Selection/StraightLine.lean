import SpuCompiler.Proofs.Machine.Encoding
import SpuCompiler.Selection.Arithmetic

/-!
Straight-line fragments. A fragment appends instructions to its stream. Those of arithmetic,
comparisons, conversions and memory access are never branches, and every one of them has a word,
apart from the quadwords of a large value type, whose numbers may be too great for an immediate.
-/

namespace SpuCompiler.Machine

/-- Words of the opcode branch, or depend on the place of an object. -/
def Opcode.refers (op : Opcode) : Bool := op.isBranch || op.patchKind.isSome

def Opcode.Takes (op : Opcode) (value : Int) : Prop := op.refers = false ∧ op.Admits value

instance (op : Opcode) (value : Int) : Decidable (op.Takes value) := instDecidableAnd

theorem Opcode.Takes.ne_ret {op : Opcode} {value : Int} (h : op.Takes value) : op ≠ .ret := by
  rintro rfl
  cases h.1

/-- Apart from branches, these are the opcodes that depend on the place of an object. -/
theorem Opcode.patchKind_isSome {op : Opcode} (hop : op.isBranch = false) :
    op.patchKind.isSome = true ↔ op = .lqr ∨ op = .stqr ∨ op = .ila := by
  cases op <;> simp_all [Opcode.isBranch, Opcode.patchKind]

end SpuCompiler.Machine

namespace SpuCompiler.Selection

open Machine Metadata Bytecode

/-- The instruction refers to nothing, or names one of the given objects. -/
def Mentions (names : Nat → Prop) (i : Instr) : Prop :=
  i.opcode.refers = false ∧ i.target = none ∨
    i.opcode.patchKind.isSome = true ∧ ∃ id, i.target = some (.object id) ∧ names id

/-- No branch, and no reference to other objects than the given ones; where `fits` holds, the
instruction has a word too. -/
structure Plain (fits : Prop) (names : Nat → Prop) (i : Instr) : Prop where
  straight : i.opcode.isBranch = false
  word : fits → i.Fits
  mentions : Mentions names i

/-- The fragment appends code with a property, and its result satisfies the condition. -/
def Writes {α : Type} (e : Emit α) (R : List Instr → Prop) (Q : α → Prop) : Prop :=
  ∀ s, ∃ code, (e.run s).2.code.toList = s.code.toList ++ code ∧ R code ∧ Q (e.run s).1

def Straight {α : Type} (fits : Prop) (names : Nat → Prop) (e : Emit α) (Q : α → Prop) : Prop :=
  Writes e (fun code => ∀ i ∈ code, Plain fits names i) Q

structure Accesses (fits : Prop) (id : Nat) (code : List Instr) : Prop where
  named : ∃ i ∈ code, i.target = some (.object id)
  plain : ∀ i ∈ code, Plain fits (· = id) i

variable {fits : Prop} {names : Nat → Prop} {α β : Type}

namespace Writes

variable {P : α → Prop} {Q : β → Prop} {R S : List Instr → Prop} {R' : α → List Instr → Prop}

theorem instr (i : Instr) : Writes (Emit.instr i) (· = [i]) fun _ => True :=
  fun _ => ⟨[i], Array.toList_push .., rfl, trivial⟩

theorem bind {e : Emit α} {f : α → Emit β} (he : Writes e R P)
    (hf : ∀ x, P x → Writes (f x) (R' x) Q)
    (h : ∀ x, P x → ∀ code code', R code → R' x code' → S (code ++ code')) :
    Writes (e >>= f) S Q := by
  intro s
  obtain ⟨code, hcode, hR, hx⟩ := he s
  obtain ⟨more, hmore, hR', hy⟩ := hf _ hx (e.run s).2
  refine ⟨code ++ more, ?_, h _ hx code more hR hR', hy⟩
  rw [← List.append_assoc, ← hcode]
  exact hmore

end Writes

namespace Straight

theorem imp {e : Emit α} {P Q : α → Prop} (h : Straight fits names e P) (hPQ : ∀ x, P x → Q x) :
    Straight fits names e Q := by
  intro s
  obtain ⟨code, hcode, hplain, hx⟩ := h s
  exact ⟨code, hcode, hplain, hPQ _ hx⟩

theorem pure {x : α} {Q : α → Prop} (h : Q x) : Straight fits names (pure x) Q := fun s =>
  ⟨[], (List.append_nil _).symm, by simp, h⟩

theorem bind {e : Emit α} {f : α → Emit β} {P : α → Prop} {Q : β → Prop} (he : Straight fits names e P)
    (hf : ∀ x, P x → Straight fits names (f x) Q) : Straight fits names (e >>= f) Q := by
  refine Writes.bind he hf ?_
  intro _ _ code code' hplain hplain' i hi
  exact (List.mem_append.mp hi).elim (hplain i) (hplain' i)

theorem instr {i : Instr} (h : Plain fits names i) : Straight fits names (Emit.instr i) fun _ => True :=
  fun s => ⟨[i], Array.toList_push .., by simpa using h, trivial⟩

theorem fresh : Straight fits names Emit.fresh Register.Valid := fun s =>
  ⟨[], (List.append_nil _).symm, by simp, trivial⟩

end Straight

/-! ## Single instructions -/

section Instructions

variable {op : Machine.Opcode} {c : Int} {rt ra rb rc : Register}

theorem fits_ri (hop : op.Takes c) (ht : rt.Valid) (ha : ra.Valid) : (Instr.ri op rt ra c).Fits := by
  refine ⟨hop.2, ?_, hop.ne_ret⟩
  simp [Instr.registers, Instr.ri, ht, ha]

theorem isBranch_of_refers (h : op.refers = false) : op.isBranch = false :=
  (Bool.or_eq_false_iff.mp h).1

theorem plain_ri (hop : op.refers = false) (hc : fits → op.Admits c) (ht : rt.Valid)
    (ha : ra.Valid) : Plain fits names (.ri op rt ra c) :=
  ⟨isBranch_of_refers hop, fun hf => fits_ri ⟨hop, hc hf⟩ ht ha, .inl ⟨hop, rfl⟩⟩

theorem plain_rr (hop : op.Takes 0) (ht : rt.Valid) (ha : ra.Valid) (hb : rb.Valid) :
    Plain fits names (.rr op rt ra rb) := by
  refine ⟨isBranch_of_refers hop.1, fun _ => ⟨hop.2, ?_, hop.ne_ret⟩, .inl ⟨hop.1, rfl⟩⟩
  simp [Instr.registers, Instr.rr, ht, ha, hb]

theorem plain_rrr (hop : op.Takes 0) (ht : rt.Valid) (ha : ra.Valid) (hb : rb.Valid)
    (hc : rc.Valid) : Plain fits names (.rrr op rt ra rb rc) := by
  refine ⟨isBranch_of_refers hop.1, fun _ => ⟨hop.2, ?_, hop.ne_ret⟩, .inl ⟨hop.1, rfl⟩⟩
  simp [Instr.registers, Instr.rrr, ht, ha, hb, hc]

theorem plain_imm (hop : op.Takes c) (ht : rt.Valid) : Plain fits names (.imm op rt c) := by
  refine ⟨isBranch_of_refers hop.1, fun _ => ⟨hop.2, ?_, hop.ne_ret⟩, .inl ⟨hop.1, rfl⟩⟩
  simp [Instr.registers, Instr.imm, ht]

theorem plain_withTarget {id : Nat} (hop : op = .lqr ∨ op = .stqr ∨ op = .ila) (ht : rt.Valid)
    (hid : names id) : Plain fits names (.withTarget op (some rt) (.object id)) := by
  obtain ⟨hbranch, hadmits, hreal⟩ : op.isBranch = false ∧ op.Admits 0 ∧ op ≠ .ret := by
    rcases hop with rfl | rfl | rfl <;> decide
  refine ⟨hbranch, fun _ => ⟨hadmits, ?_, hreal⟩,
    .inr ⟨(Opcode.patchKind_isSome hbranch).mpr hop, id, rfl, hid⟩⟩
  simp [Instr.registers, Instr.withTarget, ht]

namespace Emit

/-- An instruction with a fresh register for its result. -/
theorem fresh_straight {i : Register → Instr} (h : ∀ rt : Register, rt.Valid → Plain fits names (i rt)) :
    Straight fits names (do let rt ← fresh; instr (i rt); return rt) Register.Valid :=
  Straight.fresh.bind fun rt ht => (Straight.instr (h rt ht)).bind fun _ _ => .pure ht

theorem targeted_straight {id : Nat} (hop : op = .lqr ∨ op = .stqr ∨ op = .ila) (hid : names id) :
    Straight fits names (targeted op (.object id)) Register.Valid :=
  fresh_straight fun _ ht => plain_withTarget hop ht hid

/-- A fragment that starts with the access to an object. -/
theorem targeted_accesses {id : Nat} {f : Register → Emit α} {Q : α → Prop}
    (hop : op = .lqr ∨ op = .stqr ∨ op = .ila)
    (hf : ∀ r : Register, r.Valid → Straight fits (· = id) (f r) Q) :
    Writes (targeted op (.object id) >>= f) (Accesses fits id) Q := by
  have htargeted : Straight fits (· = id) (targeted op (.object id)) Register.Valid :=
    targeted_straight hop rfl
  intro s
  obtain ⟨code, hcode, hplain, hQ⟩ := htargeted.bind hf s
  obtain ⟨rest, hrest, -, -⟩ := hf (.virtual s.next) trivial ((targeted op (.object id)).run s).2
  have hfirst : ((targeted op (.object id)).run s).2.code.toList =
      s.code.toList ++ [.withTarget op (some (.virtual s.next)) (.object id)] := Array.toList_push ..
  refine ⟨code, hcode, ⟨⟨.withTarget op (some (.virtual s.next)) (.object id), ?_, rfl⟩, hplain⟩, hQ⟩
  rw [hfirst, List.append_assoc] at hrest
  have hsame : code = [.withTarget op (some (.virtual s.next)) (.object id)] ++ rest :=
    List.append_cancel_left (hcode.symm.trans hrest)
  simp [hsame]

/-- A move, from or to a register that the machine may lack. -/
theorem move_straight (ht : fits → rt.Valid) (ha : fits → ra.Valid) :
    Straight fits names (move rt ra) fun _ => True :=
  Straight.instr ⟨rfl, fun hf => fits_ri (by decide) (ht hf) (ha hf), .inl ⟨rfl, rfl⟩⟩

end Emit

end Instructions

namespace Emit

variable {ra rb : Register}

/-! ## Immediates -/

theorem takes_short {op : Machine.Opcode} {value : Int} (hop : op.refers = false)
    (hformat : op.format = .ri10) (h : isShort value = true) : op.Takes value := by
  refine ⟨hop, ?_⟩
  intro low high hrange
  obtain ⟨rfl, rfl⟩ : -512 = low ∧ 511 = high := by
    simpa [Opcode.immediateRange, hformat] using hrange
  simpa [isShort] using h

/-- A value type is small enough for its quadwords to have short numbers. -/
def Movable (ty : Ty) : Prop := ty.isValueType = true → ty.size ≤ 0x2000

instance (ty : Ty) : Decidable (Movable ty) := by
  unfold Movable
  infer_instance

theorem Movable.quadwords_le {ty : Ty} (h : Movable ty) (hstruct : ty.isValueType = true) :
    Binary.quadwords ty.size ≤ 512 := by
  have := h hstruct
  unfold Binary.quadwords
  omega

theorem valid_sp : Register.sp.Valid := by
  change 1 ≤ 127
  decide

end Emit

end SpuCompiler.Selection
