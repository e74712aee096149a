import SpuCompiler.Proofs.Trees.Execution
import SpuCompiler.Proofs.Trees.Separation

/-!
What the node of a record stands for. On the values that the record takes from the stack the
node does what the record does: its operand means the same, and an element access means the
indirect access that its node is.
-/

namespace SpuCompiler.Trees

open Metadata Bytecode Builder StackMachine TreeMachine

variable {V S : Type}

/-- A node does what its record does, on the values of the nodes that were popped. -/
def Realizes (M : Meaning V S) (roles : Roles) (r : Record) (args : List Node) (n : Node) : Prop :=
  ∀ store s vs s', evalList M roles store args s = some (vs, s') →
    ∃ values, evalList M roles store n.children s = some (values, s') ∧
      operation M r vs = (n.op, operandSlot (refSlot roles) n.operand, values)

theorem Variables.Extends.role_of_some {v v' : Variables} (h : v.Extends v') {id : Nat}
    {x : VariableKind × Nat} (hx : v.role id = some x) : v'.role id = some x := by
  have hlt : id < v.size := by
    by_contra hle
    rw [Variables.role_eq_none_iff.mpr (Nat.le_of_not_lt hle)] at hx
    cases hx
  rw [h.role id hlt, hx]

theorem isSynthetic_of_extends {b : Builder} {v : Variables} (h : b.vars.Extends v) {id : Nat}
    (hid : b.Synthetic id) : IsSynthetic v.role id := by
  obtain ⟨i, hi⟩ := hid
  exact ⟨i, h.role_of_some hi⟩

/-- Where an operand names no temporary, it means in the tree what it means in the code. -/
theorem operandSlot_of_refers {b : Builder} {v : Variables} {r : Record} {o : Operand Ref}
    {arguments locals : Nat} (hext : b.vars.Extends v) (hs : b.Separated)
    (hd : b.Declares arguments locals) (hr : InScope arguments locals r)
    (h : b.Refers r.operand o) :
    operandSlot (refSlot v.role) o = operandSlot placeSlot r.operand ∧
      (temporary? r = none → synthetic? v.role o = none) := by
  unfold InScope at hr
  unfold temporary?
  cases hop : r.operand with
  | ref p =>
    rw [hop] at hr h
    cases p with
    | localVar i =>
      obtain rfl := h
      have hrole := hext.role_of_some (hd.locals i hr)
      simp only [operandSlot, refSlot, placeSlot, synthetic?, hrole, implies_true, and_self]
    | argument i =>
      obtain rfl := h
      have hrole := hext.role_of_some (hd.arguments i hr)
      simp only [operandSlot, refSlot, placeSlot, synthetic?, hrole, implies_true, and_self]
    | temporary i =>
      obtain ⟨id, hid, rfl⟩ := h
      obtain ⟨j, hj⟩ := isSynthetic_of_extends hext (hs.temporaries id (Array.mem_of_getElem? hid)).1
      simp [operandSlot, refSlot, placeSlot, hj]
    | target t =>
      obtain ⟨k, -, rfl⟩ := h
      simp [operandSlot, refSlot, placeSlot, synthetic?]
  | _ =>
    rw [hop] at h
    obtain rfl := h
    exact ⟨rfl, fun _ => rfl⟩

structure NodeOf (M : Meaning V S) (roles : Roles) (b : Builder) (r : Record) (b' : Builder)
    (es : List Entry) (args : List Node) (n : Node) : Prop where
  stack : b.stackEntries = b'.stackEntries ++ es
  yields : List.Forall₂ Entry.Yields es args
  realizes : Realizes M roles r args n
  offset : n.offset = r.offset
  isBranch : n.op.isBranch = r.op.isBranch
  endsBlock : n.op.endsBlock = r.op.endsBlock
  target : ∀ t, r.target? = some t → ∃ k, b.blockAt? t = some k ∧ n.blockId? = some k
  temporary : ∀ i, temporary? r = some i → n.op = r.op ∧
    ∃ id, b'.temporaries[i]? = some id ∧ n.operand = .ref (.variable id)
  plain : temporary? r = none → synthetic? roles n.operand = none

/-- What decoded records have in common: temporaries belong to stores and loads, and an element
access has no reference, but a type where it needs one. -/
structure Decoded (arguments locals : Nat) (r : Record) : Prop where
  inScope : InScope arguments locals r
  ne_dup : r.op ≠ .dup
  target : r.op.isBranch = true ↔ ∃ t, r.target? = some t
  temporary : ∀ i, temporary? r = some i → r.op = .stloc ∨ r.op = .ldloc
  element : r.op = .ldelemAny ∨ r.op = .stelemAny → ∃ ty, r.operand = .type ty

theorem Decoded.element_plain {arguments locals : Nat} {r : Record} (h : Decoded arguments locals r)
    {access : ElementAccess} (he : r.op.elementAccess? = some access) :
    temporary? r = none ∧ r.target? = none := by
  have hop : r.op ≠ .stloc ∧ r.op ≠ .ldloc ∧ r.op.isBranch = false := by
    unfold Op.elementAccess? at he
    split at he <;> simp_all [Op.isBranch, Op.flow]
  constructor
  · cases ht : temporary? r with
    | none => rfl
    | some i => rcases h.temporary i ht with hr | hr <;> simp_all
  · cases ht : r.target? with
    | none => rfl
    | some t =>
      have := h.target.mpr ⟨t, ht⟩
      simp [hop.2.2] at this

theorem operation_plain (M : Meaning V S) {r : Record} (he : r.op.elementAccess? = none)
    (vs : List V) : operation M r vs = (r.op, operandSlot placeSlot r.operand, vs) := by
  unfold operation
  rw [he]

variable {b b' : Builder} {v : Variables} {r : Record} {n : Node} {arguments locals : Nat}

theorem node_of_plain (M : Meaning V S) (hs : b.Separated) (hd : b.Declares arguments locals)
    (hr : Decoded arguments locals r) (hext : b'.vars.Extends v)
    (hnext : ∀ i, temporary? r = some i → i ≤ b.temporaries.size)
    (he : r.op.elementAccess? = none) (h : b.node r = .ok (n, b')) :
    ∃ es args, args.length = r.popCount b.method ∧ NodeOf M v.role b r b' es args n := by
  obtain ⟨o, b1, es, args, ho, hstack, hys, hmade, hre⟩ := node_ok_plain he h
  obtain ⟨hs1, hw1, -, -⟩ := operand_separated hs hd hr.inScope ho
  have hext1 : b1.vars.Extends v := hre.widens.vars.trans hext
  have htemp : b'.temporaries = b1.temporaries := by
    obtain ⟨_, _, _, rfl, -⟩ := hre
    rfl
  have hrefers : b1.Refers r.operand o := by
    rcases operand_ok ho with ⟨rfl, href⟩ | ⟨i, hi, hsize, rfl, rfl⟩
    · exact href
    · rw [hi]
      have hle := hnext i (by simp [temporary?, hi])
      obtain rfl : i = b.temporaries.size := by omega
      exact ⟨b.vars.size, by simp [addTemporary], rfl⟩
  have hd1 : b1.Declares arguments locals := by
    refine hw1.declares ?_ hd
    rcases operand_ok ho with ⟨rfl, -⟩ | ⟨_, -, -, -, rfl⟩ <;> exact ⟨rfl, rfl⟩
  obtain ⟨hslot, hplain⟩ := operandSlot_of_refers hext1 hs1 hd1 hr.inScope hrefers
  refine ⟨es, args, hmade.count, hstack, hys, ?_, hmade.offset, by rw [hmade.op], by rw [hmade.op],
    ?_, ?_, ?_⟩
  · intro store s vs s' hvs
    refine ⟨vs, by rw [hmade.children, hvs], ?_⟩
    rw [operation_plain M he, hmade.op, hmade.operand, hslot]
  · intro t ht
    unfold Record.target? at ht
    split at ht
    · rename_i hop
      cases ht
      rw [hop] at hrefers
      obtain ⟨k, hk, rfl⟩ := hrefers
      refine ⟨k, ?_, by simp [Node.blockId?, hmade.operand]⟩
      rcases operand_ok ho with ⟨rfl, -⟩ | ⟨_, -, -, -, rfl⟩ <;> exact hk
    · cases ht
  · intro i hi
    refine ⟨hmade.op, ?_⟩
    unfold temporary? at hi
    split at hi
    · rename_i hop
      cases hi
      rw [hop] at hrefers
      obtain ⟨id, hid, rfl⟩ := hrefers
      exact ⟨id, htemp ▸ hid, hmade.operand⟩
    · cases hi
  · intro ht
    rw [hmade.operand]
    exact hplain ht

theorem operation_element (M : Meaning V S) {access : ElementAccess} {element : Ty}
    (hr : Decoded arguments locals r) (he : r.op.elementAccess? = some access)
    (helement : ∀ ty, r.operand = .type ty → element = ty) (roles : Roles) (array index : V)
    (values : List V) :
    operation M r (array :: index :: values) =
      (access.indirect, operandSlot (refSlot roles) (indirectOperand access element),
        M.element array index :: values) := by
  have helem := hr.element
  unfold operation indirectOperand
  unfold Op.elementAccess? at he ⊢
  split at he <;> cases he
  · simp [operandSlot]
  · obtain ⟨ty, hty⟩ := helem (by simp [*])
    simp [operandSlot, hty, helement ty hty]
  · simp [operandSlot]
  · obtain ⟨ty, hty⟩ := helem (by simp [*])
    simp [operandSlot, hty, helement ty hty]

/-- Popping array and index and taking the address of the element is one step of evaluation. -/
theorem evalList_element (M : Meaning V S) {roles : Roles} {store : Nat → Option V}
    {array index : Node} {value : List Node} {s s' : S} {vs : List V} (element : Ty) (offset : Nat)
    (t : StackType) (h : evalList M roles store (array :: index :: value) s = some (vs, s')) :
    ∃ a i values, vs = a :: i :: values ∧
      evalList M roles store (.binary ⟨.ldelema, .type element, offset, t⟩ array index :: value) s =
        some (M.element a i :: values, s') := by
  obtain ⟨a, s1, vs1, ha, h1, rfl⟩ := (evalList_cons_eq_some _ _ _).mp h
  obtain ⟨i, s2, values, hi, hvalues, rfl⟩ := (evalList_cons_eq_some _ _ _).mp h1
  refine ⟨a, i, values, rfl, (evalList_cons_eq_some _ _ _).mpr ⟨_, s2, values, ?_, hvalues, rfl⟩⟩
  simp [eval, ha, hi, apply, synthetic?, M.value_ldelema]

theorem node_of_element (M : Meaning V S) {access : ElementAccess}
    (hr : Decoded arguments locals r) (he : r.op.elementAccess? = some access) (roles : Roles)
    (h : b.node r = .ok (n, b')) :
    ∃ es args, args.length = r.popCount b.method ∧ NodeOf M roles b r b' es args n := by
  have hcount := node_depth h
  simp only [node, he] at h
  obtain ⟨es, array, index, value, hstack, hys, -, hmade, hre⟩ := elementNode_ok h
  obtain ⟨element, t, helement, hoperand, hchildren⟩ := hmade.parts
  obtain ⟨hnotemp, hnotarget⟩ := hr.element_plain he
  refine ⟨es, array :: index :: value, ?_, hstack, hys, ?_, hmade.offset, ?_, ?_, ?_, ?_, ?_⟩
  · rw [← length_stackEntries, ← length_stackEntries, hstack, List.length_append,
      hys.length_eq] at hcount
    omega
  · intro store s vs s' hvs
    obtain ⟨a, i, values, rfl, heval⟩ := evalList_element M element r.offset t hvs
    refine ⟨_, by rw [hchildren]; exact heval, ?_⟩
    rw [operation_element M hr he helement roles, hmade.op, hoperand]
  · rw [hmade.op]
    unfold Op.elementAccess? at he
    split at he <;> cases he <;> simp_all [Op.isBranch, Op.flow]
  · rw [hmade.op]
    unfold Op.elementAccess? at he
    split at he <;> cases he <;> simp_all [Op.endsBlock, Op.flow]
  · simp [hnotarget]
  · simp [hnotemp]
  · intro _
    rw [hoperand]
    unfold indirectOperand
    split <;> rfl

/-- The node of a record does what the record does. -/
theorem node_of (M : Meaning V S) (hs : b.Separated) (hd : b.Declares arguments locals)
    (hr : Decoded arguments locals r) (hext : b'.vars.Extends v)
    (hnext : ∀ i, temporary? r = some i → i ≤ b.temporaries.size) (h : b.node r = .ok (n, b')) :
    ∃ es args, args.length = r.popCount b.method ∧ NodeOf M v.role b r b' es args n := by
  cases he : r.op.elementAccess? with
  | none => exact node_of_plain M hs hd hr hext hnext he h
  | some access => exact node_of_element M hr he v.role h

end SpuCompiler.Trees
