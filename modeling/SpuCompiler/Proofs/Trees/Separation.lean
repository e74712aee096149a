import SpuCompiler.Proofs.Trees.Entries
import SpuCompiler.Proofs.Trees.Evaluation

/-!
Which variables the builder may write without harm. The lists of variables recorded for blocks
agree on positions: a variable that stands at position `i` of one list stands at position `i` of
every list it occurs in. What is on the stack at position `k` mentions variables of lists only
from position `k` on. So moving the values below `k` into a list leaves alone what stands above.
-/

namespace SpuCompiler.Trees

open Metadata Bytecode

/-! ## Declared variables -/

namespace Variables

theorem role_declareAll (v : Variables) (kind : VariableKind) (start : Nat) (tys : List Ty)
    (id : Nat) :
    (v.declareAll kind start tys).role id =
      if v.size ≤ id ∧ id < v.size + tys.length then some (kind, start + (id - v.size))
      else v.role id := by
  induction tys generalizing v start with
  | nil => simp [declareAll]
  | cons ty tys ih =>
    have hrole : (v.declare kind start ty).role id =
        if id = v.size then some (kind, start) else v.role id := by
      simp only [role, get?, declare, size, Array.getElem?_push]
      split <;> simp_all
    have hsize : (v.declare kind start ty).size = v.size + 1 := by
      simp [declare, size]
    rw [declareAll, ih, hrole, hsize, List.length_cons]
    by_cases h1 : id = v.size
    · subst h1
      simp
    · by_cases h2 : v.size ≤ id ∧ id < v.size + (tys.length + 1)
      · rw [if_pos h2, if_pos (by omega)]
        congr 2
        omega
      · rw [if_neg h2, if_neg (by omega), if_neg h1]

end Variables

namespace Builder

variable {b b' : Builder} {k id locals target arguments : Nat} {es : List Entry} {args : List Node}
  {c n : Node} {r : Record} {entries : List (Nat × List Nat)} {ids : List Nat}
  {reuse : Option (List Nat)} {vars : Variables}

def Synthetic (b : Builder) (id : Nat) : Prop := ∃ i, b.vars.role id = some (.synthetic, i)

/-- Arguments and locals stand for the variables that the method declares. -/
structure Declares (b : Builder) (arguments locals : Nat) : Prop where
  arguments : ∀ i < arguments, b.vars.role (b.arguments.getD i 0) = some (.argument, i)
  locals : ∀ i < locals, b.vars.role (b.locals.getD i 0) = some (.localVar, i)

theorem length_argumentTypes (m : Method) : m.argumentTypes.length = m.argumentCount := by
  unfold Method.argumentTypes Method.argumentCount Method.thisType
  cases m.hasThis <;> cases m.declaring <;> simp

theorem start_declares (m : Method) (body : Body) (bs : List Nat) :
    (start m body bs).Declares m.argumentCount body.locals.length := by
  constructor
  · intro i hi
    rw [← length_argumentTypes] at hi
    simp only [start, Variables.role_declareAll, Variables.size_declareAll]
    have hget : (List.range m.argumentTypes.length).getD i 0 = i := by
      simp [List.getD_eq_getElem?_getD, hi]
    have hzero : ({} : Variables).size = 0 := rfl
    rw [hget, hzero, if_neg (by omega), if_pos (by omega)]
    simp
  · intro i hi
    simp only [start, Variables.role_declareAll, Variables.size_declareAll]
    have hget : ((List.range body.locals.length).map (m.argumentTypes.length + ·)).getD i 0 =
        m.argumentTypes.length + i := by
      simp [List.getD_eq_getElem?_getD, hi]
    have hzero : ({} : Variables).size = 0 := rfl
    rw [hget, hzero, if_pos (by omega)]
    simp

/-- A record refers to variables that there are. -/
def InScope (arguments locals : Nat) (r : Record) : Prop :=
  match r.operand with
  | .ref (.argument i) => i < arguments
  | .ref (.localVar i) => i < locals
  | _ => True

/-! ## Positions in lists -/

/-- In lists of variables, `id` stands only at positions from `k` on. -/
structure Above (b : Builder) (k id : Nat) : Prop where
  lt_size : id < b.vars.size
  le : ∀ p ∈ b.entries, ∀ i, p.2[i]? = some id → k ≤ i

theorem Above.mono {j : Nat} (h : b.Above k id) (hjk : j ≤ k) : b.Above j id :=
  ⟨h.lt_size, fun p hp i hi => hjk.trans (h.le p hp i hi)⟩

theorem Above.not_mem (h : b.Above k id) {p : Nat × List Nat} (hp : p ∈ b.entries)
    (hlen : p.2.length = k) : id ∉ p.2 := by
  intro hmem
  obtain ⟨i, hi⟩ := List.mem_iff_getElem?.mp hmem
  have := h.le p hp i hi
  have := (List.getElem?_eq_some_iff.mp hi).1
  omega

structure Separated (b : Builder) : Prop where
  recorded : ∀ p ∈ b.entries, ∀ id ∈ p.2, b.Synthetic id
  aligned : ∀ p ∈ b.entries, ∀ q ∈ b.entries, ∀ i j id : Nat, p.2[i]? = some id →
    q.2[j]? = some id → i = j
  carried : ∀ id ∈ b.carried, b.Synthetic id ∧ id ∉ b.temporaries
  temporaries : ∀ id ∈ b.temporaries, b.Synthetic id ∧ ∀ p ∈ b.entries, id ∉ p.2
  stack : ∀ k e id, b.stackEntries[k]? = some e → e.node.Mentions id → b.Above k id

/-- Variables are added, and lists of variables that are new or that are there already. -/
structure Widens (b b' : Builder) : Prop where
  vars : b.vars.Extends b'.vars
  entries : ∀ p ∈ b'.entries, (∃ q ∈ b.entries, q.2 = p.2) ∨ ∀ id ∈ p.2, b.vars.size ≤ id

theorem Synthetic.lt_size (h : b.Synthetic id) : id < b.vars.size := by
  obtain ⟨i, hi⟩ := h
  by_contra hle
  rw [Variables.role_eq_none_iff.mpr (Nat.le_of_not_lt hle)] at hi
  cases hi

namespace Widens

variable {b b' b'' : Builder}

theorem of_role_eq (hr : b'.vars.role = b.vars.role) (he : b'.entries = b.entries) :
    b.Widens b' :=
  ⟨.of_role_eq hr, fun p hp => .inl ⟨p, he ▸ hp, rfl⟩⟩

theorem trans (h : b.Widens b') (h' : b'.Widens b'') : b.Widens b'' := by
  refine ⟨h.vars.trans h'.vars, ?_⟩
  intro p hp
  rcases h'.entries p hp with ⟨q, hq, heq⟩ | hnew
  · rw [← heq]
    exact h.entries q hq
  · exact .inr fun id hid => h.vars.size_le.trans (hnew id hid)

theorem synthetic (h : b.Widens b') (hid : b.Synthetic id) : b'.Synthetic id := by
  obtain ⟨i, hi⟩ := hid
  exact ⟨i, by rw [h.vars.role id (Synthetic.lt_size ⟨i, hi⟩), hi]⟩

theorem above (h : b.Widens b') (ha : b.Above k id) : b'.Above k id := by
  refine ⟨lt_of_lt_of_le ha.lt_size h.vars.size_le, ?_⟩
  intro p hp i hi
  rcases h.entries p hp with ⟨q, hq, heq⟩ | hnew
  · exact ha.le q hq i (heq ▸ hi)
  · have := hnew id (List.mem_of_getElem? hi)
    have := ha.lt_size
    omega

theorem declares (h : b.Widens b') (hk : b'.arguments = b.arguments ∧ b'.locals = b.locals)
    (hd : b.Declares arguments locals) : b'.Declares arguments locals := by
  have hrole : ∀ id x, b.vars.role id = some x → b'.vars.role id = some x := by
    intro id x hx
    have hlt : id < b.vars.size := by
      by_contra hle
      rw [Variables.role_eq_none_iff.mpr (Nat.le_of_not_lt hle)] at hx
      cases hx
    rw [h.vars.role id hlt, hx]
  exact ⟨fun i hi => hrole _ _ (hk.1 ▸ hd.arguments i hi),
    fun i hi => hrole _ _ (hk.2 ▸ hd.locals i hi)⟩

end Widens

/-- A variable that the method declares is in no list. -/
theorem Separated.above_of_role (h : b.Separated) {x : VariableKind × Nat}
    (hr : b.vars.role id = some x) (hx : x.1 ≠ .synthetic) (k : Nat) : b.Above k id := by
  constructor
  · by_contra hle
    rw [Variables.role_eq_none_iff.mpr (Nat.le_of_not_lt hle)] at hr
    cases hr
  · intro p hp i hi
    obtain ⟨j, hj⟩ := h.recorded p hp id (List.mem_of_getElem? hi)
    rw [hr] at hj
    cases hj
    exact absurd rfl hx

/-- A variable in no list is above everything. -/
theorem above_of_not_mem (hs : b.Synthetic id) (h : ∀ p ∈ b.entries, id ∉ p.2) (k : Nat) :
    b.Above k id :=
  ⟨hs.lt_size, fun p hp _ hi => absurd (List.mem_of_getElem? hi) (h p hp)⟩

/-! ## Steps keep variables apart -/

/-- What stays on the stack stays where it is. -/
theorem Separated.of_widens (h : b.Separated) (hw : b.Widens b') (hentries : b'.entries = b.entries)
    (htemp : b'.temporaries = b.temporaries) (hcarried : ∀ id ∈ b'.carried, id ∈ b.carried)
    (hstack : ∃ es, b.stackEntries = b'.stackEntries ++ es) : b'.Separated := by
  obtain ⟨es, hes⟩ := hstack
  refine ⟨?_, ?_, ?_, ?_, ?_⟩
  · rw [hentries]
    exact fun p hp id hid => hw.synthetic (h.recorded p hp id hid)
  · rw [hentries]
    exact h.aligned
  · intro id hid
    obtain ⟨hs, hno⟩ := h.carried id (hcarried id hid)
    exact ⟨hw.synthetic hs, htemp ▸ hno⟩
  · rw [htemp, hentries]
    exact fun id hid => ⟨hw.synthetic (h.temporaries id hid).1, (h.temporaries id hid).2⟩
  · intro k e id he hm
    refine hw.above (h.stack k e id ?_ hm)
    rw [hes, List.getElem?_append_left (List.getElem?_eq_some_iff.mp he).1, he]

theorem addTemporary_widens (b : Builder) : b.Widens b.addTemporary :=
  ⟨Variables.Extends.addSynthetic b.vars, fun p hp => .inl ⟨p, hp, rfl⟩⟩

theorem Separated.not_mem_of_size_le (h : b.Separated) (hid : b.vars.size ≤ id) :
    ∀ p ∈ b.entries, id ∉ p.2 := by
  intro p hp hmem
  have := (h.recorded p hp id hmem).lt_size
  omega

theorem Separated.addTemporary (h : b.Separated) : b.addTemporary.Separated := by
  have hw := b.addTemporary_widens
  refine ⟨fun p hp id hid => hw.synthetic (h.recorded p hp id hid), h.aligned, ?_, ?_,
    fun k e id he hm => hw.above (h.stack k e id he hm)⟩
  · intro id hid
    obtain ⟨hs, hno⟩ := h.carried id hid
    refine ⟨hw.synthetic hs, ?_⟩
    intro hmem
    rcases Array.mem_push.mp hmem with hmem | rfl
    · exact hno hmem
    · exact absurd hs.lt_size (lt_irrefl _)
  intro id hid
  rcases Array.mem_push.mp hid with hid | rfl
  · exact ⟨hw.synthetic (h.temporaries id hid).1, (h.temporaries id hid).2⟩
  · refine ⟨⟨syntheticBase + b.vars.synthetics, ?_⟩, h.not_mem_of_size_le (le_refl _)⟩
    rw [Builder.addTemporary, Variables.role_addSynthetic, if_pos rfl]

theorem carried_sublist_of_stackEntries (h : b.stackEntries = b'.stackEntries ++ es) :
    ∀ id ∈ b'.carried, id ∈ b.carried := by
  intro id hid
  have hmem : Entry.carried id ∈ b.stackEntries := by
    rw [h]
    simp [stackEntries, hid]
  simpa [stackEntries] using hmem

theorem exists_yields (h : List.Forall₂ Entry.Yields es args) (hc : c ∈ args) :
    ∃ (j : Nat) (e : Entry), es[j]? = some e ∧ e.Yields c := by
  induction h with
  | nil => cases hc
  | cons hy _ ih =>
    rcases List.mem_cons.mp hc with rfl | hc
    · exact ⟨0, _, rfl, hy⟩
    · obtain ⟨j, e, he, hy'⟩ := ih hc
      exact ⟨j + 1, e, he, hy'⟩

/-- What is popped mentions only what is above the rest of the stack. -/
theorem Separated.above_popped (h : b.Separated) (hstack : b.stackEntries = b'.stackEntries ++ es)
    (hys : List.Forall₂ Entry.Yields es args) (hc : c ∈ args) (hm : c.Mentions id) :
    b.Above b'.depth id := by
  obtain ⟨j, e, he, hy⟩ := exists_yields hys hc
  have hget : b.stackEntries[b'.depth + j]? = some e := by
    rw [hstack, ← length_stackEntries, List.getElem?_append_right (by omega)]
    rw [Nat.add_sub_cancel_left]
    exact he
  exact (h.stack _ e id hget (hy.mentions_iff.mp hm)).mono (Nat.le_add_right _ _)

theorem Restacks.widens (h : b.Restacks b') : b.Widens b' := by
  obtain ⟨trees, carried, vars, rfl, hr⟩ := h
  exact .of_role_eq hr rfl

theorem Restacks.separated (hr : b.Restacks b') (h : b.Separated)
    (hstack : b.stackEntries = b'.stackEntries ++ es) : b'.Separated := by
  refine h.of_widens hr.widens ?_ ?_ (carried_sublist_of_stackEntries hstack) ⟨es, hstack⟩
  · obtain ⟨trees, carried, vars, rfl, -⟩ := hr
    rfl
  · obtain ⟨trees, carried, vars, rfl, -⟩ := hr
    rfl

/-- An operand keeps variables apart, and the variable that it names is above the stack. -/
theorem operand_separated {o : Operand Ref} (h : b.Separated) (hd : b.Declares arguments locals)
    (hr : InScope arguments locals r) (ho : b.operand r = .ok (o, b')) :
    b'.Separated ∧ b.Widens b' ∧ b'.stackEntries = b.stackEntries ∧
      ∀ id, o = .ref (.variable id) → ∀ k, b'.Above k id := by
  rcases operand_ok ho with ⟨rfl, href⟩ | ⟨i, hi, -, rfl, rfl⟩
  · refine ⟨h, .of_role_eq rfl rfl, rfl, ?_⟩
    rintro id rfl k
    unfold InScope at hr
    cases hop : r.operand with
    | ref p =>
      rw [hop] at hr href
      cases p with
      | localVar i =>
        simp only [Refers, Operand.ref.injEq, Ref.variable.injEq] at href
        exact h.above_of_role (href ▸ hd.locals i hr) (by simp) k
      | argument i =>
        simp only [Refers, Operand.ref.injEq, Ref.variable.injEq] at href
        exact h.above_of_role (href ▸ hd.arguments i hr) (by simp) k
      | temporary i =>
        obtain ⟨id', hid, heq⟩ := href
        cases heq
        obtain ⟨hs, hno⟩ := h.temporaries id (Array.mem_of_getElem? hid)
        exact above_of_not_mem hs hno k
      | target t =>
        obtain ⟨_, -, heq⟩ := href
        cases heq
    | _ =>
      rw [hop] at href
      simp [Refers] at href
  · refine ⟨h.addTemporary, b.addTemporary_widens, rfl, ?_⟩
    intro id hid k
    cases hid
    obtain ⟨hs, hno⟩ := h.addTemporary.temporaries b.vars.size (by simp [Builder.addTemporary])
    exact above_of_not_mem hs hno k

/-- A node keeps variables apart, and stands above the rest of the stack. -/
theorem node_separated (h : b.Separated) (hd : b.Declares arguments locals)
    (hr : InScope arguments locals r) (hn : b.node r = .ok (n, b')) :
    b'.Separated ∧ b.Widens b' ∧ ∀ id, n.Mentions id → b'.Above b'.depth id := by
  cases he : r.op.elementAccess? with
  | none =>
    obtain ⟨o, b1, es, args, ho, hstack, hys, hmade, hre⟩ := node_ok_plain he hn
    obtain ⟨hsep, hw, hsame, hvar⟩ := operand_separated h hd hr ho
    rw [← hsame] at hstack
    refine ⟨hre.separated hsep hstack, hw.trans hre.widens, ?_⟩
    intro id hid
    refine hre.widens.above ?_
    rcases Node.mentions_iff.mp hid with hid | ⟨c, hc, hid⟩
    · refine hvar id ?_ _
      rw [← hmade.operand]
      unfold Node.varId? at hid
      split at hid
      · rename_i hop
        cases hid
        exact hop
      · cases hid
    · exact hsep.above_popped hstack hys (hmade.children ▸ hc) hid
  | some access =>
    simp only [node, he] at hn
    obtain ⟨es, array, index, value, hstack, hys, -, hmade, hre⟩ := elementNode_ok hn
    refine ⟨hre.separated h hstack, hre.widens, ?_⟩
    intro id hid
    refine hre.widens.above ?_
    obtain ⟨element, t, -, hop, hchildren⟩ := hmade.parts
    rcases Node.mentions_iff.mp hid with hid | ⟨c, hc, hid⟩
    · rw [Node.varId?, hop] at hid
      unfold indirectOperand at hid
      split at hid <;> rename_i hi <;> split at hi <;> simp_all
    · rw [hchildren] at hc
      rcases List.mem_cons.mp hc with rfl | hc
      · rcases Node.mentions_iff.mp hid with hid | ⟨c, hc, hid⟩
        · simp [Node.varId?, Node.operand, Node.head] at hid
        · refine h.above_popped hstack hys ?_ hid
          simp only [Node.children, List.mem_cons, List.not_mem_nil, or_false] at hc
          rcases hc with rfl | rfl <;> simp
      · exact h.above_popped hstack hys (by simp [hc]) hid

theorem mem_of_lookup {t : Nat} (h : entries.lookup t = some ids) : (t, ids) ∈ entries := by
  induction entries with
  | nil => cases h
  | cons p entries ih =>
    rw [List.lookup_cons] at h
    split at h
    · rename_i heq
      cases h
      obtain rfl : t = p.1 := by simpa using heq
      simp
    · exact List.mem_cons_of_mem _ (ih h)

/-- Without trees, only the carried variables have to be above their positions. -/
theorem stack_of_trees_nil (ht : b.trees = [])
    (h : ∀ k id, b.carried.reverse[k]? = some id → b.Above k id) :
    ∀ k e id, b.stackEntries[k]? = some e → e.node.Mentions id → b.Above k id := by
  intro k e id he hm
  simp only [stackEntries, ht, List.reverse_nil, List.map_nil, List.append_nil,
    List.getElem?_map, Option.map_eq_some_iff] at he
  obtain ⟨x, hx, rfl⟩ := he
  rw [mentions_loadNode.mp hm]
  exact h k x hx

theorem Separated.clearStack (h : b.Separated) : b.clearStack.Separated :=
  ⟨h.recorded, h.aligned, by simp [Builder.clearStack], h.temporaries,
    by simp [stackEntries, Builder.clearStack]⟩

/-- The variables of a block stand at their positions. -/
theorem Separated.onTarget (h : b.Separated) (o : Nat) : (b.onTarget o).Separated := by
  refine ⟨h.recorded, h.aligned, ?_, h.temporaries, stack_of_trees_nil rfl ?_⟩
  · intro id hid
    cases hl : b.entries.lookup o with
    | none => simp [Builder.onTarget, hl] at hid
    | some ids =>
      have hid : id ∈ ids := by simpa [Builder.onTarget, hl] using hid
      have hmem := mem_of_lookup hl
      exact ⟨h.recorded _ hmem id hid, fun ht => (h.temporaries id ht).2 _ hmem hid⟩
  · intro j id hid
    cases hl : b.entries.lookup o with
    | none => simp [Builder.onTarget, hl] at hid
    | some ids =>
      have hid : ids[j]? = some id := by simpa [Builder.onTarget, hl] using hid
      have hmem := mem_of_lookup hl
      refine ⟨(h.recorded _ hmem id (List.mem_of_getElem? hid)).lt_size, ?_⟩
      intro p hp i hi
      exact (h.aligned _ hmem p hp j i id hid hi).le

theorem Separated.enterAt (h : b.Separated) (o : Nat) : (b.enterAt o).Separated := by
  unfold Builder.enterAt
  split
  · exact h
  · split
    · exact (h.onTarget o).of_widens (.of_role_eq rfl rfl) rfl rfl (fun _ => id) ⟨[], by simp; rfl⟩
    · exact h

theorem enterAt_widens (b : Builder) (o : Nat) : b.Widens (b.enterAt o) := by
  unfold Builder.enterAt
  split
  · exact .of_role_eq rfl rfl
  · split <;> exact .of_role_eq rfl rfl

theorem addRoots_widens (b : Builder) (ns : List Node) : b.Widens (b.addRoots ns) := by
  rw [addRoots_eq]
  exact .of_role_eq rfl rfl

theorem Separated.addRoots (h : b.Separated) (ns : List Node) : (b.addRoots ns).Separated := by
  refine h.of_widens (b.addRoots_widens ns) (entries_addRoots b ns) ?_ ?_ ⟨[], ?_⟩
  · rw [addRoots_eq]
  · rw [addRoots_eq]
    exact fun _ => id
  · rw [addRoots_eq, List.append_nil]
    rfl

theorem flush_separated (h : b.Separated) (hf : b.flush = .ok b') : b'.Separated ∧ b.Widens b' := by
  obtain ⟨vars, rfl, hsize, hext⟩ := flush_ok hf
  have hentries : (b.addRoots (flushStores b.vars.size b.trees.reverse)).entries = b.entries :=
    entries_addRoots _ _
  have htemp : (b.addRoots (flushStores b.vars.size b.trees.reverse)).temporaries =
      b.temporaries := by rw [addRoots_eq]
  generalize b.addRoots (flushStores b.vars.size b.trees.reverse) = x at hentries htemp
  have hw : b.Widens { x with
      trees := [], carried := (List.range' b.vars.size b.trees.length).reverse ++ b.carried,
      vars := vars } := ⟨hext, fun p hp => .inl ⟨p, hentries ▸ hp, rfl⟩⟩
  have hnew : ∀ id ∈ List.range' b.vars.size b.trees.length,
      ∃ i, vars.role id = some (.synthetic, i) := by
    intro id hid
    obtain ⟨hle, hlt⟩ := List.mem_range'_1.mp hid
    exact hext.synthetic id hle (by omega)
  refine ⟨⟨?_, ?_, ?_, ?_, stack_of_trees_nil rfl ?_⟩, hw⟩
  · intro p hp id hid
    exact hw.synthetic (h.recorded p (hentries ▸ hp) id hid)
  · intro p hp q hq
    exact h.aligned p (hentries ▸ hp) q (hentries ▸ hq)
  · intro id hid
    rcases List.mem_append.mp hid with hid | hid
    · have hid := List.mem_reverse.mp hid
      refine ⟨hnew id hid, ?_⟩
      intro ht
      have := (h.temporaries id (htemp ▸ ht)).1.lt_size
      have := (List.mem_range'_1.mp hid).1
      omega
    · obtain ⟨hs, hno⟩ := h.carried id hid
      exact ⟨hw.synthetic hs, htemp ▸ hno⟩
  · intro id hid
    obtain ⟨hs, hno⟩ := h.temporaries id (htemp ▸ hid)
    exact ⟨hw.synthetic hs, fun p hp => hno p (hentries ▸ hp)⟩
  · intro k id hid
    rw [List.reverse_append, List.reverse_reverse] at hid
    by_cases hk : k < b.carried.reverse.length
    · rw [List.getElem?_append_left hk] at hid
      refine hw.above (h.stack k (.carried id) id ?_ (mentions_loadNode.mpr rfl))
      rw [stackEntries, List.getElem?_append_left (by simpa using hk), List.getElem?_map, hid]
      rfl
    · rw [List.getElem?_append_right (Nat.le_of_not_lt hk)] at hid
      have hmem := List.mem_of_getElem? hid
      refine above_of_not_mem ?_ ?_ k
      · exact hnew id hmem
      intro p hp
      exact h.not_mem_of_size_le (List.mem_range'_1.mp hmem).1 p (hentries ▸ hp)

theorem Enters.mem (h : Enters b target reuse ids vars entries) : (target, ids) ∈ entries := by
  cases h with
  | recorded hl => exact mem_of_lookup hl
  | reused _ _ _ => simp
  | fresh _ _ _ _ => simp

/-- Lists to reuse are there already. -/
def Reuses (b : Builder) (reuse : Option (List Nat)) : Prop :=
  ∀ ids, reuse = some ids → ids = [] ∨ ∃ p ∈ b.entries, p.2 = ids

theorem Enters.widens (h : Enters b target reuse ids vars entries) (hreuse : b.Reuses reuse) :
    b.Widens { b with vars := vars, entries := entries } := by
  cases h with
  | recorded hl => exact .of_role_eq rfl rfl
  | reused hl hv hr =>
    refine ⟨.refl _, ?_⟩
    intro p hp
    rcases List.mem_cons.mp hp with rfl | hp
    · rcases hreuse ids hr with rfl | hq
      · exact .inr (by simp)
      · exact .inl hq
    · exact .inl ⟨p, hp, rfl⟩
  | fresh hl hv hsize hext =>
    refine ⟨hext, ?_⟩
    intro p hp
    rcases List.mem_cons.mp hp with rfl | hp
    · exact .inr fun id hid => (List.mem_range'_1.mp hid).1
    · exact .inl ⟨p, hp, rfl⟩

/-- New lists keep positions: they are old lists, or their variables are new. -/
theorem Enters.separated (h : Enters b target reuse ids vars entries) (hreuse : b.Reuses reuse)
    (hs : b.Separated) : { b with vars := vars, entries := entries }.Separated := by
  have hw := h.widens hreuse
  have hlists : ∀ p ∈ entries, (∃ q ∈ b.entries, q.2 = p.2) ∨ p.2 = [] ∨
      (p.2 = List.range' b.vars.size b.depth ∧ vars.size = b.vars.size + b.depth ∧
        b.vars.Extends vars) := by
    cases h with
    | recorded hl => exact fun p hp => .inl ⟨p, hp, rfl⟩
    | reused hl hv hr =>
      intro p hp
      rcases List.mem_cons.mp hp with rfl | hp
      · rcases hreuse ids hr with rfl | hq
        · exact .inr (.inl rfl)
        · exact .inl hq
      · exact .inl ⟨p, hp, rfl⟩
    | fresh hl hv hsize hext =>
      intro p hp
      rcases List.mem_cons.mp hp with rfl | hp
      · exact .inr (.inr ⟨rfl, hsize, hext⟩)
      · exact .inl ⟨p, hp, rfl⟩
  have hold : ∀ q ∈ b.entries, ∀ i id : Nat, q.2[i]? = some id → id < b.vars.size :=
    fun q hq i id hi => (hs.recorded q hq id (List.mem_of_getElem? hi)).lt_size
  have hfresh : ∀ i id : Nat, (List.range' b.vars.size b.depth)[i]? = some id →
      id = b.vars.size + i := by
    intro i id hi
    obtain ⟨hlt, rfl⟩ := List.getElem?_eq_some_iff.mp hi
    simp
  refine ⟨?_, ?_, fun id hid => ⟨hw.synthetic (hs.carried id hid).1, (hs.carried id hid).2⟩, ?_,
    fun k e id he hm => hw.above (hs.stack k e id he hm)⟩
  · intro p hp id hid
    rcases hlists p hp with ⟨q, hq, heq⟩ | hnil | ⟨heq, hsize, hext⟩
    · exact hw.synthetic (hs.recorded q hq id (heq ▸ hid))
    · simp [hnil] at hid
    · rw [heq] at hid
      obtain ⟨hle, hlt⟩ := List.mem_range'_1.mp hid
      exact hext.synthetic id hle (by omega)
  · intro p hp q hq i j id hi hj
    rcases hlists p hp with ⟨p', hp', heq⟩ | hnil | ⟨heq, -, -⟩
    · rw [← heq] at hi
      rcases hlists q hq with ⟨q', hq', heq'⟩ | hnil | ⟨heq', -, -⟩
      · exact hs.aligned p' hp' q' hq' i j id hi (heq' ▸ hj)
      · simp [hnil] at hj
      · rw [heq'] at hj
        have := hold p' hp' i id hi
        have := hfresh j id hj
        omega
    · simp [hnil] at hi
    · rw [heq] at hi
      have hid := hfresh i id hi
      rcases hlists q hq with ⟨q', hq', heq'⟩ | hnil | ⟨heq', -, -⟩
      · rw [← heq'] at hj
        have := hold q' hq' j id hj
        omega
      · simp [hnil] at hj
      · rw [heq'] at hj
        have := hfresh j id hj
        omega
  · intro id hid
    obtain ⟨hsyn, hno⟩ := hs.temporaries id hid
    refine ⟨hw.synthetic hsyn, ?_⟩
    intro p hp hmem
    rcases hlists p hp with ⟨q, hq, heq⟩ | hnil | ⟨heq, -, -⟩
    · exact hno q hq (heq ▸ hmem)
    · simp [hnil] at hmem
    · rw [heq] at hmem
      have := (List.mem_range'_1.mp hmem).1
      have := hsyn.lt_size
      omega

theorem spill_separated {stores : List Node} (hs : b.Separated) (hreuse : b.Reuses reuse)
    (h : b.spill r target reuse = .ok (stores, b')) : b'.Separated ∧ b.Widens b' := by
  obtain ⟨ids, vars, vars', entries, -, henters, -, hrole, rfl⟩ := spill_ok h
  have hsep := (henters.separated hreuse hs).clearStack
  have hw : b.Widens { b with vars := vars, entries := entries } := henters.widens hreuse
  have hw' : { b with vars := vars, entries := entries }.Widens
      { b with trees := [], carried := [], vars := vars', entries := entries } :=
    .of_role_eq hrole rfl
  refine ⟨hsep.of_widens (.of_role_eq hrole rfl) rfl rfl (fun _ => id) ⟨[], rfl⟩, hw.trans hw'⟩

theorem place_separated (hs : b.Separated) (hn : ∀ id, n.Mentions id → b.Above b.depth id)
    (h : b.place r n = .ok b') : b'.Separated ∧ b.Widens b' := by
  rcases place_ok h with ⟨-, rfl⟩ | ⟨-, -, b1, hf, rfl⟩
  · have hw : b.Widens { b with trees := n :: b.trees } := .of_role_eq rfl rfl
    refine ⟨⟨hs.recorded, hs.aligned, hs.carried, hs.temporaries, ?_⟩, hw⟩
    intro k e id he hm
    have hstack : { b with trees := n :: b.trees }.stackEntries = b.stackEntries ++ [.tree n] := by
      simp [stackEntries]
    rw [hstack, List.getElem?_append] at he
    split at he
    · exact hw.above (hs.stack k e id he hm)
    · rename_i hk
      rw [List.getElem?_singleton] at he
      split at he
      · rename_i hzero
        cases he
        rw [length_stackEntries] at hk hzero
        exact hw.above ((hn id hm).mono (by omega))
      · cases he
  · obtain ⟨hs1, hw1⟩ := flush_separated hs hf
    exact ⟨hs1.addRoots [n], hw1.trans (b1.addRoots_widens [n])⟩

theorem fallThrough_separated (hs : b.Separated) (h : b.fallThrough r = .ok b') :
    b'.Separated ∧ b.Widens b' := by
  rcases fallThrough_ok h with ⟨-, stores, b1, hsp, rfl⟩ | ⟨-, rfl⟩
  · obtain ⟨hs1, hw1⟩ := spill_separated hs (by simp [Reuses]) hsp
    exact ⟨hs1.addRoots stores, hw1.trans (b1.addRoots_widens stores)⟩
  · exact ⟨hs, .of_role_eq rfl rfl⟩

theorem reuses_lookup (b : Builder) (target : Nat) :
    (b.onTarget target).Reuses (some ((b.entries.lookup target).getD [])) := by
  intro ids hids
  cases hids
  cases hl : b.entries.lookup target with
  | none => exact .inl rfl
  | some ids => exact .inr ⟨_, mem_of_lookup hl, rfl⟩

theorem branch_separated (hs : b.Separated) (h : b.branch r n = .ok b') :
    b'.Separated ∧ b.Widens b' := by
  obtain ⟨target, stores, b1, more, b2, -, hsp, hm, rfl⟩ := branch_ok h
  obtain ⟨hs1, hw1⟩ := spill_separated hs (by simp [Reuses]) hsp
  obtain ⟨hs2, hw2⟩ : b2.Separated ∧ b1.Widens b2 := by
    rcases hm with ⟨-, -, hm⟩ | ⟨-, rfl, rfl⟩
    · obtain ⟨hs2, hw2⟩ := spill_separated (hs1.onTarget target) (reuses_lookup b1 target) hm
      exact ⟨hs2, ⟨hw2.vars, hw2.entries⟩⟩
    · exact ⟨hs1, .of_role_eq rfl rfl⟩
  refine ⟨((((hs2.addRoots stores).addRoots more).addRoots [n])).clearStack, ?_⟩
  have hroots := ((b2.addRoots_widens stores).trans ((b2.addRoots stores).addRoots_widens more)).trans
    (((b2.addRoots stores).addRoots more).addRoots_widens [n])
  exact ((hw1.trans hw2).trans hroots).trans (.of_role_eq rfl rfl)

/-- A step keeps variables apart. -/
theorem step_separated (hs : b.Separated) (hd : b.Declares arguments locals)
    (hr : InScope arguments locals r) (h : b.step r = .ok b') : b'.Separated ∧ b.Widens b' := by
  obtain ⟨n, b1, hn, hrest⟩ := step_ok h
  have hw0 := b.enterAt_widens r.offset
  have hd0 : (b.enterAt r.offset).Declares arguments locals :=
    hw0.declares ⟨arguments_enterAt b _, locals_enterAt b _⟩ hd
  obtain ⟨hs1, hw1, hmention⟩ := node_separated (hs.enterAt r.offset) hd0 hr hn
  rcases hrest with ⟨-, hb⟩ | ⟨-, b2, hp, hend⟩
  · obtain ⟨hs2, hw2⟩ := branch_separated hs1 hb
    exact ⟨hs2, (hw0.trans hw1).trans hw2⟩
  · obtain ⟨hs2, hw2⟩ := place_separated hs1 hmention hp
    rcases hend with ⟨-, rfl⟩ | ⟨-, hf⟩
    · exact ⟨hs2.clearStack, ((hw0.trans hw1).trans hw2).trans (.of_role_eq rfl rfl)⟩
    · obtain ⟨hs3, hw3⟩ := fallThrough_separated hs2 hf
      exact ⟨hs3, ((hw0.trans hw1).trans hw2).trans hw3⟩

theorem start_separated (m : Method) (body : Body) (bs : List Nat) :
    (start m body bs).Separated := by
  constructor <;> simp [start, stackEntries]

theorem foldlM_separated {records : List Record} (hs : b.Separated)
    (hd : b.Declares arguments locals) (hr : ∀ r ∈ records, InScope arguments locals r)
    (h : records.foldlM step b = .ok b') :
    b'.Separated ∧ b'.Declares arguments locals ∧ b.Widens b' := by
  induction records generalizing b with
  | nil =>
    cases h
    exact ⟨hs, hd, .of_role_eq rfl rfl⟩
  | cons r records ih =>
    obtain ⟨b1, h1, h⟩ := foldlM_cons_eq_ok.mp h
    obtain ⟨hs1, hw1⟩ := step_separated hs hd (hr r (by simp)) h1
    have hkeeps := step_keeps h1
    have hd1 := hw1.declares ⟨hkeeps.arguments.trans (arguments_enterAt b _),
      hkeeps.locals.trans (locals_enterAt b _)⟩ hd
    obtain ⟨hs2, hd2, hw2⟩ := ih hs1 hd1 (fun q hq => hr q (by simp [hq])) h
    exact ⟨hs2, hd2, hw1.trans hw2⟩

end Builder

end SpuCompiler.Trees
