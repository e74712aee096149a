import SpuCompiler.Proofs.Selection.SingleAssignment
import SpuCompiler.Proofs.Trees.StoredVariables

/-!
Values of nodes. Lowering visits the nodes of a routine in postorder and gives a register to each
node that has a value. The register is the stack pointer, a fresh one or that of a variable. The
prologue sets the stack pointer and the registers of arguments, fresh registers are set where they
are chosen, and all other variables are set by the trees that store them. What is left are declared
variables that nothing stores.
-/

namespace SpuCompiler.Trees

namespace Node

variable {root n : Node} {id : Nat}

/-- Where all children are values, a node without one is the root of its tree. -/
theorem eq_of_not_pushes (hn : n ∈ root.postorder) (hpushes : ¬ n.Pushes)
    (h : ∀ k ∈ root.postorder, ∀ c ∈ k.children, c.Pushes) : n = root := by
  induction root using induction_children with
  | h root ih =>
    obtain ⟨hbelow, hroot⟩ := forall_postorder.mp h
    rw [postorder_eq, List.mem_append, List.mem_singleton] at hn
    rcases hn with hn | hn
    · obtain ⟨c, hc, hn⟩ := List.mem_flatMap.mp hn
      obtain rfl := ih c hc hn (hbelow c hc)
      exact absurd (hroot n hc) hpushes
    · exact hn

theorem StoresTo.not_pushes (h : n.StoresTo id) : ¬ n.Pushes :=
  Node.not_pushes (by rw [h.1]; rfl)

end Node

end SpuCompiler.Trees

namespace SpuCompiler.Selection

open Machine Metadata Bytecode Trees Objects

/-! ## Code that sets a register -/

def Sets (code : List Instr) (r : Register) : Prop := ∃ i ∈ code, i.sets? = some r

instance (code : List Instr) (r : Register) : Decidable (Sets code r) :=
  inferInstanceAs (Decidable (∃ i ∈ code, i.sets? = some r))

theorem Extends.sets {vars start : Nat} {known rs : List Register} {s t : Stream} {r : Register}
    (h : Extends vars start known s t rs) (hs : Sets s.code.toList r) : Sets t.code.toList r := by
  obtain ⟨code, hcode, -⟩ := h.code
  obtain ⟨i, hi, hset⟩ := hs
  exact ⟨i, by rw [hcode]; exact List.mem_append_left _ hi, hset⟩

/-- Whatever the code before it, the fragment leaves code that sets the register. -/
def Leaves {α : Type} (e : Emit α) (r : Register) : Prop :=
  ∀ s : Stream, Sets (e.run s).2.code.toList r

namespace Leaves

variable {α β : Type} {e : Emit α} {f : α → Emit β} {r : Register}

theorem instr {i : Instr} (h : i.sets? = some r) : Leaves (Emit.instr i) r := by
  intro s
  have hcode : ((Emit.instr i).run s).2.code = s.code.push i := rfl
  exact ⟨i, by simp [hcode], h⟩

theorem move (dst src : Register) : Leaves (Emit.move dst src) dst := instr rfl

theorem bind {vars : Nat} {results : β → List Register} (h : Leaves e r)
    (hf : ∀ x, Emits vars 0 [] (f x) results) : Leaves (e >>= f) r :=
  fun s => (hf _ _ (Nat.zero_le _) (by simp)).sets (h s)

theorem of_rest (h : ∀ x, Leaves (f x) r) : Leaves (e >>= f) r := fun _ => h _ _

end Leaves

namespace Frame

theorem adjustStack_leaves (delta : Int) : Leaves (adjustStack delta) .sp := by
  unfold adjustStack
  split
  · exact .instr rfl
  · exact .of_rest fun _ => .instr rfl

theorem storeArguments_leaves {o : Options} {placed : Variables} {vars : Nat}
    (hstores : Stores vars placed) {slot id k : Nat} {ids : List Nat} {v : Variable}
    (hid : id ∈ ids) (hv : placed.get? id = some v) (hk : v.storage = .register k)
    (hfaults : argumentFaults o placed slot ids = []) :
    Leaves (storeArguments o placed slot ids) (.virtual k) := by
  induction ids generalizing slot with
  | nil => simp at hid
  | cons x ids ih =>
    unfold argumentFaults at hfaults
    unfold storeArguments
    split at hfaults
    · rename_i h hregister
      rcases List.mem_cons.mp hid with rfl | hid
      · simp only [hregister, hv, storeArgument, hk]
        exact (Leaves.move _ _).bind fun _ => storeArguments_emits hstores (slot + 1) ids
      · split
        · exact .of_rest fun _ => ih hid hfaults
        · exact ih hid hfaults
    · cases hfaults

theorem prologue_leaves {o : Options} {f : Frame} {vars : Nat} {arguments : List Nat}
    (hstores : Stores vars f.vars) (hfaults : f.faults o arguments = []) :
    Leaves (f.prologue o arguments) .sp ∧
      ∀ id ∈ arguments, ∀ v k, f.vars.get? id = some v → v.storage = .register k →
        Leaves (f.prologue o arguments) (.virtual k) := by
  have harguments : argumentFaults o f.vars 0 arguments = [] := by
    unfold faults at hfaults
    split at hfaults
    · cases hfaults
    · exact hfaults
  refine ⟨.of_rest fun _ => .of_rest fun _ => ?_, fun id hid v k hv hk => ?_⟩
  · exact (adjustStack_leaves _).bind fun _ => storeArguments_emits hstores 0 arguments
  · exact .of_rest fun _ => .of_rest fun _ => .of_rest fun _ =>
      storeArguments_leaves hstores hid hv hk harguments

end Frame

/-- A store to a variable in a register sets the register. -/
theorem Code.of_leaves {ctx : Context} {n : Node} {regs : List Register} {id k : Nat}
    {v : Variable} {e : Emit (Option Register)} (hn : n.StoresTo id)
    (hv : ctx.vars.get? id = some v) (hk : v.storage = .register k)
    (he : Code.of ctx n regs = .ok e) : Leaves e (.virtual k) := by
  obtain ⟨hop, hid⟩ := hn
  have hpops : n.op.pops = .fixed 1 := by rw [hop]; rfl
  simp only [Code.of, hpops] at he
  split at he
  · simp only [Code.ofOp, hop, Code.unary] at he
    split at he
    · simp only [Code.storeVariable, hid, hv, hk, Code.effect] at he
      cases he
      have hnone : Emits 0 0 [] (pure none) fun o : Option Register => o.toList :=
        .pure (by simp)
      exact (Leaves.move _ _).bind fun _ => hnone
    · cases he
  · cases he

namespace Lowering

variable {L : Lowering} {vars : Nat} {vs : Variables} {blocks : Nat} {n : Node} {id k : Nat}
  {v : Variable} {p p' : Progress} {o : Option Register}

theorem lowerNode_sets {regs : List Register} (hn : n.StoresTo id)
    (hv : L.vars.get? id = some v) (hk : v.storage = .register k)
    (hrun : (L.lowerNode n regs).run p = (o, p')) (herr : p'.errors.size ≤ p.errors.size) :
    Sets p'.stream.code.toList (.virtual k) := by
  rcases lowerNode_cases hrun herr with ⟨bits, hwide, -⟩ | ⟨e, he, hemit⟩
  · rw [wideConstant?_eq_none (by simp [hn.1])] at hwide
    cases hwide
  · cases hemit
    exact Code.of_leaves hn hv hk he p.stream

/-- Lowering a node ends with its own code. -/
theorem lower_ends (hrun : (L.lower n).run p = (o, p')) :
    ∃ regs q, p.Grows q ∧ (L.lowerNode n regs).run q = (o, p') := by
  cases n with
  | leaf h => exact ⟨[], p, .refl p, by rwa [lower] at hrun⟩
  | unary h l =>
    rw [lower, ← bind_assoc, StateT.run_bind] at hrun
    exact ⟨_, _, ((lower_growing L l).bind orFresh_growing) p, hrun⟩
  | rightOnly h r =>
    rw [lower, ← bind_assoc, StateT.run_bind] at hrun
    exact ⟨_, _, ((lower_growing L r).bind orFresh_growing) p, hrun⟩
  | binary h l r =>
    rw [lower, ← bind_assoc, StateT.run_bind] at hrun
    have hfirst := ((lower_growing L l).bind orFresh_growing) p
    simp only [← bind_assoc] at hrun
    rw [StateT.run_bind] at hrun
    exact ⟨_, _, hfirst.trans (((lower_growing L r).bind orFresh_growing) _), hrun⟩
  | call h m args =>
    rw [lower, StateT.run_bind] at hrun
    exact ⟨_, _, lowerArgs_growing L args p, hrun⟩

theorem lower_sets (hn : n.StoresTo id) (hv : L.vars.get? id = some v)
    (hk : v.storage = .register k) (hrun : (L.lower n).run p = (o, p'))
    (herr : p'.errors.size ≤ p.errors.size) : Sets p'.stream.code.toList (.virtual k) := by
  obtain ⟨regs, q, hgrows, hrun'⟩ := lower_ends hrun
  exact lowerNode_sets hn hv hk hrun' (herr.trans hgrows.errors)

theorem lowerRoots_sets (hplaces : Places vs L.vars) (hstores : Stores vars L.vars)
    (hn : n.StoresTo id) (hv : L.vars.get? id = some v) (hk : v.storage = .register k)
    {ns : List Node} (hns : ∀ n ∈ ns, AllSound vs blocks n) (hmem : n ∈ ns)
    (hrun : (L.lowerRoots ns).run p = ((), p')) (herr : p'.errors.size ≤ p.errors.size) :
    Sets p'.stream.code.toList (.virtual k) := by
  induction ns generalizing p with
  | nil => simp at hmem
  | cons m ns ih =>
    obtain ⟨o, q, hrun₁, hrun₂, herr₁, herr₂⟩ :=
      (lower_growing L m).run_bind (fun _ => lowerRoots_growing L ns) hrun herr
    have hrest : ∀ n ∈ ns, AllSound vs blocks n := fun n hn => hns n (by simp [hn])
    rcases List.mem_cons.mp hmem with rfl | hmem
    · obtain ⟨hextends, -⟩ := (lowerRoots_allots hplaces hstores hrest).run hrun₂ herr₂
      exact hextends.sets (lower_sets hn hv hk hrun₁ herr₁)
    · exact ih hrest hmem hrun₂ herr₂

theorem lowerBlocks_sets (hplaces : Places vs L.vars) (hstores : Stores vars L.vars)
    (hn : n.StoresTo id) (hv : L.vars.get? id = some v) (hk : v.storage = .register k)
    {bs : List Block} (hbs : ∀ b ∈ bs, ∀ n ∈ b.roots, AllSound vs blocks n) {b : Block}
    (hb : b ∈ bs) (hroot : n ∈ b.roots) {codes : List (Array Instr)}
    (hrun : (L.lowerBlocks bs).run p = (codes, p')) (herr : p'.errors.size ≤ p.errors.size) :
    ∃ code ∈ codes, Sets code.toList (.virtual k) := by
  induction bs generalizing p codes with
  | nil => simp at hb
  | cons c bs ih =>
    obtain ⟨q, codes', hrun₁, hrun₂, rfl, herr₁, herr₂⟩ := lowerBlocks_cons hrun herr
    rcases List.mem_cons.mp hb with rfl | hb
    · refine ⟨_, List.mem_cons_self, ?_⟩
      exact lowerRoots_sets hplaces hstores hn hv hk
        (fun n hn => hbs b (by simp) n (by simpa using hn)) (by simpa using hroot) hrun₁ herr₁
    · obtain ⟨code, hcode, hsets⟩ := ih (fun b hb => hbs b (by simp [hb])) hb hrun₂ herr₂
      exact ⟨code, List.mem_cons_of_mem _ hcode, hsets⟩

end Lowering

/-! ## What lowering gives -/

namespace Lowering

def behind (L : Lowering) (n : Node) (p : Progress) : Progress :=
  ((L.lower n >>= orFresh).run p).2

mutual

/-- The nodes of a tree in the order in which they are lowered, each with what lowering it gives. -/
def values (L : Lowering) : Node → Progress → List (Node × Option Register)
  | .leaf h, p => [(.leaf h, ((L.lower (.leaf h)).run p).1)]
  | .unary h l, p => L.values l p ++ [(.unary h l, ((L.lower (.unary h l)).run p).1)]
  | .rightOnly h r, p => L.values r p ++ [(.rightOnly h r, ((L.lower (.rightOnly h r)).run p).1)]
  | .binary h l r, p => L.values l p ++ L.values r (L.behind l p) ++
      [(.binary h l r, ((L.lower (.binary h l r)).run p).1)]
  | .call h m args, p => L.argValues args p ++ [(.call h m args, ((L.lower (.call h m args)).run p).1)]

def argValues (L : Lowering) : List Node → Progress → List (Node × Option Register)
  | [], _ => []
  | n :: ns, p => L.values n p ++ L.argValues ns (L.behind n p)

end

def rootValues (L : Lowering) : List Node → Progress → List (Node × Option Register)
  | [], _ => []
  | n :: ns, p => L.values n p ++ L.rootValues ns ((L.lower n).run p).2

def blockValues (L : Lowering) : List Block → Progress → List (Node × Option Register)
  | [], _ => []
  | b :: bs, p =>
    let q := ((L.lowerRoots b.roots.toList).run p).2
    L.rootValues b.roots.toList p ++ L.blockValues bs (takeCode.run q).2

end Lowering

def routineValues (o : Options) (a : Arena) (r : Routine) (routine : ObjectId) :
    List (Node × Option Register) :=
  let frame := Frame.of o r.vars
  match (allocateBlocks r routine).run.run a with
  | (.error _, _) => []
  | (.ok _, a) =>
    let lowering : Lowering := ⟨r.name, o, frame.vars⟩
    let start : Progress := { stream := { next := frame.registers }, arena := a }
    let (_, p) := (Lowering.emit (frame.prologue o r.arguments)).run start
    lowering.blockValues r.blocks.toList (Lowering.takeCode.run p).2

/-- What lowering gives for a node: a register if the node has a value, and that is the stack
pointer, one of a variable, or a fresh one between two numbers. -/
structure Valued (vars lo hi : Nat) (x : Node × Option Register) : Prop where
  value : x.1.Pushes → x.2.isSome = true
  obtained : ∀ r, x.2 = some r → Obtained vars [] lo hi r

theorem Valued.mono {vars lo hi lo' hi' : Nat} {x : Node × Option Register}
    (h : Valued vars lo hi x) (hlo : lo' ≤ lo) (hhi : hi ≤ hi') : Valued vars lo' hi' x :=
  ⟨h.value, fun r hr => (h.obtained r hr).mono hlo hhi⟩

namespace Lowering

variable {L : Lowering} {vars : Nat} {vs : Variables} {blocks : Nat} {p p' : Progress}

mutual

theorem values_nodes : ∀ (n : Node) (p : Progress), (L.values n p).map Prod.fst = n.postorder
  | .leaf h, p => by simp [values, Node.postorder]
  | .unary h l, p => by simp [values, Node.postorder, values_nodes l]
  | .rightOnly h r, p => by simp [values, Node.postorder, values_nodes r]
  | .binary h l r, p => by simp [values, Node.postorder, values_nodes l, values_nodes r]
  | .call h m args, p => by simp [values, Node.postorder, argValues_nodes args]

theorem argValues_nodes : ∀ (ns : List Node) (p : Progress),
    (L.argValues ns p).map Prod.fst = Node.postorderList ns
  | [], p => rfl
  | n :: ns, p => by simp [argValues, Node.postorderList, values_nodes n, argValues_nodes ns]

end

theorem rootValues_nodes (ns : List Node) (p : Progress) :
    (L.rootValues ns p).map Prod.fst = ns.flatMap Node.postorder := by
  induction ns generalizing p with
  | nil => rfl
  | cons n ns ih => simp [rootValues, values_nodes, ih]

theorem blockValues_nodes (bs : List Block) (p : Progress) :
    (L.blockValues bs p).map Prod.fst =
      bs.flatMap fun b => b.roots.toList.flatMap Node.postorder := by
  induction bs generalizing p with
  | nil => rfl
  | cons b bs ih => simp [blockValues, rootValues_nodes, ih]

variable {n : Node} {o : Option Register}
variable (hplaces : Places vs L.vars) (hstores : Stores vars L.vars)

include hplaces hstores

/-- Lowering a tree without an error gives a register if the tree has a value. -/
theorem lower_valued (hn : AllSound vs blocks n) (hrun : (L.lower n).run p = (o, p'))
    (herr : p'.errors.size ≤ p.errors.size) :
    p.stream.next ≤ p'.stream.next ∧ Valued vars p.stream.next p'.stream.next (n, o) := by
  obtain ⟨hextends, hvalue⟩ := (lower_allots hplaces hstores n hn).run hrun herr
  exact ⟨hextends.le, hvalue, fun r hr => hextends.results r (by simpa using hr)⟩

/-- An operand that is lowered without an error has a register, and nothing else happens before
what uses it. -/
theorem operand_run {c : Node} (hc : AllSound vs blocks c) (hpushes : c.Pushes) {α : Type}
    {f : Register → LowerM α} {x : α} (hgf : ∀ a, Growing (f a))
    (hrun : (L.lower c >>= fun o => orFresh o >>= f).run p = (x, p'))
    (herr : p'.errors.size ≤ p.errors.size) :
    ∃ a q, (L.lower c).run p = (some a, q) ∧ L.behind c p = q ∧ (f a).run q = (x, p') ∧
      q.errors.size ≤ p.errors.size ∧ p'.errors.size ≤ q.errors.size ∧
      p.stream.next ≤ q.stream.next ∧ Obtained vars [] p.stream.next q.stream.next a := by
  obtain ⟨o, q, hrun₁, hrun₂, herr₁, herr₂⟩ :=
    (lower_growing L c).run_bind (fun o => (orFresh_growing o).bind hgf) hrun herr
  obtain ⟨hle, hvalued⟩ := lower_valued hplaces hstores hc hrun₁ herr₁
  obtain ⟨a, rfl⟩ := Option.isSome_iff_exists.mp (hvalued.value hpushes)
  refine ⟨a, q, hrun₁, ?_, hrun₂, herr₁, herr₂, hle, hvalued.obtained a rfl⟩
  rw [behind, StateT.run_bind, hrun₁]
  rfl

/-- Code of a node chooses registers behind those of its operands. -/
theorem lowerNode_next (hn : Sound vs blocks n) {regs : List Register} {start : Nat}
    (hregs : ∀ r ∈ regs, Available vars start p.stream.next r) (hstart : start ≤ p.stream.next)
    (hrun : (L.lowerNode n regs).run p = (o, p')) (herr : p'.errors.size ≤ p.errors.size) :
    p.stream.next ≤ p'.stream.next := by
  have hallots : Allots vars start regs (L.lowerNode n regs) Option.toList
      fun o => n.Pushes → o.isSome = true :=
    lowerNode_allots hn hplaces hstores fun r hr => .inr hr
  exact (hallots p p' o hrun herr hstart hregs).1.le

/-- A node with one operand is lowered behind it. -/
theorem single_run {c : Node} (hn : AllSound vs blocks n) (hc : c ∈ n.children)
    (hrun : (L.lower c >>= fun x => orFresh x >>= fun a => L.lowerNode n [a]).run p = (o, p'))
    (herr : p'.errors.size ≤ p.errors.size) :
    ∃ a q, (L.lower c).run p = (some a, q) ∧ q.errors.size ≤ p.errors.size ∧
      q.stream.next ≤ p'.stream.next := by
  obtain ⟨hchildren, hroot⟩ := Node.forall_postorder.mp hn
  obtain ⟨a, q, hrun₁, -, hrun₂, herr₁, herr₂, hle, ha⟩ := operand_run hplaces hstores
    (hchildren c hc) (hroot.operands c hc) (fun a => lowerNode_growing L n [a]) hrun herr
  refine ⟨a, q, hrun₁, herr₁, lowerNode_next hplaces hstores hroot ?_ hle hrun₂ herr₂⟩
  simpa using ha.available (by simp) le_rfl hle

mutual

/-- Every node of a tree that is lowered without an error has a register if it has a value. -/
theorem values_valued {p p' : Progress} {o : Option Register} :
    ∀ n : Node, AllSound vs blocks n → (L.lower n).run p = (o, p') → p'.errors.size ≤ p.errors.size →
      ∀ x ∈ L.values n p, Valued vars p.stream.next p'.stream.next x
  | .leaf h, hn, hrun, herr => by
    simp only [values, List.mem_singleton, forall_eq, hrun]
    exact (lower_valued hplaces hstores hn hrun herr).2
  | .unary h l, hn, hrun, herr => by
    have hself := (lower_valued hplaces hstores hn hrun herr).2
    have hl : l ∈ (Node.unary h l).children := by simp [Node.children]
    simp only [values, List.forall_mem_append, List.mem_singleton, forall_eq, hrun]
    rw [lower] at hrun
    obtain ⟨a, q, hrun₁, herr₁, hnext⟩ := single_run hplaces hstores hn hl hrun herr
    refine ⟨fun x hx => ?_, hself⟩
    exact (values_valued l ((Node.forall_postorder.mp hn).1 l hl) hrun₁ herr₁ x hx).mono le_rfl
      hnext
  | .rightOnly h r, hn, hrun, herr => by
    have hself := (lower_valued hplaces hstores hn hrun herr).2
    have hr : r ∈ (Node.rightOnly h r).children := by simp [Node.children]
    simp only [values, List.forall_mem_append, List.mem_singleton, forall_eq, hrun]
    rw [lower] at hrun
    obtain ⟨a, q, hrun₁, herr₁, hnext⟩ := single_run hplaces hstores hn hr hrun herr
    refine ⟨fun x hx => ?_, hself⟩
    exact (values_valued r ((Node.forall_postorder.mp hn).1 r hr) hrun₁ herr₁ x hx).mono le_rfl
      hnext
  | .binary h l r, hn, hrun, herr => by
    have hself := (lower_valued hplaces hstores hn hrun herr).2
    obtain ⟨hchildren, hroot⟩ := Node.forall_postorder.mp hn
    have hl : l ∈ (Node.binary h l r).children := by simp [Node.children]
    have hr : r ∈ (Node.binary h l r).children := by simp [Node.children]
    simp only [values, List.forall_mem_append, List.mem_singleton, forall_eq, hrun]
    rw [lower] at hrun
    obtain ⟨a, q, hrun₁, hbehind, hrun₂, herr₁, herr₂, hle₁, ha⟩ := operand_run hplaces hstores
      (hchildren l hl) (hroot.operands l hl) (fun a => (lower_growing L r).bind fun o =>
        (orFresh_growing o).bind fun b => lowerNode_growing _ _ _) hrun herr
    obtain ⟨b, q', hrun₃, -, hrun₄, herr₃, herr₄, hle₂, hb⟩ := operand_run hplaces hstores
      (hchildren r hr) (hroot.operands r hr) (fun b => lowerNode_growing _ _ _) hrun₂ herr₂
    have hle₃ : q'.stream.next ≤ p'.stream.next := by
      -- The register of the left operand is still there behind the right one.
      refine lowerNode_next hplaces hstores hroot ?_ (hle₁.trans hle₂) hrun₄ herr₄
      simp only [List.mem_cons, List.not_mem_nil, or_false, forall_eq_or_imp, forall_eq]
      refine ⟨(ha.available (by simp) le_rfl hle₁).mono hle₂, ?_⟩
      exact (hb.mono hle₁ le_rfl).available (by simp) le_rfl (hle₁.trans hle₂)
    rw [hbehind]
    refine ⟨⟨fun x hx => ?_, fun x hx => ?_⟩, hself⟩
    · exact (values_valued l (hchildren l hl) hrun₁ herr₁ x hx).mono le_rfl (hle₂.trans hle₃)
    · exact (values_valued r (hchildren r hr) hrun₃ herr₃ x hx).mono hle₁ hle₃
  | .call h m args, hn, hrun, herr => by
    have hself := (lower_valued hplaces hstores hn hrun herr).2
    obtain ⟨hchildren, hroot⟩ := Node.forall_postorder.mp hn
    simp only [values, List.forall_mem_append, List.mem_singleton, forall_eq, hrun]
    rw [lower] at hrun
    obtain ⟨regs, q, hrun₁, hrun₂, herr₁, herr₂⟩ :=
      (lowerArgs_growing L args).run_bind (lowerNode_growing L _) hrun herr
    obtain ⟨hextends, -⟩ :=
      (lowerArgs_allots hplaces hstores args hchildren hroot.operands).run hrun₁ herr₁
    have hnext := lowerNode_next hplaces hstores hroot
      (by simpa using hextends.available le_rfl (by simp)) hextends.le hrun₂ herr₂
    refine ⟨fun x hx => ?_, hself⟩
    exact (argValues_valued args hchildren hroot.operands hrun₁ herr₁ x hx).mono le_rfl hnext

theorem argValues_valued {p p' : Progress} {rs : List Register} :
    ∀ ns : List Node, (∀ n ∈ ns, AllSound vs blocks n) → (∀ n ∈ ns, n.Pushes) →
      (L.lowerArgs ns).run p = (rs, p') → p'.errors.size ≤ p.errors.size →
      ∀ x ∈ L.argValues ns p, Valued vars p.stream.next p'.stream.next x
  | [], _, _, _, _ => by simp [argValues]
  | n :: ns, hns, hpushes, hrun, herr => by
    have hns' : ∀ k ∈ ns, AllSound vs blocks k := fun k hk => hns k (by simp [hk])
    have hpushes' : ∀ k ∈ ns, k.Pushes := fun k hk => hpushes k (by simp [hk])
    rw [lowerArgs] at hrun
    obtain ⟨a, q, hrun₁, hbehind, hrun₂, herr₁, herr₂, hle, -⟩ := operand_run hplaces hstores
      (hns n (by simp)) (hpushes n (by simp))
      (fun a => (lowerArgs_growing L ns).bind fun rs => .pure (a :: rs)) hrun herr
    rcases hrun₃ : (L.lowerArgs ns).run q with ⟨rs', q'⟩
    rw [StateT.run_bind, hrun₃] at hrun₂
    cases hrun₂
    have hnext := ((lowerArgs_allots hplaces hstores ns hns' hpushes').run hrun₃ herr₂).1.le
    simp only [argValues, List.forall_mem_append, hbehind]
    refine ⟨fun x hx => ?_, fun x hx => ?_⟩
    · exact (values_valued n (hns n (by simp)) hrun₁ herr₁ x hx).mono le_rfl hnext
    · exact (argValues_valued ns hns' hpushes' hrun₃ herr₂ x hx).mono hle le_rfl

end

theorem rootValues_valued {ns : List Node} (hns : ∀ n ∈ ns, AllSound vs blocks n)
    (hrun : (L.lowerRoots ns).run p = ((), p')) (herr : p'.errors.size ≤ p.errors.size) :
    ∀ x ∈ L.rootValues ns p, Valued vars p.stream.next p'.stream.next x := by
  induction ns generalizing p with
  | nil => simp [rootValues]
  | cons n ns ih =>
    have hns' : ∀ k ∈ ns, AllSound vs blocks k := fun k hk => hns k (by simp [hk])
    obtain ⟨o, q, hrun₁, hrun₂, herr₁, herr₂⟩ :=
      (lower_growing L n).run_bind (fun _ => lowerRoots_growing L ns) hrun herr
    have hle := (lower_valued hplaces hstores (hns n (by simp)) hrun₁ herr₁).1
    have hnext := ((lowerRoots_allots hplaces hstores hns').run hrun₂ herr₂).1.le
    simp only [rootValues, List.forall_mem_append, hrun₁]
    refine ⟨fun x hx => ?_, fun x hx => ?_⟩
    · exact (values_valued hplaces hstores n (hns n (by simp)) hrun₁ herr₁ x hx).mono le_rfl hnext
    · exact (ih hns' hrun₂ herr₂ x hx).mono hle le_rfl

theorem blockValues_valued {bs : List Block} (hbs : ∀ b ∈ bs, ∀ n ∈ b.roots, AllSound vs blocks n)
    {codes : List (Array Instr)} (hrun : (L.lowerBlocks bs).run p = (codes, p'))
    (herr : p'.errors.size ≤ p.errors.size) :
    ∀ x ∈ L.blockValues bs p, Valued vars p.stream.next p'.stream.next x := by
  induction bs generalizing p codes with
  | nil => simp [blockValues]
  | cons b bs ih =>
    have hbs' : ∀ c ∈ bs, ∀ n ∈ c.roots, AllSound vs blocks n := fun c hc => hbs c (by simp [hc])
    have hroots : ∀ n ∈ b.roots.toList, AllSound vs blocks n :=
      fun n hn => hbs b (by simp) n (by simpa using hn)
    obtain ⟨q, codes', hrun₁, hrun₂, rfl, herr₁, herr₂⟩ := lowerBlocks_cons hrun herr
    have hle := ((lowerRoots_allots hplaces hstores hroots).run hrun₁ herr₁).1.le
    have hnext := (lowerBlocks_assign hplaces hstores hbs' hrun₂ rfl herr₂).2.2.le
    simp only [blockValues, List.forall_mem_append, hrun₁]
    refine ⟨fun x hx => ?_, fun x hx => ?_⟩
    · exact (rootValues_valued hplaces hstores hroots hrun₁ herr₁ x hx).mono le_rfl hnext
    · exact (ih hbs' hrun₂ herr₂ x hx).mono hle le_rfl

end Lowering

/-! ## Routines -/

/-- The register is that of a variable which the method declares and no node of the routine
stores. -/
def NeverStored (r : Routine) (f : Frame) (reg : Register) : Prop :=
  ∃ id v k, reg = .virtual k ∧ f.vars.get? id = some v ∧ v.kind = .localVar ∧
    v.storage = .register k ∧
    ∀ b ∈ r.blocks, ∀ root ∈ b.roots, ∀ n ∈ root.postorder, ¬ n.StoresTo id

theorem Frame.kinds_assign (vs : List Variable) (offset register : Nat) :
    (assign offset register vs).1.map (·.kind) = vs.map (·.kind) := by
  induction vs generalizing offset register with
  | nil => rfl
  | cons v vs ih =>
    unfold assign
    split
    · simp [ih]
    · simp [ih]

/-- Storage makes no difference to what a variable is. -/
theorem Frame.kind_of {o : Options} {vars : Variables} {id : Nat} {v : Variable}
    (h : (Frame.of o vars).vars.get? id = some v) :
    ∃ w, vars.get? id = some w ∧ w.kind = v.kind := by
  have hkinds : (Frame.of o vars).vars.entries.map (·.kind) = vars.entries.map (·.kind) := by
    apply Array.toList_inj.mp
    simpa [Frame.of] using Frame.kinds_assign vars.entries.toList o.linkAreaSize 0
  have hkind : (vars.entries.map (·.kind))[id]? = some v.kind := by
    rw [← hkinds, Array.getElem?_map, show (Frame.of o vars).vars.entries[id]? = some v from h]
    rfl
  rw [Array.getElem?_map] at hkind
  exact Option.map_eq_some_iff.mp hkind

theorem sets_instructions {s : SelectedRoutine} {b : SelectedBlock} {reg : Register}
    (hb : b ∈ s.allBlocks) (h : Sets b.code.toList reg) : Sets s.instructions reg := by
  obtain ⟨i, hi, hset⟩ := h
  exact ⟨i, List.mem_flatMap.mpr ⟨b, hb, hi⟩, hset⟩

section Routines

variable {r : Routine} {o : Options} {a a' : Arena} {id : ObjectId} {s : SelectedRoutine}

/-- The code of a routine sets the stack pointer, the registers of arguments, and those of the
variables that a root stores. -/
theorem select_sets {Free : Prop} (hvars : r.vars.WellTyped Free)
    (hsound : ∀ b ∈ r.blocks, ∀ root ∈ b.roots, AllSound r.vars r.blocks.size root)
    (h : select o a r id = .ok (s, a')) :
    Sets s.instructions .sp ∧
      ∀ x v k, s.frame.vars.get? x = some v → v.storage = .register k →
        (x ∈ r.arguments ∨ ∃ b ∈ r.blocks, ∃ n ∈ b.roots, n.StoresTo x) →
        Sets s.instructions (.virtual k) := by
  obtain ⟨objects, a₁, codes, p, q, e, halloc, hp, hlow, -, hfaults, herrors, -, rfl⟩ := select_run h
  have hstores : Stores (Frame.of o r.vars).registers (Frame.of o r.vars).vars := Frame.stores hvars
  have hplaces := Frame.places o r.vars
  have hsound' : ∀ b ∈ r.blocks.toList, ∀ n ∈ b.roots, AllSound r.vars r.blocks.size n :=
    fun b hb => hsound b (by simpa using hb)
  obtain ⟨hsp, harguments⟩ := Frame.prologue_leaves hstores hfaults
  refine ⟨sets_instructions List.mem_cons_self (by rw [hp]; exact hsp _), ?_⟩
  intro x v k hv hk hset
  rcases hset with hargument | ⟨b, hb, n, hn, hstored⟩
  · exact sets_instructions List.mem_cons_self (by rw [hp]; exact harguments x hargument v k hv hk _)
  · have herr : q.errors.size ≤ (#[] : Array SelectionError).size := by simp [herrors]
    obtain ⟨code, hcode, i, hi, hset⟩ := Lowering.lowerBlocks_sets hplaces hstores hstored hv hk
      hsound' (by simpa using hb) hn hlow herr
    obtain ⟨hlength, -, -⟩ := Lowering.lowerBlocks_assign hplaces hstores hsound' hlow rfl herr
    have hmap := map_code_bodyBlocks halloc hlength
    obtain ⟨c, hc, hcode'⟩ := List.mem_map.mp
      (hmap ▸ List.mem_map_of_mem (List.mem_map_of_mem hcode))
    refine sets_instructions (b := c) (List.mem_append_left _ (List.mem_cons_of_mem _ hc)) ?_
    rw [hcode']
    exact ⟨resolveTarget objects.body i, List.mem_map_of_mem hi, by rw [sets?_resolveTarget, hset]⟩

/-- Registers that lowering gives are set, unless they belong to variables that nothing stores. -/
theorem select_sets_or {m : Method} {body : Body} {resolver : Resolver}
    (hbuild : build m body resolver = .ok r) (htruthful : r.CallsTruthful)
    (hselect : select o a r id = .ok (s, a')) :
    ∀ reg, Obtained s.frame.registers [] s.frame.registers s.registerCount reg →
      Sets s.instructions reg ∨ NeverStored r s.frame reg := by
  intro reg hreg
  obtain ⟨hvars, hsound⟩ := allSound_of_build hbuild htruthful
  obtain ⟨hframe, hassign⟩ := select_assign hvars hsound hselect
  obtain ⟨hsp, hvariables⟩ := select_sets hvars hsound hselect
  -- The stack pointer, no other given register, a variable, or a fresh register.
  rcases hreg with (rfl | hnil) | ⟨k, rfl, hvariable | ⟨hle, hlt⟩⟩
  · exact .inl hsp
  · simp at hnil
  · rw [hframe] at hvariable
    obtain ⟨x, v, hv, hk⟩ := Frame.lt_registers_iff.mp hvariable
    obtain ⟨w, hw, hkind⟩ := Frame.kind_of hv
    rw [← hframe] at hv
    obtain ⟨hargument, hsynthetic⟩ := build_variables hbuild hw
    by_cases hstored : ∃ b ∈ r.blocks, ∃ root ∈ b.roots, ∃ n ∈ root.postorder, n.StoresTo x
    · obtain ⟨b, hb, root, hroot, n, hn, hstored⟩ := hstored
      -- A store leaves no value, so it is a root and not an operand.
      obtain rfl := Node.eq_of_not_pushes hn hstored.not_pushes
        fun k hk => (hsound b hb root hroot k hk).operands
      exact .inl (hvariables x v k hv hk (.inr ⟨b, hb, n, hroot, hstored⟩))
    · cases hv' : v.kind with
      | argument =>
        exact .inl (hvariables x v k hv hk (.inl (hargument (hkind.trans hv'))))
      | synthetic =>
        exact .inl (hvariables x v k hv hk (.inr (hsynthetic (hkind.trans hv'))))
      | localVar =>
        push Not at hstored
        exact .inr ⟨x, v, k, rfl, hv, hv', hk, hstored⟩
  · obtain ⟨j, code, hj, ⟨i, w, hi, hw, -, -⟩, -⟩ := hassign.exists_defined le_rfl hle hlt
    rw [List.getElem?_map] at hj
    obtain ⟨b, hb, rfl⟩ := Option.map_eq_some_iff.mp hj
    exact .inl (sets_instructions (List.mem_of_getElem? hb) ⟨w, List.mem_of_getElem? hi, hw⟩)

/-- Selection drops no value. It lowers all nodes of the routine, and each node that has a value is
given a register, which some instruction sets, unless it is that of a declared variable which the
routine never stores. -/
theorem select_values {m : Method} {body : Body} {resolver : Resolver}
    (hbuild : build m body resolver = .ok r) (htruthful : r.CallsTruthful)
    (hselect : select o a r id = .ok (s, a')) :
    (routineValues o a r id).map Prod.fst =
        (r.blocks.toList.flatMap fun b => b.roots.toList.flatMap Node.postorder) ∧
      ∀ x ∈ routineValues o a r id, x.1.Pushes →
        ∃ reg, x.2 = some reg ∧ (Sets s.instructions reg ∨ NeverStored r s.frame reg) := by
  obtain ⟨hvars, hsound⟩ := allSound_of_build hbuild htruthful
  have hset := select_sets_or hbuild htruthful hselect
  obtain ⟨objects, a₁, codes, p, q, e, halloc, hp, hlow, he, -, herrors, -, rfl⟩ :=
    select_run hselect
  have hvalues : routineValues o a r id = Lowering.blockValues ⟨r.name, o, (Frame.of o r.vars).vars⟩
      r.blocks.toList { stream := { p with code := #[] }, arena := a₁ } := by
    unfold routineValues
    rw [hp, show (allocateBlocks r id).run.run a = (.ok objects, a₁) from halloc]
    rfl
  rw [hvalues]
  refine ⟨Lowering.blockValues_nodes _ _, fun x hx hpushes => ?_⟩
  have hvalued := Lowering.blockValues_valued (Frame.places o r.vars) (Frame.stores hvars)
    (fun b hb => hsound b (by simpa using hb)) hlow (by simp [herrors]) x hx
  obtain ⟨reg, hx₂⟩ := Option.isSome_iff_exists.mp (hvalued.value hpushes)
  refine ⟨reg, hx₂, hset reg ((hvalued.obtained reg hx₂).mono ?_ ?_)⟩
  · have hprologue : Emits (Frame.of o r.vars).registers 0 []
        ((Frame.of o r.vars).prologue o r.arguments) fun _ => [] :=
      Frame.prologue_emits (Frame.stores hvars)
    rw [hp]
    exact (hprologue { next := (Frame.of o r.vars).registers } (Nat.zero_le _) (by simp)).le
  · have hepilogue : Emits 0 0 [] (Frame.of o r.vars).epilogue fun _ => [] :=
      Frame.epilogue_emits _
    rw [he]
    exact (hepilogue _ (Nat.zero_le _) (by simp)).le

end Routines

/-- Its one variable is stored, so all values of the routine have registers that are set. -/
theorem forward_values :
    ∃ r s a', build forward forwardBody forwardNames.resolver = .ok r ∧ r.CallsTruthful ∧
      select {} forwardOnly r 0 = .ok (s, a') ∧ (routineValues {} forwardOnly r 0).length = 10 ∧
      ∀ x ∈ routineValues {} forwardOnly r 0, x.1.Pushes →
        ∃ reg, x.2 = some reg ∧ Sets s.instructions reg := by
  have hrun : ((build forward forwardBody forwardNames.resolver).toOption.bind fun r =>
      (select {} forwardOnly r 0).toOption.map fun x =>
        (decide r.CallsTruthful, (routineValues {} forwardOnly r 0).length,
          x.1.frame.vars.entries.size,
          decide (∃ b ∈ r.blocks, ∃ root ∈ b.roots, ∃ n ∈ root.postorder, n.StoresTo 0))) =
      some (true, 10, 1, true) := by decide +kernel
  obtain ⟨r, hr, hrun⟩ := Option.bind_eq_some_iff.mp hrun
  obtain ⟨⟨s, a'⟩, hs, hrun⟩ := Option.map_eq_some_iff.mp hrun
  simp only [Prod.mk.injEq, decide_eq_true_eq] at hrun
  obtain ⟨htruthful, hlength, hsize, b, hb, root, hroot, n, hn, hstored⟩ := hrun
  have hbuild := toOption_eq_some.mp hr
  have hselect := toOption_eq_some.mp hs
  obtain ⟨-, hvalues⟩ := select_values hbuild htruthful hselect
  refine ⟨r, s, a', hbuild, htruthful, hselect, hlength, fun x hx hpushes => ?_⟩
  obtain ⟨reg, hreg, hset | ⟨id, v, k, -, hv, -, -, hnever⟩⟩ := hvalues x hx hpushes
  · exact ⟨reg, hreg, hset⟩
  · have hlt := (Array.getElem?_eq_some_iff.mp hv).1
    obtain rfl : id = 0 := by omega
    exact absurd hstored (hnever b hb root hroot n hn)

def answer : Method := { name := "answer", returnType := .i4 }

def answerOnly : Arena := ({} : Arena).push { name := "answer", kind := .routine none }

/-- Stopping the machine is declared to give a number. -/
def haltNames : TokenTable :=
  .of [.method { name := "halt", returnType := .i4, intrinsic := some (.stop 1) }]

/-- Two methods that are selected although they return a value nothing has set: the result of a
stop, for which there is no register at all, and a variable that is never stored. -/
theorem select_drops_values :
    (∃ r s a', build answer { code := [0x28, 1, 0, 0, 6, 0x2A] } haltNames.resolver = .ok r ∧
      select {} answerOnly r 0 = .ok (s, a') ∧
      ∃ x ∈ routineValues {} answerOnly r 0, x.1.Pushes ∧ x.2 = none) ∧
    ∃ r s a', build answer { code := [0x06, 0x2A], locals := [.i4] } haltNames.resolver = .ok r ∧
      select {} answerOnly r 0 = .ok (s, a') ∧
      ∃ x ∈ routineValues {} answerOnly r 0, x.1.Pushes ∧
        ∃ reg ∈ x.2, ¬ Sets s.instructions reg := by
  constructor
  · have hrun : ((build answer { code := [0x28, 1, 0, 0, 6, 0x2A] }
        haltNames.resolver).toOption.bind fun r => (select {} answerOnly r 0).toOption.map fun _ =>
          decide (∃ x ∈ routineValues {} answerOnly r 0, x.1.Pushes ∧ x.2 = none)) = some true := by
      decide +kernel
    obtain ⟨r, hr, hrun⟩ := Option.bind_eq_some_iff.mp hrun
    obtain ⟨⟨s, a'⟩, hs, hrun⟩ := Option.map_eq_some_iff.mp hrun
    exact ⟨r, s, a', toOption_eq_some.mp hr, toOption_eq_some.mp hs, of_decide_eq_true hrun⟩
  · have hrun : ((build answer { code := [0x06, 0x2A], locals := [.i4] }
        haltNames.resolver).toOption.bind fun r => (select {} answerOnly r 0).toOption.map fun y =>
          decide (∃ x ∈ routineValues {} answerOnly r 0, x.1.Pushes ∧
            ∃ reg ∈ x.2, ¬ Sets y.1.instructions reg)) = some true := by
      decide +kernel
    obtain ⟨r, hr, hrun⟩ := Option.bind_eq_some_iff.mp hrun
    obtain ⟨⟨s, a'⟩, hs, hrun⟩ := Option.map_eq_some_iff.mp hrun
    exact ⟨r, s, a', toOption_eq_some.mp hr, toOption_eq_some.mp hs, of_decide_eq_true hrun⟩

end SpuCompiler.Selection
