import SpuCompiler.Proofs.Trees.Entries

/-!
Where control leaves a tree. Jumps and returns give no value, so nothing can take them as a
child: they stand only at the roots of trees.
-/

namespace SpuCompiler.Trees

open Metadata Bytecode

namespace Node

variable {n : Node}

theorem postorderList_eq (ns : List Node) : postorderList ns = ns.flatMap postorder := by
  induction ns with
  | nil => rfl
  | cons n ns ih => rw [postorderList, ih, List.flatMap_cons]

/-- A tree ends with its root. -/
theorem postorder_eq (n : Node) : n.postorder = n.children.flatMap postorder ++ [n] := by
  cases n <;> simp [postorder, children, postorderList_eq]

/-- All nodes of a tree are its root and the nodes below it. -/
theorem forall_postorder {P : Node → Prop} :
    (∀ k ∈ n.postorder, P k) ↔ (∀ c ∈ n.children, ∀ k ∈ c.postorder, P k) ∧ P n := by
  rw [postorder_eq]
  simp only [List.mem_append, List.mem_flatMap, List.mem_singleton]
  constructor
  · intro h
    exact ⟨fun c hc k hk => h k (.inl ⟨c, hc, hk⟩), h n (.inr rfl)⟩
  · rintro ⟨hchildren, hn⟩ k (⟨c, hc, hk⟩ | rfl)
    · exact hchildren c hc k hk
    · exact hn

def Passes (n : Node) : Prop := n.op.isBranch = false ∧ n.op ≠ .ret

def Quiet (n : Node) : Prop := ∀ k ∈ n.postorder, k.Passes

/-- Only the root of the tree may jump or return. -/
def QuietBelow (n : Node) : Prop := ∀ c ∈ n.children, c.Quiet

theorem quiet_iff : n.Quiet ↔ n.QuietBelow ∧ n.Passes := forall_postorder

end Node

namespace Builder

variable {ns trees stores : List Node} {n : Node} {b b' : Builder} {r : Record}

theorem quiet_loadNode (id offset : Nat) (t : StackType) : (loadNode id offset t).Quiet :=
  Node.quiet_iff.mpr ⟨by simp [Node.QuietBelow, loadNode, Node.children], rfl, nofun⟩

theorem quietBelow_storeNode {value : Node} (h : value.Quiet) (id offset : Nat) :
    (storeNode id value offset).QuietBelow := by
  intro c hc
  obtain rfl := List.mem_singleton.mp hc
  exact h

/-- Values on the stack neither jump nor return, and of the trees of blocks only the roots do. -/
structure Quiet (b : Builder) : Prop where
  trees : ∀ n ∈ b.trees, n.Quiet
  roots : ∀ k ∈ b.blocks, ∀ n ∈ k.roots, n.QuietBelow

theorem quiet_of_yields (h : ∀ n ∈ trees, n.Quiet) {e : Entry} (hy : e.Yields n)
    (he : ∀ m, e = .tree m → m ∈ trees) : n.Quiet := by
  cases hy with
  | tree => exact h n (he n rfl)
  | carried id offset t => exact quiet_loadNode id offset t

theorem mem_trees_iff : Entry.tree n ∈ b.stackEntries ↔ n ∈ b.trees := by
  simp [stackEntries]

/-- What was popped is quiet, and so is what stays. -/
theorem Quiet.popped {es : List Entry} {args : List Node} (h : b.Quiet)
    (hstack : b.stackEntries = b'.stackEntries ++ es) (hys : List.Forall₂ Entry.Yields es args) :
    (∀ n ∈ b'.trees, n.Quiet) ∧ ∀ n ∈ args, n.Quiet := by
  constructor
  · intro n hn
    refine h.trees n (mem_trees_iff.mp ?_)
    rw [hstack]
    exact List.mem_append_left _ (mem_trees_iff.mpr hn)
  · intro n hn
    obtain ⟨k, hk, rfl⟩ := List.mem_iff_getElem.mp hn
    have hk' : k < es.length := hys.length_eq ▸ hk
    refine quiet_of_yields h.trees ((List.forall₂_iff_get.mp hys).2 k hk' hk) ?_
    intro m hm
    refine mem_trees_iff.mp ?_
    rw [hstack, ← hm]
    exact List.mem_append_right _ (List.getElem_mem hk')

theorem Quiet.of_blocks_eq (h : b.Quiet) (hblocks : b'.blocks = b.blocks)
    (htrees : ∀ n ∈ b'.trees, n.Quiet) : b'.Quiet :=
  ⟨htrees, by rw [hblocks]; exact h.roots⟩

theorem Quiet.addRoots (h : b.Quiet) (hns : ∀ n ∈ ns, n.QuietBelow) : (b.addRoots ns).Quiet := by
  refine ⟨?_, forall_roots_addRoots h.roots hns⟩
  rw [addRoots_eq]
  exact h.trees

theorem Quiet.root (h : b.Quiet) (hn : n.QuietBelow) : (b.root n).Quiet := by
  have hroots : ∀ k ∈ [n], k.QuietBelow := by simpa using hn
  exact h.addRoots hroots

/-- The node of a record, like the record, or an access to memory. -/
theorem node_quiet (hb : b.Quiet) (h : b.node r = .ok (n, b')) :
    b'.Quiet ∧ n.QuietBelow ∧ (n.op = r.op ∨ n.Passes) := by
  cases he : r.op.elementAccess? with
  | none =>
    obtain ⟨o, b1, es, args, ho, hstack, hys, hmade, hr⟩ := node_ok_plain he h
    obtain ⟨htrees, hargs⟩ := hb.popped hstack hys
    have hblocks : b'.blocks = b.blocks := by
      obtain ⟨_, _, _, rfl, -⟩ := hr
      rcases operand_ok ho with ⟨rfl, -⟩ | ⟨_, -, -, -, rfl⟩ <;> rfl
    refine ⟨hb.of_blocks_eq hblocks htrees, ?_, .inl hmade.op⟩
    rw [Node.QuietBelow, hmade.children]
    exact hargs
  | some access =>
    simp only [node, he] at h
    obtain ⟨es, array, index, value, hstack, hys, -, hmade, _, _, _, rfl, -⟩ := elementNode_ok h
    obtain ⟨htrees, hargs⟩ := hb.popped hstack hys
    refine ⟨hb.of_blocks_eq rfl htrees, ?_, .inr ?_⟩
    · obtain ⟨element, t, -, -, hchildren⟩ := hmade.parts
      rw [Node.QuietBelow, hchildren]
      intro c hc
      rcases List.mem_cons.mp hc with rfl | hc
      · refine Node.quiet_iff.mpr ⟨?_, rfl, by rintro ⟨⟩⟩
        intro k hk
        exact hargs k (by simp [Node.children] at hk; rcases hk with rfl | rfl <;> simp)
      · exact hargs c (by simp [hc])
    · rw [Node.Passes, hmade.op]
      cases hop : r.op <;> simp [hop, Op.elementAccess?] at he <;> subst he <;>
        exact ⟨rfl, by rintro ⟨⟩⟩

theorem flushStores_quiet {id : Nat} (h : ∀ n ∈ ns, n.Quiet) :
    ∀ s ∈ flushStores id ns, s.QuietBelow := by
  induction ns generalizing id with
  | nil => simp [flushStores]
  | cons n ns ih =>
    intro s hs
    rcases List.mem_cons.mp hs with rfl | hs
    · exact quietBelow_storeNode (h n (by simp)) _ _
    · exact ih (fun m hm => h m (by simp [hm])) s hs

theorem Moves.quiet {offset : Nat} {pairs : List (Entry × Nat)} (h : Moves offset pairs stores)
    (htrees : ∀ n ∈ trees, n.Quiet) (hpairs : ∀ n id, (Entry.tree n, id) ∈ pairs → n ∈ trees) :
    ∀ s ∈ stores, s.QuietBelow := by
  induction h with
  | nil => simp
  | skip _ ih => exact ih fun n id hn => hpairs n id (by simp [hn])
  | @store e n id rest stores hy _ ih =>
    intro s hs
    rcases List.mem_cons.mp hs with rfl | hs
    · refine quietBelow_storeNode (quiet_of_yields htrees hy ?_) _ _
      rintro m rfl
      exact hpairs m id (by simp)
    · exact ih (fun m i hm => hpairs m i (by simp [hm])) s hs

theorem spill_quiet {target : Nat} {reuse : Option (List Nat)} (hb : b.Quiet)
    (h : b.spill r target reuse = .ok (stores, b')) : b'.Quiet ∧ ∀ s ∈ stores, s.QuietBelow := by
  obtain ⟨ids, _, _, _, -, -, hmoves, -, rfl⟩ := spill_ok h
  refine ⟨hb.of_blocks_eq rfl (by simp), hmoves.quiet hb.trees ?_⟩
  intro n id hn
  exact mem_trees_iff.mp (List.of_mem_zip hn).1

theorem flush_quiet (hb : b.Quiet) (h : b.flush = .ok b') : b'.Quiet := by
  obtain ⟨vars, rfl, -, -⟩ := flush_ok h
  have hstores : ∀ s ∈ flushStores b.vars.size b.trees.reverse, s.QuietBelow :=
    flushStores_quiet fun n hn => hb.trees n (by simpa using hn)
  exact (hb.addRoots hstores).of_blocks_eq rfl (by simp)

/-- A node that gives a value neither jumps nor returns. -/
theorem passes_of_producesValue {op : Op} (h : producesValue op n = true) :
    op.isBranch = false ∧ op ≠ .ret := by
  unfold producesValue at h
  cases op <;> simp_all [Op.pushes, Op.isBranch, Op.flow]

theorem place_quiet (hb : b.Quiet) (hn : n.QuietBelow) (hop : n.op = r.op ∨ n.Passes)
    (h : b.place r n = .ok b') : b'.Quiet := by
  rcases place_ok h with ⟨hv, rfl⟩ | ⟨-, -, b1, hf, rfl⟩
  · refine hb.of_blocks_eq rfl ?_
    intro k hk
    rcases List.mem_cons.mp hk with rfl | hk
    · refine Node.quiet_iff.mpr ⟨hn, ?_⟩
      rcases hop with hop | hop
      · rw [Node.Passes, hop]
        exact passes_of_producesValue hv
      · exact hop
    · exact hb.trees k hk
  · exact (flush_quiet hb hf).root hn

theorem branch_quiet (hb : b.Quiet) (hn : n.QuietBelow) (h : b.branch r n = .ok b') : b'.Quiet := by
  obtain ⟨target, stores, b1, more, b2, -, hs, hm, rfl⟩ := branch_ok h
  obtain ⟨hb1, hstores⟩ := spill_quiet hb hs
  have hrest : b2.Quiet ∧ ∀ s ∈ more, s.QuietBelow := by
    rcases hm with ⟨-, -, hm⟩ | ⟨-, rfl, rfl⟩
    · have htarget : (b1.onTarget target).Quiet := hb1.of_blocks_eq rfl (by simp [onTarget])
      exact spill_quiet htarget hm
    · exact ⟨hb1, by simp⟩
  have hroots := ((hrest.1.addRoots hstores).addRoots hrest.2).root hn
  exact hroots.of_blocks_eq rfl (by simp [clearStack])

theorem fallThrough_quiet (hb : b.Quiet) (h : b.fallThrough r = .ok b') : b'.Quiet := by
  rcases fallThrough_ok h with ⟨-, stores, b1, hs, rfl⟩ | ⟨-, rfl⟩
  · obtain ⟨hb1, hstores⟩ := spill_quiet hb hs
    exact hb1.addRoots hstores
  · exact hb

theorem enterAt_quiet (hb : b.Quiet) (offset : Nat) : (b.enterAt offset).Quiet := by
  unfold enterAt
  split
  · exact hb
  · split
    · exact hb.of_blocks_eq rfl (by simp [enter])
    · exact hb

theorem step_quiet (hb : b.Quiet) (h : b.step r = .ok b') : b'.Quiet := by
  obtain ⟨n, b1, hn, hrest⟩ := step_ok h
  obtain ⟨hb1, hbelow, hop⟩ := node_quiet (enterAt_quiet hb r.offset) hn
  rcases hrest with ⟨-, hbranch⟩ | ⟨-, b2, hp, hend⟩
  · exact branch_quiet hb1 hbelow hbranch
  · have hb2 := place_quiet hb1 hbelow hop hp
    rcases hend with ⟨-, rfl⟩ | ⟨-, hf⟩
    · exact hb2.of_blocks_eq rfl (by simp [clearStack])
    · exact fallThrough_quiet hb2 hf

theorem foldlM_quiet {records : List Record} (hb : b.Quiet) (h : records.foldlM step b = .ok b') :
    b'.Quiet :=
  foldlM_invariant (fun _ _ _ _ => step_quiet) hb h

end Builder

/-- Jumps and returns are roots. -/
theorem build_quiet {m : Method} {body : Body} {resolver : Resolver} {routine : Routine}
    (h : build m body resolver = .ok routine) :
    ∀ b ∈ routine.blocks, ∀ n ∈ b.roots, n.QuietBelow := by
  obtain ⟨records, bs, f, -, -, hf, rfl⟩ := build_eq_ok h
  exact (Builder.foldlM_quiet ⟨by simp [Builder.start], Builder.forall_roots_start⟩ hf).roots

end SpuCompiler.Trees
