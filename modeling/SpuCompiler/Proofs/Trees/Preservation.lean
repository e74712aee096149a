import SpuCompiler.Proofs.Trees.Simulation

/-!
Trees mean what the code means. While the stack machine runs the records of a body, the tree
machine runs the roots made from them. A record that leaves a value adds a tree and runs nothing;
one that has an effect runs the trees below it first; a branch moves the stack into variables.
-/

namespace SpuCompiler.Trees

open Metadata Bytecode Builder StackMachine TreeMachine

variable {V S : Type} {M : Meaning V S}

/-! ## One record -/

theorem StackMachine.step_eq {m : Method} {records post : List Record} {r : Record}
    {c : StackMachine.Config V S} {below vs : List V} (hrest : c.rest = r :: post)
    (hstack : c.stack = below ++ vs) (hlen : vs.length = r.popCount m) :
    StackMachine.step M m records c = StackMachine.exec M records r post below vs c := by
  have hkeep : (below ++ vs).length - r.popCount m = below.length := by
    rw [List.length_append, hlen, Nat.add_sub_cancel]
  have hnot : ¬ (below ++ vs).length < r.popCount m := by
    rw [List.length_append]
    omega
  simp only [StackMachine.step, hrest, hstack, if_neg hnot, hkeep, List.take_left',
    List.drop_left']

section Exec

variable {records post : List Record} {r : Record} {below vs values : List V}
  {c : StackMachine.Config V S} {op : Op} {operand : Operand Slot}

theorem StackMachine.exec_value (hb : r.op.isBranch = false) (he : r.op.endsBlock = false)
    (ht : temporary? r = none) (hpush : r.pushCount = 1)
    (hop : operation M r vs = (op, operand, values)) :
    StackMachine.exec M records r post below vs c =
      .next ⟨post, below ++ [(M.value op operand values c.state).1], c.temporaries,
        (M.value op operand values c.state).2⟩ := by
  simp [StackMachine.exec, hop, hb, he, ht, hpush]

theorem StackMachine.exec_effect (hb : r.op.isBranch = false) (he : r.op.endsBlock = false)
    (ht : temporary? r = none) (hpush : r.pushCount = 0)
    (hop : operation M r vs = (op, operand, values)) :
    StackMachine.exec M records r post below vs c =
      .next ⟨post, below, c.temporaries, M.effect op operand values c.state⟩ := by
  simp [StackMachine.exec, hop, hb, he, ht, hpush]

theorem StackMachine.exec_load {i : Nat} {v : V} (hr : r.op = .ldloc) (ht : temporary? r = some i)
    (hv : c.temporaries i = some v) :
    StackMachine.exec M records r post below [] c =
      .next ⟨post, below ++ [v], c.temporaries, c.state⟩ := by
  simp [StackMachine.exec, hr, ht, hv, Op.isBranch, Op.endsBlock, Op.flow]

theorem StackMachine.exec_store {i : Nat} {v : V} (hr : r.op = .stloc) (ht : temporary? r = some i) :
    StackMachine.exec M records r post below [v] c =
      .next ⟨post, below, write c.temporaries i v, c.state⟩ := by
  simp [StackMachine.exec, hr, ht, Op.isBranch, Op.endsBlock, Op.flow]

end Exec

/-- The roots that a part of a step adds are the next ones to run. -/
theorem Matches.next_roots {f e b : Builder} {stack : List V} {state : S}
    {t : TreeMachine.Config V S} {new : List Node} (hm : Matches M f e stack state t)
    (hadds : e.Adds b new) (hcur : e.current < e.blocks.size) (hgrows : b.Grows f) :
    ∃ more, t.roots = new ++ more ∧ f.rootsAt b.current = b.rootsAt b.current ++ more := by
  obtain ⟨more, hmore⟩ := hgrows.roots b.current
  refine ⟨more, ?_, hmore⟩
  have hroots := hm.roots
  rw [← hadds.current, hmore, hadds.roots hcur, if_pos hadds.current, List.append_assoc,
    hadds.current] at hroots
  exact (List.append_cancel_left hroots).symm

theorem node_temporaries_keep {b b' : Builder} {r : Record} {n : Node}
    (h : b.node r = .ok (n, b')) {i id : Nat} (hi : b.temporaries[i]? = some id) :
    b'.temporaries[i]? = some id := by
  cases he : r.op.elementAccess? with
  | none =>
    obtain ⟨o, b1, -, -, ho, -, -, -, _, _, _, rfl, -⟩ := node_ok_plain he h
    rcases operand_ok ho with ⟨rfl, -⟩ | ⟨_, -, -, -, rfl⟩
    · exact hi
    · have hlt := (Array.getElem?_eq_some_iff.mp hi).1
      simpa [addTemporary, Array.getElem?_push, Nat.ne_of_lt hlt] using hi
  | some access =>
    simp only [node, he] at h
    obtain ⟨-, -, -, -, -, -, -, -, _, _, _, rfl, -⟩ := elementNode_ok h
    exact hi

/-- Both machines are about to run a record: of its node `n` the children evaluate to `values`
behind the rest of the stack. -/
structure Ready (M : Meaning V S) (m : Method) (f : Builder) (r : Record) (n : Node) (b : Builder)
    (c : StackMachine.Config V S) (t : TreeMachine.Config V S) (below vs values : List V) (s : S) :
    Prop where
  ne_dup : r.op ≠ .dup
  temporary : ∀ i, temporary? r = some i → r.op = .stloc ∨ r.op = .ldloc
  count : vs.length = r.popCount m
  stack : c.stack = below ++ vs
  made : ∃ e es args, e.node r = .ok (n, b) ∧ NodeOf M f.vars.role e r b es args n
  under : Matches M f b below s t
  children : evalList M f.vars.role t.store n.children s = some (values, c.state)
  operation : operation M r vs = (n.op, operandSlot (refSlot f.vars.role) n.operand, values)
  separated : b.Separated
  vars : b.vars.Extends f.vars
  above : ∀ id, n.Mentions id → b.Above b.depth id
  load : ∀ i, r.op = .ldloc → temporary? r = some i → Duplicated b c.temporaries t.store i

/-- A root runs on the values of its children, also if variables that it does not mention have
been written since. -/
theorem TreeMachine.step_root {routine : Routine} {n : Node} {more : List Node} {block : Nat}
    {store store' : Nat → Option V} {s s' : S} {values : List V}
    (h : evalList M routine.vars.role store n.children s = some (values, s'))
    (hsame : ∀ id, n.Mentions id → store' id = store id) :
    TreeMachine.step M routine ⟨block, n :: more, store', s⟩ =
      TreeMachine.exec M routine n values ⟨block, more, store', s'⟩ := by
  have hchildren : evalList M routine.vars.role store' n.children s = some (values, s') := by
    rw [← h]
    exact evalList_congr (fun c hc id hid => hsame id (.child hc hid)) s
  simp only [TreeMachine.step, hchildren]

section Record

variable {m : Method} {f b b' : Builder} {r : Record} {n : Node} {c : StackMachine.Config V S}
  {t : TreeMachine.Config V S} {below vs values : List V} {s : S} {records post : List Record}

variable (h : Ready M m f r n b c t below vs values s)

include h

theorem Ready.plain (he : r.op.elementAccess? = none) : n.op = r.op ∧ values = vs := by
  have hop := h.operation
  rw [operation_plain M he] at hop
  exact ⟨(congrArg (·.1) hop).symm, (congrArg (·.2.2) hop).symm⟩

/-- The tree of a record that leaves a value stands for the value. -/
theorem Ready.place_value (hb : r.op.isBranch = false) (he : r.op.endsBlock = false)
    (hv : producesValue r.op n = true) :
    ∃ c', StackMachine.exec M records r post below vs c = .next c' ∧ c'.rest = post ∧
      Matches M f { b with trees := n :: b.trees } c'.stack c'.state t ∧
      ∀ i, temporary? r = some i → Duplicated b c'.temporaries t.store i := by
  obtain ⟨e, es, args, hn, hof⟩ := h.made
  have hpush : r.pushCount = 1 := by rw [node_produces h.ne_dup hn, if_pos hv]
  have hmatch : ∀ v s', eval M f.vars.role t.store n s = some (v, s') →
      Matches M f { b with trees := n :: b.trees } (below ++ [v]) s' t := by
    intro v s' heval
    refine ⟨h.under.block, h.under.roots, ?_⟩
    have hstack : ({ b with trees := n :: b.trees } : Builder).stackEntries.map Entry.node =
        b.stackEntries.map Entry.node ++ [n] := by
      simp [stackEntries, Entry.node]
    rw [hstack]
    exact (evalList_append_eq_some _ _ _).mpr ⟨below, s, [v], h.under.values,
      (evalList_cons_eq_some _ _ _).mpr ⟨v, s', [], heval, rfl, rfl⟩, rfl⟩
  have heval : eval M f.vars.role t.store n s = apply M f.vars.role t.store n.head values c.state := by
    rw [eval_eq, h.children]
    rfl
  cases ht : temporary? r with
  | none =>
    refine ⟨_, StackMachine.exec_value hb he ht hpush h.operation, rfl, hmatch _ _ ?_, by simp⟩
    rw [heval]
    unfold apply
    rw [show n.head.operand = n.operand from rfl, hof.plain ht]
    rfl
  | some i =>
    have hr : r.op = .ldloc := by
      rcases h.temporary i ht with hr | hr
      · simp [Record.pushCount, hr, Op.pushes] at hpush
      · exact hr
    obtain ⟨id, v, hid, hv, hstore⟩ := h.load i hr ht
    obtain ⟨hop, id', hid', hoperand⟩ := hof.temporary i ht
    obtain rfl : id = id' := Option.some.inj (hid.symm.trans hid')
    obtain rfl : vs = [] := by
      have hcount := h.count
      simpa [Record.popCount, hr, Op.pops] using hcount
    refine ⟨_, StackMachine.exec_load hr ht hv, rfl, hmatch _ _ ?_, ?_⟩
    rotate_left
    · rintro j ⟨⟩
      exact ⟨id, v, hid, hv, hstore⟩
    have hsyn : IsSynthetic f.vars.role id :=
      isSynthetic_of_extends h.vars (h.separated.temporaries id (Array.mem_of_getElem? hid)).1
    rw [heval]
    unfold apply
    rw [show n.head.operand = n.operand from rfl, hoperand, synthetic?_variable hsyn]
    have hhead : n.head.op = .ldloc := hop.trans hr
    simp [hhead, hstore]

/-- Before a record that has an effect runs, the trees below it run. -/
theorem Ready.run_flush (hf : b.flush = .ok b') (hext : b'.vars.Extends f.vars)
    (hcur : b.current < b.blocks.size) (hgrows : (b'.root n).Grows f) :
    ∃ k more store, Steps (TreeMachine.step M f.finish) k t ⟨b.current, n :: more, store, s⟩ ∧
      TreeMachine.step M f.finish ⟨b.current, n :: more, store, s⟩ =
        TreeMachine.exec M f.finish n values ⟨b.current, more, store, c.state⟩ ∧
      f.rootsAt (b'.root n).current = (b'.root n).rootsAt (b'.root n).current ++ more ∧
      Holds store b'.carried.reverse below := by
  obtain ⟨more, hroots, hmore⟩ := h.under.next_roots
    ((flush_adds hf).trans (.addRoots b' [n])) hcur hgrows
  obtain ⟨k, store, hsteps, hholds, hother⟩ :=
    Trees.run_flush f.finish b.current (n :: more) h.separated hf hext h.under.values
  refine ⟨k, more, store, ?_, ?_, hmore, hholds⟩
  · obtain ⟨block, roots, store0, state⟩ := t
    obtain rfl := h.under.block
    obtain rfl : roots = _ := hroots
    simpa using hsteps
  · refine TreeMachine.step_root h.children ?_
    intro id hid
    exact hother id (h.above id hid).lt_size

/-- A record with an effect has it in both machines. -/
theorem Ready.place_effect (hb : r.op.isBranch = false) (he : r.op.endsBlock = false)
    (hv : producesValue r.op n = false) (hf : b.flush = .ok b') (hext : b'.vars.Extends f.vars)
    (hcur : b.current < b.blocks.size) (hgrows : (b'.root n).Grows f) :
    ∃ c' k t', StackMachine.exec M records r post below vs c = .next c' ∧ c'.rest = post ∧
      Steps (TreeMachine.step M f.finish) k t t' ∧
      Matches M f (b'.root n) c'.stack c'.state t' ∧
      ∀ i, temporary? r = some i → Duplicated (b'.root n) c'.temporaries t'.store i := by
  obtain ⟨e, es, args, hn, hof⟩ := h.made
  obtain ⟨k, more, store, hsteps, hstep, hmore, hholds⟩ := h.run_flush hf hext hcur hgrows
  have hpush : r.pushCount = 0 := by rw [node_produces h.ne_dup hn, if_neg (by simp [hv])]
  have hs' := (flush_separated h.separated hf).1
  have hmatch : ∀ store' state, Holds store' b'.carried.reverse below →
      Matches M f (b'.root n) below state ⟨b.current, more, store', state⟩ := by
    intro store' state hh
    refine ⟨(flush_adds hf).current.symm, hmore, ?_⟩
    obtain ⟨vars, rfl, -, -⟩ := flush_ok hf
    rw [show ∀ x : Builder, (x.root n).stackEntries = x.stackEntries from fun _ => rfl,
      stackEntries_of_trees_nil rfl]
    exact evalList_carried (fun id hid =>
      isSynthetic_of_extends hext (hs'.carried id (List.mem_reverse.mp hid)).1) hh state
  have hnb : n.op.isBranch = false := hof.isBranch.trans hb
  have hne : n.op.endsBlock = false := hof.endsBlock.trans he
  cases ht : temporary? r with
  | none =>
    refine ⟨_, _, _, StackMachine.exec_effect hb he ht hpush h.operation, rfl,
      hsteps.trans (.single (hstep.trans ?_)), hmatch _ _ hholds, by simp⟩
    simp [TreeMachine.exec, hnb, hne, show f.finish.vars = f.vars from rfl, hof.plain ht]
  | some i =>
    have hr : r.op = .stloc := by
      rcases h.temporary i ht with hr | hr
      · exact hr
      · simp [Record.pushCount, hr, Op.pushes] at hpush
    obtain ⟨hop, id, hid, hoperand⟩ := hof.temporary i ht
    obtain ⟨v, rfl⟩ : ∃ v, vs = [v] := by
      have hcount := h.count
      exact List.length_eq_one_iff.mp (by simpa [Record.popCount, hr, Op.pops] using hcount)
    obtain rfl : values = [v] := (h.plain (by rw [hr]; rfl)).2
    have htemp : b'.temporaries = b.temporaries := by
      obtain ⟨vars, rfl, -, -⟩ := flush_ok hf
      exact temporaries_addRoots b _
    have hmem : id ∈ b'.temporaries := by
      rw [htemp]
      exact Array.mem_of_getElem? hid
    have hsyn : IsSynthetic f.vars.role id := isSynthetic_of_extends hext (hs'.temporaries id hmem).1
    have hkeep : Holds (write store id v) b'.carried.reverse below := by
      refine hholds.mono fun x hx => write_of_ne ?_
      rintro rfl
      exact (hs'.carried x (List.mem_reverse.mp hx)).2 hmem
    refine ⟨_, _, _, StackMachine.exec_store hr ht, rfl, hsteps.trans (.single (hstep.trans ?_)),
      hmatch _ _ hkeep, ?_⟩
    · simp [TreeMachine.exec, Op.isBranch, Op.endsBlock, Op.flow,
        show f.finish.vars = f.vars from rfl, hoperand, synthetic?_variable hsyn, hop, hr]
    · rintro j ⟨⟩
      exact ⟨id, v, by rw [← hid, ← htemp]; rfl, by simp [write], by simp [write]⟩

/-- A record that ends the method ends both runs, with the same outcome. -/
theorem Ready.halts (hb : r.op.isBranch = false) (he : r.op.endsBlock = true)
    (hf : b.flush = .ok b') (hext : b'.vars.Extends f.vars) (hcur : b.current < b.blocks.size)
    (hgrows : (b'.root n).Grows f) :
    ∃ o, StackMachine.exec M records r post below vs c = .halt o ∧
      Halts (TreeMachine.step M f.finish) t o := by
  obtain ⟨e, es, args, hn, hof⟩ := h.made
  obtain ⟨k, more, store, hsteps, hstep, -, -⟩ := h.run_flush hf hext hcur hgrows
  have hplain : r.op.elementAccess? = none := by
    cases hop : r.op <;> simp_all [Op.endsBlock, Op.flow, Op.elementAccess?]
  obtain ⟨hop, hvalues⟩ := h.plain hplain
  refine ⟨⟨n.op, n.offset, values, M.effect n.op (operandSlot (refSlot f.vars.role) n.operand)
    values c.state⟩, ?_, hsteps.halts (.halt ?_)⟩
  · simp [StackMachine.exec, h.operation, hb, he, hop, hvalues, hof.offset]
  · rw [hstep]
    simp [TreeMachine.exec, hof.isBranch.trans hb, hof.endsBlock.trans he,
      show f.finish.vars = f.vars from rfl]

/-- Before a branch the stack goes into the variables of both ways. -/
theorem Ready.run_branch (hbr : b.branch r n = .ok b') (hcur : b.current < b.blocks.size)
    (hgrows : b'.Grows f) (hrec : b'.Recording f) (hext : b'.vars.Extends f.vars) :
    ∃ k more store target, r.target? = some target ∧
      Steps (TreeMachine.step M f.finish) k t ⟨b.current, n :: more, store, s⟩ ∧
      TreeMachine.step M f.finish ⟨b.current, n :: more, store, s⟩ =
        TreeMachine.exec M f.finish n values ⟨b.current, more, store, c.state⟩ ∧
      f.rootsAt b'.current = b'.rootsAt b'.current ++ more ∧
      Holds store ((f.entries.lookup target).getD []) below ∧
      (r.op.endsBlock = false → r.stop < b.length →
        Holds store ((f.entries.lookup r.stop).getD []) below) := by
  obtain ⟨target, stores, b1, stores', b2, ht, hs1, hs2, rfl⟩ := branch_ok hbr
  have hadds : b.Adds (((b2.addRoots stores).addRoots stores').root n).clearStack
      (stores ++ stores' ++ [n]) := by
    refine branch_adds hs1 ?_ n
    rcases hs2 with ⟨-, -, hs2⟩ | ⟨-, -, rfl⟩
    · exact .inl ⟨_, hs2⟩
    · exact .inr rfl
  obtain ⟨more, hroots, hmore⟩ := h.under.next_roots hadds hcur hgrows
  have hentries : (((b2.addRoots stores).addRoots stores').root n).clearStack.entries =
      b2.entries := by
    change (((b2.addRoots stores).addRoots stores').addRoots [n]).entries = b2.entries
    simp only [entries_addRoots]
  have hvars : (((b2.addRoots stores).addRoots stores').root n).clearStack.vars = b2.vars := by
    change (((b2.addRoots stores).addRoots stores').addRoots [n]).vars = b2.vars
    simp only [addRoots_eq]
  rw [hvars] at hext
  have hkeep : ∀ x ids, b2.entries.lookup x = some ids → (f.entries.lookup x).getD [] = ids := by
    intro x ids hl
    rw [hrec.keep x ids (by rw [hentries]; exact hl)]
    rfl
  obtain ⟨hsep1, hw1⟩ := spill_separated h.separated (by simp [Reuses]) hs1
  have hstart : t = ⟨b.current, stores ++ (stores' ++ n :: more), t.store, t.state⟩ := by
    obtain ⟨block, roots, store, state⟩ := t
    obtain rfl := h.under.block
    obtain rfl : roots = _ := hroots
    simp
  rw [hstart]
  rcases hs2 with ⟨hend, hlt, hs2⟩ | ⟨hno, rfl, rfl⟩
  · obtain ⟨hsep2, hw2⟩ := spill_separated (hsep1.onTarget target) (reuses_lookup b1 target) hs2
    replace hw2 : b1.Widens b2 := ⟨hw2.vars, hw2.entries⟩
    obtain ⟨k, store, ids, hl, hlen, hsteps, hholds, hother⟩ := run_spill f.finish b.current
      (stores' ++ n :: more) h.separated (by simp [Reuses]) hs1 (hw2.vars.trans hext)
      h.under.values
    rw [hl] at hs2
    obtain ⟨k', store', ids', hl', hlen', hsteps', hholds', hold, hother'⟩ :=
      run_respill f.finish b.current (n :: more) hsep1 hl hs2 hext hholds
    have hl2 : b2.entries.lookup target = some ids := (spill_recording hs2).1.keep _ _ hl
    refine ⟨k + k', more, store', target, ht, hsteps.trans hsteps',
      TreeMachine.step_root h.children ?_, hmore, by rw [hkeep _ _ hl2]; exact hold,
      fun _ _ => by rw [hkeep _ _ hl']; exact hholds'⟩
    intro id hid
    have hid2 := hw2.above (hw1.above (h.above id hid))
    rw [hother' id (hid2.not_mem (mem_of_lookup hl') (hlen'.trans hlen)),
      hother id (hid2.not_mem (mem_of_lookup hl2) hlen)]
  · obtain ⟨k, store, ids, hl, hlen, hsteps, hholds, hother⟩ := run_spill f.finish b.current
      (n :: more) h.separated (by simp [Reuses]) hs1 hext h.under.values
    refine ⟨k, more, store, target, ht, hsteps, TreeMachine.step_root h.children ?_, hmore,
      by rw [hkeep _ _ hl]; exact hholds, ?_⟩
    · intro id hid
      exact hother id ((hw1.above (h.above id hid)).not_mem (mem_of_lookup hl) hlen)
    · intro hend hlt
      exact absurd ⟨hend, (spill_keeps hs1).length ▸ hlt⟩ hno

end Record

/-! ## Behind a record -/

section Behind

variable {m : Method} {body : Body} {records pre post : List Record} {bs : List Nat}
  {f b b' : Builder} {r : Record} {o : Nat} {stack : List V} {temporaries : Nat → Option V}
  {state : S} {t : TreeMachine.Config V S}

theorem Matches.roots_nil (h : Matches M f f stack state t) : t.roots = [] :=
  List.self_eq_append_right.mp h.roots

/-- Behind a record that falls into no block the builder stays as it is. -/
theorem Point.enterAt_eq (h : Translation m body records bs f)
    (hp : Point m body records bs f (pre ++ [r]) b post r.stop) (hne : post ≠ [])
    (hno : ¬ b.FallsInto r) : b.enterAt r.stop = b := by
  have hinc := h.boundaries.increasing
  obtain ⟨q, post, rfl⟩ := List.exists_cons_of_ne_nil hne
  have hlt : r.stop < body.instructions.length := by
    rw [hp.offset_eq]
    exact h.offset_lt q (by simp [hp.split])
  rcases Nat.eq_zero_or_pos r.size with hzero | hpos
  · have hstop : r.stop = r.offset := by simp [Record.stop, hzero]
    obtain ⟨b0, o0, hp0⟩ := h.exists_point (show records = pre ++ r :: q :: post by simp [hp.split])
    obtain ⟨rfl, b1, hs, hp1⟩ := hp0.next h
    obtain rfl : b1 = b := Except.ok.inj (hp1.before.symm.trans hp.before)
    rw [hstop]
    exact (hp0.positioned.entered hinc).enterAt_eq hinc (step_keeps hs)
  · rcases hp.positioned.enterAt_cases hinc with ⟨heq, -⟩ | ⟨hk, -⟩
    · exact heq
    · refine absurd ⟨hpos, hp.length ▸ hlt, ?_⟩ hno
      rw [blockAt?_isSome_iff (by rw [hp.positioned.offsets]; exact hinc), hp.positioned.offsets]
      exact List.mem_of_getElem? hk

/-- Behind a record that ends no block the machines go on at the next record, which may start
the next block. -/
theorem Matches.land (h : Translation m body records bs f)
    (hp : Point m body records bs f (pre ++ [r]) b' post r.stop) (hs : b.Separated)
    (hcur : b.current < b.blocks.size) (hf : b.fallThrough r = .ok b')
    (hm : Matches M f b stack state t)
    (hdup : ∀ i, temporary? r = some i → Duplicated b temporaries t.store i) :
    ∃ k t', Steps (TreeMachine.step M f.finish) k t t' ∧
      Related M m body records bs f ⟨post, stack, temporaries, state⟩ t' (pre ++ [r]) b' r.stop := by
  rcases fallThrough_ok hf with ⟨hinto, stores, b1, hspill, rfl⟩ | ⟨hno, rfl⟩
  · obtain ⟨hpos, hlt, hblock⟩ := hinto
    have hkeeps := fallThrough_keeps hf
    cases post with
    | nil =>
      have hend : r.stop = body.instructions.length := hp.tiles
      rw [← hkeeps.length, hp.length] at hlt
      omega
    | cons q post =>
      obtain ⟨more, hroots, hmore⟩ := hm.next_roots ((spill_adds hspill).trans (.addRoots b1 stores))
        hcur (hp.grows h)
      have hext : b1.vars.Extends f.vars :=
        ((b1.addRoots_widens stores).trans (hp.widens h)).vars
      obtain ⟨k, store, ids, hids, -, hsteps, hholds, -⟩ := run_spill f.finish b.current more hs
        (by simp [Reuses]) hspill hext hm.values
      have hlookup : f.entries.lookup r.stop = some ids :=
        (hp.recording h).keep _ _ (by rw [entries_addRoots]; exact hids)
      have hmem : r.stop ∈ bs := by
        rw [← hp.positioned.offsets, hkeeps.offsets, ← blockAt?_isSome_iff]
        · exact hblock
        · rw [← hkeeps.offsets, hp.positioned.offsets]
          exact h.boundaries.increasing
      obtain ⟨t', hfall, hrel⟩ := hp.fall_into_block h hmem
        (show r.offset < r.stop by unfold Record.stop; omega) temporaries hmore
        (show Holds store ((f.entries.lookup r.stop).getD []) stack by rw [hlookup]; exact hholds)
      refine ⟨k + 1, t', Steps.trans ?_ hfall, hrel⟩
      obtain ⟨block, roots, store0, state0⟩ := t
      obtain rfl := hm.block
      obtain rfl : roots = _ := hroots
      rw [hkeeps.current]
      exact hsteps
  · refine ⟨0, t, .refl t, hp, ?_, ?_, ?_⟩
    · rintro rfl
      have hlast : b' = f := Except.ok.inj hp.after
      subst hlast
      exact ⟨hm.roots_nil, hm.block⟩
    · rintro q post rfl
      rw [hp.enterAt_eq h (by simp) hno]
      exact hm
    · rintro q post i rfl hq hi
      exact hdup i (h.load pre r q post i (by simp [hp.split]) hq hi).1

end Behind

/-! ## The simulation -/

section Run

variable {m : Method} {body : Body} {records pre post : List Record} {bs : List Nat}
  {f b b' : Builder} {r : Record} {n : Node} {c : StackMachine.Config V S}
  {t : TreeMachine.Config V S} {below vs values : List V} {s : S} {o : Nat}

variable (h : Translation m body records bs f)

include h

/-- A branch goes to the same place in both machines. -/
theorem Ready.branch (hready : Ready M m f r n b c t below vs values s)
    (hp : Point m body records bs f (pre ++ [r]) b' post r.stop) (hb : r.op.isBranch = true)
    (hbr : b.branch r n = .ok b') (hcur : b.current < b.blocks.size) :
    ∃ c' k t' pre' b'' o', StackMachine.exec M records r post below vs c = .next c' ∧
      Steps (TreeMachine.step M f.finish) (k + 1) t t' ∧
      Related M m body records bs f c' t' pre' b'' o' := by
  obtain ⟨e, es, args, hn, hof⟩ := hready.made
  have hmem : r ∈ records := by simp [hp.split]
  have hkeeps := branch_keeps hbr
  obtain ⟨k, more, store, target, ht, hsteps, hstep, hmore, htarget, hstop⟩ :=
    hready.run_branch hbr hcur (hp.grows h) (hp.recording h) (hp.widens h).vars
  obtain ⟨hop, hvalues⟩ := hready.plain (by
    cases hop : r.op <;> simp_all [Op.isBranch, Op.flow, Op.elementAccess?])
  have hnb : n.op.isBranch = true := hof.isBranch.trans hb
  by_cases htaken : r.op.endsBlock = true ∨ M.taken r.op vs c.state = true
  · obtain ⟨pre', q, post', b'', hdrop, hpoint, htb, hfirst⟩ := h.jump hmem ht
    obtain ⟨j, hj, hid⟩ := hof.target target ht
    have hoff : e.offsets = bs := by
      rw [← (node_keeps hn).offsets, ← hkeeps.offsets, hp.positioned.offsets]
    have hbj : bs[j]? = some target := by
      rw [← hoff]
      exact (blockAt?_eq_some_iff (by rw [hoff]; exact h.boundaries.increasing)).mp hj
    obtain ⟨block, hblock, hroots⟩ := h.exists_block hbj
    have hnext : StackMachine.exec M records r post below vs c =
        .next ⟨q :: post', below, c.temporaries,
          M.effect n.op (operandSlot (refSlot f.vars.role) n.operand) values c.state⟩ := by
      simp only [StackMachine.exec, hready.operation, hb, if_true, ht, if_pos htaken, hdrop]
    have hgo : TreeMachine.step M f.finish ⟨b.current, n :: more, store, s⟩ =
        .next ⟨j, f.rootsAt j, store,
          M.effect n.op (operandSlot (refSlot f.vars.role) n.operand) values c.state⟩ := by
      rw [← hop, ← hvalues] at htaken
      rw [hstep]
      simp only [TreeMachine.exec, hnb, if_true, if_pos htaken, hid, hblock, hroots]
      rfl
    exact ⟨_, k, _, pre', b'', target, hnext, hsteps.trans (.single hgo),
      hpoint.related_block h htb hfirst hbj htarget⟩
  · have hnext : StackMachine.exec M records r post below vs c =
        .next ⟨post, below, c.temporaries,
          M.effect n.op (operandSlot (refSlot f.vars.role) n.operand) values c.state⟩ := by
      simp only [StackMachine.exec, hready.operation, hb, if_true, ht, if_neg htaken]
    have hgo : TreeMachine.step M f.finish ⟨b.current, n :: more, store, s⟩ =
        .next ⟨b'.current, more, store,
          M.effect n.op (operandSlot (refSlot f.vars.role) n.operand) values c.state⟩ := by
      rw [← hop, ← hvalues] at htaken
      rw [hstep, hkeeps.current]
      simp only [TreeMachine.exec, hnb, if_true, if_neg htaken]
      rfl
    have hend : r.op.endsBlock = false := by
      by_contra hne
      exact htaken (.inl (by simpa using hne))
    cases post with
    | nil =>
      refine ⟨_, k, _, pre ++ [r], b', r.stop, hnext, hsteps.trans (.single hgo), hp, ?_, ?_, ?_⟩
      · intro _
        have hlast : b' = f := Except.ok.inj hp.after
        subst hlast
        exact ⟨List.self_eq_append_right.mp hmore, rfl⟩
      · rintro q post ⟨⟩
      · rintro q post i ⟨⟩
    | cons q post =>
      have hlt : r.stop < body.instructions.length := by
        rw [hp.offset_eq]
        exact h.offset_lt q (by simp [hp.split])
      have hstopMem : r.stop ∈ bs :=
        (h.boundaries.mem_iff r.stop).mpr (.inr ⟨r, hmem, hb, target, ht, .inr ⟨rfl, hlt⟩⟩)
      have hsize : 0 < r.size := by
        refine h.size_pos r hmem (Option.eq_none_iff_forall_not_mem.mpr ?_)
        intro i hi
        rcases hready.temporary i hi with hr | hr <;> simp [hr, Op.isBranch, Op.flow] at hb
      obtain ⟨t', hfall, hrel⟩ := hp.fall_into_block h hstopMem
        (show r.offset < r.stop by unfold Record.stop; omega) c.temporaries hmore
        (hstop hend (by rw [← hkeeps.length, hp.length]; exact hlt))
      exact ⟨_, k + 1, t', pre ++ [r], b', r.stop, hnext,
        (hsteps.trans (.single hgo)).trans hfall, hrel⟩

/-- At a record the machines are about to run it. -/
theorem Related.ready (hrel : Related M m body records bs f c t pre b o)
    (hrest : c.rest = r :: post) :
    ∃ n b1 b' below vs values s, Ready M m f r n b1 c t below vs values s ∧
      b1.current < b1.blocks.size ∧ Point m body records bs f (pre ++ [r]) b' post r.stop ∧
      ((r.op.isBranch = true ∧ b1.branch r n = .ok b') ∨
        (r.op.isBranch = false ∧ ∃ b2, b1.place r n = .ok b2 ∧ b2.Separated ∧
          b2.vars.Extends f.vars ∧ b2.Grows f ∧
          ((r.op.endsBlock = true ∧ b' = b2.clearStack) ∨
            (r.op.endsBlock = false ∧ b2.fallThrough r = .ok b')))) := by
  have hp := hrel.point
  rw [hrest] at hp
  obtain ⟨rfl, b', hs, hp'⟩ := hp.next h
  have hdec := h.decoded r (by simp [hp.split])
  obtain ⟨n, b1, hn, hcases⟩ := step_ok hs
  have hent := hp.positioned.entered h.boundaries.increasing
  have hw0 := b.enterAt_widens r.offset
  have hd0 := hw0.declares ⟨arguments_enterAt b _, locals_enterAt b _⟩ hp.declares
  obtain ⟨hs1, hw1, habove⟩ := node_separated (hp.separated.enterAt r.offset) hd0 hdec.inScope hn
  have hcur : b1.current < b1.blocks.size := by
    have hadds := node_adds hn
    rw [hadds.current, hadds.size]
    exact hent.current_lt
  -- what follows in the step only adds variables and roots
  obtain ⟨hext, hcases⟩ : b1.vars.Extends f.vars ∧
      ((r.op.isBranch = true ∧ b1.branch r n = .ok b') ∨
        (r.op.isBranch = false ∧ ∃ b2, b1.place r n = .ok b2 ∧ b2.Separated ∧
          b2.vars.Extends f.vars ∧ b2.Grows f ∧
          ((r.op.endsBlock = true ∧ b' = b2.clearStack) ∨
            (r.op.endsBlock = false ∧ b2.fallThrough r = .ok b')))) := by
    rcases hcases with ⟨hb, hbr⟩ | ⟨hb, b2, hpl, hend⟩
    · exact ⟨((branch_separated hs1 hbr).2.trans (hp'.widens h)).vars, .inl ⟨hb, hbr⟩⟩
    · obtain ⟨hs2, hw2⟩ := place_separated hs1 habove hpl
      obtain ⟨new, hadds⟩ := place_adds hpl
      have hcur2 : b2.current < b2.blocks.size := by
        rw [hadds.current, hadds.size]
        exact hcur
      have hlast : b2.vars.Extends b'.vars ∧ b2.Grows b' := by
        rcases hend with ⟨-, rfl⟩ | ⟨-, hf⟩
        · exact ⟨.refl _, .of_adds (.of_blocks_eq rfl rfl) hcur2⟩
        · obtain ⟨new', hadds'⟩ := fallThrough_adds hf
          exact ⟨(fallThrough_separated hs2 hf).2.vars, .of_adds hadds' hcur2⟩
      have hext2 := hlast.1.trans (hp'.widens h).vars
      exact ⟨hw2.vars.trans hext2, .inr ⟨hb, b2, hpl, hs2, hext2, hlast.2.trans (hp'.grows h), hend⟩⟩
  have hnext : ∀ i, temporary? r = some i → i ≤ (b.enterAt r.offset).temporaries.size := by
    intro i hi
    rw [temporaries_enterAt]
    exact h.ordered pre r post b i hp.split hp.before hi
  obtain ⟨es, args, hcount, hof⟩ := node_of M (hp.separated.enterAt r.offset) hd0 hdec hext hnext hn
  have hm := hrel.values r post hrest
  obtain ⟨below, vs, s, values, hstack, hlen, hunder, hchildren, hop⟩ := hof.values hm.values
  have hadds := node_adds hn
  refine ⟨n, b1, b', below, vs, values, s, ⟨hdec.ne_dup, hdec.temporary, ?_, hstack,
    ⟨_, es, args, hn, hof⟩, ⟨?_, ?_, hunder⟩, hchildren, hop, hs1, hext, habove, ?_⟩, hcur, hp',
    hcases⟩
  · rw [hlen, hcount, method_enterAt, hp.method]
  · rw [hm.block, hadds.current]
  · rw [hadds.current, hm.roots, hadds.roots hent.current_lt, if_pos rfl, List.append_nil]
  · intro i hr hi
    obtain ⟨id, v, hid, hv, hstore⟩ := hrel.load r post i hrest hr hi
    exact ⟨id, v, node_temporaries_keep hn (by rw [temporaries_enterAt]; exact hid), hv, hstore⟩

/-- A step of the stack machine is matched by the tree machine, where it moves or the code left
gets shorter. -/
theorem Related.step (hrel : Related M m body records bs f c t pre b o)
    (hrest : c.rest = r :: post) :
    (∃ c' k t' pre' b' o', StackMachine.step M m records c = .next c' ∧
      Steps (TreeMachine.step M f.finish) k t t' ∧
      Related M m body records bs f c' t' pre' b' o' ∧
      (0 < k ∨ c'.rest.length < c.rest.length)) ∨
    ∃ out, StackMachine.step M m records c = .halt out ∧
      Halts (TreeMachine.step M f.finish) t out := by
  obtain ⟨n, b1, b', below, vs, values, s, hready, hcur, hp, hcases⟩ := hrel.ready h hrest
  rw [StackMachine.step_eq hrest hready.stack hready.count]
  rcases hcases with ⟨hb, hbr⟩ | ⟨hb, b2, hpl, hs2, hext2, hgrows2, ⟨hend, -⟩ | ⟨hend, hf⟩⟩
  · obtain ⟨c', k, t', pre', b'', o', hnext, hsteps, hrel'⟩ := hready.branch h hp hb hbr hcur
    exact .inl ⟨c', k + 1, t', pre', b'', o', hnext, hsteps, hrel', .inl (Nat.succ_pos k)⟩
  · rcases place_ok hpl with ⟨hv, -⟩ | ⟨-, -, b3, hflush, rfl⟩
    · have hpushes : r.op.pushes = .none := by
        cases hop : r.op <;> simp_all [Op.endsBlock, Op.flow, Op.pushes]
      simp [producesValue, hpushes] at hv
    · exact .inr (hready.halts hb hend hflush hext2 hcur hgrows2)
  · obtain ⟨⟨rest, stack, temporaries, state⟩, k, t', hnext, rfl, hsteps, hm, hdup⟩ :
        ∃ c' k t', StackMachine.exec M records r post below vs c = .next c' ∧ c'.rest = post ∧
          Steps (TreeMachine.step M f.finish) k t t' ∧ Matches M f b2 c'.stack c'.state t' ∧
          ∀ i, temporary? r = some i → Duplicated b2 c'.temporaries t'.store i := by
      rcases place_ok hpl with ⟨hv, rfl⟩ | ⟨hv, -, b3, hflush, rfl⟩
      · obtain ⟨c', hnext, hpost, hm, hdup⟩ := hready.place_value hb hend hv
        exact ⟨c', 0, t, hnext, hpost, .refl t, hm, hdup⟩
      · exact hready.place_effect hb hend hv hflush hext2 hcur hgrows2
    obtain ⟨new, hadds⟩ := place_adds hpl
    obtain ⟨k', t'', hsteps', hrel'⟩ := hm.land h hp hs2
      (by rw [hadds.current, hadds.size]; exact hcur) hf hdup
    refine .inl ⟨_, k + k', t'', pre ++ [r], b', r.stop, hnext, hsteps.trans hsteps', hrel', .inr ?_⟩
    rw [hrest]
    exact Nat.lt_succ_self _

/-- The stack machine stops short only at the end of the code. -/
theorem Related.rest_eq_nil (hrel : Related M m body records bs f c t pre b o)
    (hs : StackMachine.step M m records c = .stuck) : c.rest = [] := by
  cases hrest : c.rest with
  | nil => rfl
  | cons r post =>
    rcases hrel.step h hrest with ⟨_, _, _, _, _, _, hs', -⟩ | ⟨_, hs', -⟩ <;>
    · rw [hs] at hs'
      cases hs'

/-- At the end of the code the tree machine has nothing left to run. -/
theorem Related.not_halts (hrel : Related M m body records bs f c t pre b o) (hrest : c.rest = [])
    (out : Outcome V S) : ¬ Halts (TreeMachine.step M f.finish) t out := by
  have hp := hrel.point
  rw [hrest] at hp
  have hend : o = body.instructions.length := hp.tiles
  obtain ⟨hroots, hblock⟩ := hrel.stop hrest
  have hnone : f.finish.blocks[t.block + 1]? = none := by
    refine Array.getElem?_eq_none_iff.mpr (Nat.le_of_not_lt ?_)
    intro hlt
    -- a block behind the current one would start below the end of the code
    have hlt : t.block + 1 < bs.length := by
      rw [← h.offsets]
      simpa [offsets, finish] using hlt
    have hx := List.getElem?_eq_getElem hlt
    have hpos := getElem?_lt_of_increasing h.boundaries.increasing h.boundaries.head hx
      (Nat.succ_pos _)
    rcases h.boundaries.exists_record h.tiles (List.getElem_mem hlt) with hzero | ⟨q, hq, hqx⟩
    · omega
    · have := h.offset_lt q hq
      have := hp.positioned.before _ _ hx (by omega)
      omega
  have hstuck : TreeMachine.step M f.finish t = .stuck := by
    simp only [TreeMachine.step, hroots, hnone]
  intro hh
  cases hh with
  | halt hs => rw [hstuck] at hs; cases hs
  | next hs _ => rw [hstuck] at hs; cases hs

theorem Translation.related_start (s : S) :
    Related M m body records bs f (StackMachine.start records s) (TreeMachine.start f.finish s) []
      (Builder.start m body bs) 0 := by
  have hp := h.point_start
  cases records with
  | nil =>
    have hlast : Builder.start m body bs = f := Except.ok.inj hp.after
    refine ⟨hp, ?_, by rintro _ _ ⟨⟩, by rintro _ _ _ ⟨⟩⟩
    intro _
    refine ⟨?_, rfl⟩
    change f.rootsAt 0 = []
    rw [← hlast, rootsAt_start]
  | cons q post =>
    have hzero : 0 ∈ bs := List.mem_of_getElem? h.boundaries.head
    have hnil : (f.entries.lookup 0).getD [] = [] := by
      obtain ⟨-, -, hstack⟩ := hp.block_entry h hzero (by simp)
      have hcur : (Builder.start m body bs).currentOffset = 0 :=
        currentOffset_eq (by rw [hp.positioned.offsets]; exact h.boundaries.head)
      rw [enterAt, if_pos hcur.symm] at hstack
      exact List.map_eq_nil_iff.mp hstack.symm
    exact hp.related_block h hzero (by simp) h.boundaries.head (by rw [hnil]; exact .nil)

theorem Translation.simulates :
    Simulates (StackMachine.step M m records) (TreeMachine.step M f.finish)
      (fun c t => ∃ pre b o, Related M m body records bs f c t pre b o) (·.rest.length) := by
  refine ⟨?_, ?_, ?_⟩
  · rintro c t c' ⟨pre, b, o, hrel⟩ hs
    cases hrest : c.rest with
    | nil => simp [StackMachine.step, hrest] at hs
    | cons r post =>
      rcases hrel.step h hrest with ⟨c'', k, t', pre', b', o', hs', hsteps, hrel', hrank⟩ |
        ⟨out, hs', -⟩
      · rw [hs] at hs'
        cases hs'
        exact ⟨k, t', hsteps, ⟨pre', b', o', hrel'⟩, hrest ▸ hrank⟩
      · rw [hs] at hs'
        cases hs'
  · rintro c t out ⟨pre, b, o, hrel⟩ hs
    cases hrest : c.rest with
    | nil => simp [StackMachine.step, hrest] at hs
    | cons r post =>
      rcases hrel.step h hrest with ⟨_, _, _, _, _, _, hs', -⟩ | ⟨out', hs', hhalts⟩
      · rw [hs] at hs'
        cases hs'
      · rw [hs] at hs'
        cases hs'
        exact hhalts
  · rintro c t ⟨pre, b, o, hrel⟩ hs
    exact hrel.not_halts h (hrel.rest_eq_nil h hs)

end Run

/-- A routine means what its code means, whatever the operations mean: from the same state the
code ends with a return or a throw exactly if the trees do, at the same place, with the same
values and in the same state. Until then the code never stops short, unless it runs past its
end. -/
theorem build_halts_iff (M : Meaning V S) (m : Method) (body : Body) (resolver : Resolver)
    (records : List Record) (routine : Routine)
    (hread : readRecords m body resolver = .ok records)
    (hbuild : build m body resolver = .ok routine) (s : S) :
    (∀ out, Halts (StackMachine.step M m records) (StackMachine.start records s) out ↔
      Halts (TreeMachine.step M routine) (TreeMachine.start routine s) out) ∧
    ∀ n c, Steps (StackMachine.step M m records) n (StackMachine.start records s) c →
      StackMachine.step M m records c = .stuck → c.rest = [] := by
  obtain ⟨bs, f, h, rfl⟩ := Translation.of_build hread hbuild
  have hstart := h.related_start (M := M) s
  refine ⟨fun out => h.simulates.halts_iff ⟨_, _, _, hstart⟩, ?_⟩
  intro n c hsteps hstuck
  obtain ⟨t, pre, b, o, hrel⟩ := h.simulates.steps ⟨_, _, _, hstart⟩ hsteps
  exact hrel.rest_eq_nil h hstuck

/-- Counts its argument down to zero, with the count on the stack. -/
def countdown : Method := { name := "countdown", parameters := [.i4], returnType := .i4 }

def countdownBody : Body := { code := [0x02, 0x17, 0x59, 0x25, 0x2D, 0xFB, 0x2A] }

def countdownRecords : List Record :=
  [⟨.ldarg, .ref (.argument 0), 0, 1, "ldarg.0"⟩,
   ⟨.ldc .i4, .int32 1, 1, 1, "ldc.i4.1"⟩,
   ⟨.arith .sub, .none, 2, 1, "sub"⟩,
   ⟨.stloc, .ref (.temporary 0), 3, 0, "dup"⟩,
   ⟨.ldloc, .ref (.temporary 0), 3, 0, "dup"⟩,
   ⟨.ldloc, .ref (.temporary 0), 3, 1, "dup"⟩,
   ⟨.brtrue, .ref (.target 1), 4, 2, "brtrue.s"⟩,
   ⟨.ret, .none, 6, 1, "ret"⟩]

/-- Arithmetic on integers; the state is the argument. -/
def arithmetic : Meaning Int Int where
  value
    | .ldarg, _, _, s => (s, s)
    | .ldc _, .int32 v, _, s => (v.toInt, s)
    | .arith .sub, _, [x, y], s => (x - y, s)
    | _, _, vs, s => (vs.sum, s)
  effect _ _ _ s := s
  taken _ vs _ := vs.any (· ≠ 0)
  element x y := [x, y].sum
  value_ldelema _ _ _ _ := rfl

/-- From 2, the trees of the countdown run twice through the loop and give 0. -/
theorem countdown_trees_halt :
    readRecords countdown countdownBody ({} : TokenTable).resolver = .ok countdownRecords ∧
    ∃ routine, build countdown countdownBody ({} : TokenTable).resolver = .ok routine ∧
      Halts (TreeMachine.step arithmetic routine) (TreeMachine.start routine 2) ⟨.ret, 6, [0], 2⟩ := by
  have hread : readRecords countdown countdownBody ({} : TokenTable).resolver =
      .ok countdownRecords := by rfl
  have hok : (build countdown countdownBody ({} : TokenTable).resolver).isOk = true := by
    decide +kernel
  have hrun : Halts (StackMachine.step arithmetic countdown countdownRecords)
      (StackMachine.start countdownRecords 2) ⟨.ret, 6, [0], 2⟩ := by
    iterate 13 refine .next rfl ?_
    exact .halt rfl
  cases hbuild : build countdown countdownBody ({} : TokenTable).resolver with
  | error e => simp [hbuild, Except.isOk, Except.toBool] at hok
  | ok routine =>
    exact ⟨hread, routine, rfl,
      ((build_halts_iff arithmetic _ _ _ _ routine hread hbuild 2).1 _).mp hrun⟩

end SpuCompiler.Trees
