import SpuCompiler.Proofs.Trees.TypedNodes

/-!
Typed routines. Stores give types to the variables that hold the stack between blocks, so what a
block takes over has a type; each step of the builder keeps its trees typed. So no load meets a
variable without a type, and no node is typed without its operands.
-/

namespace SpuCompiler.Trees

open Metadata Bytecode StackMachine

namespace Builder

variable {Free : Prop} {b b' b'' : Builder} {r : Record}
variable {target : Nat} {reuse : Option (List Nat)} {n : Node}

/-! ## Stores -/

theorem flushTrees_ensures {ns : List Node} (hb : b.Typed Free)
    (hns : ∀ n ∈ ns, n.TypedValue Free b.vars) :
    Ensures BuildError.Avoided (b.flushTrees ns) fun b' => b.Onward Free b' := by
  induction ns generalizing b with
  | nil => exact .ok hb.onward
  | cons n ns ih =>
    have hfresh := hb.withVars (.addSynthetic b.vars) hb.vars.addSynthetic
    refine (store_ensures hfresh.typed.vars ((hns n (by simp)).mono hfresh.refines)).bind ?_
    rintro ⟨s, b1⟩ - ⟨heq, hrefines, hvars, hs, hid⟩
    dsimp only at heq hrefines hvars hs hid ⊢
    have h1 : b.Onward Free b1 := by
      rw [heq]
      exact hfresh.trans (hfresh.typed.withVars hrefines hvars)
    have hroots : ∀ k ∈ [s], k.TypedRoot Free b1.vars := by simpa using hs
    have h2 := h1.trans (h1.typed.addRoots hroots)
    -- the new variable is carried from here on
    have h3 : (b1.root s).Onward Free { b1.root s with carried := b.vars.size :: b1.carried } := by
      refine h2.typed.restack rfl (.refl _) h2.typed.vars h2.typed.trees ?_
      intro id hmem
      rcases List.mem_cons.mp hmem with rfl | hmem
      · exact hid
      · exact h1.typed.carried id hmem
    have hall := h2.trans h3
    refine (ih hall.typed fun k hk => (hns k (by simp [hk])).mono hall.refines).imp ?_
    exact fun _ _ h => hall.trans h

theorem flush_ensures (hb : b.Typed Free) :
    Ensures BuildError.Avoided b.flush fun b' => b.Onward Free b' := by
  have hempty : b.Onward Free { b with trees := [] } :=
    hb.restack rfl (.refl _) hb.vars (by simp) hb.carried
  have htrees : ∀ n ∈ b.trees.reverse, n.TypedValue Free b.vars :=
    fun n hn => hb.trees n (by simpa using hn)
  exact (flushTrees_ensures hempty.typed htrees).imp fun _ _ h => hempty.trans h

/-- Values that can be stored: typed trees, and variables that have a type. -/
def Entry.Typed (Free : Prop) (v : Variables) : Entry → Prop
  | .carried id => v.HasType id
  | .tree n => n.TypedValue Free v

theorem Entry.Typed.mono {e : Entry} {v v' : Variables} (h : e.Typed Free v) (hv : v.Refines v') :
    e.Typed Free v' := by
  cases e with
  | carried id => exact Variables.HasType.mono h hv
  | tree n => exact Node.TypedValue.mono h hv

theorem Typed.stackEntries (hb : b.Typed Free) : ∀ e ∈ b.stackEntries, e.Typed Free b.vars := by
  intro e he
  rcases List.mem_append.mp he with he | he
  · obtain ⟨id, hid, rfl⟩ := List.mem_map.mp he
    exact hb.carried id (by simpa using hid)
  · obtain ⟨n, hn, rfl⟩ := List.mem_map.mp he
    exact hb.trees n (by simpa using hn)

/-- Behind the stores, every variable that was stored into has a type. -/
theorem storeAll_ensures {offset : Nat} {stores : Array Node} {pairs : List (Entry × Nat)}
    (hb : b.Typed Free) (hstores : ∀ n ∈ stores, n.TypedRoot Free b.vars)
    (hpairs : ∀ p ∈ pairs, p.1.Typed Free b.vars) :
    Ensures BuildError.Avoided (b.storeAll offset stores pairs) fun x =>
      b.Onward Free x.2 ∧ (∀ n ∈ x.1, n.TypedRoot Free x.2.vars) ∧
        ∀ p ∈ pairs, x.2.vars.HasType p.2 := by
  induction pairs generalizing b stores with
  | nil => exact .ok ⟨hb.onward, hstores, by simp⟩
  | cons pair rest ih =>
    obtain ⟨e, id⟩ := pair
    have hrest : ∀ p ∈ rest, p.1.Typed Free b.vars := fun p hp => hpairs p (by simp [hp])
    have hhead : e.Typed Free b.vars := hpairs (e, id) (by simp)
    -- the store of a value, and what comes behind it
    have hstore : ∀ {b1 : Builder} {value : Node}, b.Onward Free b1 → value.TypedValue Free b1.vars →
        Ensures BuildError.Avoided
          (b1.store id value offset >>= fun x => x.2.storeAll offset (stores.push x.1) rest)
          fun x => b.Onward Free x.2 ∧ (∀ n ∈ x.1, n.TypedRoot Free x.2.vars) ∧
            ∀ p ∈ (e, id) :: rest, x.2.vars.HasType p.2 := by
      intro b1 value h1 hvalue
      refine (store_ensures h1.typed.vars hvalue).bind ?_
      rintro ⟨s, b2⟩ - ⟨heq, hrefines, hvars, hs, hid⟩
      dsimp only at heq hrefines hvars hs hid ⊢
      have h2 : b.Onward Free b2 := by
        rw [heq]
        exact h1.trans (h1.typed.withVars hrefines hvars)
      have hmore : ∀ n ∈ stores.push s, n.TypedRoot Free b2.vars := by
        intro n hn
        rcases Array.mem_push.mp hn with hn | rfl
        · exact (hstores n hn).mono h2.refines
        · exact hs
      refine (ih h2.typed hmore fun p hp => (hrest p hp).mono h2.refines).imp ?_
      rintro ⟨out, b3⟩ - ⟨h3, hout, hids⟩
      refine ⟨h2.trans h3, hout, ?_⟩
      intro p hp
      rcases List.mem_cons.mp hp with rfl | hp
      · exact hid.mono h3.refines
      · exact hids p hp
    cases e with
    | carried source =>
      unfold storeAll
      split
      · rename_i heq
        subst heq
        refine (ih hb hstores hrest).imp ?_
        rintro ⟨out, b1⟩ - ⟨h1, hout, hids⟩
        refine ⟨h1, hout, ?_⟩
        intro p hp
        rcases List.mem_cons.mp hp with rfl | hp
        · exact Variables.HasType.mono hhead h1.refines
        · exact hids p hp
      · refine (load_ensures hb.vars hhead).bind ?_
        rintro ⟨value, b1⟩ - ⟨heq, hrefines, hvars, hvalue⟩
        dsimp only at heq hrefines hvars hvalue ⊢
        refine hstore ?_ hvalue
        rw [heq]
        exact hb.withVars hrefines hvars
    | tree value => exact hstore hb.onward hhead

theorem entryVariables_ensures (hb : b.vars.WellTyped Free) :
    Ensures BuildError.Avoided (b.entryVariables r target reuse) fun x =>
      b.vars.Refines x.2.vars ∧ x.2.vars.WellTyped Free := by
  unfold entryVariables
  dsimp only
  split
  · split
    · exact .ok ⟨.refl _, hb⟩
    · exact stackError_ensures r _
  · split
    · exact stackError_ensures r _
    · cases reuse.filter (·.length = b.depth) with
      | some ids => exact .ok ⟨.refl _, hb⟩
      | none => exact .ok ⟨.addSynthetics _ _, hb.addSynthetics _⟩

/-- Variables of a block that are recorded now come with the entries that are there already. -/
theorem Enters.typed {ids : List Nat} {vars : Variables} {entries : List (Nat × List Nat)}
    (h : Enters b target reuse ids vars entries) : ∀ p ∈ entries, p ∈ b.entries ∨ p.2 = ids := by
  cases h with
  | recorded _ => exact fun p hp => .inl hp
  | reused _ _ _ | fresh _ _ _ _ =>
    intro p hp
    rcases List.mem_cons.mp hp with rfl | hp
    · exact .inr rfl
    · exact .inl hp

/-- Behind a spill, the variables of the block have the types of what was on the stack. -/
theorem spill_ensures (hb : b.Typed Free) (hf : b.Filled) :
    Ensures BuildError.Avoided (b.spill r target reuse) fun x =>
      b.Onward Free x.2 ∧ x.2.Filled ∧ ∀ s ∈ x.1, s.TypedRoot Free x.2.vars := by
  refine (entryVariables_ensures hb.vars).bind ?_
  rintro ⟨ids, b1⟩ he hvars
  obtain ⟨hlen, vars, entries, henters, rfl⟩ := entryVariables_ok he
  have hcleared : b.Onward Free { b with vars := vars, entries := entries }.clearStack :=
    hb.restack rfl hvars.1 hvars.2 (by simp [clearStack]) (by simp [clearStack])
  have hpairs : ∀ p ∈ b.stackEntries.zip ids, p.1.Typed Free vars :=
    fun p hp => (hb.stackEntries p.1 (List.of_mem_zip hp).1).mono hvars.1
  refine (storeAll_ensures hcleared.typed (by simp) hpairs).bind ?_
  rintro ⟨out, b2⟩ hs ⟨h2, hout, hids⟩
  obtain ⟨-, vars', -, -, rfl, -⟩ := storeAll_ok hs
  have hall := hcleared.trans h2
  -- every variable of the block stands against a value of the stack
  have htyped : ∀ id ∈ ids, vars'.HasType id := by
    intro id hid
    have hzip : (b.stackEntries.zip ids).map Prod.snd = ids :=
      List.map_snd_zip (by rw [length_stackEntries, hlen])
    rw [← hzip] at hid
    obtain ⟨p, hp, rfl⟩ := List.mem_map.mp hid
    exact hids p hp
  refine .ok ⟨hall, ⟨?_, fun id hid => (hf.temporaries id hid).mono hall.refines⟩, by simpa using hout⟩
  intro p hp id hid
  rcases henters.typed p hp with hold | heq
  · exact (hf.entries p hold id hid).mono hall.refines
  · exact htyped id (heq ▸ hid)

/-! ## Steps -/

theorem Typed.clearStack (hb : b.Typed Free) : b.Onward Free b.clearStack :=
  hb.restack rfl (.refl _) hb.vars (by simp [Builder.clearStack]) (by simp [Builder.clearStack])

theorem Filled.addRoots (hf : b.Filled) (ns : List Node) : (b.addRoots ns).Filled := by
  rw [addRoots_eq]
  exact hf.mono rfl rfl (.refl _)

/-- The variables that a block takes over have types. -/
theorem Filled.lookup (hf : b.Filled) (offset : Nat) :
    ∀ id ∈ ((b.entries.lookup offset).getD []).reverse, b.vars.HasType id := by
  intro id hid
  cases hl : b.entries.lookup offset with
  | none => simp [hl] at hid
  | some ids => exact hf.entries _ (mem_of_lookup hl) id (by simpa [hl] using hid)

theorem place_ensures (hb : b.Typed Free) (hf : b.Filled) (hn : b.Made Free r n) :
    Ensures BuildError.Avoided (b.place r n) fun b' => b'.Typed Free ∧ b'.Filled := by
  unfold place
  split
  · rename_i hvalue
    have hpush : b.Onward Free { b with trees := n :: b.trees } := by
      refine hb.restack rfl (.refl _) hb.vars ?_ hb.carried
      intro k hk
      rcases List.mem_cons.mp hk with rfl | hk
      · exact ⟨hn.tree, hn.value hvalue⟩
      · exact hb.trees k hk
    exact .ok ⟨hpush.typed, hf.mono rfl rfl (.refl _)⟩
  · rename_i heffect
    split
    · exact stackError_ensures r _
    · refine (flush_ensures hb).bind ?_
      rintro b1 hok h1
      have hroot : ∀ k ∈ [n], k.TypedRoot Free b1.vars := by
        simpa using ⟨hn.tree.mono h1.refines, hn.effect (by simpa using heffect)⟩
      have hf1 : b1.Filled := by
        have hrefines := h1.refines
        obtain ⟨vars, rfl, -, -⟩ := flush_ok hok
        rw [addRoots_eq] at hrefines ⊢
        exact hf.mono rfl rfl hrefines
      exact .ok ⟨(h1.typed.addRoots hroot).typed, hf1.addRoots [n]⟩

theorem fallThrough_ensures (hb : b.Typed Free) (hf : b.Filled) :
    Ensures BuildError.Avoided (b.fallThrough r) fun b' => b'.Typed Free ∧ b'.Filled := by
  unfold fallThrough
  split
  · refine (spill_ensures hb hf).bind ?_
    rintro ⟨stores, b1⟩ - ⟨h1, hf1, hstores⟩
    exact .ok ⟨(h1.typed.addRoots hstores).typed, hf1.addRoots stores⟩
  · exact .ok ⟨hb, hf⟩

theorem branch_ensures (hb : b.Typed Free) (hf : b.Filled) (hn : n.TypedRoot Free b.vars) :
    Ensures BuildError.Avoided (b.branch r n) fun b' => b'.Typed Free ∧ b'.Filled := by
  unfold branch
  split
  · exact stackError_ensures r _
  · rename_i target _
    refine (spill_ensures hb hf).bind ?_
    rintro ⟨stores, b1⟩ - ⟨h1, hf1, hstores⟩
    dsimp only at h1 hf1 hstores ⊢
    -- the roots, once the way into the next block is settled too
    have hroots : ∀ {b2 : Builder} {more : List Node}, b1.Onward Free b2 → b2.Filled →
        (∀ s ∈ more, s.TypedRoot Free b2.vars) →
        (((b2.addRoots stores).addRoots more).root n).clearStack.Typed Free ∧
          (((b2.addRoots stores).addRoots more).root n).clearStack.Filled := by
      intro b2 more h2 hf2 hmore
      have h3 := h2.typed.addRoots fun s hs => (hstores s hs).mono h2.refines
      have h4 := h3.typed.addRoots fun s hs => (hmore s hs).mono h3.refines
      have hlast : ∀ k ∈ [n], k.TypedRoot Free ((b2.addRoots stores).addRoots more).vars := by
        simpa using hn.mono (((h1.trans h2).trans h3).trans h4).refines
      have h5 := h4.typed.addRoots hlast
      have hf5 := ((hf2.addRoots stores).addRoots more).addRoots [n]
      exact ⟨h5.typed.clearStack.typed, hf5.mono rfl rfl (.refl _)⟩
    split
    · have htarget : b1.Onward Free (b1.onTarget target) :=
        h1.typed.restack rfl (.refl _) h1.typed.vars (by simp [onTarget]) (hf1.lookup target)
      have hf2 : (b1.onTarget target).Filled := hf1.mono rfl rfl (.refl _)
      refine (spill_ensures htarget.typed hf2).bind ?_
      rintro ⟨more, b2⟩ - ⟨h2, hf2, hmore⟩
      exact .ok (hroots (htarget.trans h2) hf2 hmore)
    · exact .ok (hroots h1.typed.onward hf1 (by simp))

theorem enterAt_typed (hb : b.Typed Free) (hf : b.Filled) (offset : Nat) :
    (b.enterAt offset).Typed Free ∧ (b.enterAt offset).Filled := by
  unfold enterAt
  split
  · exact ⟨hb, hf⟩
  · split
    · rename_i id _
      have henter : b.Onward Free (b.enter id offset) :=
        hb.restack rfl (.refl _) hb.vars (by simp [enter]) (hf.lookup offset)
      exact ⟨henter.typed, hf.mono rfl rfl (.refl _)⟩
    · exact ⟨hb, hf⟩

theorem producesValue_of_isBranch {op : Op} (h : op.isBranch = true) (n : Node) :
    producesValue op n = false := by
  unfold producesValue
  cases op <;> simp_all [Op.isBranch, Op.flow, Op.pushes]

theorem step_ensures {arguments locals : Nat} (hb : b.Typed Free) (hf : b.Filled)
    (hw : b.WellFormed) (hd : b.Declares arguments locals)
    (hr : b.Takes Free arguments locals r) :
    Ensures BuildError.Avoided (b.step r) fun b' => b'.Typed Free ∧ b'.Filled := by
  obtain ⟨hb0, hf0⟩ := enterAt_typed hb hf r.offset
  have hd0 := (b.enterAt_widens r.offset).declares
    ⟨arguments_enterAt b r.offset, locals_enterAt b r.offset⟩ hd
  have hr0 : (b.enterAt r.offset).Takes Free arguments locals r :=
    ⟨hr.decoded, hr.shaped, hr.free, by rw [temporaries_enterAt]; exact hr.load⟩
  refine (node_ensures hb0 hf0 (enterAt_wellFormed hw r.offset) hd0 hr0).bind ?_
  rintro ⟨n, b1⟩ - ⟨h1, hf1, hn⟩
  dsimp only at h1 hf1 hn ⊢
  split
  · rename_i hbranch
    exact branch_ensures h1.typed hf1 ⟨hn.tree, hn.effect (producesValue_of_isBranch hbranch n)⟩
  · refine (place_ensures h1.typed hf1 hn).bind ?_
    rintro b2 - ⟨hb2, hf2⟩
    split
    · exact .ok ⟨hb2.clearStack.typed, hf2.mono rfl rfl (.refl _)⟩
    · exact fallThrough_ensures hb2 hf2

end Builder

/-! ## Runs -/

open Builder

theorem Variables.WellTyped.declareAll {Free : Prop} {v : Variables} {tys : List Ty}
    (h : v.WellTyped Free) (htys : Free → ∀ t ∈ tys, t.VoidFree) (kind : VariableKind)
    (start : Nat) : (v.declareAll kind start tys).WellTyped Free := by
  induction tys generalizing v start with
  | nil => exact h
  | cons ty tys ih =>
    refine ih ?_ (fun hfree t ht => htys hfree t (by simp [ht])) (start + 1)
    have hty : Free → ty.VoidFree := fun hfree => htys hfree ty (by simp)
    have hget : ∀ {id : Nat} {x : Variable}, (v.declare kind start ty).get? id = some x →
        v.get? id = some x ∨
          (id = v.size ∧ x.declared = some ty ∧ x.stackType = some (StackType.ofTy ty)) := by
      intro id x hx
      simp only [get?, declare, Array.getElem?_push] at hx
      split at hx
      · cases hx
        exact .inr ⟨‹_›, rfl, rfl⟩
      · exact .inl hx
    have hold : v.Refines (v.declare kind start ty) := by
      intro id x hx
      have hlt := (Array.getElem?_eq_some_iff.mp hx).1
      refine ⟨x, ?_, rfl, rfl, fun _ ht => ht⟩
      exact (Array.getElem?_push_lt hlt).trans ((Array.getElem?_eq_getElem hlt).symm.trans hx)
    refine ⟨?_, ?_, ?_, ?_⟩
    · intro id x hx hkind
      rcases hget hx with hx | ⟨rfl, -, ht⟩
      · exact (h.plain id x hx hkind).mono hold
      · exact ⟨x, _, hx, ht⟩
    · intro id x hx hyes
      rcases hget hx with hx | ⟨rfl, hty', -⟩
      · exact h.addressed id x hx hyes
      · exact ⟨ty, hty'⟩
    · intro hfree id x ty' hx hd
      rcases hget hx with hx | ⟨rfl, hty', -⟩
      · exact h.declared hfree id x ty' hx hd
      · obtain rfl : ty = ty' := Option.some.inj (hty'.symm.trans hd)
        exact hty hfree
    · intro hfree id x t hx hxt
      rcases hget hx with hx | ⟨rfl, -, ht⟩
      · exact h.types hfree id x t hx hxt
      · obtain rfl : StackType.ofTy ty = t := Option.some.inj (ht.symm.trans hxt)
        exact StackType.voidFree_ofTy (hty hfree)

/-- `void` is only the result of methods, in all that a body refers to. -/
structure VoidFree (m : Method) (body : Body) (resolver : Resolver) : Prop where
  method : m.VoidFree
  locals : ∀ t ∈ body.locals, t.VoidFree
  resolver : resolver.VoidFree

section Run

variable {Free : Prop} {m : Method} {body : Body} {resolver : Resolver} {is pre post : List Record}
  {r : Record} {b : Builder} {bs : List Nat}

theorem start_typed (hfree : Free → VoidFree m body resolver) :
    (start m body bs).Typed Free ∧ (start m body bs).Filled := by
  have hempty : ({} : Variables).WellTyped Free :=
    ⟨by simp [Variables.get?], by simp [Variables.get?], by simp [Variables.get?],
      by simp [Variables.get?]⟩
  have harguments := hempty.declareAll (fun h => (hfree h).method.argumentTypes) .argument 0
  have hvars := harguments.declareAll (fun h => (hfree h).locals) .localVar 0
  exact ⟨⟨hvars, by simp [Builder.start], forall_roots_start, by simp [Builder.start]⟩,
    by simp [Builder.start], by simp [Builder.start]⟩

/-- A temporary has its variable by the time that it is loaded. -/
theorem temporary_lt_size {i : Nat} (hno : ∀ r ∈ is, temporary? r = none)
    (hdecoded : ∀ r ∈ openAll 0 is, Decoded m.argumentCount body.locals.length r)
    (hsplit : openAll 0 is = pre ++ r :: post) (hb : pre.foldlM step (start m body bs) = .ok b)
    (hop : r.op = .ldloc) (hi : temporary? r = some i) : i < b.temporaries.size := by
  induction pre using List.reverseRecOn with
  | nil =>
    rw [head_openAll hno hsplit hop] at hi
    cases hi
  | append_singleton pre p _ =>
    have hsplit' : openAll 0 is = pre ++ p :: r :: post := by simpa using hsplit
    obtain ⟨hp, -, -⟩ := load_openAll hno hsplit' hop hi
    obtain ⟨b0, h0, hlast⟩ := foldlM_append_eq_ok.mp hb
    obtain ⟨b1, h1, h⟩ := foldlM_cons_eq_ok.mp hlast
    cases h
    have hle := temporary_le_size hno (show (start m body bs).temporaries.size = 0 from rfl)
      hsplit' h0 hp
    have hplain : p.op.elementAccess? = none := by
      cases he : p.op.elementAccess? with
      | none => rfl
      | some access =>
        have := ((hdecoded p (by simp [hsplit'])).element_plain he).1
        rw [hp] at this
        cases this
    have := step_temporaries_next hplain hp hle h1
    omega

/-- The builder is typed between the records of a body. -/
theorem run_ensures (hdec : (Scope.of m body resolver).Decodes 0 body.instructions is)
    (hfree : Free → VoidFree m body resolver) (hsplit : openAll 0 is = pre ++ post) :
    Ensures BuildError.Avoided (pre.foldlM step (start m body bs)) fun b =>
      b.Typed Free ∧ b.Filled := by
  have hno : ∀ r ∈ is, temporary? r = none :=
    fun r hr => temporary?_of_accepts (hdec.accepts r hr)
  have hdecoded := decoded_openAll (t := 0) hdec.accepts
  have hshaped := shaped_openAll (fun r hr => (hdec.accepts r hr).shaped) 0
  induction pre using List.reverseRecOn generalizing post with
  | nil => exact .ok (start_typed hfree)
  | append_singleton pre r ih =>
    have hsplit' : openAll 0 is = pre ++ r :: post := by simpa using hsplit
    have hpre : ∀ q ∈ pre, q ∈ openAll 0 is := fun q hq => by simp [hsplit', hq]
    have hr : r ∈ openAll 0 is := by simp [hsplit']
    rw [List.foldlM_append]
    refine (ih hsplit').bind ?_
    rintro b hb ⟨htyped, hfilled⟩
    have hw := foldlM_wellFormed (start_wellFormed m body bs) (fun q hq => hshaped q (hpre q hq)) hb
    obtain ⟨-, hd, -⟩ := foldlM_separated (start_separated m body bs) (start_declares m body bs)
      (fun q hq => (hdecoded q (hpre q hq)).inScope) hb
    have htakes : b.Takes Free m.argumentCount body.locals.length r := by
      refine ⟨hdecoded r hr, hshaped r hr, ?_, ?_⟩
      · intro hf
        cases ht : temporary? r with
        | none =>
          exact (hdec.accepts r (mem_of_mem_openAll hr ht)).voidFree (hfree hf).resolver
        | some i =>
          unfold temporary? at ht
          split at ht
          · rename_i hop
            rw [hop]
            trivial
          · cases ht
      · intro hop i hi
        exact temporary_lt_size hno hdecoded hsplit' hb hop hi
    have hstep := step_ensures htyped hfilled hw hd htakes
    simpa [List.foldlM_cons] using hstep

theorem boundariesOf_ensures (records : List Record) (length : Nat) :
    Ensures BuildError.Avoided (boundariesOf records length) fun _ => True := by
  refine ⟨fun _ _ => trivial, ?_⟩
  intro e he
  obtain ⟨_, r, _, bs, -, -, he⟩ := exists_of_foldlM_error he
  unfold addBoundaries at he
  split at he
  · cases he
  · split at he
    · split at he
      · cases he
      · exact (stackError_ensures (Q := fun _ => True) r _).failure e he
    · cases he

theorem build_ensures (hfree : Free → VoidFree m body resolver) :
    Ensures BuildError.Avoided (build m body resolver) fun routine =>
      routine.vars.WellTyped Free ∧
        ∀ k ∈ routine.blocks, ∀ n ∈ k.roots, n.TypedRoot Free routine.vars := by
  have hread : Ensures BuildError.Avoided (readRecords m body resolver) fun _ => True := by
    refine ⟨fun _ _ => trivial, ?_⟩
    intro e he
    unfold readRecords at he
    cases hr : (Reader.of m body resolver).readAll with
    | ok records => simp [hr, Except.mapError] at he
    | error e' =>
      rw [hr] at he
      cases he
      exact fun h => h
  refine hread.bind ?_
  rintro records hrecords -
  refine (boundariesOf_ensures records body.instructions.length).bind ?_
  rintro bs - -
  obtain ⟨is, hdec, -, rfl⟩ := (Reader.readAll_eq_ok_iff m body resolver records).mp
    (mapError_eq_ok.mp hrecords)
  refine (run_ensures hdec hfree (List.append_nil _).symm).bind ?_
  rintro f - ⟨htyped, -⟩
  exact .ok ⟨htyped.vars, htyped.roots⟩

/-- Whatever `void` is used for, a routine that is built has typed variables and roots. -/
theorem typedRoots_of_build {r : Routine} (h : build m body resolver = .ok r) :
    r.vars.WellTyped False ∧ ∀ b ∈ r.blocks, ∀ root ∈ b.roots, root.TypedRoot False r.vars :=
  (build_ensures False.elim).result r h

end Run

/-- A node of a routine has the children that its operation takes, all of them values, and
variables have the types of what is loaded from and stored into them. -/
structure Routine.Typed (r : Routine) (n : Node) : Prop where
  count : ∀ k, n.op.pops = .fixed k → n.children.length = k
  callee : n.op.pops = .callee →
    ∃ c, n.callee? = some c ∧ n.children.length = Node.callCount n.op c
  children : ∀ c ∈ n.children, c.Pushes
  load : n.op = .ldloc → ∃ id x, n.varId? = some id ∧ r.vars.get? id = some x ∧
    x.stackType = some n.type
  store : n.op = .stloc → ∃ id x, n.varId? = some id ∧ r.vars.get? id = some x ∧
    (x.kind = .synthetic → ∀ c ∈ n.children, x.stackType = some c.type)

/-- The trees of a routine are well-formed and typed: roots leave nothing, all other nodes leave a
value, and where `void` is only the result of methods, the value has a type. Building a routine
never fails for a missing operand or a variable without a type. -/
theorem build_typed (m : Method) (body : Body) (resolver : Resolver) :
    (∀ offset op, build m body resolver ≠ .error (.type (.missingChild offset op))) ∧
    (∀ offset op i, build m body resolver ≠ .error (.type (.untypedVariable offset op i))) ∧
    ∀ routine, build m body resolver = .ok routine →
      ∀ block ∈ routine.blocks, ∀ root ∈ block.roots,
        root.PushesNothing ∧ ∀ n ∈ root.postorder,
          routine.Typed n ∧ (VoidFree m body resolver → ∀ c ∈ n.children, c.type ≠ .void) := by
  have htypes : Ensures BuildError.Avoided (build m body resolver) fun routine =>
      routine.vars.WellTyped (VoidFree m body resolver) ∧
      ∀ block ∈ routine.blocks, ∀ root ∈ block.roots,
        root.TypedRoot (VoidFree m body resolver) routine.vars := build_ensures fun hfree => hfree
  refine ⟨?_, ?_, ?_⟩
  · exact fun offset op he => htypes.failure _ he trivial
  · exact fun offset op i he => htypes.failure _ he trivial
  · intro routine hb block hblock root hroot
    have htyped := (htypes.result routine hb).2 block hblock root hroot
    refine ⟨htyped.effect, ?_⟩
    intro n hn
    have hnode := htyped.tree n hn
    have hshaped := (build_wellFormed hb).roots block hblock root hroot n hn
    refine ⟨⟨hshaped.count, hnode.callee, fun c hc => (hnode.children c hc).pushes, hnode.load,
      hnode.store⟩, ?_⟩
    exact fun hfree c hc => ((hnode.children c hc).type hfree).ne_void

/-- Reads a number, reports it and returns it. -/
def relay : Method := { name := "relay", returnType := .i4 }

def relayBody : Body :=
  { code := [0x28, 1, 0, 0, 6, 0x25, 0x28, 2, 0, 0, 6, 0x2A], locals := [.r8] }

def readMethod : Method := { name := "read", returnType := .i4 }

def reportMethod : Method := { name := "report", parameters := [.i4] }

def relayNames : TokenTable := .of [.method readMethod, .method reportMethod]

theorem relayNames_entity {token : Nat} {e : Entity} (h : relayNames.entity? token = some e) :
    e = .method reportMethod ∨ e = .method readMethod := by
  have hentries : relayNames.entries =
      [(0x06000002, .method reportMethod), (0x06000001, .method readMethod)] := rfl
  obtain ⟨l, l', hl, -⟩ := List.lookup_eq_some_iff.mp h
  have hmem : (token, e) ∈ relayNames.entries := by simp [hl]
  simp only [hentries, List.mem_cons, Prod.mk.injEq, List.not_mem_nil, or_false] at hmem
  exact hmem.imp And.right And.right

theorem relay_voidFree : VoidFree relay relayBody relayNames.resolver := by
  refine ⟨⟨by simp [relay], by simp [relay], .inr (by simp [relay, Ty.VoidFree])⟩,
    by simp [relayBody, Ty.VoidFree], ?_, ?_, ?_⟩
  · intro token f hf
    obtain ⟨e, he, hfield⟩ := Option.bind_eq_some_iff.mp hf
    rcases relayNames_entity he with rfl | rfl <;> cases hfield
  · intro token c hc
    obtain ⟨e, he, hmethod⟩ := Option.bind_eq_some_iff.mp hc
    rcases relayNames_entity he with rfl | rfl <;> cases hmethod
    · exact ⟨by simp [reportMethod, Ty.VoidFree], by simp [reportMethod], .inl rfl⟩
    · exact ⟨by simp [readMethod], by simp [readMethod], .inr (by simp [readMethod, Ty.VoidFree])⟩
  · intro token t ht
    obtain ⟨e, he, htype⟩ := Option.bind_eq_some_iff.mp ht
    rcases relayNames_entity he with rfl | rfl <;> cases htype

/-- The number is stored twice: for its two uses, and across the report. -/
theorem relay_typed :
    VoidFree relay relayBody relayNames.resolver ∧
    ∃ routine, build relay relayBody relayNames.resolver = .ok routine ∧
      routine.blocks.map (·.roots.toList.map Node.op) = #[[.stloc, .stloc, .call, .ret]] ∧
      ∀ block ∈ routine.blocks, ∀ root ∈ block.roots,
        root.PushesNothing ∧ ∀ n ∈ root.postorder,
          routine.Typed n ∧ ∀ c ∈ n.children, c.type ≠ .void := by
  have hroots : (build relay relayBody relayNames.resolver).toOption.map
      (fun routine => routine.blocks.map (·.roots.toList.map Node.op)) =
        some #[[.stloc, .stloc, .call, .ret]] := by decide +kernel
  cases hbuild : build relay relayBody relayNames.resolver with
  | error e => simp [hbuild, Except.toOption] at hroots
  | ok routine =>
    simp only [hbuild, Except.toOption, Option.map_some, Option.some.injEq] at hroots
    refine ⟨relay_voidFree, routine, rfl, hroots, ?_⟩
    intro block hblock root hroot
    obtain ⟨-, -, htyped⟩ := build_typed relay relayBody relayNames.resolver
    obtain ⟨heffect, hnodes⟩ := htyped routine hbuild block hblock root hroot
    exact ⟨heffect, fun n hn => ⟨(hnodes n hn).1, (hnodes n hn).2 relay_voidFree⟩⟩

end SpuCompiler.Trees
