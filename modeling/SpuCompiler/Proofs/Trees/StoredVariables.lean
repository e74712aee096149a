import SpuCompiler.Proofs.Trees.Translation
import SpuCompiler.Proofs.Trees.TypingRules

/-!
Variables that the builder adds are stored. A step adds variables for values that it keeps, and
each of them is stored by one of the trees that the step adds to the current block. So in a
finished routine every such variable is stored by some root.
-/

namespace SpuCompiler.Trees

open Metadata Bytecode StackMachine

def Node.StoresTo (n : Node) (id : Nat) : Prop := n.op = .stloc ∧ n.varId? = some id

instance (n : Node) (id : Nat) : Decidable (n.StoresTo id) :=
  inferInstanceAs (Decidable (n.op = .stloc ∧ n.varId? = some id))

namespace Builder

variable {b b' b'' : Builder} {r : Record} {n : Node} {new new' : List Node}

/-- The variables that were added are stored by trees among the given ones. -/
def Fills (b b' : Builder) (new : List Node) : Prop :=
  ∀ id, b.vars.size ≤ id → id < b'.vars.size → ∃ n ∈ new, n.StoresTo id

theorem Fills.of_size_eq (h : b'.vars.size = b.vars.size) : b.Fills b' new := by
  intro id hle hlt
  omega

theorem Fills.trans (h : b.Fills b' new) (h' : b'.Fills b'' new') : b.Fills b'' (new ++ new') := by
  intro id hle hlt
  by_cases hid : id < b'.vars.size
  · obtain ⟨n, hn, hstores⟩ := h id hle hid
    exact ⟨n, List.mem_append_left _ hn, hstores⟩
  · obtain ⟨n, hn, hstores⟩ := h' id (Nat.le_of_not_lt hid) hlt
    exact ⟨n, List.mem_append_right _ hn, hstores⟩

theorem Fills.mono (h : b.Fills b' new) (hsub : ∀ n ∈ new, n ∈ new') : b.Fills b' new' := by
  intro id hle hlt
  obtain ⟨n, hn, hstores⟩ := h id hle hlt
  exact ⟨n, hsub n hn, hstores⟩

theorem Restacks.size_vars (h : b.Restacks b') : b'.vars.size = b.vars.size := by
  obtain ⟨_, _, vars, rfl, hrole⟩ := h
  exact Variables.size_eq_of_role_eq hrole

theorem size_vars_addRoots (b : Builder) (ns : List Node) :
    (b.addRoots ns).vars.size = b.vars.size := by
  rw [addRoots_eq]

/-! ## Parts of a step -/

/-- The variable of a new temporary has no type, so it cannot be loaded. -/
theorem node_ne_ldloc {i : Nat} (hoperand : r.operand = .ref (.temporary i))
    (hi : b.temporaries.size ≤ i) (h : b.node r = .ok (n, b')) : r.op ≠ .ldloc := by
  intro hop
  have htemporary : b.temporaries[i]? = none := by simpa using hi
  unfold node at h
  simp only [hop, Op.elementAccess?] at h
  obtain ⟨⟨o, b₁⟩, ho, h⟩ := bind_eq_ok.mp h
  obtain ⟨⟨n₁, b₂⟩, hn₁, h⟩ := bind_eq_ok.mp h
  simp only [operand, hoperand, htemporary] at ho
  cases ho
  simp only [plainNode, hop, Op.pops, popMany] at hn₁
  cases hn₁
  obtain ⟨t, vars, ht, -⟩ := deriveType_ok h
  obtain ⟨id, x, hid, hx, htype⟩ := typeOf_ldloc rfl ht
  cases hid
  rcases Variables.get?_addSynthetic hx with hx | ⟨-, -, -, hnone, -⟩
  · have := (Array.getElem?_eq_some_iff.mp hx).1
    exact absurd this (Nat.lt_irrefl _)
  · rw [hnone] at htype
    cases htype

/-- A node adds a variable only for a temporary, which it stores. -/
theorem node_fills (hr : ∀ i, temporary? r = some i → r.op = .stloc ∨ r.op = .ldloc)
    (h : b.node r = .ok (n, b')) : b.Fills b' [] ∨ (r.op = .stloc ∧ b.Fills b' [n]) := by
  cases he : r.op.elementAccess? with
  | some access =>
    simp only [node, he] at h
    obtain ⟨-, -, -, -, -, -, -, -, hrestacks⟩ := elementNode_ok h
    exact .inl (.of_size_eq hrestacks.size_vars)
  | none =>
    obtain ⟨o, b₁, es, args, ho, -, -, hmade, hrestacks⟩ := node_ok_plain he h
    rcases operand_ok ho with ⟨rfl, -⟩ | ⟨i, hoperand, hi, rfl, rfl⟩
    · exact .inl (.of_size_eq hrestacks.size_vars)
    · have hstloc : r.op = .stloc := by
        rcases hr i (by simp [temporary?, hoperand]) with hop | hop
        · exact hop
        · exact absurd hop (node_ne_ldloc hoperand hi h)
      refine .inr ⟨hstloc, fun id hle hlt => ⟨n, by simp, ?_⟩⟩
      have hsize := hrestacks.size_vars
      simp only [addTemporary, Variables.size_addSynthetic] at hsize
      obtain rfl : id = b.vars.size := by omega
      exact ⟨hmade.op.trans hstloc, by simp [Node.varId?, hmade.operand]⟩

theorem exists_flushStores {start id : Nat} {ns : List Node} (hle : start ≤ id)
    (hlt : id < start + ns.length) : ∃ n ∈ flushStores start ns, n.StoresTo id := by
  induction ns generalizing start with
  | nil =>
    simp only [List.length_nil] at hlt
    omega
  | cons n ns ih =>
    by_cases hid : start = id
    · subst hid
      exact ⟨_, List.mem_cons_self, rfl, rfl⟩
    · obtain ⟨s, hs, hstores⟩ := ih (show start + 1 ≤ id by omega)
        (by simp only [List.length_cons] at hlt; omega)
      exact ⟨s, List.mem_cons_of_mem _ hs, hstores⟩

theorem flush_fills (h : b.flush = .ok b') :
    b.Fills b' (flushStores b.vars.size b.trees.reverse) := by
  obtain ⟨vars, rfl, hsize, -⟩ := flush_ok h
  intro id hle hlt
  refine exists_flushStores hle ?_
  rw [List.length_reverse, ← hsize]
  exact hlt

/-- An entry that is not in its variable is moved there. -/
theorem Moves.exists_store {offset id : Nat} {pairs : List (Entry × Nat)} {stores : List Node}
    (h : Moves offset pairs stores) {e : Entry} (hmem : (e, id) ∈ pairs) (hne : e ≠ .carried id) :
    ∃ n ∈ stores, n.StoresTo id := by
  induction h with
  | nil => simp at hmem
  | skip _ ih =>
    rcases List.mem_cons.mp hmem with heq | hmem
    · cases heq
      exact absurd rfl hne
    · exact ih hmem
  | store _ _ ih =>
    rcases List.mem_cons.mp hmem with heq | hmem
    · cases heq
      exact ⟨_, List.mem_cons_self, rfl, rfl⟩
    · obtain ⟨n, hn, hstores⟩ := ih hmem
      exact ⟨n, List.mem_cons_of_mem _ hn, hstores⟩

theorem spill_fills {target : Nat} {reuse : Option (List Nat)} {stores : List Node}
    (hs : b.Separated) (h : b.spill r target reuse = .ok (stores, b')) : b.Fills b' stores := by
  obtain ⟨ids, vars, vars', entries, hlength, henters, hmoves, hrole, rfl⟩ := spill_ok h
  have hsize : vars'.size = vars.size := Variables.size_eq_of_role_eq hrole
  cases henters with
  | recorded => exact .of_size_eq hsize
  | reused => exact .of_size_eq hsize
  | fresh hnone hvisited hmore hextends =>
    intro id hle hlt
    have hlt' : id < b.vars.size + b.depth := by rw [← hmore, ← hsize]; exact hlt
    -- the entry at the place of the new variable is none of the new ones
    obtain ⟨e, he⟩ : ∃ e, b.stackEntries[id - b.vars.size]? = some e :=
      ⟨_, List.getElem?_eq_getElem (by rw [length_stackEntries]; omega)⟩
    have hpair : (e, id) ∈ b.stackEntries.zip (List.range' b.vars.size b.depth) := by
      refine List.mem_iff_getElem?.mpr ⟨id - b.vars.size, ?_⟩
      rw [List.getElem?_zip_eq_some]
      refine ⟨he, ?_⟩
      rw [List.getElem?_range' (by omega)]
      simp only [Option.some.injEq]
      omega
    refine hmoves.exists_store hpair ?_
    rintro rfl
    have hcarried : id ∈ b.carried := by
      have hmem := List.mem_of_getElem? he
      simpa [stackEntries] using hmem
    have := (hs.carried id hcarried).1.lt_size
    omega

/-! ## Steps -/

theorem place_fills (h : b.place r n = .ok b') :
    ∃ new, b.Adds b' new ∧ b.Fills b' new ∧ (producesValue r.op n = false → n ∈ new) := by
  rcases place_ok h with ⟨hvalue, rfl⟩ | ⟨-, -, b₁, hflush, rfl⟩
  · exact ⟨[], .of_blocks_eq rfl rfl, .of_size_eq rfl, by simp [hvalue]⟩
  · refine ⟨_, (flush_adds hflush).trans (.addRoots b₁ [n]), ?_, by simp⟩
    exact (flush_fills hflush).trans (.of_size_eq (size_vars_addRoots b₁ [n]))

theorem fallThrough_fills (hs : b.Separated) (h : b.fallThrough r = .ok b') :
    ∃ new, b.Adds b' new ∧ b.Fills b' new := by
  rcases fallThrough_ok h with ⟨-, stores, b₁, hspill, rfl⟩ | ⟨-, rfl⟩
  · refine ⟨_, (spill_adds hspill).trans (.addRoots b₁ stores), ?_⟩
    have hsize := size_vars_addRoots b₁ stores
    intro id hle hlt
    exact spill_fills hs hspill id hle (by omega)
  · exact ⟨[], .of_blocks_eq rfl rfl, .of_size_eq rfl⟩

theorem branch_fills (hs : b.Separated) (h : b.branch r n = .ok b') :
    ∃ new, b.Adds b' new ∧ b.Fills b' new := by
  obtain ⟨target, stores, b₁, more, b₂, -, hspill, hmore, rfl⟩ := branch_ok h
  have hsize : ∀ b : Builder, (((b.addRoots stores).addRoots more).root n).clearStack.vars.size =
      b.vars.size := by
    intro b
    simp only [clearStack]
    exact (size_vars_addRoots _ [n]).trans
      ((size_vars_addRoots _ more).trans (size_vars_addRoots _ stores))
  have hfirst := spill_fills hs hspill
  have hsecond : b₁.Fills b₂ more := by
    rcases hmore with ⟨-, -, hmore⟩ | ⟨-, -, rfl⟩
    · have hseparated := (spill_separated hs (by simp [Reuses]) hspill).1.onTarget target
      have hfills : (b₁.onTarget target).Fills b₂ more := spill_fills hseparated hmore
      exact hfills
    · exact .of_size_eq rfl
  refine ⟨stores ++ more ++ [n], branch_adds hspill ?_ n, ?_⟩
  · rcases hmore with ⟨-, -, hmore⟩ | ⟨-, -, rfl⟩
    · exact .inl ⟨_, hmore⟩
    · exact .inr rfl
  · exact (hfirst.trans hsecond).trans (.of_size_eq (hsize b₂))

/-- The variables that a step adds are stored by the trees that it adds. -/
theorem step_fills {arguments locals : Nat} (hs : b.Separated) (hd : b.Declares arguments locals)
    (hr : Decoded arguments locals r) (h : b.step r = .ok b') :
    ∃ new, (b.enterAt r.offset).Adds b' new ∧ (b.enterAt r.offset).Fills b' new := by
  obtain ⟨n, b₁, hn, hrest⟩ := step_ok h
  have hadds := node_adds hn
  have hnode := node_fills hr.temporary hn
  have hw := b.enterAt_widens r.offset
  have hd₀ := hw.declares ⟨arguments_enterAt b _, locals_enterAt b _⟩ hd
  obtain ⟨hs₁, -, hmentions⟩ := node_separated (hs.enterAt r.offset) hd₀ hr.inScope hn
  rcases hrest with ⟨hbranch, hb⟩ | ⟨-, b₂, hplace, hend⟩
  · obtain ⟨new, hadds', hfills⟩ := branch_fills hs₁ hb
    refine ⟨_, hadds.trans hadds', ?_⟩
    rcases hnode with hnode | ⟨hstloc, -⟩
    · exact hnode.trans hfills
    · simp [hstloc, Op.isBranch, Op.flow] at hbranch
  · obtain ⟨new, hadds₂, hfills₂, hroot⟩ := place_fills hplace
    have hfills : (b.enterAt r.offset).Fills b₂ new := by
      rcases hnode with hnode | ⟨hstloc, hnode⟩
      · exact hnode.trans hfills₂
      · refine (hnode.trans hfills₂).mono ?_
        have := hroot (by simp [producesValue, hstloc, Op.pushes])
        simpa using this
    rcases hend with ⟨-, rfl⟩ | ⟨-, hfall⟩
    · refine ⟨_, (hadds.trans hadds₂).trans (.of_blocks_eq rfl rfl), ?_⟩
      rw [List.nil_append, List.append_nil]
      exact hfills
    · obtain ⟨more, hadds₃, hfills₃⟩ :=
        fallThrough_fills (place_separated hs₁ hmentions hplace).1 hfall
      refine ⟨_, (hadds.trans hadds₂).trans hadds₃, ?_⟩
      rw [List.nil_append]
      exact hfills.trans hfills₃

end Builder

/-! ## Routines -/

section Run

open Builder

variable {m : Method} {body : Body} {records pre rest : List Record} {bs : List Nat}
  {f b : Builder} {o : Nat}

/-- Behind any record, the variables added so far are stored by roots. -/
theorem Point.exists_store (h : Translation m body records bs f)
    (hp : Point m body records bs f pre b rest o) {id : Nat}
    (hle : (start m body bs).vars.size ≤ id) (hlt : id < b.vars.size) :
    ∃ k, ∃ n ∈ b.rootsAt k, n.StoresTo id := by
  induction pre using List.reverseRecOn generalizing b rest o with
  | nil =>
    have hb := hp.before
    cases hb
    omega
  | append_singleton pre r ih =>
    obtain ⟨b₀, o₀, hp₀⟩ := h.exists_point (show records = pre ++ r :: rest by simp [hp.split])
    obtain ⟨rfl, b₁, hs, hp₁⟩ := hp₀.next h
    obtain rfl : b₁ = b := Except.ok.inj (hp₁.before.symm.trans hp.before)
    have hr : r ∈ records := by simp [hp.split]
    obtain ⟨new, hadds, hfills⟩ := step_fills hp₀.separated hp₀.declares (h.decoded r hr) hs
    have hvars : (b₀.enterAt r.offset).vars = b₀.vars := by
      obtain ⟨_, _, _, _, heq⟩ := b₀.enterAt_eq r.offset
      rw [heq]
    by_cases hold : id < b₀.vars.size
    · obtain ⟨k, n, hn, hstores⟩ := ih hp₀ hold
      obtain ⟨more, hroots⟩ := (step_grows h.boundaries.increasing hp₀.positioned hs).1.roots k
      exact ⟨k, n, by rw [hroots]; exact List.mem_append_left _ hn, hstores⟩
    · obtain ⟨n, hn, hstores⟩ := hfills id (by rw [hvars]; omega) hlt
      refine ⟨(b₀.enterAt r.offset).current, n, ?_, hstores⟩
      rw [hadds.roots (hp₀.positioned.entered h.boundaries.increasing).current_lt, if_pos rfl]
      exact List.mem_append_right _ hn

theorem role_start (m : Method) (body : Body) (bs : List Nat) {id index : Nat} {kind : VariableKind}
    (h : (start m body bs).vars.role id = some (kind, index)) :
    kind ≠ .synthetic ∧ (kind = .argument → id ∈ (start m body bs).arguments) := by
  have hempty : ∀ id, ({} : Variables).role id = none := fun id => by
    rw [Variables.role_eq_none_iff]
    exact Nat.zero_le id
  simp only [Builder.start, Variables.role_declareAll, Variables.size_declareAll, hempty] at h ⊢
  split at h
  · cases h
    exact ⟨by decide, by rintro ⟨⟩⟩
  · split at h
    · rename_i hid
      cases h
      refine ⟨by decide, fun _ => ?_⟩
      have hzero : ({} : Variables).size = 0 := rfl
      simp only [List.mem_range]
      omega
    · cases h

theorem foldlM_arguments {records : List Record} {b b' : Builder}
    (h : records.foldlM step b = .ok b') : b'.arguments = b.arguments := by
  refine foldlM_invariant (P := fun c => c.arguments = b.arguments) ?_ rfl h
  intro c c' r _ hc hs
  rw [(step_keeps hs).arguments, arguments_enterAt, hc]

/-- Of the variables of a routine, the arguments are listed, and each one that the method does not
declare is stored by a root. -/
theorem build_variables {resolver : Resolver} {routine : Routine}
    (h : build m body resolver = .ok routine) {id : Nat} {x : Variable}
    (hx : routine.vars.get? id = some x) :
    (x.kind = .argument → id ∈ routine.arguments) ∧
      (x.kind = .synthetic → ∃ k ∈ routine.blocks, ∃ n ∈ k.roots, n.StoresTo id) := by
  obtain ⟨records, hread, -⟩ := bind_eq_ok.mp h
  obtain ⟨bs, f, ht, rfl⟩ := Translation.of_build hread h
  have hrole : f.vars.role id = some (x.kind, x.index) := by
    have hget : f.vars.get? id = some x := hx
    simp [Variables.role, hget]
  have hextends := (ht.point_start.widens ht).vars
  by_cases hold : id < (start m body bs).vars.size
  · rw [hextends.role id hold] at hrole
    obtain ⟨hplain, hargument⟩ := role_start m body bs hrole
    refine ⟨fun hkind => ?_, fun hkind => absurd hkind hplain⟩
    have hmem := hargument hkind
    rwa [← foldlM_arguments ht.built] at hmem
  · have hlt : id < f.vars.size := (Array.getElem?_eq_some_iff.mp hx).1
    obtain ⟨index, hsynthetic⟩ := hextends.synthetic id (Nat.le_of_not_lt hold) hlt
    rw [hrole] at hsynthetic
    refine ⟨fun hkind => by simp [hkind] at hsynthetic, fun _ => ?_⟩
    obtain ⟨b, o, hp⟩ := ht.exists_point (List.append_nil records).symm
    obtain rfl : b = f := Except.ok.inj hp.after
    obtain ⟨k, n, hn, hstores⟩ := hp.exists_store ht (Nat.le_of_not_lt hold) hlt
    unfold rootsAt at hn
    cases hk : b.blocks[k]? with
    | none => simp [hk] at hn
    | some block =>
      refine ⟨block, Array.mem_of_getElem? hk, n, ?_, hstores⟩
      simpa [hk] using hn

end Run

end SpuCompiler.Trees
