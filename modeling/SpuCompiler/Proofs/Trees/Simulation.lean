import Mathlib.Data.List.TakeWhile
import SpuCompiler.Proofs.Trees.Translation

/-!
How the two machines go together. The trees and variables that the builder has on its stack
evaluate to the values that the stack machine has on its own, in the order in which it computed
them; at the start of a block the values are in the variables recorded for the block.
-/

namespace SpuCompiler.Trees

open Metadata Bytecode Builder StackMachine TreeMachine

variable {V S : Type} {M : Meaning V S}
variable {roles : Roles} {es : List Entry} {args : List Node} {b : Builder}

/-! ## The stack of the builder -/

theorem evalList_yields {store : Nat → Option V} (h : List.Forall₂ Entry.Yields es args) (s : S) :
    evalList M roles store (es.map Entry.node) s = evalList M roles store args s := by
  induction h generalizing s with
  | nil => rfl
  | cons hy _ ih =>
    rw [List.map_cons, evalList, evalList, eval_of_yields hy]
    simp only [ih]

/-- What a node takes from the stack of the builder has the values that its record takes. -/
theorem NodeOf.values {store : Nat → Option V} {b' : Builder} {r : Record} {n : Node} {s s' : S}
    {stack : List V} (h : NodeOf M roles b r b' es args n)
    (hv : evalList M roles store (b.stackEntries.map Entry.node) s = some (stack, s')) :
    ∃ below vs s1 values, stack = below ++ vs ∧ vs.length = args.length ∧
      evalList M roles store (b'.stackEntries.map Entry.node) s = some (below, s1) ∧
      evalList M roles store n.children s1 = some (values, s') ∧
      operation M r vs = (n.op, operandSlot (refSlot roles) n.operand, values) := by
  rw [h.stack, List.map_append] at hv
  obtain ⟨below, s1, vs, hbelow, hargs, rfl⟩ := (evalList_append_eq_some _ _ _).mp hv
  rw [evalList_yields h.yields] at hargs
  obtain ⟨values, hvalues, hop⟩ := h.realizes store s1 vs s' hargs
  exact ⟨below, vs, s1, values, rfl, evalList_length _ _ _ hargs, hbelow, hvalues, hop⟩

theorem stackEntries_of_trees_nil (h : b.trees = []) :
    b.stackEntries.map Entry.node = b.carried.reverse.map fun id => (Entry.carried id).node := by
  simp [stackEntries, h]

section Stores

variable {b b' : Builder} {store : Nat → Option V} {s s' : S} {vs : List V}
variable {ids : List Nat} {r : Record} {target : Nat} {stores : List Node}

theorem holds_of_evalList_carried (hroles : ∀ id ∈ ids, IsSynthetic roles id)
    (h : evalList M roles store (ids.map fun id => (Entry.carried id).node) s = some (vs, s')) :
    Holds store ids vs ∧ s' = s := by
  induction ids generalizing s vs with
  | nil =>
    cases h
    exact ⟨.nil, rfl⟩
  | cons id ids ih =>
    rw [List.map_cons] at h
    obtain ⟨v, s1, vs', hv, hvs, rfl⟩ := (evalList_cons_eq_some _ _ _).mp h
    replace hv := (eval_loadNode (M := M) (hroles id (by simp)) store 0 .void s).symm.trans hv
    obtain ⟨v', hv', heq⟩ := Option.map_eq_some_iff.mp hv
    cases heq
    obtain ⟨hholds, rfl⟩ := ih (fun id hid => hroles id (by simp [hid])) hvs
    exact ⟨.cons hv' hholds, rfl⟩

/-- Flushing runs the trees in order and leaves all values in variables. -/
theorem run_flush (routine : Routine) (block : Nat) (more : List Node) (hs : b.Separated)
    (hf : b.flush = .ok b') (hext : b'.vars.Extends routine.vars)
    (hv : evalList M routine.vars.role store (b.stackEntries.map Entry.node) s = some (vs, s')) :
    ∃ n store', Steps (TreeMachine.step M routine) n
        ⟨block, flushStores b.vars.size b.trees.reverse ++ more, store, s⟩
        ⟨block, more, store', s'⟩ ∧
      Holds store' b'.carried.reverse vs ∧ ∀ x < b.vars.size, store' x = store x := by
  obtain ⟨hs', hw⟩ := flush_separated hs hf
  obtain ⟨vars, rfl, hsize, -⟩ := flush_ok hf
  have hmap : b.stackEntries.map Entry.node =
      (b.carried.reverse.map fun id => (Entry.carried id).node) ++ b.trees.reverse := by
    simp [stackEntries, Function.comp_def, Entry.node]
  rw [hmap] at hv
  obtain ⟨xs, s1, ys, hxs, hys, rfl⟩ := (evalList_append_eq_some _ _ _).mp hv
  have hcarried : ∀ id ∈ b.carried.reverse, IsSynthetic routine.vars.role id := by
    intro id hid
    exact isSynthetic_of_extends (hw.vars.trans hext) (hs.carried id (List.mem_reverse.mp hid)).1
  obtain ⟨hold, rfl⟩ := holds_of_evalList_carried hcarried hxs
  have hnew : ∀ x, b.vars.size ≤ x → x < b.vars.size + b.trees.reverse.length →
      IsSynthetic routine.vars.role x := by
    intro x hle hlt
    have hmem : x ∈ (List.range' b.vars.size b.trees.length).reverse ++ b.carried := by
      refine List.mem_append_left _ (List.mem_reverse.mpr (List.mem_range'_1.mpr ⟨hle, ?_⟩))
      simpa using hlt
    exact isSynthetic_of_extends hext (hs'.carried x hmem).1
  have hmention : ∀ n ∈ b.trees.reverse, ∀ x, n.Mentions x → x < b.vars.size := by
    intro n hn x hx
    have hmem : Entry.tree n ∈ b.stackEntries := by
      simp only [stackEntries, List.mem_append, List.mem_map]
      exact .inr ⟨n, hn, rfl⟩
    obtain ⟨k, hk⟩ := List.mem_iff_getElem?.mp hmem
    exact (hs.stack k _ x hk hx).lt_size
  obtain ⟨store', hsteps, hholds, hother⟩ := run_flushStores hnew hmention hys
  refine ⟨_, store', hsteps, ?_, hother⟩
  rw [List.reverse_append, List.reverse_reverse]
  have hnewHolds : Holds store' (List.range' b.vars.size b.trees.length) ys := by
    simpa using hholds
  refine Holds.append (hold.mono fun id hid => hother id ?_) hnewHolds
  exact (hs.carried id (List.mem_reverse.mp hid)).1.lt_size

/-- Spilling runs the trees in order and leaves all values in the variables of the block. -/
theorem run_spill (routine : Routine) (block : Nat) (more : List Node) {reuse : Option (List Nat)}
    (hs : b.Separated) (hreuse : b.Reuses reuse)
    (hspill : b.spill r target reuse = .ok (stores, b')) (hext : b'.vars.Extends routine.vars)
    (hv : evalList M routine.vars.role store (b.stackEntries.map Entry.node) s = some (vs, s')) :
    ∃ n store' ids, b'.entries.lookup target = some ids ∧ ids.length = b.depth ∧
      Steps (TreeMachine.step M routine) n ⟨block, stores ++ more, store, s⟩
        ⟨block, more, store', s'⟩ ∧
      Holds store' ids vs ∧ ∀ x, x ∉ ids → store' x = store x := by
  obtain ⟨hs', hw⟩ := spill_separated hs hreuse hspill
  obtain ⟨ids, vars, vars', entries, hlen, henters, hmoves, hrole, rfl⟩ := spill_ok hspill
  have hmem := henters.mem
  have hlength : b.stackEntries.length = ids.length := by rw [length_stackEntries, hlen]
  have hfst : (b.stackEntries.zip ids).map Prod.fst = b.stackEntries :=
    List.map_fst_zip (le_of_eq hlength)
  have hsnd : (b.stackEntries.zip ids).map Prod.snd = ids :=
    List.map_snd_zip (le_of_eq hlength.symm)
  have hsyn : ∀ p ∈ b.stackEntries.zip ids, IsSynthetic routine.vars.role p.2 := by
    intro p hp
    exact isSynthetic_of_extends hext (hs'.recorded _ hmem p.2 (List.of_mem_zip hp).2)
  -- a later entry is above an earlier position
  have hbefore : (b.stackEntries.zip ids).Pairwise Before := by
    rw [List.pairwise_iff_getElem]
    intro i j hi hj hij
    rw [List.length_zip] at hi hj
    simp only [List.getElem_zip]
    have hgeti : ids[i]? = some ids[i] := List.getElem?_eq_getElem _
    constructor
    · intro hm
      have := (hw.above (hs.stack j _ _ (List.getElem?_eq_getElem (by omega)) hm)).le _ hmem i hgeti
      omega
    · intro heq
      have hgetj : ids[j]? = some ids[i] := by
        rw [List.getElem?_eq_getElem (by omega)]
        exact congrArg some heq.symm
      have := hs'.aligned _ hmem _ hmem i j ids[i] hgeti hgetj
      omega
  have hmap : (b.stackEntries.zip ids).map (fun p => p.1.node) = b.stackEntries.map Entry.node := by
    conv_rhs => rw [← hfst, List.map_map]
    rfl
  obtain ⟨n, store', hsteps, hholds, hother⟩ := run_moves hmoves hsyn hbefore (hmap ▸ hv)
  rw [hsnd] at hholds hother
  exact ⟨n, store', ids, henters.lookup.1, hlen, hsteps, hholds, hother⟩

/-- A second spill leaves the values also in the variables that they come from. -/
theorem run_respill (routine : Routine) (block : Nat) (more : List Node) {stop : Nat}
    (hs : b.Separated) (hl : b.entries.lookup target = some ids)
    (hspill : (b.onTarget target).spill r stop (some ids) = .ok (stores, b'))
    (hext : b'.vars.Extends routine.vars) (hholds : Holds store ids vs) :
    ∃ n store' ids', b'.entries.lookup stop = some ids' ∧ ids'.length = ids.length ∧
      Steps (TreeMachine.step M routine) n ⟨block, stores ++ more, store, s⟩
        ⟨block, more, store', s⟩ ∧
      Holds store' ids' vs ∧ Holds store' ids vs ∧ ∀ x, x ∉ ids' → store' x = store x := by
  have hreuse : (b.onTarget target).Reuses (some ids) := by
    have := reuses_lookup b target
    rwa [hl] at this
  obtain ⟨hs', hw⟩ := spill_separated (hs.onTarget target) hreuse hspill
  have hlt := mem_of_lookup hl
  have hmap : (b.onTarget target).stackEntries.map Entry.node =
      ids.map fun id => (Entry.carried id).node := by
    simp [stackEntries, onTarget, hl]
  have hv : evalList M routine.vars.role store ((b.onTarget target).stackEntries.map Entry.node) s =
      some (vs, s) := by
    rw [hmap]
    refine evalList_carried ?_ hholds s
    intro id hid
    have hsyn : (b.onTarget target).Synthetic id := hs.recorded _ hlt id hid
    exact isSynthetic_of_extends (hw.vars.trans hext) hsyn
  obtain ⟨n, store', ids', hl', hlen, hsteps, hholds', hother⟩ :=
    run_spill routine block more (hs.onTarget target) hreuse hspill hext hv
  rw [depth_onTarget b target hl] at hlen
  have hkeep : b'.entries.lookup target = some ids := (spill_recording hspill).1.keep _ _ hl
  refine ⟨n, store', ids', hl', hlen, hsteps, hholds', hholds.of_aligned hholds' hother ?_, hother⟩
  exact hs'.aligned _ (mem_of_lookup hkeep) _ (mem_of_lookup hl')

end Stores

/-! ## Related configurations -/

/-- The tree machine is where the builder `e` is: it has the roots to run that are still to be
added, and what `e` has on its stack has the given values. -/
structure Matches (M : Meaning V S) (f e : Builder) (stack : List V) (state : S)
    (t : TreeMachine.Config V S) : Prop where
  block : t.block = e.current
  roots : f.rootsAt e.current = e.rootsAt e.current ++ t.roots
  values : evalList M f.vars.role t.store (e.stackEntries.map Entry.node) t.state =
    some (stack, state)

/-- A temporary has the same value in both machines. -/
def Duplicated (b : Builder) (temporaries : Nat → Option V) (store : Nat → Option V) (i : Nat) :
    Prop :=
  ∃ id v, b.temporaries[i]? = some id ∧ temporaries i = some v ∧ store id = some v

structure Related (M : Meaning V S) (m : Method) (body : Body) (records : List Record)
    (bs : List Nat) (f : Builder) (c : StackMachine.Config V S) (t : TreeMachine.Config V S)
    (pre : List Record) (b : Builder) (o : Nat) : Prop where
  point : Point m body records bs f pre b c.rest o
  stop : c.rest = [] → t.roots = [] ∧ t.block = b.current
  values : ∀ r post, c.rest = r :: post → Matches M f (b.enterAt o) c.stack c.state t
  load : ∀ r post i, c.rest = r :: post → r.op = .ldloc → temporary? r = some i →
    Duplicated b c.temporaries t.store i

section Blocks

variable {m : Method} {body : Body} {records pre post : List Record} {bs : List Nat}
  {f b : Builder} {r q : Record} {o : Nat}
variable {k : Nat} {stack : List V} {state : S}

theorem Point.offset_eq (hp : Point m body records bs f pre b (q :: post) o) : o = q.offset :=
  hp.tiles.1.symm

theorem Translation.exists_block (h : Translation m body records bs f) {x : Nat}
    (hk : bs[k]? = some x) :
    ∃ block, f.finish.blocks[k]? = some block ∧ f.rootsAt k = block.roots.toList := by
  have hlt := (List.getElem?_eq_some_iff.mp hk).1
  rw [← h.offsets] at hlt
  have hget : f.blocks[k]? = some _ := Array.getElem?_eq_getElem
    (by simpa [Builder.offsets] using hlt)
  exact ⟨_, hget, by rw [rootsAt, hget]; rfl⟩

/-- At the first record of a block the builder has the variables that are recorded for it on its
stack, and no roots. -/
theorem Point.block_entry (h : Translation m body records bs f)
    (hp : Point m body records bs f pre b (q :: post) o) (hmem : o ∈ bs)
    (hfirst : ∀ p ∈ pre, p.offset < o) :
    bs[(b.enterAt o).current]? = some o ∧
      (b.enterAt o).rootsAt (b.enterAt o).current = [] ∧
      (b.enterAt o).stackEntries =
        ((f.entries.lookup o).getD []).map Entry.carried := by
  have hinc := h.boundaries.increasing
  obtain ⟨-, b', hs, hp'⟩ := hp.next h
  have hoff := hp.offset_eq
  subst hoff
  have hrec : (b.enterAt q.offset).Recording f := by
    have hdec := h.decoded q (by simp [hp.split])
    exact (step_depth hdec.ne_dup hs).recording.trans (hp'.recording h)
  rcases List.eq_nil_or_concat pre with rfl | ⟨pre', p, rfl⟩
  · have hb := hp.before
    cases hb
    have hzero : q.offset = 0 := by
      have hall := h.tiles
      rw [hp.split] at hall
      exact hall.1
    rw [hzero] at hrec ⊢
    have hcur : (Builder.start m body bs).currentOffset = 0 :=
      currentOffset_eq (by rw [hp.positioned.offsets]; exact h.boundaries.head)
    have hstay : (Builder.start m body bs).enterAt 0 = Builder.start m body bs := by
      rw [enterAt, if_pos hcur.symm]
    rw [hstay] at hrec ⊢
    have hnil : (f.entries.lookup 0).getD [] = [] := by
      cases hl : f.entries.lookup 0 with
      | none => rfl
      | some ids => exact hrec.late 0 ids rfl hl (by simp [Builder.start])
    exact ⟨h.boundaries.head, rootsAt_start m body bs _, by rw [hnil]; rfl⟩
  · -- the current block starts before the last record
    rw [List.concat_eq_append] at hp hfirst
    obtain ⟨x, hx, hlt⟩ := hp.current_before h
    have hlt := hlt.trans_lt (hfirst p (by simp))
    rcases hp.positioned.enterAt_cases hinc with ⟨-, hno | ho⟩ | ⟨hk, heq⟩
    · exact absurd hmem hno
    · rw [hx] at ho
      cases ho
      omega
    · rw [heq] at hrec ⊢
      refine ⟨hk, hp.ahead _ (Nat.lt_succ_self _), ?_⟩
      have htrees : (b.enter (b.current + 1) q.offset).trees = [] := rfl
      simp [stackEntries, enter_carried hrec, htrees]

/-- The machines are related at the start of a block when its variables hold the stack. -/
theorem Point.related_block (h : Translation m body records bs f)
    (hp : Point m body records bs f pre b (q :: post) o) (hmem : o ∈ bs)
    (hfirst : ∀ p ∈ pre, p.offset < o) (hk : bs[k]? = some o) {temporaries store : Nat → Option V}
    (hholds : Holds store ((f.entries.lookup o).getD []) stack) :
    Related M m body records bs f ⟨q :: post, stack, temporaries, state⟩
      ⟨k, f.rootsAt k, store, state⟩ pre b o := by
  obtain ⟨hcur, hroots, hstack⟩ := hp.block_entry h hmem hfirst
  obtain rfl : k = (b.enterAt o).current :=
    (List.getElem?_inj (List.getElem?_eq_some_iff.mp hk).1 h.boundaries.nodup).mp (hk.trans hcur.symm)
  refine ⟨hp, by simp, ?_, ?_⟩
  · rintro r post ⟨⟩
    refine ⟨rfl, by rw [hroots]; rfl, ?_⟩
    rw [hstack, List.map_map]
    refine evalList_carried ?_ hholds state
    intro id hid
    cases hl : f.entries.lookup o with
    | none => simp [hl] at hid
    | some ids =>
      exact h.separated.recorded _ (mem_of_lookup hl) id (by simpa [hl] using hid)
  · rintro r post i ⟨⟩ hop hi
    have hoff := hp.offset_eq
    rcases List.eq_nil_or_concat pre with rfl | ⟨pre', p, rfl⟩
    · rw [h.first q post hp.split hop] at hi
      cases hi
    · rw [List.concat_eq_append] at hp hfirst
      have hsame := (h.load pre' p q post i (by simp [hp.split]) hop hi).2.2
      have := hfirst p (by simp)
      omega

/-- A branch goes to the first record of a block. -/
theorem Translation.jump (h : Translation m body records bs f) (hr : r ∈ records) {t : Nat}
    (ht : r.target? = some t) :
    ∃ pre q post b, records.dropWhile (·.offset ≠ t) = q :: post ∧
      Point m body records bs f pre b (q :: post) t ∧ t ∈ bs ∧ ∀ p ∈ pre, p.offset < t := by
  have hb := (h.decoded r hr).target.mpr ⟨t, ht⟩
  obtain ⟨q0, hq0, hq0t⟩ := h.boundaries.targets r hr t ht hb
  have hsplit : records = records.takeWhile (·.offset ≠ t) ++ records.dropWhile (·.offset ≠ t) :=
    List.takeWhile_append_dropWhile.symm
  cases hd : records.dropWhile (·.offset ≠ t) with
  | nil =>
    have hall := List.dropWhile_eq_nil_iff.mp hd q0 hq0
    simp [hq0t] at hall
  | cons q post =>
    have hq : q.offset = t := by
      have := List.head_dropWhile_not (fun r : Record => decide (r.offset ≠ t))
        (show records.dropWhile (·.offset ≠ t) ≠ [] by rw [hd]; simp)
      simpa only [hd, List.head_cons, decide_eq_false_iff_not, not_not] using this
    rw [hd] at hsplit
    obtain ⟨b, o, hp⟩ := h.exists_point hsplit
    obtain rfl := hp.offset_eq
    refine ⟨_, q, post, b, rfl, hq ▸ hp, ?_, ?_⟩
    · exact (h.boundaries.mem_iff t).mpr (.inr ⟨r, hr, hb, t, ht, .inl rfl⟩)
    · intro p hmem
      have hne : p.offset ≠ t := by simpa using List.mem_takeWhile_imp hmem
      obtain ⟨middle, hpre, hoff, -⟩ := Tiles.append_iff.mp (hsplit ▸ h.tiles)
      have := (hpre.bounds hmem).2
      unfold Record.stop at this
      omega

/-- Control passes to the block that starts behind a record. -/
theorem Point.fall_into_block (h : Translation m body records bs f)
    (hp : Point m body records bs f (pre ++ [r]) b (q :: post) o) (hmem : o ∈ bs)
    (hr : r.offset < o) (temporaries : Nat → Option V) {store : Nat → Option V} {more : List Node}
    (hroots : f.rootsAt b.current = b.rootsAt b.current ++ more)
    (hholds : Holds store ((f.entries.lookup o).getD []) stack) :
    ∃ t, Steps (TreeMachine.step M f.finish) 1 ⟨b.current, more, store, state⟩ t ∧
      Related M m body records bs f ⟨q :: post, stack, temporaries, state⟩ t (pre ++ [r]) b o := by
  have hinc := h.boundaries.increasing
  have hfirst : ∀ p ∈ pre ++ [r], p.offset < o := by
    intro p hpm
    rcases List.mem_append.mp hpm with hpm | hpm
    · have hsplit := hp.split
      rw [List.append_assoc] at hsplit
      obtain ⟨middle, hpre, hoff, -⟩ := Tiles.append_iff.mp (hsplit ▸ h.tiles)
      have := (hpre.bounds hpm).2
      unfold Record.stop at this
      omega
    · obtain rfl : p = r := by simpa using hpm
      exact hr
  -- the next block is the one after the current block, whose roots are final
  obtain ⟨x, hx, hle⟩ := hp.current_before h
  obtain ⟨hk, heq⟩ : bs[b.current + 1]? = some o ∧ b.enterAt o = b.enter (b.current + 1) o := by
    rcases hp.positioned.enterAt_cases hinc with ⟨-, hno | ho⟩ | hyes
    · exact absurd hmem hno
    · rw [hx] at ho
      cases ho
      omega
    · exact hyes
  have hgrows : (b.enterAt o).Grows f := by
    obtain ⟨rfl, b', hs, hp'⟩ := hp.next h
    obtain ⟨new, hadds⟩ := step_adds hs
    exact (Grows.of_adds hadds (hp.positioned.entered hinc).current_lt).trans (hp'.grows h)
  have hmore : more = [] := by
    have hfinal := hgrows.final b.current (by rw [heq]; exact Nat.lt_succ_self _)
    have hsame : (b.enterAt o).rootsAt b.current = b.rootsAt b.current := by simp [rootsAt]
    rw [hfinal, hsame] at hroots
    exact List.self_eq_append_right.mp hroots
  obtain ⟨block, hblock, hrootsAt⟩ := h.exists_block hk
  refine ⟨⟨b.current + 1, f.rootsAt (b.current + 1), store, state⟩, .single ?_,
    hp.related_block h hmem hfirst hk hholds⟩
  rw [hmore]
  simp [TreeMachine.step, hblock, hrootsAt]

end Blocks

end SpuCompiler.Trees
