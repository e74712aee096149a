import SpuCompiler.Proofs.Trees.Evaluation

/-!
Runs of stores. Flushing puts the values of trees into fresh variables, spilling moves the values
of stack entries into the variables of a block; no store writes a variable that a later entry
mentions, so each variable ends with the value that its entry had at first.
-/

namespace SpuCompiler.Trees

open Metadata Bytecode Builder

namespace TreeMachine

variable {V S : Type} {M : Meaning V S} {routine : Routine}
variable {roles : Roles} {ids ids' : List Nat} {vs : List V} {n : Node} {v : V}

def IsSynthetic (roles : Roles) (id : Nat) : Prop := ∃ i, roles id = some (.synthetic, i)

theorem synthetic?_variable {id : Nat} (h : IsSynthetic roles id) :
    synthetic? roles (.ref (.variable id)) = some id := by
  obtain ⟨i, hi⟩ := h
  simp [synthetic?, hi]

theorem eval_loadNode {id : Nat} (h : IsSynthetic roles id) (store : Nat → Option V) (offset : Nat)
    (t : StackType) (s : S) :
    eval M roles store (loadNode id offset t) s = (store id).map (·, s) := by
  simp [loadNode, eval, apply, synthetic?_variable h]

def Holds (store : Nat → Option V) (ids : List Nat) (vs : List V) : Prop :=
  List.Forall₂ (fun id v => store id = some v) ids vs

theorem Holds.mono {store store' : Nat → Option V} (h : Holds store ids vs)
    (hs : ∀ id ∈ ids, store' id = store id) : Holds store' ids vs := by
  induction h with
  | nil => exact .nil
  | cons hv _ ih =>
    refine .cons ?_ (ih fun id hid => hs id (by simp [hid]))
    rw [hs _ (by simp), hv]

theorem Holds.append {store : Nat → Option V} {vs' : List V} (h : Holds store ids vs)
    (h' : Holds store ids' vs') : Holds store (ids ++ ids') (vs ++ vs') :=
  List.rel_append h h'

/-- Both lists of variables hold the stack if they have it at the same positions. -/
theorem Holds.of_aligned {store store' : Nat → Option V} (h : Holds store ids vs)
    (h' : Holds store' ids' vs) (hsame : ∀ x, x ∉ ids' → store' x = store x)
    (haligned : ∀ i j x : Nat, ids[i]? = some x → ids'[j]? = some x → i = j) :
    Holds store' ids vs := by
  obtain ⟨hlen, hget⟩ := List.forall₂_iff_get.mp h
  obtain ⟨hlen', hget'⟩ := List.forall₂_iff_get.mp h'
  refine List.forall₂_iff_get.mpr ⟨hlen, ?_⟩
  intro i hi hv
  by_cases hmem : ids.get ⟨i, hi⟩ ∈ ids'
  · obtain ⟨j, hj⟩ := List.mem_iff_getElem?.mp hmem
    obtain rfl := haligned i j _ (List.getElem?_eq_getElem hi) hj
    obtain ⟨hlt, heq⟩ := List.getElem?_eq_some_iff.mp hj
    rw [← heq]
    exact hget' i hlt hv
  · rw [hsame _ hmem]
    exact hget i hi hv

theorem evalList_carried {store : Nat → Option V} (hroles : ∀ id ∈ ids, IsSynthetic roles id)
    (h : Holds store ids vs) (s : S) :
    evalList M roles store (ids.map fun id => (Entry.carried id).node) s = some (vs, s) := by
  induction h with
  | nil => rfl
  | cons hv _ ih =>
    rw [List.map_cons, evalList_cons_eq_some]
    refine ⟨_, s, _, ?_, ih fun id hid => hroles id (by simp [hid]), rfl⟩
    rw [Entry.node, eval_loadNode (hroles _ (by simp)), hv]
    rfl

variable {block id offset : Nat} {roots more : List Node} {store : Nat → Option V} {s s' : S}

/-- A store of a tree into a synthetic variable. -/
theorem step_storeNode (hid : IsSynthetic routine.vars.role id)
    (hv : eval M routine.vars.role store n s = some (v, s')) :
    step M routine ⟨block, storeNode id n offset :: roots, store, s⟩ =
      .next ⟨block, roots, write store id v, s'⟩ := by
  have hchildren : evalList M routine.vars.role store (storeNode id n offset).children s =
      some ([v], s') :=
    (evalList_cons_eq_some _ _ _).mpr ⟨v, s', [], hv, rfl, rfl⟩
  have hop : (storeNode id n offset).op = .stloc := rfl
  have hoperand : (storeNode id n offset).operand = .ref (.variable id) := rfl
  simp [step, hchildren, exec, hop, hoperand, synthetic?_variable hid, Op.isBranch, Op.endsBlock,
    Op.flow]

theorem write_of_ne {x : Nat} (h : x ≠ id) : write store id v x = store x := by
  simp [write, h]

/-- Trees go into fresh variables one after the other. -/
theorem run_flushStores {ns : List Node}
    (hid : ∀ x, id ≤ x → x < id + ns.length → IsSynthetic routine.vars.role x)
    (hm : ∀ n ∈ ns, ∀ x, n.Mentions x → x < id)
    (hv : evalList M routine.vars.role store ns s = some (vs, s')) :
    ∃ store', Steps (step M routine) ns.length ⟨block, flushStores id ns ++ more, store, s⟩
        ⟨block, more, store', s'⟩ ∧
      Holds store' (List.range' id ns.length) vs ∧ ∀ x < id, store' x = store x := by
  induction ns generalizing id store s vs with
  | nil =>
    cases hv
    exact ⟨store, .refl _, .nil, fun _ _ => rfl⟩
  | cons n ns ih =>
    obtain ⟨v, s1, vs', hn, hns, rfl⟩ := (evalList_cons_eq_some _ _ _).mp hv
    have hsame : ∀ x < id, write store id v x = store x :=
      fun x hx => write_of_ne (Nat.ne_of_lt hx)
    have hns' : evalList M routine.vars.role (write store id v) ns s1 = some (vs', s') := by
      rw [← hns]
      exact evalList_congr (fun n' hn' x hx => hsame x (hm n' (by simp [hn']) x hx)) s1
    obtain ⟨store', hsteps, hholds, hother⟩ := ih
      (fun x hx hx' => hid x (by omega) (by simp only [List.length_cons]; omega))
      (fun n' hn' x hx => (hm n' (by simp [hn']) x hx).trans (Nat.lt_succ_self id)) hns'
    refine ⟨store', .cons (step_storeNode (hid id (le_refl _) (by simp)) hn) hsteps, ?_, ?_⟩
    · rw [List.length_cons, List.range'_succ]
      refine .cons ?_ hholds
      rw [hother id (Nat.lt_succ_self id)]
      simp [write]
    · intro x hx
      rw [hother x (by omega), hsame x hx]

theorem eval_of_yields {e : Entry} (h : e.Yields n) (roles : Roles) :
    eval M roles store n s = eval M roles store e.node s := by
  cases h <;> rfl

/-- A store may come before another one: it writes another variable, and one that the other
does not need. -/
def Before (p q : Entry × Nat) : Prop := ¬ q.1.node.Mentions p.2 ∧ p.2 ≠ q.2

/-- Entries go into variables one after the other. -/
theorem run_moves {pairs : List (Entry × Nat)} {stores : List Node}
    (hmoves : Builder.Moves offset pairs stores)
    (hid : ∀ p ∈ pairs, IsSynthetic routine.vars.role p.2) (hbefore : pairs.Pairwise Before)
    (hv : evalList M routine.vars.role store (pairs.map fun p => p.1.node) s = some (vs, s')) :
    ∃ n store', Steps (step M routine) n ⟨block, stores ++ more, store, s⟩
        ⟨block, more, store', s'⟩ ∧
      Holds store' (pairs.map Prod.snd) vs ∧
      ∀ x, x ∉ pairs.map Prod.snd → store' x = store x := by
  induction hmoves generalizing store s vs with
  | nil =>
    cases hv
    exact ⟨0, store, .refl _, .nil, fun _ _ => rfl⟩
  | @skip x rest stores _ ih =>
    obtain ⟨hhead, hrest⟩ := List.pairwise_cons.mp hbefore
    obtain ⟨v, s1, vs', hn, hns, rfl⟩ := (evalList_cons_eq_some _ _ _).mp hv
    replace hn := (eval_loadNode (M := M) (hid (.carried x, x) (by simp)) store 0 .void s).symm.trans hn
    obtain ⟨v', hv', heq⟩ := Option.map_eq_some_iff.mp hn
    cases heq
    obtain ⟨n, store', hsteps, hholds, hother⟩ := ih (fun p hp => hid p (by simp [hp])) hrest hns
    have hnot : x ∉ rest.map Prod.snd := by
      intro hmem
      obtain ⟨q, hq, hqid⟩ := List.mem_map.mp hmem
      exact (hhead q hq).2 hqid.symm
    refine ⟨n, store', hsteps, .cons ?_ hholds, ?_⟩
    · rw [hother x hnot, hv']
    · intro y hy
      simp only [List.map_cons, List.mem_cons, not_or] at hy
      exact hother y hy.2
  | @store e n x rest stores hy _ ih =>
    obtain ⟨hhead, hrest⟩ := List.pairwise_cons.mp hbefore
    obtain ⟨v, s1, vs', hn, hns, rfl⟩ := (evalList_cons_eq_some _ _ _).mp hv
    have hnot : x ∉ rest.map Prod.snd := by
      intro hmem
      obtain ⟨q, hq, hqid⟩ := List.mem_map.mp hmem
      exact (hhead q hq).2 hqid.symm
    have hns' : evalList M routine.vars.role (write store x v) (rest.map fun p => p.1.node) s1 =
        some (vs', s') := by
      rw [← hns]
      refine evalList_congr ?_ s1
      intro n' hn' y hy
      obtain ⟨q, hq, rfl⟩ := List.mem_map.mp hn'
      refine write_of_ne ?_
      rintro rfl
      exact (hhead q hq).1 hy
    obtain ⟨k, store', hsteps, hholds, hother⟩ := ih (fun p hp => hid p (by simp [hp])) hrest hns'
    have hstep : step M routine ⟨block, storeNode x n offset :: (stores ++ more), store, s⟩ =
        .next ⟨block, stores ++ more, write store x v, s1⟩ :=
      step_storeNode (hid (e, x) (by simp)) ((eval_of_yields hy _).trans hn)
    refine ⟨k + 1, store', .cons hstep hsteps, .cons ?_ hholds, ?_⟩
    · rw [hother x hnot]
      simp [write]
    · intro y hy
      simp only [List.map_cons, List.mem_cons, not_or] at hy
      rw [hother y hy.2, write_of_ne hy.1]

end TreeMachine

end SpuCompiler.Trees
