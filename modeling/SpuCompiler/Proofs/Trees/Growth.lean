import SpuCompiler.Proofs.Trees.Entries

/-!
How blocks grow. A step adds trees to the end of the current block and to no other, so the trees
of a block that is left are final, and those of a block not yet entered are none.
-/

namespace SpuCompiler.Trees

open Metadata Bytecode

namespace Builder

variable {b b' : Builder} {r : Record} {n : Node} {o target : Nat} {stores : List Node}
  {bs : List Nat}

structure Adds (b b' : Builder) (new : List Node) : Prop where
  current : b'.current = b.current
  size : b'.blocks.size = b.blocks.size
  roots : b.current < b.blocks.size → ∀ k, b'.rootsAt k =
    if k = b.current then b.rootsAt k ++ new else b.rootsAt k

namespace Adds

variable {b b' b'' : Builder} {new new' : List Node}

theorem of_blocks_eq (hb : b'.blocks = b.blocks) (hc : b'.current = b.current) : b.Adds b' [] := by
  refine ⟨hc, by rw [hb], ?_⟩
  intro _ k
  simp [rootsAt, hb]

theorem addRoots (b : Builder) (ns : List Node) : b.Adds (b.addRoots ns) ns := by
  refine ⟨?_, ?_, fun hcur k => rootsAt_addRoots b ns hcur k⟩
  · rw [addRoots_eq]
  · rw [addRoots_eq]
    simp

theorem trans (h : b.Adds b' new) (h' : b'.Adds b'' new') : b.Adds b'' (new ++ new') := by
  refine ⟨h'.current.trans h.current, h'.size.trans h.size, ?_⟩
  intro hcur k
  rw [h'.roots (by rw [h.current, h.size]; exact hcur), h.roots hcur, h.current]
  split
  · rw [List.append_assoc]
  · rfl

end Adds

theorem Restacks.adds (h : b.Restacks b') : b.Adds b' [] := by
  obtain ⟨trees, carried, vars, rfl, -⟩ := h
  exact .of_blocks_eq rfl rfl

theorem node_adds (h : b.node r = .ok (n, b')) : b.Adds b' [] := by
  cases he : r.op.elementAccess? with
  | none =>
    obtain ⟨o, b1, -, -, ho, -, -, -, hr⟩ := node_ok_plain he h
    have hop : b.Adds b1 [] := by
      rcases operand_ok ho with ⟨rfl, -⟩ | ⟨_, -, -, -, rfl⟩ <;> exact .of_blocks_eq rfl rfl
    exact hop.trans hr.adds
  | some access =>
    simp only [node, he] at h
    obtain ⟨-, -, -, -, -, -, -, -, hr⟩ := elementNode_ok h
    exact hr.adds

theorem spill_adds {reuse : Option (List Nat)} (h : b.spill r target reuse = .ok (stores, b')) :
    b.Adds b' [] := by
  obtain ⟨_, _, _, _, -, -, -, -, rfl⟩ := spill_ok h
  exact .of_blocks_eq rfl rfl

theorem flush_adds (h : b.flush = .ok b') :
    b.Adds b' (flushStores b.vars.size b.trees.reverse) := by
  obtain ⟨vars, rfl, -, -⟩ := flush_ok h
  have hadd := Adds.addRoots b (flushStores b.vars.size b.trees.reverse)
  exact ⟨hadd.current, hadd.size, hadd.roots⟩

theorem place_adds (h : b.place r n = .ok b') : ∃ new, b.Adds b' new := by
  rcases place_ok h with ⟨-, rfl⟩ | ⟨-, -, b1, hf, rfl⟩
  · exact ⟨[], .of_blocks_eq rfl rfl⟩
  · exact ⟨_, (flush_adds hf).trans (.addRoots b1 [n])⟩

theorem fallThrough_adds (h : b.fallThrough r = .ok b') : ∃ new, b.Adds b' new := by
  rcases fallThrough_ok h with ⟨-, stores, b1, hs, rfl⟩ | ⟨-, rfl⟩
  · exact ⟨_, (spill_adds hs).trans (.addRoots b1 stores)⟩
  · exact ⟨[], .of_blocks_eq rfl rfl⟩

/-- A branch adds the stores of both spills and itself. -/
theorem branch_adds {b1 b2 : Builder} {more : List Node}
    (hs : b.spill r target none = .ok (stores, b1))
    (hm : (∃ reuse, (b1.onTarget target).spill r r.stop reuse = .ok (more, b2)) ∨ b2 = b1)
    (n : Node) :
    b.Adds (((b2.addRoots stores).addRoots more).root n).clearStack (stores ++ more ++ [n]) := by
  have h12 : b1.Adds b2 [] := by
    rcases hm with ⟨reuse, hm⟩ | rfl
    · have := spill_adds hm
      exact ⟨this.current, this.size, this.roots⟩
    · exact .of_blocks_eq rfl rfl
  have hroots := ((Adds.addRoots b2 stores).trans (.addRoots _ more)).trans (.addRoots _ [n])
  have hall := ((spill_adds hs).trans h12).trans hroots
  exact ⟨hall.current, hall.size, hall.roots⟩

theorem step_adds (h : b.step r = .ok b') : ∃ new, (b.enterAt r.offset).Adds b' new := by
  obtain ⟨n, b1, hn, hrest⟩ := step_ok h
  have h1 := node_adds hn
  rcases hrest with ⟨-, hb⟩ | ⟨-, b2, hp, hend⟩
  · obtain ⟨target, stores, b2, more, b3, -, hs, hm, rfl⟩ := branch_ok hb
    refine ⟨_, h1.trans (branch_adds hs ?_ n)⟩
    rcases hm with ⟨-, -, hm⟩ | ⟨-, -, rfl⟩
    · exact .inl ⟨_, hm⟩
    · exact .inr rfl
  · obtain ⟨new, h2⟩ := place_adds hp
    rcases hend with ⟨-, rfl⟩ | ⟨-, hf⟩
    · exact ⟨_, (h1.trans h2).trans (.of_blocks_eq rfl rfl)⟩
    · obtain ⟨new', h3⟩ := fallThrough_adds hf
      exact ⟨_, (h1.trans h2).trans h3⟩

/-! ## Runs of steps -/

/-- Blocks that are left are final, and all blocks only gain trees at their ends. -/
structure Grows (b f : Builder) : Prop where
  roots : ∀ k, ∃ more, f.rootsAt k = b.rootsAt k ++ more
  final : ∀ k < b.current, f.rootsAt k = b.rootsAt k
  current_le : b.current ≤ f.current

namespace Grows

variable {b b' f : Builder}

theorem refl (b : Builder) : b.Grows b := ⟨fun _ => ⟨[], by simp⟩, fun _ _ => rfl, le_refl _⟩

theorem trans (h : b.Grows b') (h' : b'.Grows f) : b.Grows f := by
  refine ⟨?_, ?_, h.current_le.trans h'.current_le⟩
  · intro k
    obtain ⟨more, hk⟩ := h.roots k
    obtain ⟨more', hk'⟩ := h'.roots k
    exact ⟨more ++ more', by rw [hk', hk, List.append_assoc]⟩
  · intro k hk
    rw [h'.final k (lt_of_lt_of_le hk h.current_le), h.final k hk]

theorem of_adds {new : List Node} (h : b.Adds b' new) (hcur : b.current < b.blocks.size) :
    b.Grows b' := by
  refine ⟨?_, ?_, le_of_eq h.current.symm⟩
  · intro k
    rw [h.roots hcur]
    split
    · exact ⟨new, rfl⟩
    · exact ⟨[], by simp⟩
  · intro k hk
    rw [h.roots hcur, if_neg (by omega)]

end Grows

theorem current_lt_of_offsets {x : Nat} (hoff : b.offsets = bs) (hx : bs[b.current]? = some x) :
    b.current < b.blocks.size := by
  have hlt := (List.getElem?_eq_some_iff.mp hx).1
  rw [← hoff] at hlt
  simpa [offsets] using hlt

theorem Entered.current_lt (h : Entered bs o b) : b.current < b.blocks.size := by
  obtain ⟨x, hx, -⟩ := h.current
  exact current_lt_of_offsets h.offsets hx

/-- Entering the block of the next record goes one block on, or none. -/
theorem Positioned.enterAt_grows (hinc : bs.Pairwise (· < ·)) (h : Positioned bs o b) :
    b.Grows (b.enterAt o) := by
  have hroots : ∀ k, (b.enterAt o).rootsAt k = b.rootsAt k := by
    intro k
    simp [rootsAt]
  refine ⟨fun k => ⟨[], by simp [hroots]⟩, fun k _ => hroots k, ?_⟩
  rcases h.enterAt_cases hinc with ⟨heq, -⟩ | ⟨-, heq⟩
  · rw [heq]
  · rw [heq]
    exact Nat.le_succ _

/-- Blocks that are not yet entered have no trees. -/
def Ahead (b : Builder) : Prop := ∀ k, b.current < k → b.rootsAt k = []

theorem rootsAt_start (m : Method) (body : Body) (bs : List Nat) (k : Nat) :
    (start m body bs).rootsAt k = [] := by
  simp only [rootsAt, start, List.getElem?_toArray, List.getElem?_map, Option.map_map]
  cases bs[k]? <;> rfl

theorem start_ahead (m : Method) (body : Body) (bs : List Nat) : (start m body bs).Ahead :=
  fun k _ => rootsAt_start m body bs k

theorem step_grows (hinc : bs.Pairwise (· < ·)) (hpos : Positioned bs r.offset b)
    (h : b.step r = .ok b') : b.Grows b' ∧ (b.Ahead → b'.Ahead) := by
  obtain ⟨new, hadds⟩ := step_adds h
  have hcur := (hpos.entered hinc).current_lt
  have henter := hpos.enterAt_grows hinc
  refine ⟨henter.trans (.of_adds hadds hcur), ?_⟩
  intro hahead k hk
  rw [hadds.current] at hk
  rw [hadds.roots hcur, if_neg (by omega)]
  have hsame : (b.enterAt r.offset).rootsAt k = b.rootsAt k := by simp [rootsAt]
  rw [hsame]
  exact hahead k (lt_of_le_of_lt henter.current_le hk)

end Builder

end SpuCompiler.Trees
