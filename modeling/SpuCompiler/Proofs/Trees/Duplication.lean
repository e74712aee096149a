import SpuCompiler.Proofs.Trees.Realization

/-!
The temporaries of duplications. A duplication stores into a temporary and loads it twice; so a
load of a temporary comes right behind a record of the same duplication, and temporaries get
their variables in the order of their numbers.
-/

namespace SpuCompiler.Trees

open Metadata Bytecode Builder StackMachine

variable {is pre post : List Record} {i t : Nat} {q r : Record} {s : Scope} {b b' : Builder}
  {n : Node}

/-! ## Records -/

theorem head_openAll (hno : ∀ r ∈ is, temporary? r = none) (h : openAll t is = q :: post)
    (hq : q.op = .ldloc) : temporary? q = none := by
  cases is with
  | nil => cases h
  | cons r is =>
    rw [openAll] at h
    unfold Record.opened at h
    split at h
    · rw [Record.openDup, List.cons_append] at h
      cases h
      cases hq
    · cases h
      exact hno q (by simp)

/-- A load of a temporary belongs to the record before it. -/
theorem load_openAll (hno : ∀ r ∈ is, temporary? r = none)
    (h : openAll t is = pre ++ r :: q :: post) (hq : q.op = .ldloc) (hi : temporary? q = some i) :
    temporary? r = some i ∧ r.size = 0 ∧ r.offset = q.offset := by
  induction is generalizing t pre with
  | nil => simp [openAll] at h
  | cons p is ih =>
    have hno' : ∀ r ∈ is, temporary? r = none := fun r hr => hno r (by simp [hr])
    have hhead : ∀ t post, openAll t is ≠ q :: post := by
      intro t post hpost
      rw [head_openAll hno' hpost hq] at hi
      cases hi
    rw [openAll] at h
    unfold Record.opened at h
    split at h
    · simp only [Record.openDup, List.cons_append, List.nil_append] at h
      rcases pre with _ | ⟨p1, _ | ⟨p2, _ | ⟨p3, pre⟩⟩⟩
      · cases h
        exact ⟨hi, rfl, rfl⟩
      · cases h
        exact ⟨hi, rfl, rfl⟩
      · simp only [List.cons_append, List.nil_append, List.cons.injEq] at h
        exact absurd h.2.2.2 (hhead _ _)
      · simp only [List.cons_append, List.cons.injEq] at h
        exact ih hno' h.2.2.2
    · rcases pre with _ | ⟨p1, pre⟩
      · simp only [List.cons_append, List.nil_append, List.cons.injEq] at h
        exact absurd h.2 (hhead _ _)
      · simp only [List.cons_append, List.nil_append, List.cons.injEq] at h
        exact ih hno' h.2

theorem mem_of_mem_openAll (hr : r ∈ openAll t is) (h : temporary? r = none) : r ∈ is := by
  rcases mem_openAll hr with ⟨hr, -⟩ | ⟨p, -, i, hr⟩
  · exact hr
  · simp only [Record.openDup, List.mem_cons, List.not_mem_nil, or_false] at hr
    rcases hr with rfl | rfl | rfl <;> simp [temporary?] at h

theorem temporary?_of_accepts (h : s.Accepts r) : temporary? r = none := by
  unfold temporary?
  split
  · rename_i i hi
    exact absurd hi (h.no_temporary i)
  · rfl

/-- Records of decoded instructions are decoded. -/
theorem decoded_openAll (h : ∀ r ∈ is, s.Accepts r) :
    ∀ r ∈ openAll t is, Decoded s.arguments s.locals r := by
  intro r hr
  rcases mem_openAll hr with ⟨hr, hdup⟩ | ⟨p, -, i, hr⟩
  · have hacc := h r hr
    refine ⟨?_, hdup, ⟨?_, ?_⟩, ?_, hacc.element_type⟩
    · unfold InScope
      split
      · rename_i i hi
        exact hacc.argument_lt hi
      · rename_i i hi
        exact hacc.local_lt hi
      · trivial
    · intro hb
      obtain ⟨t, -, ht⟩ := hacc.exists_target hb
      exact ⟨t, ht⟩
    · rintro ⟨t, ht⟩
      exact hacc.isBranch_of_target ht
    · intro i hi
      rw [temporary?_of_accepts hacc] at hi
      cases hi
  · simp only [Record.openDup, List.mem_cons, List.not_mem_nil, or_false] at hr
    rcases hr with rfl | rfl | rfl <;>
      exact ⟨trivial, by simp, by simp [Op.isBranch, Op.flow, Record.target?], by simp, by simp⟩

/-! ## Variables of temporaries -/

theorem temporaries_addRoots (b : Builder) (ns : List Node) :
    (b.addRoots ns).temporaries = b.temporaries := by
  rw [addRoots_eq]

theorem place_temporaries (h : b.place r n = .ok b') : b'.temporaries = b.temporaries := by
  rcases place_ok h with ⟨-, rfl⟩ | ⟨-, -, b1, hf, rfl⟩
  · rfl
  · obtain ⟨vars, rfl, -, -⟩ := flush_ok hf
    exact temporaries_addRoots b _

theorem spill_temporaries {target : Nat} {reuse : Option (List Nat)} {stores : List Node}
    (h : b.spill r target reuse = .ok (stores, b')) : b'.temporaries = b.temporaries := by
  obtain ⟨_, _, _, _, -, -, -, -, rfl⟩ := spill_ok h
  rfl

theorem fallThrough_temporaries (h : b.fallThrough r = .ok b') :
    b'.temporaries = b.temporaries := by
  rcases fallThrough_ok h with ⟨-, stores, b1, hs, rfl⟩ | ⟨-, rfl⟩
  · rw [temporaries_addRoots, spill_temporaries hs]
  · rfl

theorem branch_temporaries (h : b.branch r n = .ok b') : b'.temporaries = b.temporaries := by
  obtain ⟨target, stores, b1, more, b2, -, hs, hm, rfl⟩ := branch_ok h
  have h2 : b2.temporaries = b1.temporaries := by
    rcases hm with ⟨-, -, hm⟩ | ⟨-, -, rfl⟩
    · have := spill_temporaries hm
      exact this
    · rfl
  change (((b2.addRoots stores).addRoots more).addRoots [n]).temporaries = b.temporaries
  simp only [temporaries_addRoots, h2, spill_temporaries hs]

/-- A step adds a variable only for the next temporary. -/
theorem step_temporaries (h : b.step r = .ok b') :
    ∃ n b1, (b.enterAt r.offset).node r = .ok (n, b1) ∧ b'.temporaries = b1.temporaries := by
  obtain ⟨n, b1, hn, hrest⟩ := step_ok h
  refine ⟨n, b1, hn, ?_⟩
  rcases hrest with ⟨-, hb⟩ | ⟨-, b2, hp, hend⟩
  · exact branch_temporaries hb
  · rcases hend with ⟨-, rfl⟩ | ⟨-, hf⟩
    · have := place_temporaries hp
      exact this
    · exact (fallThrough_temporaries hf).trans (place_temporaries hp)

theorem node_temporaries_plain (hr : temporary? r = none) (h : b.node r = .ok (n, b')) :
    b'.temporaries = b.temporaries := by
  cases he : r.op.elementAccess? with
  | none =>
    obtain ⟨o, b1, -, -, ho, -, -, -, _, _, _, rfl, -⟩ := node_ok_plain he h
    rcases operand_ok ho with ⟨rfl, -⟩ | ⟨i, hi, -, -, rfl⟩
    · rfl
    · simp [temporary?, hi] at hr
  | some access =>
    simp only [node, he] at h
    obtain ⟨-, -, -, -, -, -, -, -, _, _, _, rfl, -⟩ := elementNode_ok h
    rfl

theorem node_temporaries_next (he : r.op.elementAccess? = none) (hr : temporary? r = some i)
    (hi : i ≤ b.temporaries.size) (h : b.node r = .ok (n, b')) :
    b'.temporaries.size = max b.temporaries.size (i + 1) := by
  obtain ⟨o, b1, -, -, ho, -, -, -, _, _, _, rfl, -⟩ := node_ok_plain he h
  have hop : r.operand = .ref (.temporary i) := by
    unfold temporary? at hr
    split at hr
    · rename_i hop
      cases hr
      exact hop
    · cases hr
  rcases operand_ok ho with ⟨rfl, href⟩ | ⟨j, hj, hle, -, rfl⟩
  · rw [hop] at href
    obtain ⟨id, hid, -⟩ := href
    have := (Array.getElem?_eq_some_iff.mp hid).1
    change b1.temporaries.size = _
    omega
  · rw [hop] at hj
    cases hj
    simp only [addTemporary, Array.size_push]
    omega

theorem temporaries_enterAt (b : Builder) (o : Nat) : (b.enterAt o).temporaries = b.temporaries := by
  obtain ⟨_, _, _, _, h⟩ := b.enterAt_eq o
  rw [h]

theorem step_temporaries_plain (hr : temporary? r = none) (h : b.step r = .ok b') :
    b'.temporaries = b.temporaries := by
  obtain ⟨n, b1, hn, heq⟩ := step_temporaries h
  rw [heq, node_temporaries_plain hr hn, temporaries_enterAt]

theorem step_temporaries_next (he : r.op.elementAccess? = none) (hr : temporary? r = some i)
    (hi : i ≤ b.temporaries.size) (h : b.step r = .ok b') :
    b'.temporaries.size = max b.temporaries.size (i + 1) := by
  obtain ⟨n, b1, hn, heq⟩ := step_temporaries h
  rw [heq, node_temporaries_next he hr (by rw [temporaries_enterAt]; exact hi) hn,
    temporaries_enterAt]

/-- Temporaries are numbered in the order of their first use. -/
theorem temporary_le_size (hno : ∀ r ∈ is, temporary? r = none) (hb : b.temporaries.size = t)
    (hsplit : openAll t is = pre ++ r :: post) (h : pre.foldlM step b = .ok b')
    (hi : temporary? r = some i) : i ≤ b'.temporaries.size := by
  induction is generalizing t pre b with
  | nil => simp [openAll] at hsplit
  | cons p is ih =>
    have hno' : ∀ r ∈ is, temporary? r = none := fun r hr => hno r (by simp [hr])
    rw [openAll] at hsplit
    unfold Record.opened Record.nextTemporary at hsplit
    split at hsplit
    · simp only [Record.openDup, List.cons_append, List.nil_append] at hsplit
      cases pre with
      | nil =>
        cases hsplit
        cases h
        cases hi
        omega
      | cons p1 pre =>
        simp only [List.cons_append, List.cons.injEq] at hsplit
        obtain ⟨rfl, hsplit⟩ := hsplit
        obtain ⟨b1, h1, h'⟩ := foldlM_cons_eq_ok.mp h
        have s1 := step_temporaries_next rfl rfl (by omega) h1
        cases pre with
        | nil =>
          cases hsplit
          cases h'
          cases hi
          omega
        | cons p2 pre =>
          simp only [List.cons_append, List.cons.injEq] at hsplit
          obtain ⟨rfl, hsplit⟩ := hsplit
          obtain ⟨b2, h2, h''⟩ := foldlM_cons_eq_ok.mp h'
          have s2 := step_temporaries_next rfl rfl (by omega) h2
          cases pre with
          | nil =>
            cases hsplit
            cases h''
            cases hi
            omega
          | cons p3 pre =>
            simp only [List.cons_append, List.cons.injEq] at hsplit
            obtain ⟨rfl, hsplit⟩ := hsplit
            obtain ⟨b3, h3, hrest⟩ := foldlM_cons_eq_ok.mp h''
            have s3 := step_temporaries_next rfl rfl (by omega) h3
            exact ih hno' (by omega) hsplit hrest
    · cases pre with
      | nil =>
        cases hsplit
        rw [hno r (by simp)] at hi
        cases hi
      | cons p1 pre =>
        simp only [List.cons_append, List.nil_append, List.cons.injEq] at hsplit
        obtain ⟨rfl, hsplit⟩ := hsplit
        obtain ⟨b1, h1, hrest⟩ := foldlM_cons_eq_ok.mp h
        have hsame := step_temporaries_plain (hno p (by simp)) h1
        exact ih hno' (by rw [hsame, hb]) hsplit hrest

end SpuCompiler.Trees
