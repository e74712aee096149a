import SpuCompiler.Proofs.Trees.Positions

/-!
Variables recorded for blocks. A recorded list stays as it is. A list recorded for a block that
has been reached already is empty, so a block is always entered with the variables that are
recorded for it in the end.
-/

namespace SpuCompiler.Trees

open Metadata Bytecode

namespace Builder

variable {b b' : Builder} {o t target : Nat} {reuse : Option (List Nat)} {bs ids : List Nat}
  {vars : Variables} {entries : List (Nat × List Nat)} {r : Record} {n : Node}

/-- Lists of `b` are lists of `b'`, and what `b'` records for blocks that `b` has reached is
empty. -/
structure Recording (b b' : Builder) : Prop where
  keep : ∀ t ids, b.entries.lookup t = some ids → b'.entries.lookup t = some ids
  late : ∀ t ids, b.entries.lookup t = none → b'.entries.lookup t = some ids → t ∈ b.visited →
    ids = []
  visited : ∀ t ∈ b.visited, t ∈ b'.visited

namespace Recording

theorem of_entries_eq (h : b'.entries = b.entries) (hv : ∀ t ∈ b.visited, t ∈ b'.visited) :
    b.Recording b' := by
  refine ⟨by simp [h], ?_, hv⟩
  intro t ids hnone hsome
  rw [h, hnone] at hsome
  cases hsome

theorem trans {b'' : Builder} (h : b.Recording b') (h' : b'.Recording b'') : b.Recording b'' := by
  refine ⟨fun t ids ht => h'.keep t ids (h.keep t ids ht), ?_, fun t ht => h'.visited t (h.visited t ht)⟩
  intro t ids hnone hsome hvis
  cases hmid : b'.entries.lookup t with
  | none => exact h'.late t ids hmid hsome (h.visited t hvis)
  | some ids' =>
    rw [h'.keep t ids' hmid] at hsome
    cases hsome
    exact h.late t ids hnone hmid hvis

end Recording

/-- Behind the choice of variables, the list is recorded, and nothing else is new. -/
theorem Enters.lookup (h : Enters b target reuse ids vars entries) :
    entries.lookup target = some ids ∧
      (∀ t, t ≠ target → entries.lookup t = b.entries.lookup t) ∧
      ∀ ids', b.entries.lookup target = some ids' → ids' = ids := by
  cases h with
  | recorded hl => exact ⟨hl, fun _ _ => rfl, by simp [hl]⟩
  | reused hl _ _ | fresh hl _ _ _ =>
    refine ⟨by simp, ?_, by simp [hl]⟩
    intro t ht
    simp [List.lookup_cons, beq_eq_false_iff_ne.mpr ht]

theorem spill_recording {stores : List Node} (h : b.spill r target reuse = .ok (stores, b')) :
    b.Recording b' ∧
      (∀ t ids, b.entries.lookup t = none → b'.entries.lookup t = some ids → t = target) ∧
      ∃ ids, b'.entries.lookup target = some ids ∧ ids.length = b.depth := by
  obtain ⟨ids, vars, vars', entries, hlen, henters, -, -, rfl⟩ := spill_ok h
  obtain ⟨hl, hother, hsame⟩ := henters.lookup
  have hnew : ∀ t ids', b.entries.lookup t = none → entries.lookup t = some ids' → t = target := by
    intro t ids' hnone hsome
    by_contra hne
    rw [hother t hne, hnone] at hsome
    cases hsome
  refine ⟨⟨?_, ?_, fun _ => id⟩, hnew, ids, hl, hlen⟩
  · intro t ids' ht
    by_cases heq : t = target
    · subst heq
      rw [hsame ids' ht]
      exact hl
    · exact (hother t heq).trans ht
  · intro t ids' hnone hsome hvis
    obtain rfl := hnew t ids' hnone hsome
    have hids : ids' = ids := Option.some.inj (hsome.symm.trans hl)
    subst hids
    -- a list that was not there before is chosen under the check against reached blocks
    have hzero : b.depth = 0 := by
      cases henters with
      | recorded hl' =>
        rw [hnone] at hl'
        cases hl'
      | reused _ hv _ | fresh _ hv _ _ =>
        exact by_contra fun hne => hv ⟨Nat.pos_of_ne_zero hne, hvis⟩
    exact List.length_eq_zero_iff.mp (hlen.trans hzero)

theorem node_entries (h : b.node r = .ok (n, b')) : b'.entries = b.entries := by
  cases he : r.op.elementAccess? with
  | none =>
    obtain ⟨o, b1, -, -, ho, -, -, -, trees, carried, vars, rfl, -⟩ := node_ok_plain he h
    rcases operand_ok ho with ⟨rfl, -⟩ | ⟨_, -, -, -, rfl⟩ <;> rfl
  | some access =>
    simp only [node, he] at h
    obtain ⟨-, -, -, -, -, -, -, -, trees, carried, vars, rfl, -⟩ := elementNode_ok h
    rfl

theorem node_recording (h : b.node r = .ok (n, b')) : b.Recording b' :=
  .of_entries_eq (node_entries h) (by simp [(node_keeps h).visited])

theorem entries_addRoots (b : Builder) (ns : List Node) : (b.addRoots ns).entries = b.entries := by
  rw [addRoots_eq]

theorem place_entries (h : b.place r n = .ok b') : b'.entries = b.entries := by
  rcases place_ok h with ⟨-, rfl⟩ | ⟨-, -, b1, hf, rfl⟩
  · rfl
  · obtain ⟨vars, rfl, -, -⟩ := flush_ok hf
    exact entries_addRoots b _

theorem place_depth (h : b.place r n = .ok b') :
    b'.depth = b.depth + if producesValue r.op n then 1 else 0 := by
  rcases place_ok h with ⟨hv, rfl⟩ | ⟨hv, -, b1, hf, rfl⟩
  · simp only [depth, List.length_cons, hv, if_true]
    omega
  · obtain ⟨vars, rfl, -, -⟩ := flush_ok hf
    simp [root, depth, hv]

/-- What a record does to depths: it stands on enough values, and the depth behind it is the one
that the builder goes on with or has recorded for the blocks that control passes to. -/
structure DepthStep (b : Builder) (r : Record) (b' : Builder) : Prop where
  pops : r.popCount b.method ≤ b.depth
  ret : r.op = .ret → b.depth - r.popCount b.method + r.pushCount = 0
  stay : r.op.isBranch = false → r.op.endsBlock = false → ¬ b.FallsInto r →
    b'.depth = b.depth - r.popCount b.method + r.pushCount
  into : r.op.endsBlock = false → r.stop < b.length → (r.op.isBranch = true ∨ b.FallsInto r) →
    ∃ ids, b'.entries.lookup r.stop = some ids ∧
      ids.length = b.depth - r.popCount b.method + r.pushCount
  branch : r.op.isBranch = true → ∃ t ids, r.target? = some t ∧
    b'.entries.lookup t = some ids ∧ ids.length = b.depth - r.popCount b.method + r.pushCount
  ends : r.op.endsBlock = true → b'.depth = 0
  recording : b.Recording b'
  keys : ∀ t ids, b.entries.lookup t = none → b'.entries.lookup t = some ids →
    (r.op.isBranch = true ∧ r.target? = some t) ∨ (r.op.endsBlock = false ∧
      r.stop < b.length ∧ (r.op.isBranch = true ∨ b.FallsInto r) ∧ t = r.stop)

theorem blockAt?_eq (b : Builder) (x : Nat) : b.blockAt? x = b.offsets.findIdx? (· == x) := by
  rw [blockAt?, offsets, List.findIdx?_map, ← List.findIdx?_toArray, Array.toArray_toList]
  rfl

theorem Keeps.fallsInto_iff (h : b.Keeps b') (r : Record) : b'.FallsInto r ↔ b.FallsInto r := by
  simp only [FallsInto, blockAt?_eq, h.length, h.offsets]

theorem pushCount_of_isBranch (h : r.op.isBranch = true) : r.pushCount = 0 := by
  unfold Record.pushCount
  cases hop : r.op <;> simp_all [Op.isBranch, Op.flow, Op.pushes]

theorem depth_onTarget (b : Builder) (target : Nat) (h : b.entries.lookup target = some ids) :
    (b.onTarget target).depth = ids.length := by
  simp [onTarget, depth, h]

theorem branch_depth (h : b.branch r n = .ok b') :
    (∃ t ids, r.target? = some t ∧ b'.entries.lookup t = some ids ∧ ids.length = b.depth) ∧
      (r.op.endsBlock = false → r.stop < b.length →
        ∃ ids, b'.entries.lookup r.stop = some ids ∧ ids.length = b.depth) ∧
      b'.depth = 0 ∧ b.Recording b' ∧
      ∀ t ids, b.entries.lookup t = none → b'.entries.lookup t = some ids →
        r.target? = some t ∨ (r.op.endsBlock = false ∧ r.stop < b.length ∧ t = r.stop) := by
  obtain ⟨target, stores, b1, more, b2, ht, hs, hm, rfl⟩ := branch_ok h
  obtain ⟨hrec1, hnew1, ids, hl, hlen⟩ := spill_recording hs
  have hlength : b1.length = b.length := (spill_keeps hs).length
  -- roots and the cleared stack do not touch what is recorded
  have hentries : (((b2.addRoots stores).addRoots more).root n).clearStack.entries = b2.entries := by
    change (((b2.addRoots stores).addRoots more).addRoots [n]).entries = b2.entries
    simp only [entries_addRoots]
  have hvisited : (((b2.addRoots stores).addRoots more).root n).clearStack.visited = b2.visited := by
    change (((b2.addRoots stores).addRoots more).addRoots [n]).visited = b2.visited
    simp only [addRoots_eq]
  have hlast : b2.Recording (((b2.addRoots stores).addRoots more).root n).clearStack :=
    .of_entries_eq hentries (by simp [hvisited])
  rcases hm with ⟨hends, hlt, hm⟩ | ⟨hno, rfl, rfl⟩
  · obtain ⟨hrec2, hnew2, ids', hl', hlen'⟩ := spill_recording hm
    replace hrec2 : b1.Recording b2 := ⟨hrec2.keep, hrec2.late, hrec2.visited⟩
    rw [depth_onTarget b1 target hl, hlen] at hlen'
    refine ⟨⟨target, ids, ht, ?_, hlen⟩, fun _ _ => ⟨ids', ?_, hlen'⟩, rfl,
      (hrec1.trans hrec2).trans hlast, ?_⟩
    · rw [hentries]
      exact hrec2.keep _ _ hl
    · rw [hentries]
      exact hl'
    · intro t ids'' hnone hsome
      rw [hentries] at hsome
      cases hmid : b1.entries.lookup t with
      | none => exact .inr ⟨hends, hlength ▸ hlt, hnew2 t ids'' hmid hsome⟩
      | some _ => exact .inl (hnew1 t _ hnone hmid ▸ ht)
  · refine ⟨⟨target, ids, ht, by rw [hentries]; exact hl, hlen⟩, ?_, rfl, hrec1.trans hlast, ?_⟩
    · intro hends hlt
      exact absurd ⟨hends, hlength ▸ hlt⟩ hno
    · intro t ids'' hnone hsome
      rw [hentries] at hsome
      exact .inl (hnew1 t _ hnone hsome ▸ ht)

theorem fallThrough_depth (h : b.fallThrough r = .ok b') :
    (b.FallsInto r → ∃ ids, b'.entries.lookup r.stop = some ids ∧ ids.length = b.depth) ∧
      (¬ b.FallsInto r → b' = b) ∧ b.Recording b' ∧
      ∀ t ids, b.entries.lookup t = none → b'.entries.lookup t = some ids →
        b.FallsInto r ∧ t = r.stop := by
  rcases fallThrough_ok h with ⟨hc, stores, b1, hs, rfl⟩ | ⟨hc, rfl⟩
  · obtain ⟨hrec, hnew, ids, hl, hlen⟩ := spill_recording hs
    have hentries := entries_addRoots b1 stores
    refine ⟨fun _ => ⟨ids, by rw [hentries]; exact hl, hlen⟩, fun hno => absurd hc hno,
      hrec.trans (.of_entries_eq hentries (by simp [addRoots_eq])), ?_⟩
    intro t ids hnone hsome
    rw [hentries] at hsome
    exact ⟨hc, hnew t ids hnone hsome⟩
  · refine ⟨fun hf => absurd hf hc, fun _ => rfl, .of_entries_eq rfl fun _ => id, ?_⟩
    intro t ids hnone hsome
    rw [hnone] at hsome
    cases hsome

/-- A branch leaves the depth in front of it to its target and to the block behind it. -/
theorem branch_depthStep {b1 : Builder} (hb : r.op.isBranch = true) (hn : b.node r = .ok (n, b1))
    (h : b1.branch r n = .ok b') : DepthStep b r b' := by
  have hdepth := node_depth hn
  have hkeeps := node_keeps hn
  have hentries := node_entries hn
  obtain ⟨⟨t, ids, ht, hl, hlen⟩, hinto, hzero, hrec, hkeys⟩ := branch_depth h
  have hpush0 := pushCount_of_isBranch hb
  have hafter : b.depth - r.popCount b.method + r.pushCount = b1.depth := by omega
  refine ⟨by omega, ?_, ?_, ?_, ?_, fun _ => hzero, (node_recording hn).trans hrec, ?_⟩
  · intro hret
    rw [hret] at hb
    simp [Op.isBranch, Op.flow] at hb
  · intro hnb
    simp [hb] at hnb
  · intro hends hlt _
    rw [hafter]
    exact hinto hends (hkeeps.length ▸ hlt)
  · intro _
    rw [hafter]
    exact ⟨t, ids, ht, hl, hlen⟩
  · intro t ids hnone hsome
    rw [← hentries] at hnone
    rcases hkeys t ids hnone hsome with ht | ⟨hends, hlt, ht⟩
    · exact .inl ⟨hb, ht⟩
    · exact .inr ⟨hends, hkeeps.length ▸ hlt, .inl hb, ht⟩

theorem step_depth (hdup : r.op ≠ .dup) (h : b.step r = .ok b') :
    DepthStep (b.enterAt r.offset) r b' := by
  obtain ⟨n, b1, hn, hrest⟩ := step_ok h
  generalize b.enterAt r.offset = c at hn
  have hdepth := node_depth hn
  have hkeeps := node_keeps hn
  have hentries := node_entries hn
  have hpush := node_produces hdup hn
  rcases hrest with ⟨hb, hbranch⟩ | ⟨hb, b2, hp, hend⟩
  · exact branch_depthStep hb hn hbranch
  · have hplace := place_depth hp
    have hpkeeps := place_keeps hp
    have hpentries := place_entries hp
    have hafter : c.depth - r.popCount c.method + r.pushCount = b2.depth := by omega
    have hplaced : c.Recording b2 :=
      (node_recording hn).trans (.of_entries_eq hpentries (by simp [hpkeeps.visited]))
    have hret : r.op = .ret → b2.depth = 0 := by
      intro hret
      rcases place_ok hp with ⟨hv, -⟩ | ⟨hv, hno, -⟩
      · simp [producesValue, hret, Op.pushes] at hv
      · have : b1.depth = 0 := by
          by_contra hne
          exact hno ⟨hret, Nat.pos_of_ne_zero hne⟩
        rw [hplace, hv, this]
        rfl
    rcases hend with ⟨hends, rfl⟩ | ⟨hends, hf⟩
    · refine ⟨by omega, fun h => hafter.trans (hret h), ?_, ?_, ?_, fun _ => rfl,
        hplaced.trans (.of_entries_eq rfl fun _ => id), ?_⟩
      · intro _ hno
        simp [hends] at hno
      · intro hno
        simp [hends] at hno
      · intro hyes
        simp [hb] at hyes
      · intro t ids hnone hsome
        rw [← hentries, ← hpentries] at hnone
        exact absurd (hnone.symm.trans hsome) (by simp)
    · obtain ⟨hinto, hstay, hrec, hkeys⟩ := fallThrough_depth hf
      have hfalls := (hkeeps.trans hpkeeps).fallsInto_iff r
      refine ⟨by omega, fun h => hafter.trans (hret h), ?_, ?_, ?_, ?_, hplaced.trans hrec, ?_⟩
      · intro _ _ hno
        rw [hstay (mt hfalls.mp hno), hafter]
      · rintro - - (hyes | hyes)
        · simp [hb] at hyes
        · rw [hafter]
          exact hinto (hfalls.mpr hyes)
      · intro hyes
        simp [hb] at hyes
      · intro hyes
        simp [hends] at hyes
      · intro t ids hnone hsome
        rw [← hentries, ← hpentries] at hnone
        obtain ⟨hyes, ht⟩ := hkeys t ids hnone hsome
        exact .inr ⟨hends, (hfalls.mp hyes).2.1, .inr (hfalls.mp hyes), ht⟩

/-- Entering a block touches the stack and the place in the code only. -/
theorem enterAt_eq (b : Builder) (o : Nat) : ∃ current visited trees carried,
    b.enterAt o = { b with
      current := current, visited := visited, trees := trees, carried := carried } := by
  unfold enterAt
  split
  · exact ⟨_, _, _, _, rfl⟩
  · split <;> exact ⟨_, _, _, _, rfl⟩

@[simp] theorem method_enterAt (b : Builder) (o : Nat) : (b.enterAt o).method = b.method := by
  obtain ⟨_, _, _, _, h⟩ := b.enterAt_eq o
  rw [h]

@[simp] theorem length_enterAt (b : Builder) (o : Nat) : (b.enterAt o).length = b.length := by
  obtain ⟨_, _, _, _, h⟩ := b.enterAt_eq o
  rw [h]

@[simp] theorem entries_enterAt (b : Builder) (o : Nat) : (b.enterAt o).entries = b.entries := by
  obtain ⟨_, _, _, _, h⟩ := b.enterAt_eq o
  rw [h]

@[simp] theorem offsets_enterAt (b : Builder) (o : Nat) : (b.enterAt o).offsets = b.offsets := by
  obtain ⟨_, _, _, _, h⟩ := b.enterAt_eq o
  rw [h]
  rfl

@[simp] theorem arguments_enterAt (b : Builder) (o : Nat) : (b.enterAt o).arguments = b.arguments := by
  obtain ⟨_, _, _, _, h⟩ := b.enterAt_eq o
  rw [h]

@[simp] theorem locals_enterAt (b : Builder) (o : Nat) : (b.enterAt o).locals = b.locals := by
  obtain ⟨_, _, _, _, h⟩ := b.enterAt_eq o
  rw [h]

@[simp] theorem blocks_enterAt (b : Builder) (o : Nat) : (b.enterAt o).blocks = b.blocks := by
  obtain ⟨_, _, _, _, h⟩ := b.enterAt_eq o
  rw [h]

theorem enterAt_recording (b : Builder) (o : Nat) : b.Recording (b.enterAt o) := by
  unfold enterAt
  split
  · exact .of_entries_eq rfl fun _ => id
  · split
    · exact .of_entries_eq rfl fun t ht => List.mem_cons_of_mem _ ht
    · exact .of_entries_eq rfl fun _ => id

theorem foldlM_recording {records : List Record} (hdup : ∀ r ∈ records, r.op ≠ .dup)
    (h : records.foldlM step b = .ok b') : b.Recording b' := by
  induction records generalizing b with
  | nil =>
    cases h
    exact .of_entries_eq rfl fun _ => id
  | cons r records ih =>
    obtain ⟨b1, hr, h⟩ := foldlM_cons_eq_ok.mp h
    have hstep := (step_depth (hdup r (by simp)) hr).recording
    exact ((enterAt_recording b r.offset).trans hstep).trans
      (ih (fun q hq => hdup q (by simp [hq])) h)

/-- A block is entered with the variables that are recorded for it in the end. -/
theorem enter_carried {f : Builder} {k : Nat} (h : (b.enter k o).Recording f) :
    (b.enter k o).carried = ((f.entries.lookup o).getD []).reverse := by
  cases hl : b.entries.lookup o with
  | some ids =>
    rw [h.keep o ids hl]
    simp [enter, hl]
  | none =>
    cases hf : f.entries.lookup o with
    | none => simp [enter, hl]
    | some ids =>
      have := h.late o ids hl hf (by simp [enter])
      simp [enter, hl, this]

/-! ## Instructions -/

/-- A second record at the same offset stays where the first one is. -/
theorem Entered.enterAt_eq (hinc : bs.Pairwise (· < ·)) (h : Entered bs o b) (hk : b.Keeps b') :
    b'.enterAt o = b' := by
  obtain ⟨x, hx, -, hmem⟩ := h.current
  have hoff : b'.offsets = bs := hk.offsets.trans h.offsets
  have hcur : b'.currentOffset = x := currentOffset_eq (by rw [hoff, hk.current, hx])
  unfold enterAt
  split
  · rfl
  · rename_i hne
    cases hb : b'.blockAt? o with
    | none => rfl
    | some k =>
      have ho : o ∈ bs := by
        rw [← hoff, ← blockAt?_isSome_iff (by rwa [hoff]), hb]
        rfl
      rw [hcur, hmem ho] at hne
      exact absurd rfl hne

theorem openAll_ne_dup {is : List Record} : ∀ q ∈ openAll t is, q.op ≠ .dup := by
  intro q hq
  rcases mem_openAll hq with ⟨-, hdup⟩ | ⟨p, -, i, hq⟩
  · exact hdup
  · simp only [Record.openDup, List.mem_cons, List.not_mem_nil, or_false] at hq
    rcases hq with rfl | rfl | rfl <;> simp

/-- What an instruction does to depths, a duplication as a whole. -/
theorem instruction_depth (hinc : bs.Pairwise (· < ·)) (hpos : Positioned bs r.offset b)
    (h : (r.opened t).foldlM step b = .ok b') :
    DepthStep (b.enterAt r.offset) r b' ∧ (b.enterAt r.offset).Keeps b' := by
  by_cases hdup : r.op = .dup
  · simp only [Record.opened, hdup, if_true, Record.openDup] at h
    obtain ⟨b1, h1, h⟩ := foldlM_cons_eq_ok.mp h
    obtain ⟨b2, h2, h⟩ := foldlM_cons_eq_ok.mp h
    obtain ⟨b3, h3, h⟩ := foldlM_cons_eq_ok.mp h
    cases h
    have hent := hpos.entered hinc
    have hk1 := step_keeps h1
    have hk2 := step_keeps h2
    have hk3 := step_keeps h3
    have hd1 := step_depth (by simp) h1
    have hd2 := step_depth (by simp) h2
    have hd3 := step_depth (by simp) h3
    simp only at hk1 hk2 hk3 hd1 hd2 hd3
    have e1 : b1.enterAt r.offset = b1 := hent.enterAt_eq hinc hk1
    rw [e1] at hk2 hd2
    have e2 : b2.enterAt r.offset = b2 := hent.enterAt_eq hinc (hk1.trans hk2)
    rw [e2] at hk3 hd3
    generalize b.enterAt r.offset = c at *
    have s1 := hd1.stay rfl rfl (by simp [FallsInto])
    have s2 := hd2.stay rfl rfl (by simp [FallsInto])
    have p1 := hd1.pops
    simp only [Record.popCount, Record.pushCount, Op.pops, Op.pushes] at s1 s2 p1
    have hfalls : b2.FallsInto ⟨.ldloc, .ref (.temporary t), r.offset, r.size, r.name⟩ ↔
        c.FallsInto r := (hk1.trans hk2).fallsInto_iff r
    refine ⟨⟨?_, ?_, ?_, ?_, ?_, ?_, (hd1.recording.trans hd2.recording).trans hd3.recording, ?_⟩,
      (hk1.trans hk2).trans hk3⟩
    · simpa [Record.popCount, hdup, Op.pops] using p1
    · simp [hdup]
    · intro _ _ hno
      have s3 := hd3.stay rfl rfl (mt hfalls.mp hno)
      simp only [Record.popCount, Record.pushCount, Op.pops, Op.pushes, hdup] at s3 ⊢
      omega
    · rintro - hlt (hyes | hyes)
      · simp [hdup, Op.isBranch, Op.flow] at hyes
      · obtain ⟨ids, hl, hlen⟩ := hd3.into rfl
          (by rw [hk2.length, hk1.length]; exact hlt) (.inr (hfalls.mpr hyes))
        refine ⟨ids, hl, ?_⟩
        simp only [Record.popCount, Record.pushCount, Op.pops, Op.pushes, hdup] at hlen ⊢
        omega
    · simp [hdup, Op.isBranch, Op.flow]
    · simp [hdup, Op.endsBlock, Op.flow]
    · intro x ids hnone hsome
      -- the two records without a size record no block
      cases hx1 : b1.entries.lookup x with
      | some _ => exact absurd (hd1.keys x _ hnone hx1) (by simp [FallsInto, Op.isBranch, Op.flow])
      | none =>
        cases hx2 : b2.entries.lookup x with
        | some _ => exact absurd (hd2.keys x _ hx1 hx2) (by simp [FallsInto, Op.isBranch, Op.flow])
        | none =>
          rcases hd3.keys x ids hx2 hsome with ⟨hyes, -⟩ | ⟨-, -, hyes | hyes, rfl⟩
          · simp [Op.isBranch, Op.flow] at hyes
          · simp [Op.isBranch, Op.flow] at hyes
          · have hyes := hfalls.mp hyes
            exact .inr ⟨by rw [hdup]; rfl, hyes.2.1, .inr hyes, rfl⟩
  · simp only [Record.opened, hdup, if_false] at h
    obtain ⟨b1, h1, h⟩ := foldlM_cons_eq_ok.mp h
    cases h
    exact ⟨step_depth hdup h1, step_keeps h1⟩

end Builder

end SpuCompiler.Trees
