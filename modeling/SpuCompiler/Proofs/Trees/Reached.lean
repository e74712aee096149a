import SpuCompiler.Proofs.Trees.Safety

/-!
The builder between instructions. A duplication is three records, so the records of a body are
not its instructions; boundaries, positions and depths are stated for instructions here, and a
successful build passes through each of them.
-/

namespace SpuCompiler.Trees

open Metadata Bytecode

theorem boundaries_openAll_iff {is : List Record} {t length : Nat} {bs : List Nat} :
    Boundaries (openAll t is) length bs ↔ Boundaries is length bs := by
  have hmarks : ∀ x, (∃ r ∈ openAll t is, Marks length r x) ↔ ∃ r ∈ is, Marks length r x := by
    intro x
    refine exists_congr fun r => and_congr_left fun hr => ?_
    exact mem_openAll_iff_of_isBranch hr.1
  constructor
  · intro h
    refine ⟨h.increasing, fun x => (h.mem_iff x).trans (or_congr_right (hmarks x)), ?_⟩
    intro r hr x hx hb
    exact exists_offset_openAll_iff.mp
      (h.targets r ((mem_openAll_iff_of_isBranch hb).mpr hr) x hx hb)
  · intro h
    refine ⟨h.increasing, fun x => (h.mem_iff x).trans (or_congr_right (hmarks x).symm), ?_⟩
    intro r hr x hx hb
    exact exists_offset_openAll_iff.mpr
      (h.targets r ((mem_openAll_iff_of_isBranch hb).mp hr) x hx hb)

/-! ## The builder between instructions -/

structure Code (body : Body) (is : List Record) (bs : List Nat) : Prop where
  tiles : Tiles 0 body.instructions.length is
  size_pos : ∀ r ∈ is, 0 < r.size
  target : ∀ r ∈ is, r.op.isBranch = true ↔ ∃ t, r.target? = some t
  boundaries : Boundaries is body.instructions.length bs

theorem Code.of_decodes {m : Method} {body : Body} {resolver : Resolver} {is : List Record}
    {bs : List Nat} (h : (Scope.of m body resolver).Decodes 0 body.instructions is)
    (hbs : Boundaries is body.instructions.length bs) : Code body is bs := by
  refine ⟨by simpa using h.tiles, fun r hr => (h.accepts r hr).size_pos, ?_, hbs⟩
  intro r hr
  constructor
  · intro hb
    obtain ⟨t, -, ht⟩ := (h.accepts r hr).exists_target hb
    exact ⟨t, ht⟩
  · rintro ⟨t, ht⟩
    exact (h.accepts r hr).isBranch_of_target ht

def Reached (m : Method) (body : Body) (bs : List Nat) (pre : List Record) (b : Builder) : Prop :=
  (openAll 0 pre).foldlM Builder.step (Builder.start m body bs) = .ok b

section Reached

variable {m : Method} {body : Body} {is pre post : List Record} {bs : List Nat} {b f : Builder}
  {r : Record}

theorem reached_snoc_iff : Reached m body bs (pre ++ [r]) f ↔
    ∃ b, Reached m body bs pre b ∧
      (r.opened (nextTemporaryAll 0 pre)).foldlM Builder.step b = .ok f := by
  unfold Reached
  rw [openAll_append, foldlM_append_eq_ok]
  simp [openAll]

theorem Reached.of_append (h : Reached m body bs (pre ++ post) f) :
    ∃ b, Reached m body bs pre b ∧ b.Recording f := by
  unfold Reached at h
  rw [openAll_append] at h
  obtain ⟨b, hb, hf⟩ := foldlM_append_eq_ok.mp h
  exact ⟨b, hb, Builder.foldlM_recording Builder.openAll_ne_dup hf⟩

theorem Code.stop_pos (hcode : Code body is bs) (hr : r ∈ is) : 0 < r.stop := by
  have := hcode.size_pos r hr
  unfold Record.stop
  omega

theorem Code.stop_lt (hcode : Code body is bs) {q : Record} (hq : q ∈ is) (hqr : q.offset = r.stop) :
    r.stop < body.instructions.length := by
  have := (hcode.tiles.bounds hq).2
  have := hcode.size_pos q hq
  unfold Record.stop at *
  omega

theorem Code.target_mem (hcode : Code body is bs) (hr : r ∈ is) {t : Nat}
    (ht : r.target? = some t) : t ∈ bs :=
  (hcode.boundaries.mem_iff t).mpr
    (.inr ⟨r, hr, (hcode.target r hr).mpr ⟨t, ht⟩, t, ht, .inl rfl⟩)

theorem Code.stop_mem (hcode : Code body is bs) (hr : r ∈ is) (hb : r.op.isBranch = true)
    (hlt : r.stop < body.instructions.length) : r.stop ∈ bs := by
  obtain ⟨t, ht⟩ := (hcode.target r hr).mp hb
  exact (hcode.boundaries.mem_iff _).mpr (.inr ⟨r, hr, hb, t, ht, .inr ⟨rfl, hlt⟩⟩)

/-- Between instructions: the builder stands at the next instruction, and that is not where the
current block starts. -/
structure Stands (m : Method) (body : Body) (bs : List Nat) (o : Nat) (b : Builder) : Prop where
  positioned : Builder.Positioned bs o b
  method : b.method = m
  length : b.length = body.instructions.length
  behind : 0 < o → ∃ x, bs[b.current]? = some x ∧ x < o

/-- The next instruction stays in the block unless it starts one. -/
theorem Stands.enterAt_cases (hcode : Code body is bs) {o : Nat} (h : Stands m body bs o b)
    (hpos : 0 < o) :
    (o ∉ bs ∧ b.enterAt o = b) ∨ (o ∈ bs ∧ ∃ k, b.enterAt o = b.enter k o) := by
  rcases h.positioned.enterAt_cases hcode.boundaries.increasing with ⟨heq, hno | ho⟩ | ⟨hk, heq⟩
  · exact .inl ⟨hno, heq⟩
  · obtain ⟨x, hx, hlt⟩ := h.behind hpos
    rw [hx] at ho
    cases ho
    omega
  · exact .inr ⟨List.mem_of_getElem? hk, _, heq⟩

theorem Stands.blockAt?_isSome_iff (hcode : Code body is bs) {o x : Nat}
    (h : Stands m body bs o b) : ((b.enterAt o).blockAt? x).isSome = true ↔ x ∈ bs := by
  have hoff : (b.enterAt o).offsets = bs := by
    rw [Builder.offsets_enterAt, h.positioned.offsets]
  rw [Builder.blockAt?_isSome_iff (by rw [hoff]; exact hcode.boundaries.increasing), hoff]

theorem Stands.length_enterAt {o : Nat} (h : Stands m body bs o b) :
    (b.enterAt o).length = body.instructions.length := by
  rw [Builder.length_enterAt, h.length]

/-- An instruction passes into the block that starts behind it. -/
theorem Stands.fallsInto_iff (hcode : Code body is bs) (hr : r ∈ is)
    (h : Stands m body bs r.offset b) (hlt : r.stop < body.instructions.length) :
    (b.enterAt r.offset).FallsInto r ↔ r.stop ∈ bs := by
  simp only [Builder.FallsInto, hcode.size_pos r hr, h.length_enterAt, hlt, true_and]
  exact h.blockAt?_isSome_iff hcode

theorem Stands.opened (hcode : Code body is bs) (hr : r ∈ is) {t : Nat}
    (h : Stands m body bs r.offset b) (hs : (r.opened t).foldlM Builder.step b = .ok f) :
    Builder.DepthStep (b.enterAt r.offset) r f ∧ (b.enterAt r.offset).Keeps f ∧
      Stands m body bs r.stop f := by
  obtain ⟨hstep, hkeeps⟩ :=
    Builder.instruction_depth hcode.boundaries.increasing h.positioned hs
  have hent := h.positioned.entered hcode.boundaries.increasing
  obtain ⟨x, hx, hle, -⟩ := hent.current
  have hpos := hcode.size_pos r hr
  refine ⟨hstep, hkeeps, ?_, ?_, ?_, ?_⟩
  · exact hent.positioned hcode.boundaries hcode.tiles hr hkeeps.offsets hkeeps.current
  · rw [hkeeps.method, Builder.method_enterAt, h.method]
  · rw [hkeeps.length, Builder.length_enterAt, h.length]
  · intro _
    refine ⟨x, by rw [hkeeps.current, hx], ?_⟩
    unfold Record.stop
    omega

theorem Reached.stands (hcode : Code body is bs) (hsplit : is = pre ++ post)
    (h : Reached m body bs pre b) :
    ∃ o, Tiles o body.instructions.length post ∧ Stands m body bs o b ∧ (pre = [] ∨ 0 < o) := by
  induction pre using List.reverseRecOn generalizing post b with
  | nil =>
    cases h
    rw [List.nil_append] at hsplit
    refine ⟨0, hsplit ▸ hcode.tiles, ⟨?_, rfl, rfl, ?_⟩, .inl rfl⟩
    · exact Builder.start_positioned m body hcode.boundaries.head
    · omega
  | append_singleton pre r ih =>
    obtain ⟨b1, hb1, hr⟩ := reached_snoc_iff.mp h
    have hmem : r ∈ is := by simp [hsplit]
    obtain ⟨o, ⟨rfl, htiles⟩, hstands, -⟩ := ih (show is = pre ++ r :: post by simp [hsplit]) hb1
    exact ⟨r.stop, htiles, (hstands.opened hcode hmem hr).2.2, .inr (hcode.stop_pos hmem)⟩

/-- What is recorded was recorded for a branch target or for what an instruction falls into. -/
theorem Reached.keys (hcode : Code body is bs) (hsplit : is = pre ++ post)
    (h : Reached m body bs pre b) {t : Nat} {ids : List Nat}
    (hl : b.entries.lookup t = some ids) :
    ∃ p ∈ pre, (p.op.isBranch = true ∧ p.target? = some t) ∨
      (p.op.endsBlock = false ∧ t = p.stop) := by
  induction pre using List.reverseRecOn generalizing post b ids with
  | nil =>
    cases h
    simp [Builder.start] at hl
  | append_singleton pre r ih =>
    have hsplit' : is = pre ++ r :: post := by simp [hsplit]
    obtain ⟨b1, hb1, hr⟩ := reached_snoc_iff.mp h
    obtain ⟨o, ⟨rfl, -⟩, hstands, -⟩ := hb1.stands hcode hsplit'
    have hstep := (hstands.opened hcode (by simp [hsplit]) hr).1
    cases hl1 : b1.entries.lookup t with
    | some ids1 =>
      obtain ⟨p, hp, hcase⟩ := ih hsplit' hb1 hl1
      exact ⟨p, by simp [hp], hcase⟩
    | none =>
      refine ⟨r, by simp, ?_⟩
      rcases hstep.keys t ids (by simpa using hl1) hl with hcase | ⟨hends, -, -, rfl⟩
      · exact .inl hcase
      · exact .inr ⟨hends, rfl⟩

/-- A whole run passes through each of its instructions. -/
structure Passes (m : Method) (body : Body) (bs : List Nat) (pre : List Record) (r : Record)
    (b b' f : Builder) : Prop where
  reached : Reached m body bs pre b
  stands : Stands m body bs r.offset b
  first : pre = [] ∨ 0 < r.offset
  step : Builder.DepthStep (b.enterAt r.offset) r b'
  next : Reached m body bs (pre ++ [r]) b'
  stands_next : Stands m body bs r.stop b'
  rest : b'.Recording f

theorem Reached.passes (hcode : Code body is bs) (hsplit : is = pre ++ r :: post)
    (h : Reached m body bs is f) : ∃ b b', Passes m body bs pre r b b' f := by
  have hsplit' : is = (pre ++ [r]) ++ post := by simp [hsplit]
  rw [hsplit'] at h
  obtain ⟨b', hb', hrest⟩ := h.of_append
  obtain ⟨b, hb, hr⟩ := reached_snoc_iff.mp hb'
  obtain ⟨o, ⟨rfl, -⟩, hstands, hfirst⟩ := hb.stands hcode hsplit
  obtain ⟨hstep, -, hnext⟩ := hstands.opened hcode (by simp [hsplit]) hr
  exact ⟨b, b', hb, hstands, hfirst, hstep, hb', hnext, hrest⟩

theorem start_enterAt (hcode : Code body is bs) :
    (Builder.start m body bs).enterAt 0 = Builder.start m body bs := by
  have hpos := Builder.start_positioned m body hcode.boundaries.head
  have hcur : (Builder.start m body bs).currentOffset = 0 :=
    Builder.currentOffset_eq (by rw [hpos.offsets]; exact hcode.boundaries.head)
  rw [Builder.enterAt, if_pos hcur.symm]

/-- The stack at the start of a block is the one recorded for it in the end. -/
theorem Passes.depth_block (hcode : Code body is bs) {b' : Builder}
    (h : Passes m body bs pre r b b' f) (hmem : r.offset ∈ bs) :
    (b.enterAt r.offset).depth = ((f.entries.lookup r.offset).getD []).length := by
  have hrec : (b.enterAt r.offset).Recording f := h.step.recording.trans h.rest
  rcases Nat.eq_zero_or_pos r.offset with hzero | hpos
  · -- only the first block is entered before its first instruction
    have hnil : pre = [] := h.first.resolve_right (by omega)
    have hb := h.reached
    subst hnil
    cases hb
    rw [hzero, start_enterAt hcode] at hrec ⊢
    cases hl : f.entries.lookup 0 with
    | none => rfl
    | some ids =>
      have := hrec.late 0 ids rfl hl (by simp [Builder.start])
      rw [this]
      rfl
  · obtain ⟨k, heq⟩ := ((h.stands.enterAt_cases hcode hpos).resolve_left (by simp [hmem])).2
    rw [heq] at hrec ⊢
    have hcarried := Builder.enter_carried hrec
    simp only [Builder.depth, hcarried, List.length_reverse]
    exact Nat.zero_add _

/-- What a successful build has read and made. -/
theorem build_ok {resolver : Resolver} {routine : Routine}
    (h : build m body resolver = .ok routine) :
    ∃ is bs f, (Scope.of m body resolver).Decodes 0 body.instructions is ∧
      Boundaries is body.instructions.length bs ∧ Reached m body bs is f ∧ routine = f.finish := by
  obtain ⟨records, bs, f, hread, hbs, hf, rfl⟩ := build_eq_ok h
  obtain ⟨is, hdec, -, rfl⟩ := (Reader.readAll_eq_ok_iff m body resolver records).mp
    (mapError_eq_ok.mp hread)
  exact ⟨is, bs, f, hdec, boundaries_openAll_iff.mp (boundariesOf_ok hbs), hf, rfl⟩

end Reached

end SpuCompiler.Trees
