import SpuCompiler.Proofs.Trees.Reached

/-!
The stack discipline that the builder accepts. A discipline gives every instruction the depth of
the stack before it, the same on every way to it; an instruction that only later code may branch
to starts with an empty stack. The depths that the builder works with are a discipline, and under
a discipline the builder never fails on the stack.
-/

namespace SpuCompiler.Trees

open Metadata Bytecode

def depthAfter (m : Method) (d : Nat → Nat) (r : Record) : Nat :=
  d r.offset - r.popCount m + r.pushCount

/-- A depth for every instruction offset, as one pass over the code can check it. -/
structure StackDiscipline (m : Method) (is : List Record) (d : Nat → Nat) : Prop where
  start : d 0 = 0
  pops : ∀ r ∈ is, r.popCount m ≤ d r.offset
  branch : ∀ r ∈ is, r.op.isBranch = true → ∀ t, r.target? = some t → d t = depthAfter m d r
  fall : ∀ r ∈ is, r.op.endsBlock = false → (∃ q ∈ is, q.offset = r.stop) →
    d r.stop = depthAfter m d r
  /-- What follows a jump, a return or a throw, and is no target of a branch before it. -/
  dead : ∀ r ∈ is, ∀ q ∈ is, r.op.endsBlock = true → q.offset = r.stop →
    (∀ p ∈ is, p.op.isBranch = true → p.offset < q.offset → p.target? ≠ some q.offset) →
    d q.offset = 0
  ret : ∀ r ∈ is, r.op = .ret → depthAfter m d r = 0

section Depths

variable {m : Method} {body : Body} {is pre post : List Record} {bs : List Nat} {b f : Builder}
  {r : Record}
variable {b' : Builder} {q : Record}

/-! ## The depths of a build -/

def builtDepth (m : Method) (body : Body) (bs : List Nat) (is : List Record) (o : Nat) : Nat :=
  match (openAll 0 (is.takeWhile (·.offset < o))).foldlM Builder.step (Builder.start m body bs) with
  | .ok b => (b.enterAt o).depth
  | .error _ => 0

section Built

variable (hcode : Code body is bs)

include hcode

theorem takeWhile_offset (hsplit : is = pre ++ r :: post) :
    is.takeWhile (·.offset < r.offset) = pre := by
  obtain ⟨middle, hpre, hoff, -⟩ := Tiles.append_iff.mp (hsplit ▸ hcode.tiles)
  have hall : ∀ q ∈ pre, (decide (q.offset < r.offset)) = true := by
    intro q hq
    have hpos := hcode.size_pos q (by simp [hsplit, hq])
    have := (hpre.bounds hq).2
    unfold Record.stop at this
    simp only [decide_eq_true_eq]
    omega
  rw [hsplit, List.takeWhile_append_of_pos hall]
  simp

theorem Reached.builtDepth_eq (hsplit : is = pre ++ r :: post) (h : Reached m body bs pre b) :
    builtDepth m body bs is r.offset = (b.enterAt r.offset).depth := by
  unfold Reached at h
  rw [builtDepth, takeWhile_offset hcode hsplit, h]

theorem Passes.builtDepth_eq (hsplit : is = pre ++ r :: post) (h : Passes m body bs pre r b b' f) :
    builtDepth m body bs is r.offset = (b.enterAt r.offset).depth :=
  h.reached.builtDepth_eq hcode hsplit

theorem Passes.depthAfter_eq (hsplit : is = pre ++ r :: post) (h : Passes m body bs pre r b b' f) :
    depthAfter m (builtDepth m body bs is) r =
      (b.enterAt r.offset).depth - r.popCount (b.enterAt r.offset).method + r.pushCount := by
  rw [depthAfter, h.builtDepth_eq hcode hsplit, Builder.method_enterAt, h.stands.method]

/-- A block has the depth that any way into it recorded. -/
theorem Reached.builtDepth_block (h : Reached m body bs is f) (hq : q ∈ is) (hmem : q.offset ∈ bs)
    {ids : List Nat} (hl : f.entries.lookup q.offset = some ids) :
    builtDepth m body bs is q.offset = ids.length := by
  obtain ⟨pre, post, hsplit⟩ := List.append_of_mem hq
  obtain ⟨b, b', hpass⟩ := h.passes hcode hsplit
  rw [hpass.builtDepth_eq hcode hsplit, hpass.depth_block hcode hmem, hl]
  rfl

/-- Behind an instruction comes the next one. -/
theorem Code.next_split (hsplit : is = pre ++ r :: post) (hq : q ∈ is) (hqr : q.offset = r.stop) :
    ∃ post', is = (pre ++ [r]) ++ q :: post' := by
  obtain ⟨middle, hpre, hoff, hpost⟩ := Tiles.append_iff.mp (hsplit ▸ hcode.tiles)
  have hr := hcode.size_pos r (by simp [hsplit])
  have hqpos := hcode.size_pos q hq
  rw [hsplit] at hq
  have hrest : q ∈ post := by
    rcases List.mem_append.mp hq with hq | hq
    · have := (hpre.bounds hq).2
      unfold Record.stop at *
      omega
    · rcases List.mem_cons.mp hq with rfl | hq
      · unfold Record.stop at *
        omega
      · exact hq
  cases post with
  | nil => simp at hrest
  | cons p post =>
    refine ⟨post, ?_⟩
    rcases List.mem_cons.mp hrest with rfl | hrest
    · simp [hsplit]
    · have := (hpost.2.bounds hrest).1
      have := hcode.size_pos p (by simp [hsplit])
      have := hpost.1
      unfold Record.stop at *
      omega

theorem Reached.fall (h : Reached m body bs is f) (hr : r ∈ is) (hends : r.op.endsBlock = false)
    (hq : q ∈ is) (hqr : q.offset = r.stop) :
    builtDepth m body bs is r.stop = depthAfter m (builtDepth m body bs is) r := by
  obtain ⟨pre, post, hsplit⟩ := List.append_of_mem hr
  obtain ⟨post', hsplit'⟩ := hcode.next_split hsplit hq hqr
  obtain ⟨b, b', hpass⟩ := h.passes hcode hsplit
  rw [hpass.depthAfter_eq hcode hsplit]
  have hlt := hcode.stop_lt hq hqr
  have hfalls := hpass.stands.fallsInto_iff hcode hr hlt
  by_cases hmem : r.stop ∈ bs
  · -- the next instruction starts a block, which the builder has recorded
    obtain ⟨ids, hl, hids⟩ := hpass.step.into hends (hpass.stands.length_enterAt ▸ hlt)
      (.inr (hfalls.mpr hmem))
    rw [← hids, ← hqr]
    exact h.builtDepth_block hcode hq (hqr ▸ hmem) (hqr ▸ hpass.rest.keep _ _ hl)
  · -- the builder goes on in the same block
    have hbranch : r.op.isBranch = false := by
      by_contra hb
      exact hmem (hcode.stop_mem hr (by simpa using hb) hlt)
    have hstay := hpass.step.stay hbranch hends (mt hfalls.mp hmem)
    have hnext : b'.enterAt r.stop = b' :=
      ((hpass.stands_next.enterAt_cases hcode (hcode.stop_pos hr)).resolve_right
        (by simp [hmem])).2
    rw [← hqr, hpass.next.builtDepth_eq hcode hsplit', hqr, hnext, hstay]

theorem Reached.dead (h : Reached m body bs is f) (hr : r ∈ is) (hends : r.op.endsBlock = true)
    (hq : q ∈ is) (hqr : q.offset = r.stop)
    (hno : ∀ p ∈ is, p.op.isBranch = true → p.offset < q.offset → p.target? ≠ some q.offset) :
    builtDepth m body bs is q.offset = 0 := by
  obtain ⟨pre, post, hsplit⟩ := List.append_of_mem hr
  obtain ⟨post', hsplit'⟩ := hcode.next_split hsplit hq hqr
  obtain ⟨b, b', hpass⟩ := h.passes hcode hsplit
  rw [hpass.next.builtDepth_eq hcode hsplit']
  obtain ⟨middle, hpre, hoff, -⟩ := Tiles.append_iff.mp (hsplit' ▸ hcode.tiles)
  have hbefore : ∀ p ∈ pre ++ [r], p.offset < q.offset := by
    intro p hp
    have := (hpre.bounds hp).2
    have := hcode.size_pos p (hsplit' ▸ List.mem_append_left _ hp)
    unfold Record.stop at *
    omega
  have hnone : b'.entries.lookup q.offset = none := by
    by_contra hne
    obtain ⟨ids, hl⟩ := Option.ne_none_iff_exists'.mp hne
    obtain ⟨p, hp, ⟨hb, ht⟩ | ⟨hpends, hstop⟩⟩ := hpass.next.keys hcode hsplit' hl
    · exact hno p (hsplit' ▸ List.mem_append_left _ hp) hb (hbefore p hp) ht
    · -- two instructions that end at one place are one
      have hpr : p = r := by
        rcases List.mem_append.mp hp with hp | hp
        · obtain ⟨_, hpre', hoff', -⟩ := Tiles.append_iff.mp (hsplit ▸ hcode.tiles)
          have := (hpre'.bounds hp).2
          have := hcode.size_pos r hr
          unfold Record.stop at *
          omega
        · simpa using hp
      subst hpr
      rw [hends] at hpends
      cases hpends
  rcases hpass.stands_next.enterAt_cases hcode (hcode.stop_pos hr) with ⟨-, heq⟩ | ⟨-, _, heq⟩
  · rw [hqr, heq, hpass.step.ends hends]
  · rw [hqr] at hnone ⊢
    rw [heq]
    simp [Builder.enter, Builder.depth, hnone]

/-- The depths that the builder works with are a discipline. -/
theorem Reached.discipline (h : Reached m body bs is f) :
    StackDiscipline m is (builtDepth m body bs is) := by
  refine ⟨?_, ?_, ?_, ?_, ?_, ?_⟩
  · have hnil : is.takeWhile (·.offset < 0) = [] := by cases is <;> simp
    rw [builtDepth, hnil]
    change ((Builder.start m body bs).enterAt 0).depth = 0
    rw [start_enterAt hcode]
    rfl
  · intro r hr
    obtain ⟨pre, post, hsplit⟩ := List.append_of_mem hr
    obtain ⟨b, b', hpass⟩ := h.passes hcode hsplit
    have := hpass.step.pops
    rwa [Builder.method_enterAt, hpass.stands.method, ← hpass.builtDepth_eq hcode hsplit] at this
  · intro r hr hb t ht
    obtain ⟨pre, post, hsplit⟩ := List.append_of_mem hr
    obtain ⟨b, b', hpass⟩ := h.passes hcode hsplit
    obtain ⟨t', ids, ht', hl, hids⟩ := hpass.step.branch hb
    rw [ht] at ht'
    cases ht'
    obtain ⟨q, hq, rfl⟩ := hcode.boundaries.targets r hr t ht hb
    rw [hpass.depthAfter_eq hcode hsplit, ← hids]
    exact h.builtDepth_block hcode hq (hcode.target_mem hr ht) (hpass.rest.keep _ _ hl)
  · rintro r hr hends ⟨q, hq, hqr⟩
    exact h.fall hcode hr hends hq hqr
  · intro r hr q hq hends hqr hno
    exact h.dead hcode hr hends hq hqr hno
  · intro r hr hret
    obtain ⟨pre, post, hsplit⟩ := List.append_of_mem hr
    obtain ⟨b, b', hpass⟩ := h.passes hcode hsplit
    rw [hpass.depthAfter_eq hcode hsplit]
    exact hpass.step.ret hret

end Built

/-! ## Building under a discipline -/

/-- What the builder has recorded after some instructions agrees with given depths. -/
structure Agrees (is : List Record) (d : Nat → Nat) (pre : List Record) (b : Builder) : Prop where
  recorded : ∀ t ids, b.entries.lookup t = some ids → ids.length = d t
  reached : ∀ t ∈ b.visited, b.entries.lookup t = none → d t = 0
  branches : ∀ p ∈ pre, p.op.isBranch = true → ∀ t, p.target? = some t →
    ∃ ids, b.entries.lookup t = some ids
  depth : ∀ q post, is = pre ++ q :: post → (b.enterAt q.offset).depth = d q.offset

variable {d : Nat → Nat}

/-- Where nothing is recorded for a block that is reached, also just now, it starts empty. -/
theorem Agrees.reached_enterAt (h : Agrees is d pre b) (hsplit : is = pre ++ r :: post) :
    ∀ t ∈ (b.enterAt r.offset).visited, b.entries.lookup t = none → d t = 0 := by
  intro t ht hnone
  have hdepth := h.depth r post hsplit
  unfold Builder.enterAt at ht hdepth
  split at ht
  · exact h.reached t ht hnone
  · rename_i hne
    rw [if_neg hne] at hdepth
    split at ht
    · rename_i k hk
      rcases List.mem_cons.mp ht with rfl | ht
      · rw [hk] at hdepth
        simpa [Builder.enter, Builder.depth, hnone] using hdepth.symm
      · exact h.reached t ht hnone
    · exact h.reached t ht hnone

theorem Agrees.fits (h : Agrees is d pre b) (hsplit : is = pre ++ r :: post) {t k : Nat}
    (hk : d t = k) : (b.enterAt r.offset).Fits t k := by
  constructor
  · intro ids hl
    rw [Builder.entries_enterAt] at hl
    exact (h.recorded t ids hl).trans hk
  · intro hnone hv
    rw [Builder.entries_enterAt] at hnone
    exact hk ▸ h.reached_enterAt hsplit t hv hnone

theorem Agrees.depthAfter_eq (hsplit : is = pre ++ r :: post)
    (hstands : Stands m body bs r.offset b) (h : Agrees is d pre b) :
    (b.enterAt r.offset).depth - r.popCount (b.enterAt r.offset).method + r.pushCount =
      depthAfter m d r := by
  rw [depthAfter, h.depth r post hsplit, Builder.method_enterAt, hstands.method]

/-- No branch before an instruction goes to it, if nothing is recorded for it. -/
theorem Code.not_target (hcode : Code body is bs) {post' : List Record}
    (hsplit : is = pre ++ q :: post') (h : ∀ p ∈ pre, p.op.isBranch = true → ∀ t, p.target? = some t
      → ∃ ids, b'.entries.lookup t = some ids) (hnone : b'.entries.lookup q.offset = none) :
    ∀ p ∈ is, p.op.isBranch = true → p.offset < q.offset → p.target? ≠ some q.offset := by
  intro p hp hb hlt ht
  have hpre : p ∈ pre := by
    obtain ⟨middle, -, hoff, hpost⟩ := Tiles.append_iff.mp (hsplit ▸ hcode.tiles)
    rw [hsplit] at hp
    rcases List.mem_append.mp hp with hp | hp
    · exact hp
    · rcases List.mem_cons.mp hp with rfl | hp
      · omega
      · have := (hpost.bounds hp).1
        unfold Record.stop at this
        omega
  obtain ⟨ids, hl⟩ := h p hpre hb _ ht
  rw [hnone] at hl
  cases hl

section AgreesStep

variable {t : Nat}

theorem Agrees.target_recorded (h : Agrees is d pre b)
    (hstep : Builder.DepthStep (b.enterAt r.offset) r b') :
    ∀ p ∈ pre ++ [r], p.op.isBranch = true → ∀ t, p.target? = some t →
      ∃ ids, b'.entries.lookup t = some ids := by
  intro p hp hbr t ht
  rcases List.mem_append.mp hp with hp | hp
  · obtain ⟨ids, hl⟩ := h.branches p hp hbr t ht
    exact ⟨ids, hstep.recording.keep t ids (by simpa using hl)⟩
  · obtain rfl : p = r := by simpa using hp
    obtain ⟨t', ids, ht', hl, -⟩ := hstep.branch hbr
    rw [ht] at ht'
    cases ht'
    exact ⟨ids, hl⟩

variable (hcode : Code body is bs) (hd : StackDiscipline m is d) (hsplit : is = pre ++ r :: post)
  (hstands : Stands m body bs r.offset b) (h : Agrees is d pre b)

include hcode hd hsplit hstands h

theorem Agrees.disciplined : (b.enterAt r.offset).Disciplined r := by
  have hr : r ∈ is := by simp [hsplit]
  have hafter := h.depthAfter_eq hsplit hstands
  refine ⟨?_, ?_, ?_, ?_, ?_⟩
  · rw [Builder.method_enterAt, hstands.method, h.depth r post hsplit]
    exact hd.pops r hr
  · intro t ht
    exact (hstands.blockAt?_isSome_iff hcode).mpr (hcode.target_mem hr ht)
  · intro hb
    obtain ⟨t, ht⟩ := (hcode.target r hr).mp hb
    exact ⟨t, ht, h.fits hsplit ((hd.branch r hr hb t ht).trans hafter.symm)⟩
  · intro hends hlt _
    rw [Builder.length_enterAt, hstands.length] at hlt
    have hfall := hd.fall r hr hends (hcode.tiles.exists_next hr hlt)
    exact h.fits hsplit (hfall.trans hafter.symm)
  · intro hret
    rw [hafter]
    exact hd.ret r hr hret

theorem Agrees.lookup_length (hstep : Builder.DepthStep (b.enterAt r.offset) r b') {ids : List Nat}
    (hl : b'.entries.lookup t = some ids) : ids.length = d t := by
  have hr : r ∈ is := by simp [hsplit]
  have hafter := h.depthAfter_eq hsplit hstands
  cases hb : b.entries.lookup t with
  | some ids0 =>
    rw [hstep.recording.keep t ids0 (by simpa using hb)] at hl
    cases hl
    exact h.recorded t ids hb
  | none =>
    rcases hstep.keys t ids (by simpa using hb) hl with ⟨hbr, ht⟩ | ⟨hends, hlt, hinto, rfl⟩
    · obtain ⟨t', ids', ht', hl', hlength⟩ := hstep.branch hbr
      rw [ht] at ht'
      cases ht'
      rw [hl] at hl'
      cases hl'
      rw [hlength, hafter, hd.branch r hr hbr t ht]
    · obtain ⟨ids', hl', hlength⟩ := hstep.into hends hlt hinto
      rw [hl] at hl'
      cases hl'
      rw [hstands.length_enterAt] at hlt
      rw [hlength, hafter, hd.fall r hr hends (hcode.tiles.exists_next hr hlt)]

/-- The next instruction has its depth. -/
theorem Agrees.depth_next (hstep : Builder.DepthStep (b.enterAt r.offset) r b')
    (hnext : Stands m body bs r.stop b') {post' : List Record}
    (hsplit' : is = (pre ++ [r]) ++ q :: post') (hqr : q.offset = r.stop) :
    (b'.enterAt r.stop).depth = d r.stop := by
  have hr : r ∈ is := by simp [hsplit]
  have hq : q ∈ is := by simp [hsplit']
  have hlt := hcode.stop_lt hq hqr
  have hfalls := hstands.fallsInto_iff hcode hr hlt
  rcases hnext.enterAt_cases hcode (hcode.stop_pos hr) with ⟨hno, heq⟩ | ⟨hmem, k, heq⟩
  · -- the same block goes on
    rw [heq]
    cases hends : r.op.endsBlock with
    | true =>
      rw [hstep.ends hends, ← hqr]
      refine (hd.dead r hr q hq hends hqr ?_).symm
      intro p hp hb _ ht
      exact hno (hqr ▸ hcode.target_mem hp ht)
    | false =>
      have hbranch : r.op.isBranch = false := by
        by_contra hb
        exact hno (hcode.stop_mem hr (by simpa using hb) hlt)
      rw [hstep.stay hbranch hends (mt hfalls.mp hno), h.depthAfter_eq hsplit hstands,
        hd.fall r hr hends ⟨q, hq, hqr⟩]
  · -- a block starts, with what is recorded for it
    have hdepth : (b'.enterAt r.stop).depth = ((b'.entries.lookup r.stop).getD []).length := by
      rw [heq]
      simp [Builder.enter, Builder.depth]
    rw [hdepth]
    cases hl : b'.entries.lookup r.stop with
    | some ids => exact h.lookup_length hcode hd hsplit hstands hstep hl
    | none =>
      cases hends : r.op.endsBlock with
      | true =>
        rw [← hqr] at hl ⊢
        exact (hd.dead r hr q hq hends hqr
          (hcode.not_target hsplit' (h.target_recorded hstep) hl)).symm
      | false =>
        obtain ⟨ids, hl', -⟩ := hstep.into hends (hstands.length_enterAt ▸ hlt)
          (.inr (hfalls.mpr hmem))
        rw [hl] at hl'
        cases hl'

theorem Agrees.opened (hs : (r.opened t).foldlM Builder.step b = .ok b') :
    Agrees is d (pre ++ [r]) b' := by
  obtain ⟨hstep, hkeeps, hnext⟩ := hstands.opened hcode (by simp [hsplit]) hs
  refine ⟨fun _ _ => h.lookup_length hcode hd hsplit hstands hstep, ?_, h.target_recorded hstep, ?_⟩
  · intro t ht hnone
    rw [hkeeps.visited] at ht
    refine h.reached_enterAt hsplit t ht ?_
    by_contra hne
    obtain ⟨ids, hl⟩ := Option.ne_none_iff_exists'.mp hne
    rw [hstep.recording.keep t ids (by simpa using hl)] at hnone
    cases hnone
  · intro q post' hsplit'
    have hqr : q.offset = r.stop := by
      have hpost : post = q :: post' := by simpa using hsplit.symm.trans hsplit'
      obtain ⟨_, -, -, htiles⟩ := Tiles.append_iff.mp (hsplit ▸ hcode.tiles)
      rw [hpost] at htiles
      exact htiles.1
    rw [hqr]
    exact h.depth_next hcode hd hsplit hstands hstep hnext hsplit' hqr

end AgreesStep

/-- Under a discipline the rest of a build never fails on the stack. -/
theorem Agrees.safe (hcode : Code body is bs) (hd : StackDiscipline m is d)
    (hsplit : is = pre ++ post) (hb : Reached m body bs pre b) (h : Agrees is d pre b) :
    StackSafe ((openAll (nextTemporaryAll 0 pre) post).foldlM Builder.step b) := by
  induction post generalizing pre b with
  | nil => exact .ok _
  | cons r post ih =>
    obtain ⟨o, ⟨rfl, -⟩, hstands, -⟩ := hb.stands hcode hsplit
    rw [openAll, List.foldlM_append]
    refine StackSafe.bind ?_ ?_
    · exact Builder.instruction_safe hcode.boundaries.increasing hstands.positioned
        (h.disciplined hcode hd hsplit hstands)
    · intro b' hs
      have hnext : nextTemporaryAll 0 (pre ++ [r]) = r.nextTemporary (nextTemporaryAll 0 pre) := by
        simp [nextTemporaryAll_append, nextTemporaryAll]
      rw [← hnext]
      exact ih (by simp [hsplit]) (reached_snoc_iff.mpr ⟨b, hb, hs⟩)
        (h.opened hcode hd hsplit hstands hs)

theorem StackDiscipline.agrees_start (hcode : Code body is bs) (hd : StackDiscipline m is d) :
    Agrees is d [] (Builder.start m body bs) := by
  refine ⟨by simp [Builder.start], ?_, by simp, ?_⟩
  · intro t ht _
    obtain rfl : t = 0 := by simpa [Builder.start] using ht
    exact hd.start
  · intro q post hsplit
    have htiles := hcode.tiles
    rw [hsplit] at htiles
    have hzero : q.offset = 0 := htiles.1
    rw [hzero, start_enterAt hcode, hd.start]
    rfl

end Depths

/-! ## Ways through the code -/

/-- Some way through the code from its start reaches an offset with this many values. -/
inductive Arrives (m : Method) (is : List Record) : Nat → Nat → Prop
  | start : Arrives m is 0 0
  | branch {r : Record} {k t : Nat} : Arrives m is r.offset k → r ∈ is → r.op.isBranch = true →
      r.target? = some t → Arrives m is t (k - r.popCount m + r.pushCount)
  | fall {r : Record} {k : Nat} : Arrives m is r.offset k → r ∈ is → r.op.endsBlock = false →
      (∃ q ∈ is, q.offset = r.stop) → Arrives m is r.stop (k - r.popCount m + r.pushCount)

/-- Every way to an instruction leaves as many values there as the discipline says. -/
theorem StackDiscipline.eq_of_arrives {m : Method} {is : List Record} {d : Nat → Nat}
    (hd : StackDiscipline m is d) {o k : Nat} (h : Arrives m is o k) : k = d o := by
  induction h with
  | start => exact hd.start.symm
  | branch _ hr hb ht ih => rw [ih, hd.branch _ hr hb _ ht, depthAfter]
  | fall _ hr hends hq ih => rw [ih, hd.fall _ hr hends hq, depthAfter]

/-- The builder accepts exactly the code that has a stack discipline, as far as the stack goes.
A body that is built has one, so every way to an instruction reaches it with the same number of
values, and with as many as it takes; and a body that has one never fails on the stack. -/
theorem build_accepts_stackDiscipline (m : Method) (body : Body) (resolver : Resolver)
    (is : List Record) (hdecodes : (Scope.of m body resolver).Decodes 0 body.instructions is)
    (htargets : ∀ r ∈ is, ∀ t, r.target? = some t → r.op.isBranch = true →
      ∃ q ∈ is, q.offset = t) :
    ((∃ routine, build m body resolver = .ok routine) →
      ∃ d, StackDiscipline m is d ∧
        ∀ r ∈ is, ∀ k, Arrives m is r.offset k → k = d r.offset ∧ r.popCount m ≤ k) ∧
    ((∃ d, StackDiscipline m is d) → ∀ e, build m body resolver ≠ .error (.stack e)) := by
  constructor
  · rintro ⟨routine, hbuild⟩
    obtain ⟨is', bs, f, hdecodes', hbs, hreached, -⟩ := build_ok hbuild
    obtain rfl := hdecodes.unique hdecodes'
    have hd := hreached.discipline (Code.of_decodes hdecodes hbs)
    refine ⟨_, hd, ?_⟩
    intro r hr k hk
    have hkd := hd.eq_of_arrives hk
    exact ⟨hkd, hkd ▸ hd.pops r hr⟩
  · rintro ⟨d, hd⟩
    change StackSafe (build m body resolver)
    refine StackSafe.bind (readRecords_safe m body resolver) ?_
    intro records hread
    obtain ⟨is', hdecodes', -, rfl⟩ := (Reader.readAll_eq_ok_iff m body resolver records).mp
      (mapError_eq_ok.mp hread)
    obtain rfl := hdecodes.unique hdecodes'
    obtain ⟨bs, hbs⟩ : ∃ bs, boundariesOf (openAll 0 is) body.instructions.length = .ok bs := by
      refine boundariesOf_isOk ?_
      intro r hr t ht hb
      exact exists_offset_openAll_iff.mpr
        (htargets r ((mem_openAll_iff_of_isBranch hb).mp hr) t ht hb)
    have hcode := Code.of_decodes hdecodes (boundaries_openAll_iff.mp (boundariesOf_ok hbs))
    rw [hbs]
    have hstart : Reached m body bs [] (Builder.start m body bs) := rfl
    exact ((hd.agrees_start hcode).safe hcode hd rfl hstart).bind fun _ _ => .ok _

def pick : Method := { name := "pick", parameters := [.i4], returnType := .i4 }

def pickBody : Body := { code := [0x02, 0x2D, 3, 0x17, 0x2B, 1, 0x18, 0x2A] }

def pickCode : List Record :=
  [⟨.ldarg, .ref (.argument 0), 0, 1, "ldarg.0"⟩,
   ⟨.brtrue, .ref (.target 6), 1, 2, "brtrue.s"⟩,
   ⟨.ldc .i4, .int32 1, 3, 1, "ldc.i4.1"⟩,
   ⟨.br, .ref (.target 7), 4, 2, "br.s"⟩,
   ⟨.ldc .i4, .int32 2, 6, 1, "ldc.i4.2"⟩,
   ⟨.ret, .none, 7, 1, "ret"⟩]

/-- The two ways to the return meet with one value on the stack. -/
theorem pick_accepts_stackDiscipline :
    (Scope.of pick pickBody ({} : TokenTable).resolver).Decodes 0 pickBody.instructions pickCode ∧
    (build pick pickBody ({} : TokenTable).resolver).isOk = true ∧
    (∃ d, StackDiscipline pick pickCode d) ∧
    ∀ e, build pick pickBody ({} : TokenTable).resolver ≠ .error (.stack e) := by
  have hdecodes : (Scope.of pick pickBody ({} : TokenTable).resolver).Decodes 0
      pickBody.instructions pickCode :=
    .cons rfl (.cons rfl (.cons rfl (.cons rfl (.cons rfl (.cons rfl (.nil _))))))
  have hok : (build pick pickBody ({} : TokenTable).resolver).isOk = true := by decide +kernel
  have htargets : ∀ r ∈ pickCode, ∀ t, r.target? = some t → r.op.isBranch = true →
      ∃ q ∈ pickCode, q.offset = t := by
    simp [pickCode, Record.target?]
  obtain ⟨hsound, hcomplete⟩ :=
    build_accepts_stackDiscipline pick pickBody _ pickCode hdecodes htargets
  have hbuild : ∃ routine, build pick pickBody ({} : TokenTable).resolver = .ok routine := by
    cases h : build pick pickBody ({} : TokenTable).resolver with
    | ok routine => exact ⟨routine, rfl⟩
    | error e => simp [h, Except.isOk, Except.toBool] at hok
  obtain ⟨d, hd, -⟩ := hsound hbuild
  exact ⟨hdecodes, hok, ⟨d, hd⟩, hcomplete ⟨d, hd⟩⟩

end SpuCompiler.Trees
