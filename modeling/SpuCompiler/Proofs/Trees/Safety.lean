import SpuCompiler.Proofs.Trees.Entries

/-!
Which steps cannot break the stack discipline. A step fails on the stack only where it takes more
values than there are, where its target is no block, where the stack does not fit what is
recorded for a block that control passes to, or where a return leaves values behind. All other
failures are failures of typing.
-/

namespace SpuCompiler.Trees

open Metadata Bytecode

/-- No breach of the stack discipline; other errors are allowed. -/
def StackSafe {α : Type} (x : Except BuildError α) : Prop := ∀ e, x ≠ .error (.stack e)

namespace StackSafe

variable {α : Type}

theorem ok (a : α) : StackSafe (.ok a : Except BuildError α) := by
  intro e h
  cases h

theorem type (e : TypeError) : StackSafe (.error (.type e) : Except BuildError α) := by
  intro e' h
  cases h

theorem bind {β : Type} {x : Except BuildError α} {f : α → Except BuildError β} (hx : StackSafe x)
    (hf : ∀ a, x = .ok a → StackSafe (f a)) : StackSafe (x >>= f) := by
  cases x with
  | ok a => exact hf a rfl
  | error e =>
    intro e' h
    cases h
    exact hx e' rfl

end StackSafe

theorem readRecords_safe (m : Method) (body : Body) (resolver : Resolver) :
    StackSafe (readRecords m body resolver) := by
  intro e h
  unfold readRecords at h
  cases hread : (Reader.of m body resolver).readAll <;> simp [hread, Except.mapError] at h

namespace Builder

variable {b b' : Builder} {r : Record} {access : ElementAccess} {o : Operand Ref} {t target : Nat}
  {bs : List Nat}

theorem deriveType_safe (b : Builder) (n : Node) : StackSafe (b.deriveType n) := by
  unfold deriveType
  split
  · exact .ok _
  · exact .type _

theorem pop_safe (r : Record) (h : 0 < b.depth) : StackSafe (b.pop r) := by
  unfold pop
  split
  · exact .ok _
  · rename_i htrees
    split
    · exact deriveType_safe _ _
    · rename_i hcarried
      simp [depth, htrees, hcarried] at h

theorem pop_depth {n : Node} (h : b.pop r = .ok (n, b')) : b.depth = b'.depth + 1 := by
  obtain ⟨e, he, -, -⟩ := pop_ok h
  rw [← length_stackEntries, he, List.length_append, length_stackEntries]
  rfl

theorem popMany_safe (r : Record) (values : List Node) {count : Nat} (h : count ≤ b.depth) :
    StackSafe (b.popMany r values count) := by
  induction count generalizing b values with
  | zero => exact .ok _
  | succ count ih =>
    refine (pop_safe r (by omega)).bind ?_
    rintro ⟨n, b1⟩ hp
    have := pop_depth hp
    exact ih (n :: values) (by omega)

theorem operand_safe (h : ∀ t, r.target? = some t → (b.blockAt? t).isSome = true) :
    StackSafe (b.operand r) := by
  unfold operand
  split <;> try exact .ok _
  · split <;> exact .ok _
  · rename_i t ht
    split
    · exact .ok _
    · rename_i hnone
      have := h t (by simp [Record.target?, ht])
      simp [hnone] at this

theorem elementOf_safe (r : Record) (access : ElementAccess) (value : Option Node) (h : 2 ≤ b.depth) :
    StackSafe (b.elementOf r access value) := by
  unfold elementOf
  refine (pop_safe r (by omega)).bind ?_
  rintro ⟨index, b1⟩ h1
  have := pop_depth h1
  refine (pop_safe r (by omega)).bind ?_
  rintro ⟨array, b2⟩ -
  refine (deriveType_safe _ _).bind ?_
  rintro ⟨address, b3⟩ -
  exact deriveType_safe _ _

theorem pops_of_elementAccess {op : Op} (h : op.elementAccess? = some access) :
    op.pops = .fixed (if access.isStore then 3 else 2) := by
  unfold Op.elementAccess? at h
  split at h <;> cases h <;> rfl

theorem elementNode_safe (h : (if access.isStore then 3 else 2) ≤ b.depth) :
    StackSafe (b.elementNode r access) := by
  rw [elementNode_eq]
  split
  · rename_i hs
    rw [hs, if_pos rfl] at h
    refine (pop_safe r (by omega)).bind ?_
    rintro ⟨n, b1⟩ hp
    have := pop_depth hp
    exact elementOf_safe r access _ (by omega)
  · rename_i hs
    rw [if_neg hs] at h
    exact elementOf_safe r access _ h

theorem callNode_safe (ho : ∀ m, o = .method m → r.operand = .method m)
    (hpops : r.op.pops = .callee) (h : r.popCount b.method ≤ b.depth) :
    StackSafe (b.callNode r o) := by
  unfold callNode
  split
  · rename_i m
    simp only [Record.popCount, hpops, ho m rfl] at h
    refine (popMany_safe r [] h).bind ?_
    rintro ⟨args, b1⟩ -
    exact .ok _
  · exact .type _

theorem plainNode_safe (ho : ∀ m, o = .method m → r.operand = .method m)
    (h : r.popCount b.method ≤ b.depth) : StackSafe (b.plainNode r o) := by
  unfold plainNode
  dsimp only
  split
  · rename_i hpops
    exact callNode_safe ho hpops h
  · rename_i hpops
    simp only [Record.popCount, hpops] at h
    split
    · exact .ok _
    · rename_i hret
      rw [if_neg hret] at h
      refine (pop_safe r h).bind ?_
      rintro ⟨value, b1⟩ -
      exact .ok _
  · rename_i count hpops
    simp only [Record.popCount, hpops] at h
    refine (popMany_safe r [] h).bind ?_
    rintro ⟨values, b1⟩ -
    exact .ok _

theorem node_safe (htarget : ∀ t, r.target? = some t → (b.blockAt? t).isSome = true)
    (h : r.popCount b.method ≤ b.depth) : StackSafe (b.node r) := by
  unfold node
  split
  · rename_i access ha
    simp only [Record.popCount, pops_of_elementAccess ha] at h
    exact elementNode_safe h
  · refine (operand_safe htarget).bind ?_
    rintro ⟨o, b1⟩ ho
    obtain ⟨hmethod, hpop⟩ : (∀ m, o = .method m → r.operand = .method m) ∧
        r.popCount b1.method ≤ b1.depth := by
      rcases operand_ok ho with ⟨rfl, href⟩ | ⟨i, -, -, rfl, rfl⟩
      · exact ⟨fun m hm => method_of_refers (hm ▸ href), h⟩
      · exact ⟨by simp, h⟩
    refine (plainNode_safe hmethod hpop).bind ?_
    rintro ⟨n, b2⟩ -
    exact deriveType_safe _ _

/-! ## Stores and blocks -/

theorem flushTrees_safe (b : Builder) (ns : List Node) : StackSafe (b.flushTrees ns) := by
  induction ns generalizing b with
  | nil => exact .ok _
  | cons n ns ih =>
    refine (deriveType_safe _ _).bind ?_
    rintro ⟨s, b1⟩ -
    exact ih _

theorem storeAll_safe (b : Builder) (offset : Nat) (stores : Array Node)
    (pairs : List (Entry × Nat)) : StackSafe (b.storeAll offset stores pairs) := by
  induction pairs generalizing b stores with
  | nil => exact .ok _
  | cons pair rest ih =>
    obtain ⟨e, id⟩ := pair
    cases e with
    | carried source =>
      unfold storeAll
      split
      · exact ih b stores
      · refine (deriveType_safe _ _).bind ?_
        rintro ⟨value, b1⟩ -
        refine (deriveType_safe _ _).bind ?_
        rintro ⟨s, b2⟩ -
        exact ih b2 _
    | tree value =>
      refine (deriveType_safe _ _).bind ?_
      rintro ⟨s, b1⟩ -
      exact ih b1 _

/-- A stack of some depth fits what is known of a block: it is as deep as what is recorded, and
it is empty if nothing is recorded for a block already reached. -/
structure Fits (b : Builder) (target depth : Nat) : Prop where
  recorded : ∀ ids, b.entries.lookup target = some ids → ids.length = depth
  reached : b.entries.lookup target = none → target ∈ b.visited → depth = 0

theorem spill_safe (r : Record) (reuse : Option (List Nat)) (h : b.Fits target b.depth) :
    StackSafe (b.spill r target reuse) := by
  refine StackSafe.bind ?_ ?_
  · unfold entryVariables
    dsimp only
    split
    · rename_i ids hl
      rw [if_pos (h.recorded ids hl)]
      exact .ok _
    · rename_i hl
      rw [if_neg]
      · exact .ok _
      · rintro ⟨hpos, hv⟩
        have := h.reached hl hv
        omega
  · rintro ⟨ids, b1⟩ -
    refine (storeAll_safe _ _ _ _).bind ?_
    rintro ⟨stores, b2⟩ -
    exact .ok _

/-- What fits before a spill fits after it. -/
theorem Fits.spill {reuse : Option (List Nat)} {stores : List Node} (h : b.Fits t b.depth)
    (hs : b.spill r target reuse = .ok (stores, b')) : b'.Fits t b.depth := by
  obtain ⟨hrec, hnew, ids, hl, hlen⟩ := spill_recording hs
  constructor
  · intro ids' hl'
    cases hb : b.entries.lookup t with
    | some ids0 =>
      have := hrec.keep t ids0 hb
      rw [hl'] at this
      cases this
      exact h.recorded ids' hb
    | none =>
      rw [hnew t ids' hb hl', hl] at hl'
      cases hl'
      exact hlen
  · intro hnone hv
    rw [(spill_keeps hs).visited] at hv
    cases hb : b.entries.lookup t with
    | some ids0 =>
      rw [hrec.keep t ids0 hb] at hnone
      cases hnone
    | none => exact h.reached hb hv

theorem fallThrough_safe (h : b.FallsInto r → b.Fits r.stop b.depth) :
    StackSafe (b.fallThrough r) := by
  unfold fallThrough
  split
  · rename_i hc
    refine (spill_safe r none (h hc)).bind ?_
    rintro ⟨stores, b1⟩ -
    exact .ok _
  · exact .ok _

theorem place_safe (n : Node) (h : r.op = .ret → b.depth = 0) : StackSafe (b.place r n) := by
  unfold place
  split
  · exact .ok _
  · rw [if_neg]
    · refine (flushTrees_safe _ _).bind ?_
      intro b1 _
      exact .ok _
    · rintro ⟨hret, hpos⟩
      have := h hret
      omega

theorem branch_safe (n : Node) (ht : r.target? = some target) (h : b.Fits target b.depth)
    (hnext : r.op.endsBlock = false → r.stop < b.length → b.Fits r.stop b.depth) :
    StackSafe (b.branch r n) := by
  unfold branch
  simp only [ht]
  refine (spill_safe r none h).bind ?_
  rintro ⟨stores, b1⟩ hs
  obtain ⟨-, -, ids, hl, hlen⟩ := spill_recording hs
  dsimp only
  split
  · rename_i hc
    obtain ⟨hends, hlt⟩ := hc
    have hfits : (b1.onTarget target).Fits r.stop (b1.onTarget target).depth := by
      rw [depth_onTarget b1 target hl, hlen]
      rw [(spill_keeps hs).length] at hlt
      have := (hnext (by simpa using hends) hlt).spill hs
      exact ⟨this.recorded, this.reached⟩
    refine (spill_safe r _ hfits).bind ?_
    rintro ⟨more, b2⟩ -
    exact .ok _
  · exact .ok _

structure Disciplined (b : Builder) (r : Record) : Prop where
  pops : r.popCount b.method ≤ b.depth
  target : ∀ t, r.target? = some t → (b.blockAt? t).isSome = true
  branch : r.op.isBranch = true →
    ∃ t, r.target? = some t ∧ b.Fits t (b.depth - r.popCount b.method + r.pushCount)
  next : r.op.endsBlock = false → r.stop < b.length → (r.op.isBranch = true ∨ b.FallsInto r) →
    b.Fits r.stop (b.depth - r.popCount b.method + r.pushCount)
  ret : r.op = .ret → b.depth - r.popCount b.method + r.pushCount = 0

theorem step_safe (hdup : r.op ≠ .dup) (h : (b.enterAt r.offset).Disciplined r) :
    StackSafe (b.step r) := by
  unfold step
  generalize b.enterAt r.offset = c at h
  refine (node_safe h.target h.pops).bind ?_
  rintro ⟨n, b1⟩ hn
  have hdepth := node_depth hn
  have hkeeps := node_keeps hn
  have hentries := node_entries hn
  have hpush := node_produces hdup hn
  dsimp only
  split
  · rename_i hb
    have hafter : c.depth - r.popCount c.method + r.pushCount = b1.depth := by
      have := pushCount_of_isBranch hb
      omega
    have hfits : ∀ t, c.Fits t (c.depth - r.popCount c.method + r.pushCount) →
        b1.Fits t b1.depth := by
      intro t ht
      rw [hafter] at ht
      exact ⟨by rw [hentries]; exact ht.recorded, by rw [hentries, hkeeps.visited]; exact ht.reached⟩
    obtain ⟨t, ht, hfit⟩ := h.branch hb
    refine branch_safe n ht (hfits t hfit) ?_
    intro hends hlt
    exact hfits _ (h.next hends (hkeeps.length ▸ hlt) (.inl hb))
  · refine (place_safe n ?_).bind ?_
    · intro hret
      have := h.ret hret
      omega
    · intro b2 hp
      have hplace := place_depth hp
      have hpkeeps := hkeeps.trans (place_keeps hp)
      have hpentries := (place_entries hp).trans hentries
      split
      · exact .ok _
      · rename_i hends
        refine fallThrough_safe ?_
        intro hf
        have hafter : c.depth - r.popCount c.method + r.pushCount = b2.depth := by omega
        have hfit := h.next (by simpa using hends) (hpkeeps.length ▸ hf.2.1)
          (.inr ((hpkeeps.fallsInto_iff r).mp hf))
        rw [hafter] at hfit
        exact ⟨by rw [hpentries]; exact hfit.recorded,
          by rw [hpentries, hpkeeps.visited]; exact hfit.reached⟩

/-- A record without a size that is no branch passes control to no block. -/
theorem DepthStep.lookup_eq (h : DepthStep b r b') (hb : r.op.isBranch = false)
    (hf : ¬ b.FallsInto r) (t : Nat) : b'.entries.lookup t = b.entries.lookup t := by
  cases hl : b.entries.lookup t with
  | some ids => exact h.recording.keep t ids hl
  | none =>
    by_contra hne
    obtain ⟨ids, hids⟩ := Option.ne_none_iff_exists'.mp hne
    rcases h.keys t ids hl hids with ⟨hyes, -⟩ | ⟨-, -, hyes | hyes, -⟩
    · simp [hb] at hyes
    · simp [hb] at hyes
    · exact hf hyes

theorem duplicate_safe (hinc : bs.Pairwise (· < ·)) (hpos : Positioned bs r.offset b)
    (hdup : r.op = .dup) (h : (b.enterAt r.offset).Disciplined r) :
    StackSafe ((r.openDup t).foldlM step b) := by
  have hent := hpos.entered hinc
  generalize hc : b.enterAt r.offset = c at h hent
  have hpops : 1 ≤ c.depth := by simpa [Record.popCount, hdup, Op.pops] using h.pops
  unfold Record.openDup
  refine StackSafe.bind (step_safe (by simp) ?_) ?_
  · refine ⟨?_, by simp [Record.target?], by simp [Op.isBranch, Op.flow], ?_, by simp⟩
    · simpa [hc, Record.popCount, Op.pops] using hpops
    · simp [FallsInto, Op.isBranch, Op.flow]
  intro b1 h1
  have hd1 := step_depth (by simp) h1
  have hk1 := step_keeps h1
  simp only [hc] at hd1 hk1
  have s1 := hd1.stay rfl rfl (by simp [FallsInto])
  have e1 : b1.enterAt r.offset = b1 := hent.enterAt_eq hinc hk1
  refine StackSafe.bind (step_safe (by simp) ?_) ?_
  · refine ⟨?_, by simp [Record.target?], by simp [Op.isBranch, Op.flow], ?_, by simp⟩
    · simp [Record.popCount, Op.pops]
    · simp [FallsInto, Op.isBranch, Op.flow]
  intro b2 h2
  have hd2 := step_depth (by simp) h2
  have hk2 := step_keeps h2
  simp only [e1] at hd2 hk2
  have s2 := hd2.stay rfl rfl (by simp [FallsInto])
  have e2 : b2.enterAt r.offset = b2 := hent.enterAt_eq hinc (hk1.trans hk2)
  refine StackSafe.bind (step_safe (by simp) ?_) fun _ _ => .ok _
  refine ⟨?_, by simp [Record.target?], by simp [Op.isBranch, Op.flow], ?_, by simp⟩
  · simp [Record.popCount, Op.pops]
  · -- only the last of the three records may pass into a block
    simp only [e2]
    rintro - hlt (hyes | hyes)
    · simp [Op.isBranch, Op.flow] at hyes
    have hk := hk1.trans hk2
    have hfit := h.next (by rw [hdup]; rfl) (hk.length ▸ hlt) (.inr ((hk.fallsInto_iff r).mp hyes))
    have hlook : ∀ x, b2.entries.lookup x = c.entries.lookup x := fun x =>
      (hd2.lookup_eq rfl (by simp [FallsInto]) x).trans
        (hd1.lookup_eq rfl (by simp [FallsInto]) x)
    simp only [Record.popCount, Record.pushCount, Op.pops, Op.pushes, hdup] at s1 s2 hfit ⊢
    have hdepth : b2.depth - 0 + 1 = c.depth - 1 + 2 := by omega
    rw [hdepth]
    exact ⟨by rw [hlook]; exact hfit.recorded, by rw [hlook, hk.visited]; exact hfit.reached⟩

theorem instruction_safe (hinc : bs.Pairwise (· < ·)) (hpos : Positioned bs r.offset b)
    (h : (b.enterAt r.offset).Disciplined r) : StackSafe ((r.opened t).foldlM step b) := by
  unfold Record.opened
  split
  · rename_i hdup
    exact duplicate_safe hinc hpos hdup h
  · rename_i hdup
    exact (step_safe hdup h).bind fun _ _ => .ok _

end Builder

end SpuCompiler.Trees
