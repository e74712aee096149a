import SpuCompiler.Proofs.Trees.Conservation

/-!
What the blocks of a routine hold. The records of a body fall into consecutive shares, one for
each block, and the nodes of a block are those of its share, together with loads and stores of
added variables. A jump is the last tree of its block.
-/

namespace SpuCompiler.Trees

open Metadata Bytecode Builder Node

/-! ## Shares -/

/-- The records of a block: those from its start on and before the start of the next one. -/
def share (bs : List Nat) (k : Nat) (rs : List Record) : List Record :=
  rs.filter fun r => (bs[k]?).any (· ≤ r.offset) && (bs[k + 1]?).all (r.offset < ·)

theorem mem_share_iff {bs : List Nat} {k : Nat} {rs : List Record} {r : Record} :
    r ∈ share bs k rs ↔
      r ∈ rs ∧ (∃ x, bs[k]? = some x ∧ x ≤ r.offset) ∧ ∀ y, bs[k + 1]? = some y → r.offset < y := by
  rw [share, List.mem_filter, Bool.and_eq_true]
  refine and_congr_right fun _ => and_congr ?_ ?_
  · cases bs[k]? <;> simp
  · cases bs[k + 1]? <;> simp

/-- The next record goes to the share of the block that it is in. -/
theorem share_snoc {bs : List Nat} {r : Record} {b : Builder} (hinc : bs.Pairwise (· < ·))
    (h : Entered bs r.offset b) (k : Nat) (pre : List Record) :
    share bs k (pre ++ [r]) = if k = b.current then share bs k pre ++ [r] else share bs k pre := by
  obtain ⟨x, hx, hle, -⟩ := h.current
  have hmem : r ∈ share bs k [r] ↔ k = b.current := by
    rw [mem_share_iff]
    constructor
    · rintro ⟨-, ⟨y, hy, hyr⟩, hnext⟩
      have hk := h.upTo k y hy hyr
      by_contra hne
      obtain ⟨z, hsucc⟩ : ∃ z, bs[k + 1]? = some z := by
        have := (List.getElem?_eq_some_iff.mp hx).1
        exact ⟨_, List.getElem?_eq_getElem (by omega)⟩
      have hr := hnext z hsucc
      rcases Nat.lt_or_eq_of_le (show k + 1 ≤ b.current by omega) with hlt' | heq
      · have := getElem?_lt_of_increasing hinc hsucc hx hlt'
        omega
      · rw [heq, hx] at hsucc
        have := Option.some.inj hsucc
        omega
    · rintro rfl
      refine ⟨by simp, ⟨x, hx, hle⟩, ?_⟩
      intro y hy
      by_contra hyr
      have := h.upTo _ y hy (by omega)
      omega
  have hsingle : share bs k [r] = if k = b.current then [r] else [] := by
    split
    · rename_i hk
      exact List.filter_eq_self.mpr fun q hq => by
        rw [List.mem_singleton.mp hq]
        exact (List.mem_filter.mp (hmem.mpr hk)).2
    · rename_i hk
      refine List.filter_eq_nil_iff.mpr fun q hq hin => hk (hmem.mp ?_)
      rw [List.mem_singleton.mp hq] at hin
      exact List.mem_filter.mpr ⟨by simp, hin⟩
  rw [share, List.filter_append, ← share, ← share, hsingle]
  split <;> simp

/-! ## Accounts -/

/-- The nodes are those of the records and transfers at offsets of the records. -/
def Accounts (v : Variables) (rs : List Record) (ns : Multiset Node) : Prop :=
  ∃ own : Multiset Node, own.map stamp = ↑(rs.flatMap Record.stamps) ∧
    Gains v (fun o => ∃ r ∈ rs, o = r.offset) own ns

namespace Accounts

variable {v : Variables} {rs : List Record} {ns ns' : Multiset Node}

theorem empty : Accounts v [] 0 := ⟨0, rfl, .refl 0⟩

theorem exists_offset (h : Accounts v rs ns) {n : Node} (hn : n ∈ ns) :
    ∃ r ∈ rs, n.offset = r.offset := by
  obtain ⟨own, hown, moved, rfl, hmoved⟩ := h
  rcases Multiset.mem_add.mp hn with hn | hn
  · have hstamp : n.stamp ∈ own.map stamp := Multiset.mem_map_of_mem _ hn
    rw [hown, Multiset.mem_coe, List.mem_flatMap] at hstamp
    obtain ⟨r, hr, hs⟩ := hstamp
    exact ⟨r, hr, Record.offset_of_mem_stamps hs⟩
  · exact (hmoved n hn).2

theorem snoc {r : Record} (h : Accounts v rs ns)
    (hr : ∃ own : Multiset Node, own.map stamp = ↑r.stamps ∧
      Gains v (fun o => ∃ q ∈ rs ++ [r], o = q.offset) (ns + own) ns') :
    Accounts v (rs ++ [r]) ns' := by
  obtain ⟨own, hown, moved, rfl, hmoved⟩ := h
  obtain ⟨own', hown', hgains⟩ := hr
  refine ⟨own + own', ?_, Gains.trans ⟨moved, by abel, ?_⟩ hgains⟩
  · rw [Multiset.map_add, hown, hown']
    simp [Multiset.coe_add]
  · intro n hn
    obtain ⟨htransfers, q, hq, hoff⟩ := hmoved n hn
    exact ⟨htransfers, q, by simp [hq], hoff⟩

end Accounts

/-! ## The blocks so far -/

def JumpsTo (records : List Record) (bs : List Nat) (n : Node) : Prop :=
  ∃ r ∈ records, r.op = n.op ∧ r.offset = n.offset ∧
    ∃ t k, r.target? = some t ∧ n.blockId? = some k ∧ bs[k]? = some t

/-- The blocks behind the records `pre`, before a record at `o`. -/
structure Contents (v : Variables) (records : List Record) (bs : List Nat) (length : Nat)
    (pre : List Record) (b : Builder) (o : Nat) : Prop where
  left : ∀ k < b.current, Accounts v (share bs k pre) (nodesOf (b.rootsAt k))
  current : Accounts v (share bs b.current pre)
    (nodesOf (b.rootsAt b.current) + nodesOf b.trees)
  ahead : ∀ k, b.current < k → share bs k pre = []
  shares : (List.range (b.current + 1)).flatMap (share bs · pre) = pre
  jumps : ∀ k i n, (b.rootsAt k)[i]? = some n → n.op.isBranch = true →
    i + 1 = (b.rootsAt k).length ∧ JumpsTo records bs n
  /-- A block is left without trees on the stack. -/
  between : o ∈ bs → bs[b.current]? ≠ some o → b.trees = []
  /-- Behind a jump starts another block. -/
  closed : (∃ n ∈ b.rootsAt b.current, n.op.isBranch = true) → o < length →
    o ∈ bs ∧ bs[b.current]? ≠ some o

section Contents

variable {m : Method} {body : Body} {records pre post rest : List Record} {bs : List Nat}
  {f b : Builder} {r : Record} {o : Nat} {v : Variables}

theorem contents_start (v : Variables) (m : Method) (body : Body) (records : List Record)
    (bs : List Nat) :
    Contents v records bs body.instructions.length [] (Builder.start m body bs) 0 := by
  have hroots := rootsAt_start m body bs
  refine ⟨?_, ?_, fun _ _ => rfl, by simp [share], ?_, fun _ _ => rfl, ?_⟩
  · intro k hk
    exact absurd hk (Nat.not_lt_zero k)
  · rw [hroots]
    exact .empty
  · intro k i n hn
    simp [hroots] at hn
  · rintro ⟨n, hn, -⟩
    simp [hroots] at hn

/-- Entering the block of the next record. -/
theorem Contents.enterAt (hinc : bs.Pairwise (· < ·))
    (h : Contents v records bs body.instructions.length pre b o) (hpos : Positioned bs o b)
    (hahead : b.Ahead) (hlt : o < body.instructions.length) :
    Contents v records bs body.instructions.length pre (b.enterAt o) o ∧
      ∀ n ∈ (b.enterAt o).rootsAt (b.enterAt o).current, n.op.isBranch = false := by
  rcases hpos.enterAt_cases hinc with ⟨heq, hcase⟩ | ⟨hk, heq⟩
  · rw [heq]
    refine ⟨h, ?_⟩
    intro n hn
    by_contra hb
    obtain ⟨hmem, hne⟩ := h.closed ⟨n, hn, by simpa using hb⟩ hlt
    rcases hcase with hno | ho
    · exact hno hmem
    · exact hne ho
  · obtain ⟨x, hx, -⟩ := hpos.current
    have hne : bs[b.current]? ≠ some o := by
      intro ho
      have := getElem?_lt_of_increasing hinc ho hk (Nat.lt_succ_self _)
      omega
    have htrees := h.between (List.mem_of_getElem? hk) hne
    have hroots : ∀ k, (b.enter (b.current + 1) o).rootsAt k = b.rootsAt k := fun _ => rfl
    have hnone : b.rootsAt (b.current + 1) = [] := hahead _ (Nat.lt_succ_self _)
    have hshare : share bs (b.current + 1) pre = [] := h.ahead _ (Nat.lt_succ_self _)
    have hcur : (b.enter (b.current + 1) o).current = b.current + 1 := rfl
    rw [heq]
    refine ⟨⟨?_, ?_, ?_, ?_, h.jumps, ?_, ?_⟩, ?_⟩
    · intro k hk
      rw [hcur] at hk
      rw [hroots]
      rcases Nat.lt_or_eq_of_le (Nat.le_of_lt_succ hk) with hlt' | rfl
      · exact h.left k hlt'
      · have hcurrent := h.current
        rwa [htrees, nodesOf_nil, add_zero] at hcurrent
    · rw [hcur, hroots, hnone, hshare]
      exact .empty
    · intro k hk
      exact h.ahead k ((Nat.lt_succ_self _).trans hk)
    · rw [hcur, List.range_succ, List.flatMap_append, h.shares]
      simp [hshare]
    · intro _ _
      rfl
    · rintro ⟨n, hn, -⟩
      rw [hcur, hroots, hnone] at hn
      cases hn
    · intro n hn
      rw [hcur, hroots, hnone] at hn
      cases hn

/-! ## One more record

The builder `b` has entered the block of the record `r`, and behind the record it is `b'`. -/

section Next

variable {b' : Builder} {S : Nat → Prop} {new : List Node}

/-- A jump among the trees of the block is new and comes from the record. -/
theorem Builder.Contributes.isBranch (hnew : Contributes v S b r b' new) {n : Node} (hn : n ∈ new)
    (hb : n.op.isBranch = true) : r.op.isBranch = true := by
  by_contra hno
  rw [hnew.quiet (by simpa using hno) n hn] at hb
  cases hb

/-- The jump of a record is the last tree that the record adds. -/
theorem Builder.Contributes.jumpsTo (h : Translation m body records bs f) (hr : r ∈ records)
    (hoffsets : b.offsets = bs) (hnew : Contributes v S b r b' new) {i : Nat} {n : Node}
    (hn : new[i]? = some n) (hb : n.op.isBranch = true) :
    i + 1 = new.length ∧ JumpsTo records bs n := by
  have hbranch := hnew.isBranch (List.mem_of_getElem? hn) hb
  obtain ⟨t, ht⟩ := (h.decoded r hr).target.mp hbranch
  obtain ⟨stores, jump, rfl, hstores, hop, hoff, k, hk, hblock⟩ := hnew.jump t hbranch ht
  have hlast : i = stores.length := by
    have hlt := (List.getElem?_eq_some_iff.mp hn).1
    rw [List.length_append, List.length_singleton] at hlt
    by_contra hne
    rw [List.getElem?_append_left (by omega)] at hn
    rw [hstores n (List.mem_of_getElem? hn)] at hb
    cases hb
  subst hlast
  rw [List.getElem?_append_right (le_refl _), Nat.sub_self] at hn
  cases hn
  refine ⟨by simp, r, hr, hop.symm, hoff.symm, t, k, ht, hblock, ?_⟩
  rw [← hoffsets]
  exact (blockAt?_eq_some_iff (by rw [hoffsets]; exact h.boundaries.increasing)).mp hk

/-- Where another block starts behind the record, the record leaves no tree. -/
theorem Builder.Contributes.trees_eq_nil (h : Translation m body records bs f)
    (hent : Entered bs r.offset b) (hlength : b.length = body.instructions.length)
    (hnew : Contributes v S b r b' new) (hmem : r.stop ∈ bs)
    (hne : bs[b.current]? ≠ some r.stop) : b'.trees = [] := by
  obtain ⟨x, hx, hle, hstart⟩ := hent.current
  have hpos : 0 < r.size := by
    refine Nat.pos_of_ne_zero fun hzero => hne ?_
    have hsame : r.stop = r.offset := by simp [Record.stop, hzero]
    rw [hsame] at hmem ⊢
    rw [hx, hstart hmem]
  refine hnew.left ?_
  cases hb : r.op.isBranch with
  | true => exact .inl rfl
  | false =>
    refine .inr (.inr ⟨hpos, ?_, ?_⟩)
    · rw [hlength]
      rcases h.boundaries.exists_record h.tiles hmem with hzero | ⟨q, hq, hqs⟩
      · unfold Record.stop at hzero
        omega
      · have := h.offset_lt q hq
        omega
    · rw [blockAt?_isSome_iff (by rw [hent.offsets]; exact h.boundaries.increasing), hent.offsets]
      exact hmem

/-- Behind a jump starts another block. -/
theorem Translation.stop_mem_of_isBranch (h : Translation m body records bs f) (hr : r ∈ records)
    (hent : Entered bs r.offset b) (hb : r.op.isBranch = true)
    (hlt : r.stop < body.instructions.length) : r.stop ∈ bs ∧ bs[b.current]? ≠ some r.stop := by
  have hdec := h.decoded r hr
  obtain ⟨t, ht⟩ := hdec.target.mp hb
  have hplain : StackMachine.temporary? r = none := by
    cases htemp : StackMachine.temporary? r with
    | none => rfl
    | some i => rcases hdec.temporary i htemp with hop | hop <;> simp [hop, Op.isBranch, Op.flow] at hb
  have hpos := h.size_pos r hr hplain
  refine ⟨(h.boundaries.mem_iff _).mpr (.inr ⟨r, hr, hb, t, ht, .inr ⟨rfl, hlt⟩⟩), ?_⟩
  obtain ⟨x, hx, hle, -⟩ := hent.current
  rw [hx]
  intro heq
  have := Option.some.inj heq
  unfold Record.stop at this
  omega

/-- What the record adds goes to the account of its block. -/
theorem Contents.entered_next (h : Translation m body records bs f) (hr : r ∈ records)
    (hc : Contents v records bs body.instructions.length pre b r.offset)
    (hquiet : ∀ n ∈ b.rootsAt b.current, n.op.isBranch = false)
    (hent : Entered bs r.offset b) (hlength : b.length = body.instructions.length)
    (hnew : Contributes v (fun o => ∃ q ∈ share bs b.current pre ++ [r], o = q.offset) b r b' new) :
    Contents v records bs body.instructions.length (pre ++ [r]) b' r.stop := by
  have hshare := share_snoc h.boundaries.increasing hent
  have hroots := hnew.adds.roots hent.current_lt
  have hcur := hnew.adds.current
  refine ⟨?_, ?_, ?_, ?_, ?_, ?_, ?_⟩
  · intro k hk
    rw [hcur] at hk
    rw [hshare, if_neg (by omega), hroots, if_neg (by omega)]
    exact hc.left k hk
  · rw [hcur, hshare, if_pos rfl, hroots, if_pos rfl, nodesOf_append]
    obtain ⟨own, hown, hgains⟩ := hnew.nodes
    refine hc.current.snoc ⟨own, hown, ?_⟩
    have hadd := hgains.add_left (nodesOf (b.rootsAt b.current))
    rwa [← add_assoc, ← add_assoc] at hadd
  · intro k hk
    rw [hcur] at hk
    rw [hshare, if_neg (by omega)]
    exact hc.ahead k hk
  · have hbefore : (List.range b.current).flatMap (share bs · (pre ++ [r])) =
        (List.range b.current).flatMap (share bs · pre) := by
      refine List.flatMap_congr fun k hk => ?_
      have := List.mem_range.mp hk
      rw [hshare, if_neg (by omega)]
    have hall := hc.shares
    rw [List.range_succ, List.flatMap_append] at hall
    rw [hcur, List.range_succ, List.flatMap_append, hbefore]
    simp only [List.flatMap_cons, List.flatMap_nil, List.append_nil, hshare, if_true] at hall ⊢
    rw [← List.append_assoc, hall]
  · intro k i n hn hb
    rw [hroots] at hn ⊢
    by_cases hk : k = b.current
    · subst hk
      rw [if_pos rfl] at hn ⊢
      have hlen : (b.rootsAt b.current).length ≤ i := by
        by_contra hlt
        rw [List.getElem?_append_left (by omega)] at hn
        rw [hquiet n (List.mem_of_getElem? hn)] at hb
        cases hb
      rw [List.getElem?_append_right hlen] at hn
      obtain ⟨hlast, hjump⟩ := hnew.jumpsTo h hr hent.offsets hn hb
      exact ⟨by rw [List.length_append]; omega, hjump⟩
    · rw [if_neg hk] at hn ⊢
      exact hc.jumps k i n hn hb
  · rw [hcur]
    exact hnew.trees_eq_nil h hent hlength
  · rintro ⟨n, hn, hb⟩ hlt
    rw [hcur, hroots, if_pos rfl] at hn
    rw [hcur]
    refine h.stop_mem_of_isBranch hr hent ?_ hlt
    rcases List.mem_append.mp hn with hn | hn
    · rw [hquiet n hn] at hb
      cases hb
    · exact hnew.isBranch hn hb

end Next

/-- Behind the next record. -/
theorem Contents.next (h : Translation m body records bs f)
    (hp : Point m body records bs f pre b (r :: post) o)
    (hc : Contents f.vars records bs body.instructions.length pre b o) :
    ∃ b', Point m body records bs f (pre ++ [r]) b' post r.stop ∧
      Contents f.vars records bs body.instructions.length (pre ++ [r]) b' r.stop ∧
      (r.op.endsBlock = true → b'.trees = []) := by
  obtain ⟨rfl, b', hs, hp'⟩ := hp.next h
  have hinc := h.boundaries.increasing
  have hr : r ∈ records := by simp [hp.split]
  obtain ⟨hc0, hquiet⟩ := hc.enterAt hinc hp.positioned hp.ahead (h.offset_lt r hr)
  -- what is on the stack comes from records of the block
  have htrees : ∀ t ∈ (b.enterAt r.offset).trees,
      ∃ q ∈ share bs (b.enterAt r.offset).current pre ++ [r], t.offset = q.offset := by
    intro t ht
    have hmem : t ∈ nodesOf ((b.enterAt r.offset).rootsAt (b.enterAt r.offset).current) +
        nodesOf (b.enterAt r.offset).trees := by
      refine Multiset.mem_add.mpr (.inr (Multiset.mem_coe.mpr ?_))
      exact List.mem_flatMap.mpr ⟨t, ht, by rw [postorder_eq]; simp⟩
    obtain ⟨q, hq, hoff⟩ := hc0.current.exists_offset hmem
    exact ⟨q, by simp [hq], hoff⟩
  obtain ⟨new, hnew⟩ := step_contributes
    (S := fun o => ∃ q ∈ share bs (b.enterAt r.offset).current pre ++ [r], o = q.offset)
    hp.separated hp.declares (h.decoded r hr).inScope ⟨r, by simp, rfl⟩ htrees
    (hp'.widens h).vars hs
  refine ⟨b', hp', ?_, fun hends => hnew.left (.inr (.inl hends))⟩
  exact hc0.entered_next h hr hquiet (hp.positioned.entered hinc)
    (by rw [length_enterAt, hp.length]) hnew

/-- Behind every beginning of the records. -/
theorem Translation.contents (h : Translation m body records bs f) (hsplit : records = pre ++ rest) :
    ∃ b o, Point m body records bs f pre b rest o ∧
      Contents f.vars records bs body.instructions.length pre b o := by
  induction pre using List.reverseRecOn generalizing rest with
  | nil =>
    rw [List.nil_append] at hsplit
    subst hsplit
    exact ⟨_, 0, h.point_start, contents_start f.vars m body records bs⟩
  | append_singleton pre r ih =>
    obtain ⟨b, o, hp, hc⟩ := ih (show records = pre ++ r :: rest by simp [hsplit])
    obtain ⟨b', hp', hc', -⟩ := hc.next h hp
    exact ⟨b', r.stop, hp', hc'⟩

/-- At the end all blocks are entered, and a last record that ends its block leaves no tree. -/
theorem Translation.contents_end (h : Translation m body records bs f)
    (hlast : ∃ r, records.getLast? = some r ∧ r.op.endsBlock = true) :
    ∃ o, Contents f.vars records bs body.instructions.length records f o ∧ f.trees = [] ∧
      f.current + 1 = bs.length := by
  obtain ⟨r, hr, hends⟩ := hlast
  obtain ⟨pre, rfl⟩ := List.getLast?_eq_some_iff.mp hr
  obtain ⟨b, o, hp, hc⟩ := h.contents (show pre ++ [r] = pre ++ r :: [] from rfl)
  obtain ⟨b', hp', hc', htrees⟩ := hc.next h hp
  have heq := hp'.after
  cases heq
  refine ⟨r.stop, hc', htrees hends, ?_⟩
  obtain ⟨x, hx, -⟩ := hp'.positioned.current
  have hlt := (List.getElem?_eq_some_iff.mp hx).1
  by_contra hne
  -- a block that is not entered would start behind the last record
  obtain ⟨y, hy⟩ : ∃ y, bs[f.current + 1]? = some y := ⟨_, List.getElem?_eq_getElem (by omega)⟩
  have hxy := getElem?_lt_of_increasing h.boundaries.increasing hx hy (Nat.lt_succ_self _)
  obtain ⟨q, hq, rfl⟩ :=
    (h.boundaries.exists_record h.tiles (List.mem_of_getElem? hy)).resolve_left (by omega)
  have hstop : r.stop = body.instructions.length := hp'.tiles
  have := h.offset_lt q hq
  have := hp'.positioned.before _ _ hy (by omega)
  omega

/-- At the end every block is accounted for. -/
theorem Contents.account (hc : Contents v records bs body.instructions.length records b o)
    (htrees : b.trees = []) (hcur : b.current + 1 = bs.length) {k : Nat} (hk : k < bs.length) :
    Accounts v (share bs k records) (nodesOf (b.rootsAt k)) := by
  rcases Nat.lt_or_eq_of_le (show k ≤ b.current by omega) with hlt | rfl
  · exact hc.left k hlt
  · have hcurrent := hc.current
    rwa [htrees, nodesOf_nil, add_zero] at hcurrent

/-- Blocks start at records. -/
theorem Translation.exists_record (h : Translation m body records bs f) (hr : r ∈ records) {x : Nat}
    (hx : x ∈ bs) : ∃ q ∈ records, q.offset = x := by
  rcases h.boundaries.exists_record h.tiles hx with rfl | hq
  · cases hrecords : records with
    | nil => simp [hrecords] at hr
    | cons q post =>
      have htiles := h.tiles
      rw [hrecords] at htiles
      exact ⟨q, by simp, htiles.1⟩
  · exact hq

/-- Where blocks start, in terms of the branches. -/
theorem Translation.mem_boundaries_iff (h : Translation m body records bs f) (x : Nat) :
    x ∈ bs ↔ x = 0 ∨ ∃ r ∈ records, r.op.isBranch = true ∧
      (r.target? = some x ∨ x = r.stop ∧ x < body.instructions.length) := by
  rw [h.boundaries.mem_iff]
  refine or_congr_right (exists_congr fun r => and_congr_right fun hr => and_congr_right fun hb => ?_)
  obtain ⟨t, ht⟩ := (h.decoded r hr).target.mp hb
  simp only [ht, Option.some.injEq, exists_eq_left', eq_comm]
  refine or_congr_right (and_congr_right ?_)
  rintro rfl
  rfl

end Contents

/-! ## Routines -/

namespace Routine

def offsets (r : Routine) : List Nat := r.blocks.toList.map Block.offset

def blockNodes (block : Block) : Multiset Node := nodesOf block.roots.toList

end Routine

/-- The blocks of a routine hold the records of its body, each of them once and in its own block.
Blocks start at offset 0, at the targets of branches and behind branches; the body falls into the
shares of the blocks, in order; the nodes of a block are those of the records of its share, one
for one, and loads and stores of added variables; all of them have offsets of the block; and a
jump is the last tree of its block and names the block at the target of its record. -/
theorem build_blockContents (m : Method) (body : Body) (resolver : Resolver)
    (records : List Record) (routine : Routine)
    (hread : readRecords m body resolver = .ok records)
    (hbuild : build m body resolver = .ok routine)
    (hlast : ∃ r, records.getLast? = some r ∧ (r.op = .br ∨ r.op = .ret ∨ r.op = .throw)) :
    routine.offsets.Pairwise (· < ·) ∧
    (∀ x, x ∈ routine.offsets ↔ x = 0 ∨ ∃ r ∈ records, r.op.isBranch = true ∧
      (r.target? = some x ∨ x = r.stop ∧ x < body.instructions.length)) ∧
    (∀ x ∈ routine.offsets, ∃ r ∈ records, r.offset = x) ∧
    (List.range routine.blocks.size).flatMap (share routine.offsets · records) = records ∧
    ∀ k block, routine.blocks[k]? = some block →
      (∃ own moved : Multiset Node, Routine.blockNodes block = own + moved ∧
        own.map stamp = ↑((share routine.offsets k records).flatMap Record.stamps) ∧
        ∀ n ∈ moved, n.Transfers routine.vars) ∧
      (∀ n ∈ Routine.blockNodes block, block.offset ≤ n.offset ∧
        ∀ next, routine.blocks[k + 1]? = some next → n.offset < next.offset) ∧
      ∀ i n, block.roots[i]? = some n → n.op.isBranch = true → i + 1 = block.roots.size ∧
        ∃ r ∈ records, r.op = n.op ∧ r.offset = n.offset ∧ ∃ target id,
          n.blockId? = some id ∧ routine.blocks[id]? = some target ∧
          r.target? = some target.offset := by
  obtain ⟨bs, f, h, rfl⟩ := Translation.of_build hread hbuild
  obtain ⟨r, hr, hop⟩ := hlast
  have hends : r.op.endsBlock = true := by rcases hop with hop | hop | hop <;> rw [hop] <;> rfl
  obtain ⟨o, hc, htrees, hcur⟩ := h.contents_end ⟨r, hr, hends⟩
  have hoffsets : f.finish.offsets = bs := h.offsets
  have hsize : f.finish.blocks.size = bs.length := by
    rw [← hoffsets]
    simp [Routine.offsets]
  rw [hoffsets]
  refine ⟨h.boundaries.increasing, h.mem_boundaries_iff, ?_, ?_, ?_⟩
  · exact fun x hx => h.exists_record (List.mem_of_getLast? hr) hx
  · rw [hsize, ← hcur]
    exact hc.shares
  · intro k block hk
    have hroots : f.rootsAt k = block.roots.toList := by
      have hk' : f.blocks[k]? = some block := hk
      simp [rootsAt, hk']
    have hstart : ∀ {k : Nat} {block : Block}, f.finish.blocks[k]? = some block →
        bs[k]? = some block.offset := by
      intro k block hk
      rw [← hoffsets]
      simp [Routine.offsets, hk]
    have haccounts : Accounts f.vars (share bs k records) (Routine.blockNodes block) := by
      rw [Routine.blockNodes, ← hroots]
      exact hc.account htrees hcur (List.getElem?_eq_some_iff.mp (hstart hk)).1
    refine ⟨?_, ?_, ?_⟩
    · obtain ⟨own, hown, moved, heq, hmoved⟩ := haccounts
      exact ⟨own, moved, heq, hown, fun n hn => (hmoved n hn).1⟩
    · intro n hn
      obtain ⟨q, hq, hoff⟩ := haccounts.exists_offset hn
      obtain ⟨-, ⟨x, hx, hle⟩, hnext⟩ := mem_share_iff.mp hq
      rw [hstart hk] at hx
      cases hx
      exact ⟨hoff ▸ hle, fun next hn' => hoff ▸ hnext _ (hstart hn')⟩
    · intro i n hi hb
      obtain ⟨hlast, q, hq, hqop, hqoff, t, id, ht, hid, hbs⟩ :=
        hc.jumps k i n (by rw [hroots]; simpa using hi) hb
      refine ⟨by simpa [hroots] using hlast, q, hq, hqop, hqoff, ?_⟩
      have hlt : id < f.finish.blocks.size := by
        rw [hsize]
        exact (List.getElem?_eq_some_iff.mp hbs).1
      have hget : f.finish.blocks[id]? = some (f.finish.blocks[id]) := Array.getElem?_eq_getElem hlt
      refine ⟨_, id, hid, hget, ?_⟩
      rw [ht, ← hbs, hstart hget]

def elementOrOne : Method :=
  { name := "elementOrOne", parameters := [.array .i4, .i4], returnType := .i4 }

def elementOrOneBody : Body := { code := [0x02, 0x03, 0x94, 0x25, 0x2D, 2, 0x26, 0x17, 0x2A] }

def elementOrOneRecords : List Record :=
  [⟨.ldarg, .ref (.argument 0), 0, 1, "ldarg.0"⟩,
   ⟨.ldarg, .ref (.argument 1), 1, 1, "ldarg.1"⟩,
   ⟨.ldelem .i4, .none, 2, 1, "ldelem.i4"⟩,
   ⟨.stloc, .ref (.temporary 0), 3, 0, "dup"⟩,
   ⟨.ldloc, .ref (.temporary 0), 3, 0, "dup"⟩,
   ⟨.ldloc, .ref (.temporary 0), 3, 1, "dup"⟩,
   ⟨.brtrue, .ref (.target 8), 4, 2, "brtrue.s"⟩,
   ⟨.pop, .none, 6, 1, "pop"⟩,
   ⟨.ldc .i4, .int32 1, 7, 1, "ldc.i4.1"⟩,
   ⟨.ret, .none, 8, 1, "ret"⟩]

/-- The first block holds seven records, of which one has two nodes. -/
theorem elementOrOne_blockContents :
    readRecords elementOrOne elementOrOneBody ({} : TokenTable).resolver =
      .ok elementOrOneRecords ∧
    ∃ routine block, build elementOrOne elementOrOneBody ({} : TokenTable).resolver = .ok routine ∧
      routine.offsets = [0, 6, 8] ∧ routine.blocks[0]? = some block ∧
      ∃ own moved : Multiset Node, Routine.blockNodes block = own + moved ∧
        own.map stamp = ↑[(Op.ldarg, 0), (.ldarg, 1), (.ldelema, 2), (.ldind .i4, 2), (.stloc, 3),
          (.ldloc, 3), (.ldloc, 3), (.brtrue, 4)] ∧
        ∀ n ∈ moved, n.Transfers routine.vars := by
  have hread : readRecords elementOrOne elementOrOneBody ({} : TokenTable).resolver =
      .ok elementOrOneRecords := by rfl
  have hoffsets : (build elementOrOne elementOrOneBody ({} : TokenTable).resolver).toOption.map
      Routine.offsets = some [0, 6, 8] := by decide +kernel
  cases hbuild : build elementOrOne elementOrOneBody ({} : TokenTable).resolver with
  | error e => simp [hbuild, Except.toOption] at hoffsets
  | ok routine =>
    simp only [hbuild, Except.toOption, Option.map_some, Option.some.injEq] at hoffsets
    obtain ⟨block, hblock⟩ : ∃ block, routine.blocks[0]? = some block := by
      have hlen := congrArg List.length hoffsets
      simp only [Routine.offsets, List.length_map, Array.length_toList] at hlen
      exact ⟨_, Array.getElem?_eq_getElem (by rw [hlen]; decide)⟩
    obtain ⟨-, -, -, -, hblocks⟩ := build_blockContents elementOrOne elementOrOneBody _
      elementOrOneRecords routine hread hbuild ⟨_, rfl, .inr (.inl rfl)⟩
    have hown := (hblocks 0 block hblock).1
    rw [hoffsets] at hown
    exact ⟨hread, routine, block, rfl, hoffsets, hblock, hown⟩

end SpuCompiler.Trees
