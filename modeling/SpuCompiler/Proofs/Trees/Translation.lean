import SpuCompiler.Proofs.Trees.Duplication
import SpuCompiler.Proofs.Trees.Growth

/-!
A successful build seen from any of its points. Between two records the builder stands at the
next one, its variables are apart, and what it has made is part of the finished routine.
-/

namespace SpuCompiler.Trees

open Metadata Bytecode Builder StackMachine TreeMachine

/-- A body, its records, the starts of its blocks and the builder that has read it all. -/
structure Translation (m : Method) (body : Body) (records : List Record) (bs : List Nat)
    (f : Builder) : Prop where
  tiles : Tiles 0 body.instructions.length records
  boundaries : Boundaries records body.instructions.length bs
  built : records.foldlM step (start m body bs) = .ok f
  decoded : ∀ r ∈ records, Decoded m.argumentCount body.locals.length r
  /-- A load of a temporary belongs to the record before it. -/
  load : ∀ pre r q post i, records = pre ++ r :: q :: post → q.op = .ldloc →
    temporary? q = some i → temporary? r = some i ∧ r.size = 0 ∧ r.offset = q.offset
  first : ∀ q post, records = q :: post → q.op = .ldloc → temporary? q = none
  offset_lt : ∀ r ∈ records, r.offset < body.instructions.length
  size_pos : ∀ r ∈ records, temporary? r = none → 0 < r.size
  ordered : ∀ pre r post b i, records = pre ++ r :: post →
    pre.foldlM step (start m body bs) = .ok b → temporary? r = some i → i ≤ b.temporaries.size

theorem Translation.of_build {m : Method} {body : Body} {resolver : Resolver} {routine : Routine}
    {records : List Record} (hread : readRecords m body resolver = .ok records)
    (h : build m body resolver = .ok routine) :
    ∃ bs f, Translation m body records bs f ∧ routine = f.finish := by
  obtain ⟨records', bs, f, hread', hbs, hf, rfl⟩ := build_eq_ok h
  rw [hread] at hread'
  cases hread'
  obtain ⟨is, hdec, -, rfl⟩ := (Reader.readAll_eq_ok_iff m body resolver records).mp
    (mapError_eq_ok.mp hread)
  have hno : ∀ r ∈ is, temporary? r = none :=
    fun r hr => temporary?_of_accepts (hdec.accepts r hr)
  have htiles : Tiles 0 body.instructions.length is := by simpa using hdec.tiles
  refine ⟨bs, f, ⟨htiles.openAll, boundariesOf_ok hbs, hf, decoded_openAll hdec.accepts, ?_, ?_, ?_, ?_,
    ?_⟩, rfl⟩
  · intro pre r q post i hsplit hq hi
    exact load_openAll hno hsplit hq hi
  · intro q post hsplit hq
    exact head_openAll hno hsplit hq
  · intro r hr
    obtain ⟨q, hq, hqr⟩ := exists_offset_openAll_iff.mp ⟨r, hr, rfl⟩
    have := (htiles.bounds hq).2
    have := (hdec.accepts q hq).size_pos
    unfold Record.stop at *
    omega
  · intro r hr hplain
    exact (hdec.accepts r (mem_of_mem_openAll hr hplain)).size_pos
  · intro pre r post b i hsplit hb hi
    exact temporary_le_size hno (show (start m body bs).temporaries.size = 0 from rfl) hsplit hb hi

structure Point (m : Method) (body : Body) (records : List Record) (bs : List Nat) (f : Builder)
    (pre : List Record) (b : Builder) (rest : List Record) (o : Nat) : Prop where
  split : records = pre ++ rest
  before : pre.foldlM step (start m body bs) = .ok b
  after : rest.foldlM step b = .ok f
  tiles : Tiles o body.instructions.length rest
  positioned : Positioned bs o b
  separated : b.Separated
  declares : b.Declares m.argumentCount body.locals.length
  ahead : b.Ahead
  method : b.method = m
  length : b.length = body.instructions.length

section Point

variable {m : Method} {body : Body} {records pre post rest : List Record} {bs : List Nat}
  {f b : Builder} {r : Record} {o : Nat}

variable (h : Translation m body records bs f)

include h

theorem Translation.point_start : Point m body records bs f [] (start m body bs) records 0 :=
  ⟨rfl, rfl, h.built, h.tiles, start_positioned m body h.boundaries.head, start_separated m body bs,
    start_declares m body bs, start_ahead m body bs, rfl, rfl⟩

/-- The next record takes the builder to the next point. -/
theorem Point.next (hp : Point m body records bs f pre b (r :: post) o) :
    o = r.offset ∧ ∃ b', b.step r = .ok b' ∧
      Point m body records bs f (pre ++ [r]) b' post r.stop := by
  have hr : r ∈ records := by simp [hp.split]
  have hinc := h.boundaries.increasing
  obtain ⟨rfl, htiles⟩ := hp.tiles
  obtain ⟨b', hs, hafter⟩ := foldlM_cons_eq_ok.mp hp.after
  have hkeeps := step_keeps hs
  have hent := hp.positioned.entered hinc
  obtain ⟨hsep, hw⟩ := step_separated hp.separated hp.declares (h.decoded r hr).inScope hs
  refine ⟨rfl, b', hs, ⟨by simp [hp.split], ?_, hafter, htiles, ?_, hsep, ?_, ?_, ?_, ?_⟩⟩
  · exact foldlM_append_eq_ok.mpr ⟨b, hp.before, foldlM_cons_eq_ok.mpr ⟨b', hs, rfl⟩⟩
  · exact hent.positioned h.boundaries h.tiles hr hkeeps.offsets hkeeps.current
  · exact hw.declares ⟨hkeeps.arguments.trans (arguments_enterAt b _),
      hkeeps.locals.trans (locals_enterAt b _)⟩ hp.declares
  · exact (step_grows hinc hp.positioned hs).2 hp.ahead
  · rw [hkeeps.method, method_enterAt, hp.method]
  · rw [hkeeps.length, length_enterAt, hp.length]

/-- There is a point before every rest of the records. -/
theorem Translation.exists_point (hsplit : records = pre ++ rest) :
    ∃ b o, Point m body records bs f pre b rest o := by
  induction pre using List.reverseRecOn generalizing rest with
  | nil =>
    rw [List.nil_append] at hsplit
    subst hsplit
    exact ⟨_, 0, h.point_start⟩
  | append_singleton pre r ih =>
    obtain ⟨b, o, hp⟩ := ih (show records = pre ++ r :: rest by simp [hsplit])
    obtain ⟨rfl, b', -, hp'⟩ := hp.next h
    exact ⟨b', r.stop, hp'⟩

theorem Point.grows (hp : Point m body records bs f pre b rest o) : b.Grows f := by
  induction rest generalizing pre b o with
  | nil =>
    have := hp.after
    cases this
    exact .refl _
  | cons r rest ih =>
    obtain ⟨rfl, b', hs, hp'⟩ := hp.next h
    exact (step_grows h.boundaries.increasing hp.positioned hs).1.trans (ih hp')

theorem Point.recording (hp : Point m body records bs f pre b rest o) : b.Recording f := by
  refine foldlM_recording ?_ hp.after
  intro r hr
  exact (h.decoded r (by simp [hp.split, hr])).ne_dup

theorem Point.widens (hp : Point m body records bs f pre b rest o) : b.Widens f := by
  refine (foldlM_separated hp.separated hp.declares ?_ hp.after).2.2
  intro r hr
  exact (h.decoded r (by simp [hp.split, hr])).inScope

/-- Behind a record the current block starts at or before the record. -/
theorem Point.current_before {p : Record} (hp : Point m body records bs f (pre ++ [p]) b rest o) :
    ∃ x, bs[b.current]? = some x ∧ x ≤ p.offset := by
  obtain ⟨b0, o0, hp0⟩ := h.exists_point (show records = pre ++ p :: rest by simp [hp.split])
  obtain ⟨rfl, b1, hs, hp1⟩ := hp0.next h
  have heq : b1 = b := Except.ok.inj (hp1.before.symm.trans hp.before)
  subst heq
  obtain ⟨x, hx, hle, -⟩ := (hp0.positioned.entered h.boundaries.increasing).current
  exact ⟨x, by rw [(step_keeps hs).current, hx], hle⟩

theorem Translation.separated : f.Separated := by
  obtain ⟨b, o, hp⟩ := h.exists_point (show records = records ++ [] by simp)
  have heq := hp.after
  cases heq
  exact hp.separated

theorem Translation.offsets : f.offsets = bs := by
  obtain ⟨b, o, hp⟩ := h.exists_point (show records = records ++ [] by simp)
  have heq := hp.after
  cases heq
  exact hp.positioned.offsets

end Point

/-- Blocks start one behind the other. -/
theorem build_offsets {m : Method} {body : Body} {resolver : Resolver} {routine : Routine}
    (h : build m body resolver = .ok routine) :
    (routine.blocks.toList.map Block.offset).Pairwise (· < ·) := by
  obtain ⟨records, hread, -⟩ := bind_eq_ok.mp h
  obtain ⟨bs, f, ht, rfl⟩ := Translation.of_build hread h
  have hoffsets := ht.offsets
  rw [Builder.offsets] at hoffsets
  rw [Builder.finish, hoffsets]
  exact ht.boundaries.increasing

end SpuCompiler.Trees
