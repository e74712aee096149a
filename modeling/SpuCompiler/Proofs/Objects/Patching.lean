import SpuCompiler.Proofs.Machine.Encoding
import SpuCompiler.Proofs.Objects.Layout

/-!
Symbolic references of a placed program. One pass over the code turns returns into branches and
notes which immediates depend on places; when every object has its place, the immediates are
written. Both passes together put into every reference in a routine the distance to its target or
the target's address, and change nothing else. A block without a routine, which somebody has placed
by hand, is not looked at.
-/

namespace SpuCompiler.Objects

open Machine

variable {name : String} {epilogue : Option ObjectId} {id index start : Nat} {i j : Instr}
  {target : Option (ObjectId × PatchKind)} {o : Object} {image : Image}

def Image.offset? (image : Image) (id : ObjectId) : Option Nat := (image.objects[id]?).map (·.offset)

/-- The instruction at an offset has the distance to another one, also in its word. -/
def Reaches (j : Instr) (source target : Nat) : Prop :=
  (source : Int) + 4 * j.constant = target ∧
    ∀ map w, j.encode map = .ok w → immediate16 w * 4 + source = target

/-- The instruction has an address, also in its word. -/
def Addresses (j : Instr) (target : Nat) : Prop :=
  j.constant = target ∧ ∀ map w, j.encode map = .ok w → immediate18 w = target

/-- The immediate of the instruction depends on the place of an object. -/
def Symbolic (i : Instr) : Prop :=
  i.opcode = .ret ∨ ∃ t, i.target = some (.object t) ∧ i.opcode.patchKind.isSome = true

/-- What an instruction `i` at an offset becomes in the image. -/
structure Image.Patches (image : Image) (epilogue : Option ObjectId) (source : Nat) (i j : Instr) :
    Prop where
  relative : ∀ t, i.target = some (.object t) → i.opcode.patchKind = some .relativeWord →
    ∃ x, image.offset? t = some x ∧ Reaches j source x
  absolute : ∀ t, i.target = some (.object t) → i.opcode = .ila →
    ∃ x, image.offset? t = some x ∧ Addresses j x
  returns : i.opcode = .ret → ∃ e x, epilogue = some e ∧ image.offset? e = some x ∧
    j = { Instr.withTarget .br none (.object e) with constant := j.constant } ∧ Reaches j source x
  fields : i.opcode ≠ .ret → j = { i with constant := j.constant }
  others : ¬ Symbolic i → j = i
  resolved : j.opcode ≠ .ret ∧ ∀ b, j.target ≠ some (.block b)
  admits : Symbolic i → j.opcode.Admits j.constant
  encodes : Symbolic i → ∀ map mnemonic value,
    j.encode map ≠ .error (.immediateOutOfRange mnemonic value)

/-! ## The first pass -/

/-- A return becomes a branch to the epilogue, anything else stays, and no block is named. -/
structure Resolves (epilogue : Option ObjectId) (i j : Instr) : Prop where
  returns : i.opcode = .ret → ∃ e, epilogue = some e ∧ j = .withTarget .br none (.object e)
  same : i.opcode ≠ .ret → j = i
  noBlock : ∀ b, j.target ≠ some (.block b)

theorem Resolves.of_ok (h : resolveReturn name epilogue i = .ok j)
    (ht : patchTarget? name index j = .ok target) : Resolves epilogue i j := by
  have hblock : ∀ b, j.target ≠ some (.block b) := by
    intro b hb
    simp [patchTarget?, hb] at ht
  unfold resolveReturn at h
  split at h
  · rename_i hret
    split at h
    · rename_i e
      cases h
      exact ⟨fun _ => ⟨e, rfl, rfl⟩, fun hne => absurd hret hne, hblock⟩
    · cases h
  · rename_i hret
    cases h
    exact ⟨fun h => absurd h hret, fun _ => rfl, hblock⟩

def PatchAt (id start index : Nat) (j : Instr) (p : Patch) : Prop :=
  p.block = id ∧ p.index = index ∧ p.source = start + 4 * index ∧
    j.target = some (.object p.target) ∧ j.opcode.patchKind = some p.kind

theorem mem_patchTarget? (h : patchTarget? name index j = .ok target) (p : Patch) :
    p ∈ (target.toList.map fun (t, k) => (⟨id, index, start + 4 * index, t, k⟩ : Patch)) ↔
      PatchAt id start index j p := by
  obtain ⟨block, index', source, t, kind⟩ := p
  unfold PatchAt
  unfold patchTarget? at h
  split at h
  · rename_i hj
    cases h
    simp [hj]
  · rename_i t' hj
    cases h
    cases hk : j.opcode.patchKind with
    | none => simp [hj]
    | some k =>
      simp only [Option.map_some, Option.toList_some, List.map_cons, List.map_nil,
        List.mem_singleton, Patch.mk.injEq, hj, Option.some.injEq, Target.object.injEq]
      grind
  · cases h

theorem scanCode_ok {is js : List Instr} {ps : List Patch}
    (h : scanCode o id start epilogue index is = (js, .ok ps)) :
    List.Forall₂ (Resolves epilogue) is js ∧
      ∀ p, p ∈ ps ↔ ∃ k j, js[k]? = some j ∧ PatchAt id start (index + k) j p := by
  induction is generalizing index js ps with
  | nil =>
    cases h
    exact ⟨.nil, by simp⟩
  | cons i is ih =>
    unfold scanCode at h
    split at h
    · cases h
    rename_i j hj
    split at h
    · cases h
    rename_i target htarget
    rcases hscan : scanCode o id start epilogue (index + 1) is with ⟨js', e | ps'⟩
    · simp [hscan, Except.map] at h
    simp only [hscan, Except.map, Prod.mk.injEq, Except.ok.injEq] at h
    obtain ⟨rfl, rfl⟩ := h
    obtain ⟨hall, hmem⟩ := ih hscan
    refine ⟨.cons (.of_ok hj htarget) hall, ?_⟩
    intro p
    rw [List.mem_append, mem_patchTarget? htarget, hmem]
    constructor
    · rintro (hp | ⟨k, j', hk, hp⟩)
      · exact ⟨0, j, rfl, hp⟩
      · exact ⟨k + 1, j', hk, by rwa [Nat.add_comm k 1, ← Nat.add_assoc]⟩
    · rintro ⟨k, j', hk, hp⟩
      cases k with
      | zero =>
        cases hk
        exact .inl hp
      | succ k => exact .inr ⟨k, j', hk, by rwa [Nat.add_comm k 1, ← Nat.add_assoc] at hp⟩

/-- A patch belongs to an instruction of a placed block. -/
def Arena.Wants (a : Arena) (p : Patch) : Prop :=
  ∃ o x j, a.get? p.block = some o ∧ o.offset = some x ∧ o.code[p.index]? = some j ∧
    PatchAt p.block x p.index j p

/-- The code of a block is resolved, and its patches are listed. -/
def Scanned (a : Arena) (ps : List Patch) (epilogue : Option ObjectId) (id : ObjectId)
    (o : Object) : Prop :=
  (∃ o', a.get? id = some o' ∧ List.Forall₂ (Resolves epilogue) o.code.toList o'.code.toList) ∧
    ∀ p, p.block = id → a.Wants p → p ∈ ps

/-- What a part of the first pass does: patches are added for instructions that want them, in
objects that had no place, and an object that changes had no place before and has one now. -/
structure Pass (a : Arena) (ps : List Patch) (a' : Arena) (ps' : List Patch) : Prop where
  places : a.Places a'
  keeps : ∀ p ∈ ps, p ∈ ps'
  wanted : ∀ p ∈ ps', p ∈ ps ∨ a.place? p.block = none ∧ a'.Wants p
  objects : ∀ id o, a.get? id = some o → a'.get? id = some o ∨
    o.offset = none ∧ (a'.place? id).isSome = true ∧ ∀ r, o.kind = .block r →
      ∃ epilogue, (a.get? r).map Object.kind = some (.routine epilogue) ∧
        Scanned a' ps' epilogue id o

namespace Pass

variable {a b c : Arena} {ps qs rs : List Patch}
variable {p : Patch}

theorem refl (a : Arena) (ps : List Patch) : Pass a ps a ps :=
  ⟨.refl a, fun _ h => h, fun _ h => .inl h, fun _ _ h => .inl h⟩

/-- Objects with a place stay as they are. -/
theorem frozen (h : Pass a ps b qs) {id : ObjectId} (ho : a.get? id = some o)
    (hplaced : o.offset ≠ none) : b.get? id = some o := by
  rcases h.objects id o ho with hsame | ⟨hnone, -⟩
  · exact hsame
  · exact absurd hnone hplaced

theorem wants (h : Pass a ps b qs) (hp : a.Wants p) : b.Wants p := by
  obtain ⟨o, x, j, ho, hx, hj, hat⟩ := hp
  exact ⟨o, x, j, h.frozen ho (by simp [hx]), hx, hj, hat⟩

/-- In an object that stays as it is, nothing new is wanted. -/
theorem wants_of_same (hsame : b.get? p.block = a.get? p.block) (hp : b.Wants p) : a.Wants p := by
  obtain ⟨o, x, j, ho, hx, hj, hat⟩ := hp
  exact ⟨o, x, j, hsame ▸ ho, hx, hj, hat⟩

theorem trans (h : Pass a ps b qs) (h' : Pass b qs c rs) : Pass a ps c rs := by
  refine ⟨h.places.trans h'.places, fun p hp => h'.keeps p (h.keeps p hp), ?_, ?_⟩
  · intro p hp
    rcases h'.wanted p hp with hp | ⟨hnone, hp⟩
    · exact (h.wanted p hp).imp_right (And.imp_right h'.wants)
    · exact .inr ⟨h.places.place?_eq_none hnone, hp⟩
  · intro id o ho
    rcases h.objects id o ho with hsame | ⟨hnone, hplaced, hblock⟩
    · rcases h'.objects id o hsame with hsame' | ⟨hnone, hplaced, hblock⟩
      · exact .inl hsame'
      · refine .inr ⟨hnone, hplaced, ?_⟩
        intro r hr
        rw [← h.places.kind]
        exact hblock r hr
    · -- what the first part has placed, the second one leaves alone
      obtain ⟨x, hx⟩ := Option.isSome_iff_exists.mp hplaced
      obtain ⟨o', ho', hx'⟩ := Option.bind_eq_some_iff.mp hx
      have hfrozen := h'.frozen ho' (by simp [hx'])
      refine .inr ⟨hnone, by simp [Arena.place?, hfrozen, hx'], ?_⟩
      intro r hr
      obtain ⟨epilogue, howner, ⟨o'', ho'', hcode⟩, hlisted⟩ := hblock r hr
      obtain rfl : o' = o'' := Option.some.inj (ho'.symm.trans ho'')
      refine ⟨epilogue, howner, ⟨o', hfrozen, hcode⟩, ?_⟩
      rintro p rfl hp
      exact h'.keeps p (hlisted p rfl (wants_of_same (hfrozen.trans ho'.symm) hp))

end Pass

namespace Layout

variable {r x stop cursor : Nat} {ps : List Patch} {a a' : Arena} {ps' : Array Patch}
  {ids : List ObjectId}

theorem setOffset_pass (h : a.setOffset id x = .ok a')
    (hkind : ∀ o r, a.get? id = some o → o.kind ≠ .block r) : Pass a ps a' ps := by
  obtain ⟨hplaces, hunplaced, hplace, hother⟩ := Arena.setOffset_places h
  refine ⟨hplaces, fun _ hp => hp, fun _ hp => .inl hp, ?_⟩
  intro j o ho
  by_cases hj : j = id
  · subst hj
    have hnone : o.offset = none := by simpa [Arena.place?, ho] using hunplaced
    refine .inr ⟨hnone, by simp [hplace (Arena.lt_size_of_get? ho)], ?_⟩
    intro r hr
    exact absurd hr (hkind o r ho)
  · exact .inl ((hother j hj).trans ho)

theorem placeBlock_pass {more : List Patch} (h : Runs (placeBlock id x epilogue) a more a')
    (ho : a.get? id = some o) (hk : o.kind = .block r)
    (hr : (a.get? r).map Object.kind = some (.routine epilogue)) : Pass a ps a' (ps ++ more) := by
  obtain ⟨hplaces, hunplaced, hplace, hother⟩ := placeBlock_places h
  simp only [placeBlock, runs_bind, setOffset_runs, runs_get] at h
  obtain ⟨-, b, hb, _, _, ⟨rfl, rfl⟩, h⟩ := h
  have hnone : o.offset = none := by simpa [Arena.place?, ho] using hunplaced
  have hset : b.get? id = some { o with offset := some x } := by
    simp only [Arena.setOffset, ho, hnone, Except.ok.injEq] at hb
    rw [← hb, Arena.get?_modify, if_pos rfl, ho]
    rfl
  simp only [hset, runs_bind, runs_lift, runs_set] at h
  obtain ⟨-, _, ⟨-, rfl⟩, -, c, rfl, hmore, rfl⟩ := h
  obtain ⟨hcode, hmem⟩ := scanCode_ok (Prod.ext rfl hmore)
  obtain ⟨code, hscan⟩ : ∃ code, (scanCode { o with offset := some x } id x epilogue 0
    o.code.toList).1 = code := ⟨_, rfl⟩
  have hget : (b.setCode id code.toArray).get? id =
      some { o with offset := some x, code := code.toArray } := by
    rw [Arena.setCode, Arena.get?_modify, if_pos rfl, hset]
    rfl
  simp only [hscan, Nat.zero_add] at hplaces hplace hother hcode hmem ⊢
  have hwants : ∀ p, p.block = id → ((b.setCode id code.toArray).Wants p ↔ p ∈ more) := by
    rintro p rfl
    rw [hmem]
    constructor
    · rintro ⟨o', y, j, ho', hy, hj, hat⟩
      rw [hget, Option.some.injEq] at ho'
      subst ho'
      cases hy
      exact ⟨p.index, j, by simpa using hj, hat⟩
    · rintro ⟨k, j, hj, hat⟩
      obtain ⟨-, rfl, -⟩ := id hat
      exact ⟨_, x, j, hget, rfl, by simpa using hj, hat⟩
  refine ⟨hplaces, fun p hp => List.mem_append_left _ hp, ?_, ?_⟩
  · intro p hp
    rcases List.mem_append.mp hp with hp | hp
    · exact .inl hp
    · obtain ⟨_, _, -, hat⟩ := (hmem p).mp hp
      exact .inr ⟨hat.1 ▸ hunplaced, (hwants p hat.1).mpr hp⟩
  · intro j o' ho'
    by_cases hj : j = id
    · subst hj
      obtain rfl : o = o' := Option.some.inj (ho.symm.trans ho')
      refine .inr ⟨hnone, by simp [hplace (Arena.lt_size_of_get? ho)], ?_⟩
      intro r' hr'
      obtain rfl : r = r' := ObjectKind.block.inj (hk.symm.trans hr')
      exact ⟨epilogue, hr, ⟨_, hget, hcode⟩,
        fun p hp hw => List.mem_append_right _ ((hwants p hp).mp hw)⟩
    · exact .inl ((hother j hj).trans ho')

theorem placeBlocks_pass {ps : Array Patch}
    (h : Runs (placeBlocks epilogue cursor ps ids) a (stop, ps') a')
    (hids : ∀ id ∈ ids, ∃ o, a.get? id = some o ∧ o.kind = .block r)
    (hr : (a.get? r).map Object.kind = some (.routine epilogue)) :
    Pass a ps.toList a' ps'.toList := by
  induction ids generalizing cursor ps a with
  | nil =>
    obtain ⟨heq, rfl⟩ := runs_pure.mp h
    cases heq
    exact .refl _ _
  | cons id ids ih =>
    simp only [placeBlocks, runs_bind, runs_get] at h
    obtain ⟨more, b, hb, _, _, ⟨rfl, rfl⟩, h⟩ := h
    obtain ⟨o, ho, hk⟩ := hids id (by simp)
    have hblock : Pass a ps.toList b (ps ++ more.toArray).toList := by
      rw [Array.toList_append]
      exact placeBlock_pass hb ho hk hr
    refine hblock.trans (ih h ?_ (by rw [hblock.places.kind, hr]))
    intro j hj
    obtain ⟨o, ho, hk⟩ := hids j (by simp [hj])
    obtain ⟨offset, code, hget, -⟩ := hblock.places.get j o ho
    exact ⟨_, hget, hk⟩

theorem placeObject_pass {id : ObjectId} {ps : Array Patch}
    (h : Runs (placeObject id cursor ps) a (stop, ps') a') (ho : a.get? id = some o)
    (htop : o.isTopLevel = true) : Pass a ps.toList a' ps'.toList := by
  simp only [placeObject, runs_bind, setOffset_runs, runs_get] at h
  obtain ⟨-, b, hb, _, _, ⟨rfl, rfl⟩, h⟩ := h
  have hset : Pass a ps.toList b ps.toList := by
    refine setOffset_pass hb ?_
    intro o' r ho' hk
    obtain rfl : o = o' := Option.some.inj (ho.symm.trans ho')
    simp [Object.isTopLevel, hk] at htop
  obtain ⟨offset, code, hget, -⟩ := hset.places.get id o ho
  simp only [hget] at h
  split at h
  · rename_i epilogue hk
    split at h
    · simp only [runs_bind] at h
      obtain ⟨_, _, hthrow, -⟩ := h
      exact absurd hthrow not_runs_throw
    · simp only [runs_bind, runs_lift, runs_pure] at h
      obtain ⟨⟨stop', ps''⟩, c, hc, -, _, ⟨-, rfl⟩, heq, rfl⟩ := h
      cases heq
      exact hset.trans (placeBlocks_pass hc (fun j hj => mem_blocksOf.mp hj) (by simp [hget, hk]))
  · simp only [runs_bind, runs_lift, runs_pure] at h
    obtain ⟨-, _, ⟨-, rfl⟩, heq, rfl⟩ := h
    cases heq
    exact hset

theorem placeObjects_pass {base : Nat} {ps : Array Patch}
    (h : Runs (placeObjects base cursor ps ids) a (stop, ps') a')
    (hids : ∀ id ∈ ids, ∃ o, a.get? id = some o ∧ o.isTopLevel = true) :
    Pass a ps.toList a' ps'.toList := by
  induction ids generalizing cursor ps a with
  | nil =>
    obtain ⟨heq, rfl⟩ := runs_pure.mp h
    cases heq
    exact .refl _ _
  | cons id ids ih =>
    simp only [placeObjects, runs_bind] at h
    obtain ⟨⟨next, more⟩, b, hb, h⟩ := h
    obtain ⟨o, ho, htop⟩ := hids id (by simp)
    have hfirst := placeObject_pass hb ho htop
    refine hfirst.trans (ih h ?_)
    intro j hj
    obtain ⟨o, ho, htop⟩ := hids j (by simp [hj])
    obtain ⟨offset, code, hget, -⟩ := hfirst.places.get j o ho
    exact ⟨_, hget, htop⟩

/-! ## The second pass -/

/-- The immediate that a patch with a target at an offset writes. -/
def Writes (p : Patch) (target : Nat) (v : Int) : Prop :=
  match p.kind with
  | .relativeWord => p.source + 4 * v = target ∧ -0x8000 ≤ v ∧ v < 0x8000
  | .absoluteByte => v = target ∧ target < 0x40000

theorem patchValue_ok {p : Patch} {v : Int} (h : patchValue a p = .ok v) :
    ∃ target, a.offset p.target = .ok target ∧ Writes p target v := by
  obtain ⟨target, htarget, h⟩ := bind_eq_ok.mp h
  refine ⟨target, htarget, ?_⟩
  unfold Writes
  split
  · rename_i hk
    simp only [hk] at h
    split at h
    · cases h
    · split at h
      · rename_i hmod hrange
        cases h
        omega
      · cases h
  · rename_i hk
    simp only [hk] at h
    split at h
    · rename_i hlt
      cases h
      exact ⟨rfl, hlt⟩
    · cases h

/-- Each instruction stays as it is or gets the immediate of one of its patches. -/
theorem applyPatches_ok {f : Arena} {u : Unit} (h : Runs (applyPatches ps) a u f) {id : ObjectId}
    (ho : a.get? id = some o) :
    ∃ code, f.get? id = some { o with code := code } ∧ code.size = o.code.size ∧
      ∀ (k : Nat) j j', o.code[k]? = some j → code[k]? = some j' →
        (j' = j ∧ ∀ p ∈ ps, ¬ (p.block = id ∧ p.index = k)) ∨
        ∃ p ∈ ps, ∃ target v, p.block = id ∧ p.index = k ∧ f.offset p.target = .ok target ∧
          Writes p target v ∧ j' = { j with constant := v } := by
  induction ps generalizing a o with
  | nil =>
    obtain ⟨-, rfl⟩ := runs_pure.mp h
    refine ⟨o.code, ho, rfl, ?_⟩
    intro k j j' hj hj'
    exact .inl ⟨Option.some.inj (hj'.symm.trans hj), by simp⟩
  | cons q ps ih =>
    simp only [applyPatches, applyPatch, runs_bind, runs_get, runs_lift, runs_set] at h
    obtain ⟨-, b, ⟨_, _, ⟨rfl, rfl⟩, v, _, ⟨hv, rfl⟩, rfl⟩, h⟩ := h
    obtain ⟨target, htarget, hwrites⟩ := patchValue_ok hv
    have hstep : a.Places (a.modify q.block fun o =>
        { o with code := o.code.modify q.index fun i => { i with constant := v } }) := by
      refine .of_modify ?_
      intro o _
      exact ⟨o.offset, _, rfl, by simp, fun _ hx => hx⟩
    have hlast := (applyPatches_places h).offset (hstep.offset htarget)
    by_cases hid : q.block = id
    · obtain ⟨code, hget, hsize, hcode⟩ := ih h (by rw [Arena.get?_modify, if_pos hid, ho]; rfl)
      refine ⟨code, hget, by simpa using hsize, ?_⟩
      intro k j j' hj hj'
      -- a later patch of the same instruction prevails over this one
      by_cases hk : q.index = k
      · have hmod : (o.code.modify q.index fun i => { i with constant := v })[k]? =
            some { j with constant := v } := by simp [Array.getElem?_modify, hk, hj]
        rcases hcode k _ j' hmod hj' with ⟨rfl, -⟩ | ⟨p, hp, target', v', hrest⟩
        · exact .inr ⟨q, by simp, target, v, hid, hk, hlast, hwrites, rfl⟩
        · exact .inr ⟨p, by simp [hp], target', v', hrest⟩
      · have hmod : (o.code.modify q.index fun i => { i with constant := v })[k]? = some j := by
          simp [Array.getElem?_modify, hk, hj]
        rcases hcode k j j' hmod hj' with ⟨rfl, hnone⟩ | ⟨p, hp, hrest⟩
        · refine .inl ⟨rfl, ?_⟩
          rintro p (_ | ⟨_, hp⟩)
          · exact fun hq => hk hq.2
          · exact hnone p hp
        · exact .inr ⟨p, by simp [hp], hrest⟩
    · obtain ⟨code, hget, hsize, hcode⟩ := ih h (by rw [Arena.get?_modify, if_neg hid, ho])
      refine ⟨code, hget, hsize, ?_⟩
      intro k j j' hj hj'
      rcases hcode k j j' hj hj' with ⟨rfl, hnone⟩ | ⟨p, hp, hrest⟩
      · refine .inl ⟨rfl, ?_⟩
        rintro p (_ | ⟨_, hp⟩)
        · exact fun hq => hid hq.1
        · exact hnone p hp
      · exact .inr ⟨p, by simp [hp], hrest⟩

end Layout

/-! ## Both passes -/

section Settled

variable {p : Patch} {j : Instr} {target : Nat} {v : Int}

open Layout

theorem Layout.Writes.reaches (h : Writes p target v) (hk : j.opcode.patchKind = some p.kind)
    (hrel : j.opcode.patchKind = some .relativeWord) :
    Reaches { j with constant := v } p.source target := by
  obtain ⟨hformat, hsigned⟩ := Opcode.format_of_relativeWord hrel
  obtain hp : p.kind = .relativeWord := Option.some.inj (hk.symm.trans hrel)
  simp only [Writes, hp] at h
  refine ⟨h.1, ?_⟩
  intro map w hw
  have himm := Instr.immediate16_of_encode hw hformat hsigned
  simp only at himm
  omega

theorem Layout.Writes.addresses (h : Writes p target v) (hk : j.opcode.patchKind = some p.kind)
    (hila : j.opcode = .ila) : Addresses { j with constant := v } target := by
  have habs := Opcode.patchKind_eq_absoluteByte_iff.mpr hila
  obtain hp : p.kind = .absoluteByte := Option.some.inj (hk.symm.trans habs)
  simp only [Writes, hp] at h
  refine ⟨h.1, ?_⟩
  intro map w hw
  have himm := Instr.immediate18_of_encode hw (by rw [hila]; rfl)
  simp only [h.1] at himm
  exact_mod_cast himm

theorem Layout.Writes.admits (h : Writes p target v) (hk : j.opcode.patchKind = some p.kind) :
    j.opcode.Admits v := by
  intro low high hrange
  unfold Writes at h
  cases hp : p.kind with
  | relativeWord =>
    obtain ⟨hformat, hsigned⟩ := Opcode.format_of_relativeWord (hk.trans (congrArg some hp))
    have hwide : j.opcode.immediateRange = some (-0x8000, 0x7FFF) := by
      simp [Opcode.immediateRange, hformat, hsigned]
    cases hwide.symm.trans hrange
    simp only [hp] at h
    omega
  | absoluteByte =>
    have hila := Opcode.patchKind_eq_absoluteByte_iff.mp (hk.trans (congrArg some hp))
    rw [hila] at hrange
    cases hrange
    simp only [hp] at h
    omega

end Settled

/-- What the second pass does to an instruction at an offset. -/
inductive Image.Settles (image : Image) (source : Nat) (i : Instr) : Instr → Prop
  | same : (∀ t, i.target = some (.object t) → i.opcode.patchKind = none) → image.Settles source i i
  | patched {p : Patch} {target : Nat} {v : Int} : p.source = source →
      i.target = some (.object p.target) → i.opcode.patchKind = some p.kind →
      image.offset? p.target = some target → Layout.Writes p target v →
      image.Settles source i { i with constant := v }

/-- A return has been given the target that its branch needs, so the second pass treats it as any
other reference. -/
theorem Image.Settles.patches {image : Image} {epilogue : Option ObjectId} {source : Nat}
    {i i' j : Instr} (h : image.Settles source i' j) (hi : Resolves epilogue i i') :
    image.Patches epilogue source i j := by
  cases h with
  | same hnone =>
    have hopcode : i.opcode ≠ .ret := by
      intro h
      obtain ⟨e, -, rfl⟩ := hi.returns h
      cases hnone e rfl
    obtain rfl := hi.same hopcode
    have hplain : ¬ Symbolic i' := by
      rintro (h | ⟨t, ht, hk⟩)
      · exact hopcode h
      · simp [hnone t ht] at hk
    refine ⟨?_, ?_, fun h => absurd h hopcode, fun _ => rfl, fun _ => rfl, ⟨hopcode, hi.noBlock⟩,
      fun h => absurd h hplain, fun h => absurd h hplain⟩
    · intro t ht hk
      simp [hnone t ht] at hk
    · intro t ht hila
      have habs := Opcode.patchKind_eq_absoluteByte_iff.mpr hila
      simp [hnone t ht] at habs
  | @patched p target v hsource htarget hk hoff hwrites =>
    subst hsource
    have hadmits := hwrites.admits hk
    have hopcode : i'.opcode ≠ .ret := by
      intro h
      simp [h, Opcode.patchKind] at hk
    refine ⟨?_, ?_, ?_, ?_, ?_, ⟨hopcode, hi.noBlock⟩, fun _ => hadmits, fun _ _ =>
      Instr.encode_ne_immediateOutOfRange hadmits⟩
    · intro t ht hrel
      obtain rfl := hi.same (by rintro h; simp [h, Opcode.patchKind] at hrel)
      obtain rfl : t = p.target := Target.object.inj (Option.some.inj (ht.symm.trans htarget))
      exact ⟨target, hoff, hwrites.reaches hk hrel⟩
    · intro t ht hila
      obtain rfl := hi.same (by simp [hila])
      obtain rfl : t = p.target := Target.object.inj (Option.some.inj (ht.symm.trans htarget))
      exact ⟨target, hoff, hwrites.addresses hk hila⟩
    · intro h
      obtain ⟨e, he, rfl⟩ := hi.returns h
      obtain rfl : e = p.target := Target.object.inj (Option.some.inj htarget)
      exact ⟨p.target, target, he, hoff, rfl, hwrites.reaches hk rfl⟩
    · intro h
      rw [hi.same h]
    · intro hplain
      have hne : i.opcode ≠ .ret := fun h => hplain (.inl h)
      obtain rfl := hi.same hne
      exact absurd (.inr ⟨p.target, htarget, by simp [hk]⟩) hplain

section Blocks

variable {a : Arena} {base limit : Nat} {r : ObjectId}

open Layout

/-- The objects of the image are those of the arena behind the patches. -/
theorem Layout.getElem?_objects_applyPatches {b f : Arena} {ps : List Patch} {p : PlacedObject}
    (hoffset : ∀ id o, b.get? id = some o → ∃ x, b.offset id = .ok x ∧ x % o.alignment = 0)
    (h : Runs (applyPatches ps) b () f) : (placedObjects f)[id]? = some p ↔
      ∃ o x, f.get? id = some o ∧ f.offset id = .ok x ∧ p = o.placedAt id x := by
  have hplaces := applyPatches_places h
  refine Arena.getElem?_placedObjects fun id o ho => ?_
  obtain ⟨o', ho', -⟩ := hplaces.exists_before ho
  obtain ⟨x, hx, -⟩ := hoffset id o' ho'
  exact ⟨x, hplaces.offset hx⟩

/-- The second pass settles the instructions of a block whose patches are all listed. -/
theorem Pass.settles {b f : Arena} {ps : List Patch} {x : Nat} (hpass : Pass a [] b ps)
    (hpatch : Runs (applyPatches ps) b () f)
    (himage : ∀ t x, f.offset t = .ok x → image.offset? t = some x) (ho : b.get? id = some o)
    (hx : o.offset = some x) (hlisted : ∀ p, p.block = id → b.Wants p → p ∈ ps) :
    ∃ code, f.get? id = some { o with code := code } ∧ code.size = o.code.size ∧
      ∀ (k : Nat) i j, o.code[k]? = some i → code[k]? = some j →
        image.Settles (x + 4 * k) i j := by
  obtain ⟨code, hget, hsize, hsettled⟩ := applyPatches_ok hpatch ho
  refine ⟨code, hget, hsize, ?_⟩
  intro k i j hi hj
  rcases hsettled k i j hi hj with ⟨rfl, hnone⟩ | ⟨p, hp, target, v, rfl, rfl, htarget, hw, rfl⟩
  · refine .same ?_
    intro t ht
    cases hkind : j.opcode.patchKind with
    | none => rfl
    | some kind =>
      have hp := hlisted ⟨id, k, x + 4 * k, t, kind⟩ rfl
        ⟨o, x, j, ho, hx, hi, rfl, rfl, rfl, ht, hkind⟩
      exact absurd ⟨rfl, rfl⟩ (hnone _ hp)
  · rcases hpass.wanted p hp with hp | ⟨-, o', x', i', ho', hx', hi', -, -, hsource, ht, hk⟩
    · simp at hp
    obtain rfl : o = o' := Option.some.inj (ho.symm.trans ho')
    obtain rfl : x = x' := Option.some.inj (hx.symm.trans hx')
    obtain rfl : i = i' := Option.some.inj (hi.symm.trans hi')
    exact .patched hsource ht hk (himage _ _ htarget) hw

variable (hl : (a.layout base limit).1 = .ok image) (ho : a.get? id = some o)
  (hk : o.kind = .block r)

include hl ho hk

/-- A block that has no place gets one as a block of a routine, and its instructions are settled
from their resolved form. -/
theorem Arena.layout_settles (hnew : o.offset = none) :
    ∃ p routine epilogue, image.objects[id]? = some p ∧ a.get? r = some routine ∧
      routine.kind = .routine epilogue ∧ p.code.size = o.code.size ∧
      ∀ (k : Nat) i j, o.code[k]? = some i → p.code[k]? = some j →
        ∃ i', Resolves epilogue i i' ∧ image.Settles (p.offset + 4 * k) i' j := by
  obtain ⟨b, f, stop, ps, hb, hoffset, -, hpatch, rfl⟩ := Arena.layout_ok hl
  have hpass := placeObjects_pass hb fun id hid => Arena.mem_topLevel.mp hid
  have hplaces := applyPatches_places hpatch
  have himage : ∀ t x, f.offset t = .ok x →
      Image.offset? ⟨base, stop - base, placedObjects f⟩ t = some x := by
    intro t x hx
    obtain ⟨o, ho⟩ := Arena.exists_get?_of_offset hx
    rw [Image.offset?, (getElem?_objects_applyPatches hoffset hpatch).mpr ⟨o, x, ho, hx, rfl⟩]
    rfl
  have hown : ∀ o' : Object, o'.kind = o.kind → ∀ parent delta, o'.kind ≠ .derived parent delta := by
    intro o' ho' parent delta h
    rw [ho', hk] at h
    cases h
  rcases hpass.objects id o ho with hsame | ⟨-, hplaced, hblock⟩
  · -- a block that no routine has would have no offset
    obtain ⟨x, hx, -⟩ := hoffset id o hsame
    rw [Arena.offset_own hsame (hown o rfl), Arena.place?, hsame] at hx
    simp [hnew] at hx
  obtain ⟨epilogue, howner, ⟨o', ho', hcode⟩, hlisted⟩ := hblock r hk
  obtain ⟨routine, hroutine, hrk⟩ := Option.map_eq_some_iff.mp howner
  obtain ⟨x, hx⟩ := Option.isSome_iff_exists.mp hplaced
  have hox : o'.offset = some x := by simpa [Arena.place?, ho'] using hx
  obtain ⟨code, hget, hsize, hsettled⟩ := hpass.settles hpatch himage ho' hox hlisted
  have hkind : o'.kind = o.kind := by
    have := hpass.places.kind id
    simpa [ho, ho'] using this
  have hfx : f.offset id = .ok x :=
    (Arena.offset_own hget (hown _ hkind)).mpr (hplaces.place? hx)
  refine ⟨_, routine, epilogue,
    (getElem?_objects_applyPatches hoffset hpatch).mpr ⟨_, x, hget, hfx, rfl⟩, hroutine, hrk,
    ?_, ?_⟩
  · have hlength := hcode.length_eq
    simp only [Array.length_toList] at hlength
    exact hsize.trans hlength.symm
  · intro k i j hi hj
    obtain ⟨i', hi', hres⟩ : ∃ i', o'.code[k]? = some i' ∧ Resolves epilogue i i' := by
      obtain ⟨hlength, hall⟩ := List.forall₂_iff_get.mp hcode
      simp only [Array.length_toList] at hlength hall
      obtain ⟨hlt, rfl⟩ := Array.getElem?_eq_some_iff.mp hi
      exact ⟨_, Array.getElem?_eq_getElem (hlength ▸ hlt), by simpa using hall k hlt (hlength ▸ hlt)⟩
    exact ⟨i', hres, hsettled k i' j hi' hj⟩

/-- A block that has a place keeps it and its code, and belongs to no routine. -/
theorem Arena.layout_keeps {x : Nat} (hx : o.offset = some x) :
    ∃ p, image.objects[id]? = some p ∧ p.offset = x ∧ p.code = o.code ∧
      ∀ routine epilogue, a.get? r = some routine → routine.kind ≠ .routine epilogue := by
  obtain ⟨b, f, stop, ps, hb, hoffset, -, hpatch, rfl⟩ := Arena.layout_ok hl
  have hpass := placeObjects_pass hb fun id hid => Arena.mem_topLevel.mp hid
  obtain ⟨-, hunplaced, -⟩ := placeObjects_places hb fun _ => Arena.lt_size_of_mem_topLevel
  have hplace : a.place? id = some x := by simp [Arena.place?, ho, hx]
  obtain ⟨code, hget, hsize, hcode⟩ := applyPatches_ok hpatch (hpass.frozen ho (by simp [hx]))
  -- patches are for objects that had no place
  have hsame : code = o.code := by
    refine Array.ext hsize fun k hk hk' => ?_
    rcases hcode k _ _ (Array.getElem?_eq_getElem hk') (Array.getElem?_eq_getElem hk) with
      ⟨heq, -⟩ | ⟨p, hp, _, _, rfl, -⟩
    · exact heq
    · rcases hpass.wanted p hp with hp | ⟨hnone, -⟩
      · simp at hp
      · rw [hplace] at hnone
        cases hnone
  have hfx : f.offset id = .ok x := by
    rw [Arena.offset_own hget (by simp [hk]), Arena.place?, hget]
    exact hx
  refine ⟨_, (getElem?_objects_applyPatches hoffset hpatch).mpr ⟨_, x, hget, hfx, rfl⟩, rfl, hsame,
    ?_⟩
  intro routine epilogue hroutine hrk
  have hmem : id ∈ a.parts r := by
    simpa [Arena.parts, hroutine, hrk] using mem_blocksOf.mpr ⟨o, ho, hk⟩
  have hnone := hunplaced r
    (Arena.mem_topLevel.mpr ⟨routine, hroutine, by simp [Object.isTopLevel, hrk]⟩) id hmem
  rw [hplace] at hnone
  cases hnone

end Blocks

/-- A successful placement writes every symbolic reference of the blocks of routines: relative
ones have the distance to their target, addresses are those of their target, and returns are
branches to the epilogue of their routine, all of them in the encoded word too. No return and no
name of a block is left, every other instruction is as it was, and no written immediate is out of
range. A block that belongs to no routine was given its place before, and is left as it was. -/
theorem layout_patches {a : Arena} {base limit : Nat} {image : Image}
    (hl : (a.layout base limit).1 = .ok image) {id r : ObjectId} {o : Object}
    (ho : a.get? id = some o) (hk : o.kind = .block r) :
    ∃ p, image.objects[id]? = some p ∧ p.code.size = o.code.size ∧
      (∀ routine epilogue, a.get? r = some routine → routine.kind = .routine epilogue →
        o.offset = none ∧ ∀ (k : Nat) i j, o.code[k]? = some i → p.code[k]? = some j →
          image.Patches epilogue (p.offset + 4 * k) i j) ∧
      ((∀ routine epilogue, a.get? r = some routine → routine.kind ≠ .routine epilogue) →
        o.offset = some p.offset ∧ p.code = o.code) := by
  cases hx : o.offset with
  | none =>
    obtain ⟨p, routine, epilogue, hp, hr, hrk, hsize, hall⟩ := Arena.layout_settles hl ho hk hx
    refine ⟨p, hp, hsize, ?_, fun hno => absurd hrk (hno routine epilogue hr)⟩
    intro routine' epilogue' hr' hrk'
    obtain rfl : routine = routine' := Option.some.inj (hr.symm.trans hr')
    obtain rfl : epilogue = epilogue' := ObjectKind.routine.inj (hrk.symm.trans hrk')
    refine ⟨rfl, ?_⟩
    intro k i j hi hj
    obtain ⟨i', hres, hsettles⟩ := hall k i j hi hj
    exact hsettles.patches hres
  | some x =>
    obtain ⟨p, hp, rfl, hcode, hno⟩ := Arena.layout_keeps hl ho hk hx
    refine ⟨p, hp, by rw [hcode], ?_, fun _ => ⟨rfl, hcode⟩⟩
    intro routine epilogue hr hrk
    exact absurd hrk (hno routine epilogue hr)

/-- The entry of the reader reads from inside its data and returns through its exit. -/
theorem reader_patched : ∃ a image o routine p epilogue, reader = .ok a ∧
    (a.layout 0 0x40000).1 = .ok image ∧ a.get? 2 = some o ∧ o.kind = .block 0 ∧
    o.code = readerEntry ∧ a.get? 0 = some routine ∧ routine.kind = .routine epilogue ∧
    image.objects[2]? = some p ∧ p.code.size = o.code.size ∧
    ∀ (k : Nat) i j, o.code[k]? = some i → p.code[k]? = some j →
      image.Patches epilogue (p.offset + 4 * k) i j := by
  have hrun : ∃ a ∈ reader.toOption, ∃ image ∈ (a.layout 0 0x40000).1.toOption, ∃ o ∈ a.get? 2,
      ∃ routine ∈ a.get? 0, o.kind = .block 0 ∧ o.code = readerEntry ∧
        routine.kind = .routine (some 3) := by
    decide +kernel
  obtain ⟨a, ha, image, himage, o, ho, routine, hroutine, hk, hcode, hrk⟩ := hrun
  have hl := toOption_eq_some.mp himage
  obtain ⟨p, hp, hsize, hpatches, -⟩ := layout_patches hl ho hk
  exact ⟨a, image, o, routine, p, _, toOption_eq_some.mp ha, hl, ho, hk, hcode, hroutine, hrk, hp,
    hsize, (hpatches routine _ hroutine hrk).2⟩

/-- A block of a table, at a place of its own, that branches to the table. -/
def orphan : Except LayoutError Arena := do
  let (table, a) ← ({} : Arena).addData "table" [0]
  let (block, a) ← a.addBlock table "orphan"
  (a.setCode block #[.withTarget .br none (.object table)]).setOffset block 0x20

/-- No routine owns the block, and its branch is not written: it does not reach the table. -/
theorem orphan_unpatched : ∃ a image o p i j x, orphan = .ok a ∧
    (a.layout 0 0x40000).1 = .ok image ∧ a.get? 1 = some o ∧ o.kind = .block 0 ∧
    image.objects[1]? = some p ∧ o.code[0]? = some i ∧ p.code[0]? = some j ∧
    i.target = some (.object 0) ∧ i.opcode.patchKind = some .relativeWord ∧
    image.offset? 0 = some x ∧ (p.offset : Int) + 4 * j.constant ≠ x := by
  have hrun : ∃ a ∈ orphan.toOption, ∃ image ∈ (a.layout 0 0x40000).1.toOption, ∃ o ∈ a.get? 1,
      ∃ p ∈ image.objects[1]?, ∃ i ∈ o.code[0]?, ∃ j ∈ p.code[0]?, ∃ x ∈ image.offset? 0,
        o.kind = .block 0 ∧ i = .withTarget .br none (.object 0) ∧
        (p.offset : Int) + 4 * j.constant ≠ x := by
    decide +kernel
  obtain ⟨a, ha, image, himage, o, ho, p, hp, i, hi, j, hj, x, hx, hk, rfl, hne⟩ := hrun
  exact ⟨a, image, o, p, _, j, x, toOption_eq_some.mp ha, toOption_eq_some.mp himage, ho, hk, hp,
    hi, hj, rfl, rfl, hx, hne⟩

end SpuCompiler.Objects
