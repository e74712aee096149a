import SpuCompiler.Program
import SpuCompiler.Proofs.Objects.Patching
import SpuCompiler.Proofs.Selection.RoutineCode

/-!
Runs of a program. Whatever is declared and compiled, in whatever order and with whatever
failures, every compiled routine has its objects in the arena with their code, in one row, and no
block is without a compiled routine.
-/

namespace SpuCompiler.Objects

variable {a b : Arena} {r : ObjectId}

/-! ## Later arenas -/

theorem Arena.blocksOf_eq {ids : List ObjectId} (hsorted : ids.Pairwise (· < ·))
    (h : ∀ id, id ∈ ids ↔ ∃ o, a.get? id = some o ∧ o.kind = .block r) : a.blocksOf r = ids := by
  have hblocks : (a.blocksOf r).Pairwise (· < ·) := List.pairwise_lt_range.filter _
  refine hblocks.eq_of_mem_iff hsorted ?_
  intro id
  rw [mem_blocksOf, h]

/-- Objects keep their names and their code, and at most one changes its kind. Blocks stay blocks,
and new ones belong to that object. -/
structure Arena.Later (r : ObjectId) (a b : Arena) : Prop where
  keeps : ∀ id o, a.get? id = some o → ∃ o', b.get? id = some o' ∧ o'.name = o.name ∧
    o'.code = o.code ∧ (id ≠ r → o'.kind = o.kind) ∧ ∀ q, o'.kind = .block q ↔ o.kind = .block q
  blocks : ∀ id o q, b.get? id = some o → o.kind = .block q → a.size ≤ id → q = r

theorem Arena.Later.of_push {o : Object} (r : ObjectId) (h : ∀ q, o.kind ≠ .block q) :
    a.Later r (a.push o) := by
  constructor
  · intro id o' ho'
    exact ⟨o', Arena.get?_push_of_get? ho', rfl, rfl, fun _ => rfl, fun _ => Iff.rfl⟩
  · intro id o' q ho' hq hle
    rcases Arena.get?_push ho' with ho' | ⟨-, rfl⟩
    · exact absurd (Arena.lt_size_of_get? ho') (Nat.not_lt.mpr hle)
    · exact absurd hq (h q)

theorem Arena.Later.blocksOf {q : ObjectId} (h : a.Later r b) (hne : q ≠ r) :
    b.blocksOf q = a.blocksOf q := by
  refine Arena.blocksOf_eq (List.pairwise_lt_range.filter _) fun id => ?_
  rw [mem_blocksOf]
  constructor
  · rintro ⟨o, ho, hk⟩
    obtain ⟨o', ho', -, -, -, hblock⟩ := h.keeps id o ho
    exact ⟨o', ho', (hblock q).mpr hk⟩
  · rintro ⟨o', ho', hk⟩
    rcases Nat.lt_or_ge id a.size with hlt | hge
    · obtain ⟨o, ho⟩ := Arena.exists_get? hlt
      obtain ⟨o'', ho'', -, -, -, hblock⟩ := h.keeps id o ho
      obtain rfl : o' = o'' := Option.some.inj (ho'.symm.trans ho'')
      exact ⟨o, ho, (hblock q).mp hk⟩
    · exact absurd (h.blocks id o' q ho' hk hge) hne

theorem Arena.Later.keepsNames (h : a.Later r b) : Selection.KeepsNames a b := by
  intro id o ho
  obtain ⟨o', ho', hname, -⟩ := h.keeps id o ho
  exact ⟨o', ho', hname⟩

end SpuCompiler.Objects

namespace SpuCompiler.Selection

open Machine Trees Objects

variable {a : Arena} {bs : List SelectedBlock} {id : ObjectId} {o : Object}

theorem RoutineCode.mono {fits : Prop} {b : Arena} {r : Routine} {s : SelectedRoutine}
    (h : RoutineCode fits a r s) (hab : KeepsNames a b) : RoutineCode fits b r s := by
  refine ⟨h.prologue, h.epilogue, h.blocks.imp ?_⟩
  rintro _ _ ⟨code, hcode, hnodes⟩
  exact ⟨code, hcode, hnodes.mono hab⟩

/-! ## Installed code -/

theorem size_installBlocks (a : Arena) (bs : List SelectedBlock) :
    (SelectedRoutine.installBlocks a bs).size = a.size := by
  induction bs generalizing a with
  | nil => rfl
  | cons b bs ih => exact (ih _).trans (Array.size_modify ..)

theorem size_install (s : SelectedRoutine) (a : Arena) : (s.install a).size = a.size :=
  (Array.size_modify ..).trans (size_installBlocks a s.allBlocks)

theorem installBlocks_other (h : ∀ b ∈ bs, b.object ≠ id) :
    (SelectedRoutine.installBlocks a bs).get? id = a.get? id := by
  induction bs generalizing a with
  | nil => rfl
  | cons b bs ih =>
    rw [SelectedRoutine.installBlocks, ih fun c hc => h c (by simp [hc]), Arena.setCode,
      Arena.get?_modify, if_neg (h b (by simp))]

theorem installBlocks_get? {b : SelectedBlock} (hnodup : (bs.map (·.object)).Nodup) (hb : b ∈ bs)
    (ho : a.get? b.object = some o) :
    (SelectedRoutine.installBlocks a bs).get? b.object = some { o with code := b.code } := by
  induction bs generalizing a with
  | nil => cases hb
  | cons c bs ih =>
    rw [List.map_cons, List.nodup_cons] at hnodup
    rw [SelectedRoutine.installBlocks]
    rcases List.mem_cons.mp hb with rfl | hb
    · rw [installBlocks_other, Arena.setCode, Arena.get?_modify, if_pos rfl, ho]
      · rfl
      · intro d hd heq
        exact hnodup.1 (List.mem_map.mpr ⟨d, hd, heq⟩)
    · refine ih hnodup.2 hb ?_
      rw [Arena.setCode, Arena.get?_modify, if_neg, ho]
      intro heq
      exact hnodup.1 (List.mem_map.mpr ⟨b, hb, heq.symm⟩)

/-- Only the routine may change, and only into one with the epilogue. -/
theorem get?_setEpilogue (routine epilogue : ObjectId) (ho : a.get? id = some o) :
    ∃ o', (a.setEpilogue routine epilogue).get? id = some o' ∧
      o'.name = o.name ∧ o'.code = o.code ∧ (id ≠ routine → o'.kind = o.kind) ∧
      (∀ q, o'.kind = .block q ↔ o.kind = .block q) ∧
      (id = routine → ∀ e, o'.kind = .routine e → e = some epilogue) := by
  rw [Arena.setEpilogue, Arena.get?_modify, ho]
  by_cases hid : routine = id
  · rw [if_pos hid]
    cases hk : o.kind <;>
      exact ⟨_, rfl, by simp [hk], by simp [hk], by simp [hid], by simp [hk], by simp [hk]⟩
  · rw [if_neg hid]
    exact ⟨o, rfl, rfl, rfl, fun _ => rfl, fun _ => Iff.rfl, fun h => absurd h.symm hid⟩

namespace Selected

variable {o : Options} {a a' : Arena} {r : Routine} {id : ObjectId} {s : SelectedRoutine}
variable {k : ObjectId} {x : Object} {b : SelectedBlock}

variable (h : Selected o a r id s a')

include h

theorem nodup : (s.allBlocks.map (·.object)).Nodup := by
  rw [h.objects]
  exact List.nodup_range'

/-- The objects with which lowering starts: the older ones and a row of blocks. -/
theorem start : ∃ a₁ : Arena, a₁.AddsData a' ∧ a.size ≤ a₁.size ∧
    (∀ k, k < a.size → a₁.get? k = a.get? k) ∧
    (∀ k, k ∈ s.allBlocks.map (·.object) ↔ a.size ≤ k ∧ k < a₁.size) ∧
    ∀ k x, a.size ≤ k → a₁.get? k = some x → x.kind = .block id := by
  obtain ⟨a₁, hadds, hobjects⟩ := h.arena
  have hget : ∀ k, a₁.get? k = (a.objects.toList ++ (blockNames r).map (blockObject id))[k]? := by
    intro k
    rw [← hobjects, Array.getElem?_toList, Arena.get?]
  have hlength : a.objects.toList.length = a.size := rfl
  have hsize : a₁.size = a.size + (r.blocks.size + 2) := by
    have := congrArg List.length hobjects
    simpa [blockNames, Arena.size] using this
  refine ⟨a₁, hadds, by omega, ?_, fun k => by rw [h.objects, List.mem_range'_1, hsize], ?_⟩
  · intro k hk
    rw [hget, List.getElem?_append_left (hlength ▸ hk), Array.getElem?_toList, Arena.get?]
  · intro k x hk hx
    rw [hget, List.getElem?_append_right (hlength ▸ hk)] at hx
    obtain ⟨name, -, rfl⟩ := List.mem_map.mp (List.mem_of_getElem? hx)
    rfl

/-- An object of the arena is as before, or a block of the routine, or data. -/
theorem get?_cases (hx : a'.get? k = some x) : a.get? k = some x ∨
      (k ∈ s.allBlocks.map (·.object) ∧ x.kind = .block id) ∨ (a.size ≤ k ∧ x.kind = .data) := by
  obtain ⟨a₁, hadds, hle, hold, hmem, hblock⟩ := h.start
  rcases hadds.new hx with hx | ⟨hnew, hdata⟩
  · rcases Nat.lt_or_ge k a.size with hlt | hge
    · exact .inl ((hold k hlt).symm.trans hx)
    · exact .inr (.inl ⟨(hmem k).mpr ⟨hge, Arena.lt_size_of_get? hx⟩, hblock k x hge hx⟩)
  · exact .inr (.inr ⟨hle.trans hnew, hdata⟩)

theorem get?_old (hx : a.get? k = some x) : a'.get? k = some x := by
  obtain ⟨a₁, hadds, -, hold, -, -⟩ := h.start
  exact hadds.adds.get? k x ((hold k (Arena.lt_size_of_get? hx)).trans hx)

theorem get?_block (hb : b ∈ s.allBlocks) :
    ∃ x, a'.get? b.object = some x ∧ x.kind = .block id := by
  obtain ⟨a₁, hadds, -, -, hmem, hblock⟩ := h.start
  obtain ⟨hge, hlt⟩ := (hmem b.object).mp (List.mem_map.mpr ⟨b, hb, rfl⟩)
  obtain ⟨x, hx⟩ := Arena.exists_get? hlt
  exact ⟨x, hadds.adds.get? _ x hx, hblock _ x hge hx⟩

/-- The code of a block, in the arena with the code. -/
theorem install_block (hb : b ∈ s.allBlocks) :
    ∃ x, (s.install a').get? b.object = some x ∧ x.kind = .block id ∧ x.code = b.code := by
  obtain ⟨x, hx, hk⟩ := h.get?_block hb
  obtain ⟨x', hx', -, hcode, -, hblock, -⟩ :=
    get?_setEpilogue s.routine s.epilogue.object (installBlocks_get? h.nodup hb hx)
  exact ⟨x', hx', (hblock id).mpr hk, hcode⟩

theorem install_old (hx : a.get? k = some x) :
    ∃ x', (s.install a').get? k = some x' ∧
      x'.name = x.name ∧ x'.code = x.code ∧ (k ≠ id → x'.kind = x.kind) ∧
      (∀ q, x'.kind = .block q ↔ x.kind = .block q) ∧
      (k = id → ∀ e, x'.kind = .routine e → e = some s.epilogue.object) := by
  obtain ⟨_, -, -, -, hmem, -⟩ := h.start
  have hother : ∀ b ∈ s.allBlocks, b.object ≠ k := by
    rintro b hb rfl
    have hge := ((hmem b.object).mp (List.mem_map.mpr ⟨b, hb, rfl⟩)).1
    exact absurd (Arena.lt_size_of_get? hx) (Nat.not_lt.mpr hge)
  have hx' := get?_setEpilogue s.routine s.epilogue.object
    ((installBlocks_other hother).trans (h.get?_old hx))
  rw [h.routine] at hx'
  rw [SelectedRoutine.install, h.routine]
  exact hx'

theorem install_get? (hx : a'.get? k = some x) :
    ∃ x', (s.install a').get? k = some x' ∧ x'.name = x.name ∧
      ∀ q, x'.kind = .block q ↔ x.kind = .block q := by
  by_cases hmem : k ∈ s.allBlocks.map (·.object)
  · obtain ⟨b, hb, rfl⟩ := List.mem_map.mp hmem
    obtain ⟨x', hx', hname, -, -, hblock, -⟩ := get?_setEpilogue s.routine s.epilogue.object
      (installBlocks_get? h.nodup hb hx)
    exact ⟨x', hx', hname, hblock⟩
  · have hother : ∀ b ∈ s.allBlocks, b.object ≠ k := by
      rintro b hb rfl
      exact hmem (List.mem_map.mpr ⟨b, hb, rfl⟩)
    obtain ⟨x', hx', hname, -, -, hblock, -⟩ := get?_setEpilogue s.routine s.epilogue.object
      ((installBlocks_other hother).trans hx)
    exact ⟨x', hx', hname, hblock⟩

theorem install_keepsNames : KeepsNames a' (s.install a') := by
  intro k x hx
  obtain ⟨x', hx', hname, -⟩ := h.install_get? hx
  exact ⟨x', hx', hname⟩

/-- Every block of the arena with the code is an older one or one of the routine's. -/
theorem install_blocks {q : ObjectId} (hx : (s.install a').get? k = some x)
    (hq : x.kind = .block q) :
    (∃ y, a.get? k = some y ∧ y.kind = .block q) ∨ (k ∈ s.allBlocks.map (·.object) ∧ q = id) := by
  have hlt : k < a'.size := size_install s a' ▸ Arena.lt_size_of_get? hx
  obtain ⟨y, hy⟩ := Arena.exists_get? hlt
  obtain ⟨x', hx', -, hblock⟩ := h.install_get? hy
  obtain rfl : x = x' := Option.some.inj (hx.symm.trans hx')
  have hyq := (hblock q).mp hq
  rcases h.get?_cases hy with hy | ⟨hmem, hk⟩ | ⟨-, hdata⟩
  · exact .inl ⟨y, hy, hyq⟩
  · rw [hk] at hyq
    exact .inr ⟨hmem, (ObjectKind.block.inj hyq).symm⟩
  · rw [hdata] at hyq
    cases hyq

theorem later : a.Later id (s.install a') := by
  constructor
  · intro k x hx
    obtain ⟨x', hx', hname, hcode, hkind, hblock, -⟩ := h.install_old hx
    exact ⟨x', hx', hname, hcode, hkind, hblock⟩
  · intro k x q hx hq hle
    rcases h.install_blocks hx hq with ⟨y, hy, -⟩ | ⟨-, rfl⟩
    · exact absurd (Arena.lt_size_of_get? hy) (Nat.not_lt.mpr hle)
    · rfl

theorem blocksOf_install (hfresh : ∀ k x, a.get? k = some x → x.kind ≠ .block id) :
    (s.install a').blocksOf id = s.allBlocks.map (·.object) := by
  refine Arena.blocksOf_eq ?_ fun k => ⟨fun hk => ?_, ?_⟩
  · rw [h.objects]
    exact List.pairwise_lt_range'
  · obtain ⟨b, hb, rfl⟩ := List.mem_map.mp hk
    obtain ⟨x, hx, hkind, -⟩ := h.install_block hb
    exact ⟨x, hx, hkind⟩
  · rintro ⟨x, hx, hkind⟩
    rcases h.install_blocks hx hkind with ⟨y, hy, hyk⟩ | ⟨hk, -⟩
    · exact absurd hyk (hfresh k y hy)
    · exact hk

theorem install_built (ha : Built a) (hid : id < a.size) : Built (s.install a') := by
  refine .setEpilogue _ _ ?_
  have hblocks : ∀ (bs : List SelectedBlock) {b : Arena}, Built b →
      Built (SelectedRoutine.installBlocks b bs) := by
    intro bs
    induction bs with
    | nil => exact fun hb => hb
    | cons c bs ih => exact fun hb => ih (.setCode _ _ hb)
  exact hblocks _ (h.built ha hid)

end Selected

end SpuCompiler.Selection

namespace SpuCompiler

open Metadata Bytecode Trees Objects Selection

variable {p q : Program} {id : ObjectId} {m : Method} {body : Body} {resolver : Resolver}
  {c : CompiledRoutine} {o : Options} {a : Arena}

/-! ## Compiled routines -/

theorem Program.compileDeclared_ok (h : p.compileDeclared id m body resolver = (.ok c, q)) :
    (∀ c ∈ p.routines, c.routine ≠ id) ∧ ∃ tree s arena, build m body resolver = .ok tree ∧
      select p.options p.arena tree id = .ok (s, arena) ∧
      c = ⟨id, { tree with vars := s.frame.vars }, s⟩ ∧
      q = { p with arena := s.install arena, routines := p.routines ++ [c] } := by
  unfold Program.compileDeclared at h
  split at h
  · cases h
  · rename_i hany
    split at h
    · cases h
    · rename_i tree hbuild
      split at h
      · cases h
      · rename_i s arena hselect
        cases h
        exact ⟨by simpa using hany, tree, s, arena, hbuild, select_eq_ok.mpr hselect, rfl, rfl⟩

/-- A method that is not compiled leaves the program as it was. -/
theorem Program.compileDeclared_error {fault : CompileFault}
    (h : p.compileDeclared id m body resolver = (.error fault, q)) :
    q = p ∧ ∀ e, fault ≠ .layout e := by
  unfold Program.compileDeclared at h
  split at h
  · cases h
    exact ⟨rfl, nofun⟩
  · split at h
    · cases h
      exact ⟨rfl, nofun⟩
    · split at h
      · rename_i hselect
        cases h
        rw [selectInto_error hselect]
        exact ⟨rfl, nofun⟩
      · cases h

/-- A declaration never fails. -/
theorem Program.exists_declareRoutine (p : Program) (m : Method) :
    ∃ id q, p.declareRoutine m = .ok (id, q) := by
  unfold Program.declareRoutine
  split
  · exact ⟨_, _, rfl⟩
  · rename_i hfind
    have hadd : p.arena.addRoutine m.symbol =
        .ok (p.arena.size, p.arena.push { name := m.symbol, kind := .routine none }) := by
      simp [Arena.addRoutine, Arena.insert, hfind]
    rw [hadd]
    exact ⟨_, _, rfl⟩

theorem Program.compile_ok (h : p.compile m body resolver = (.ok c, q)) :
    ∃ id p', p.declareRoutine m = .ok (id, p') ∧
      p'.compileDeclared id m body resolver = (.ok c, q) := by
  obtain ⟨id, p', hdeclare⟩ := p.exists_declareRoutine m
  refine ⟨id, p', hdeclare, ?_⟩
  simp only [Program.compile, hdeclare] at h
  rcases hrun : p'.compileDeclared id m body resolver with ⟨fault | c', q'⟩
  · rw [hrun] at h
    cases h
  · rw [hrun] at h
    cases h
    rfl

/-- A method that is not compiled is declared and nothing more. -/
theorem Program.compile_error {e : CompileError} (h : p.compile m body resolver = (.error e, q)) :
    (∃ id, p.declareRoutine m = .ok (id, q)) ∧ e.routine = m.symbol ∧ ∀ l, e.fault ≠ .layout l := by
  obtain ⟨id, p', hdeclare⟩ := p.exists_declareRoutine m
  simp only [Program.compile, hdeclare] at h
  rcases hrun : p'.compileDeclared id m body resolver with ⟨fault | c, q'⟩
  · rw [hrun] at h
    cases h
    obtain ⟨rfl, hfault⟩ := Program.compileDeclared_error hrun
    exact ⟨⟨id, hdeclare⟩, rfl, hfault⟩
  · rw [hrun] at h
    cases h

/-- The objects of a compiled routine stand in the arena with their code. The code is that of its
trees, and has words wherever the frame and the nodes do. -/
structure Installed (o : Options) (a : Arena) (c : CompiledRoutine) : Prop where
  declared : c.routine < a.size
  blocks : a.blocksOf c.routine = c.selected.allBlocks.map (·.object)
  code : ∀ b ∈ c.selected.allBlocks, ∃ x, a.get? b.object = some x ∧ x.kind = .block c.routine ∧
    x.code = b.code
  epilogue : ∀ x e, a.get? c.routine = some x → x.kind = .routine e →
    e = some c.selected.epilogue.object
  built : ∃ m body resolver tree, build m body resolver = .ok tree ∧ c.tree.blocks = tree.blocks
  lowered : ∀ fits : Prop, (fits → c.selected.frame.size < 2 ^ 31) →
    (fits → ∀ b ∈ c.tree.blocks, ∀ n ∈ b.roots.toList.flatMap Node.postorder, NodeFits o n) →
    RoutineCode fits a c.tree c.selected

theorem Installed.later {b : Arena} {r : ObjectId} (h : Installed o a c) (hab : a.Later r b)
    (hr : c.routine ≠ r) : Installed o b c := by
  obtain ⟨x₀, hx₀⟩ := Arena.exists_get? h.declared
  obtain ⟨x₁, hx₁, -, -, hkind, -⟩ := hab.keeps _ _ hx₀
  refine ⟨Arena.lt_size_of_get? hx₁, (hab.blocksOf hr).trans h.blocks, ?_, ?_, h.built, ?_⟩
  · intro s hs
    obtain ⟨x, hx, hk, hcode⟩ := h.code s hs
    obtain ⟨y, hy, -, hcode', -, hblock⟩ := hab.keeps _ _ hx
    exact ⟨y, hy, (hblock _).mpr hk, hcode'.trans hcode⟩
  · intro x e hx hk
    obtain rfl : x = x₁ := Option.some.inj (hx.symm.trans hx₁)
    exact h.epilogue x₀ e hx₀ ((hkind hr).symm.trans hk)
  · intro fits hsize hfits
    exact (h.lowered fits hsize hfits).mono hab.keepsNames

/-- The routine just selected is installed, if no block was one of its own before. -/
theorem Selection.Selected.installed {a' : Arena} {s : SelectedRoutine} {tree : Routine}
    (h : Selected o a tree id s a') (hvalid : o.validate = .ok ()) (hid : id < a.size)
    (hfresh : ∀ k x, a.get? k = some x → x.kind ≠ .block id)
    (hbuild : build m body resolver = .ok tree) :
    Installed o (s.install a') ⟨id, { tree with vars := s.frame.vars }, s⟩ := by
  obtain ⟨x₀, hx₀⟩ := Arena.exists_get? hid
  obtain ⟨x₁, hx₁, -, -, -, -, hepilogue⟩ := h.install_old hx₀
  refine ⟨Arena.lt_size_of_get? hx₁, h.blocksOf_install hfresh, fun b hb => h.install_block hb, ?_,
    ⟨m, body, resolver, tree, hbuild, rfl⟩, ?_⟩
  · intro x e hx hk
    obtain rfl : x = x₁ := Option.some.inj (hx.symm.trans hx₁)
    exact hepilogue rfl e hk
  · intro fits hsize hfits
    have hfaults := h.faults
    have hframe : FrameFits fits o s.frame.vars := by
      dsimp only at hsize
      rw [h.frame] at hfaults hsize ⊢
      exact Frame.fits_of_faults hvalid hfaults hsize
    have hcode := (h.code fits hframe hsize hfits).mono h.install_keepsNames
    exact ⟨hcode.prologue, hcode.epilogue, hcode.blocks⟩

structure Sound (o : Options) (p : Program) : Prop where
  options : p.options = o
  valid : o.validate = .ok ()
  built : Built p.arena
  owned : ∀ id x q, p.arena.get? id = some x → x.kind = .block q → ∃ c ∈ p.routines, c.routine = q
  installed : ∀ c ∈ p.routines, Installed o p.arena c

namespace Sound

variable {o : Options} {p q : Program}

theorem new (h : Program.new o = .ok p) : Sound o p := by
  obtain ⟨u, hvalid, h⟩ := bind_eq_ok.mp h
  cases h
  refine ⟨rfl, hvalid, .empty, ?_, nofun⟩
  intro id x q hx
  simp [Arena.get?] at hx

/-- An object that is no block may be added. -/
theorem push {x : Object} (h : Sound o p) (hx : ∀ q, x.kind ≠ .block q)
    (hbuilt : Built (p.arena.push x)) :
    Sound o { p with arena := p.arena.push x } := by
  refine ⟨h.options, h.valid, hbuilt, ?_, ?_⟩
  · intro id y q hy hk
    rcases Arena.get?_push hy with hy | ⟨-, rfl⟩
    · exact h.owned id y q hy hk
    · exact absurd hk (hx q)
  · intro c hc
    have hlater : p.arena.Later p.arena.size (p.arena.push x) := .of_push _ hx
    exact (h.installed c hc).later hlater (h.installed c hc).declared.ne

theorem declareRoutine (h : Sound o p) (hq : p.declareRoutine m = .ok (id, q)) :
    Sound o q ∧ id < q.arena.size ∧ q.routines = p.routines := by
  unfold Program.declareRoutine at hq
  split at hq
  · rename_i hfind
    cases hq
    obtain ⟨x, hx, -⟩ := (h.built.indexed _ _).mp hfind
    exact ⟨h, Arena.lt_size_of_get? hx, rfl⟩
  · obtain ⟨⟨id', arena⟩, hadd, hq⟩ := bind_eq_ok.mp hq
    cases hq
    have hbuilt := Built.addRoutine h.built hadd
    obtain ⟨rfl, rfl⟩ := Arena.insert_ok hadd
    exact ⟨h.push nofun hbuilt, by simp [Arena.size], rfl⟩

theorem declareStatic {f : Field} (h : Sound o p) (hq : p.declareStatic f = .ok (id, q)) :
    Sound o q := by
  unfold Program.declareStatic at hq
  split at hq
  · cases hq
    exact h
  · obtain ⟨⟨id', arena⟩, hadd, hq⟩ := bind_eq_ok.mp hq
    cases hq
    have hbuilt := Built.addData h.built hadd
    obtain ⟨rfl, rfl⟩ := Arena.insert_ok hadd
    exact h.push nofun hbuilt

theorem compileDeclared (h : Sound o p) (hid : id < p.arena.size)
    (hq : p.compileDeclared id m body resolver = (.ok c, q)) : Sound o q := by
  obtain ⟨hnew, tree, s, arena, hbuild, hselect, rfl, rfl⟩ := Program.compileDeclared_ok hq
  rw [h.options] at hselect
  have hs := select_ok hselect h.built.indexed (Options.arguments_le h.valid)
  refine ⟨h.options, h.valid, hs.install_built h.built hid, ?_, ?_⟩
  · intro k x q hx hk
    rcases hs.install_blocks hx hk with ⟨y, hy, hyk⟩ | ⟨-, rfl⟩
    · obtain ⟨c, hc, heq⟩ := h.owned k y q hy hyk
      exact ⟨c, List.mem_append_left _ hc, heq⟩
    · exact ⟨_, List.mem_append_right _ (List.mem_singleton_self _), rfl⟩
  · intro c hc
    rcases List.mem_append.mp hc with hc | hc
    · exact (h.installed c hc).later hs.later (hnew c hc)
    · obtain rfl := List.mem_singleton.mp hc
      refine hs.installed h.valid hid ?_ hbuild
      intro k x hx hk
      obtain ⟨c, hc, heq⟩ := h.owned k x id hx hk
      exact hnew c hc heq

theorem compile (h : Sound o p) (m : Method) (body : Body) (resolver : Resolver) :
    Sound o (p.compile m body resolver).2 := by
  rcases hrun : p.compile m body resolver with ⟨e | c, q⟩
  · obtain ⟨⟨id, hq⟩, -⟩ := Program.compile_error hrun
    exact (h.declareRoutine hq).1
  · obtain ⟨id, p', hp', hq⟩ := Program.compile_ok hrun
    obtain ⟨hsound, hid, -⟩ := h.declareRoutine hp'
    exact hsound.compileDeclared hid hq

end Sound

/-! ## Runs -/

/-- Programs that declarations and compilations make, the failing ones included. -/
inductive Program.Reached (o : Options) : Program → Prop
  | new {p : Program} : Program.new o = .ok p → Reached o p
  | declareRoutine {p q : Program} {m : Method} {id : ObjectId} : Reached o p →
      p.declareRoutine m = .ok (id, q) → Reached o q
  | declareStatic {p q : Program} {f : Field} {id : ObjectId} : Reached o p →
      p.declareStatic f = .ok (id, q) → Reached o q
  | compile {p : Program} (m : Method) (body : Body) (resolver : Resolver) : Reached o p →
      Reached o (p.compile m body resolver).2

theorem Program.Reached.sound (h : p.Reached o) : Sound o p := by
  induction h with
  | new h => exact .new h
  | declareRoutine _ h ih => exact (ih.declareRoutine h).1
  | declareStatic _ h ih => exact ih.declareStatic h
  | compile m body resolver _ ih => exact ih.compile m body resolver

/-! ## Placed programs -/

theorem Program.finish_ok {image : Image} (h : p.finish = .ok image) :
    (p.arena.layout p.options.baseAddress p.options.localStoreSize).1 = .ok image := by
  unfold Program.finish at h
  split at h
  · rename_i hlayout
    cases h
    exact hlayout
  · cases h

namespace Sound

variable {o : Options} {p : Program} {image : Image} (h : Sound o p) (hfinish : p.finish = .ok image)

include h hfinish

theorem arranges : image.Arranges p.arena p.options.baseAddress p.options.localStoreSize := by
  obtain ⟨_, _, hlaid⟩ := h.built.laidOut (Program.finish_ok hfinish)
  exact hlaid.arranges

theorem filter_blocks (r : ObjectId) : image.objects.filter (·.kind = .block r) =
    (p.arena.blocksOf r).filterMap fun id => image.objects[id]? := by
  obtain ⟨_, _, hlaid⟩ := h.built.laidOut (Program.finish_ok hfinish)
  exact hlaid.filter_blocks r

/-- Every block of the image is one of a compiled routine. -/
theorem exists_selected {x : PlacedObject} {r : ObjectId} (hx : x ∈ image.objects)
    (hk : x.kind = .block r) :
    ∃ c ∈ p.routines, ∃ b ∈ c.selected.allBlocks, image.objects[b.object]? = some x := by
  obtain ⟨id, hid⟩ := List.mem_iff_getElem?.mp hx
  have hlt : id < p.arena.size :=
    (h.arranges hfinish).length ▸ (List.getElem?_eq_some_iff.mp hid).1
  obtain ⟨y, hy⟩ := Arena.exists_get? hlt
  obtain ⟨x', hx', -, -, hkind, -⟩ := (h.arranges hfinish).placed id y hy
  obtain rfl : x = x' := Option.some.inj (hid.symm.trans hx')
  rw [hkind] at hk
  obtain ⟨c, hc, rfl⟩ := h.owned id y r hy hk
  have hblock : id ∈ p.arena.blocksOf c.routine := mem_blocksOf.mpr ⟨y, hy, hk⟩
  rw [(h.installed c hc).blocks] at hblock
  obtain ⟨b, hb, rfl⟩ := List.mem_map.mp hblock
  exact ⟨c, hc, b, hb, hid⟩

/-- The object of a compiled routine, and a block of it with what became of its instructions. -/
theorem placed {b : SelectedBlock} (hc : c ∈ p.routines) (hb : b ∈ c.selected.allBlocks) :
    (∃ start, image.objects[c.routine]? = some start ∧
      start.kind = .routine (some c.selected.epilogue.object)) ∧
    ∃ x, image.objects[b.object]? = some x ∧ x.id = b.object ∧ x.kind = .block c.routine ∧
      x.code.size = b.code.size ∧
      ∀ (k : Nat) i j, b.code[k]? = some i → x.code[k]? = some j →
        ∃ i', Resolves (some c.selected.epilogue.object) i i' ∧
          image.Settles (x.offset + 4 * k) i' j := by
  obtain ⟨y, hy, hk, hcode⟩ := (h.installed c hc).code b hb
  obtain ⟨x, routine, epilogue, hx, hroutine, hepilogue, hsize, hsettles⟩ :=
    Arena.layout_settles (Program.finish_ok hfinish) hy hk (h.built.chained_unplaced.2 _ y hy)
  obtain ⟨x', hx', hid, -, hkind, -⟩ := (h.arranges hfinish).placed _ y hy
  obtain rfl : x = x' := Option.some.inj (hx.symm.trans hx')
  obtain ⟨start, hstart, -, -, hstartKind, -⟩ := (h.arranges hfinish).placed _ routine hroutine
  obtain rfl := (h.installed c hc).epilogue routine epilogue hroutine hepilogue
  rw [hcode] at hsettles
  exact ⟨⟨start, hstart, hstartKind.trans hepilogue⟩, x, hx, hid, hkind.trans hk, hcode ▸ hsize,
    hsettles⟩

end Sound

end SpuCompiler
