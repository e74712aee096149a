import SpuCompiler.Proofs.Program.Requests
import SpuCompiler.Proofs.Selection.BlockNames

/-!
Where objects come from. All objects share one space of names, and a declaration of a name that
exists is answered with the object that has it, whatever that is. So what a name stands for is
decided by the first request that declares it; only blocks and constants of compiled routines have
names that no request declares, and these begin with the name of their routine.
-/

namespace SpuCompiler.Objects

variable {y : Object}

/-- The same but for code and for the epilogue of a routine. -/
structure Object.Alike (x y : Object) : Prop where
  name : y.name = x.name
  data : y.data = x.data
  kind : y.kind = x.kind ∨ ∃ e e', x.kind = .routine e ∧ y.kind = .routine e'

theorem Object.Alike.refl (x : Object) : x.Alike x := ⟨rfl, rfl, .inl rfl⟩

theorem Object.Alike.trans {x z : Object} (h : x.Alike y) (h' : y.Alike z) : x.Alike z := by
  refine ⟨h'.name.trans h.name, h'.data.trans h.data, ?_⟩
  rcases h'.kind with hkind | ⟨e, e', hy, hz⟩
  · rw [hkind]
    exact h.kind
  · rcases h.kind with hkind | ⟨d, -, hx, -⟩
    · exact .inr ⟨e, e', hkind ▸ hy, hz⟩
    · exact .inr ⟨d, e', hx, hz⟩

theorem Arena.exists_of_modify {a : Arena} {id k : ObjectId} {f : Object → Object}
    (h : (a.modify id f).get? k = some y) (hf : ∀ x : Object, x.Alike (f x)) :
    ∃ x, a.get? k = some x ∧ x.Alike y := by
  rw [Arena.get?_modify] at h
  split at h
  · obtain ⟨x, hx, rfl⟩ := Option.map_eq_some_iff.mp h
    exact ⟨x, hx, hf x⟩
  · exact ⟨y, h, .refl y⟩

end SpuCompiler.Objects

namespace SpuCompiler.Selection

open Machine Trees Objects

variable {a : Arena} {k : ObjectId} {x y : Object} {s : SelectedRoutine}

theorem exists_of_installBlocks {bs : List SelectedBlock}
    (h : (SelectedRoutine.installBlocks a bs).get? k = some y) :
    ∃ x, a.get? k = some x ∧ x.Alike y := by
  induction bs generalizing a with
  | nil => exact ⟨y, h, .refl y⟩
  | cons b bs ih =>
    obtain ⟨z, hz, hy⟩ := ih h
    obtain ⟨x, hx, hxz⟩ := Arena.exists_of_modify hz fun _ => ⟨rfl, rfl, .inl rfl⟩
    exact ⟨x, hx, hxz.trans hy⟩

/-- Code that is installed leaves the objects alike. -/
theorem exists_of_install (h : (s.install a).get? k = some y) :
    ∃ x, a.get? k = some x ∧ x.Alike y := by
  obtain ⟨z, hz, hy⟩ := Arena.exists_of_modify h fun x => by
    split
    · rename_i e he
      exact ⟨rfl, rfl, .inr ⟨e, _, he, rfl⟩⟩
    · exact .refl x
  obtain ⟨x, hx, hxz⟩ := exists_of_installBlocks hz
  exact ⟨x, hx, hxz.trans hy⟩

/-! ## Names of blocks and constants -/

theorem Lowering.Steps.names {L : Lowering} {p q : Progress} (h : L.Steps p q)
    (hx : q.arena.get? k = some x) : p.arena.get? k = some x ∨ Reserved L.name x.name := by
  induction h with
  | refl => exact .inl hx
  | tail _ hstep ih =>
    cases hstep with
    | code | error | refused => exact ih hx
    | constant hadd =>
      obtain ⟨-, rfl⟩ := Arena.insert_ok hadd
      rcases Arena.get?_push hx with hx | ⟨-, rfl⟩
      · exact ih hx
      · exact .inr ((reserved_append L.name (by decide)).append _)

/-- New objects of a selected routine have reserved names. -/
theorem select_names {o : Options} {a' : Arena} {r : Routine} {id : ObjectId}
    (h : select o a r id = .ok (s, a')) (hx : a'.get? k = some x) :
    a.get? k = some x ∨ Reserved s.name x.name := by
  obtain ⟨objects, a₁, codes, p, q, e, halloc, -, hlow, -, -, -, rfl, rfl⟩ := select_run h
  have hsteps := Lowering.lowerBlocks_stepping ⟨r.name, o, (Frame.of o r.vars).vars⟩
    r.blocks.toList { stream := { p with code := #[] }, arena := a₁ }
  rw [hlow] at hsteps
  -- constants are added last, after the blocks
  rcases Lowering.Steps.names hsteps hx with hx | hname
  · obtain ⟨-, -, -, hobjects⟩ := allocateBlocks_ok halloc
    have hx : a₁.objects.toList[k]? = some x := by rwa [Array.getElem?_toList]
    rw [hobjects, List.getElem?_append] at hx
    split at hx
    · left
      rwa [Array.getElem?_toList] at hx
    · obtain ⟨name, hname, rfl⟩ := List.mem_map.mp (List.mem_of_getElem? hx)
      exact .inr (reserved_of_mem_blockNames hname)
  · exact .inr hname

end SpuCompiler.Selection

namespace SpuCompiler

open Metadata Bytecode Trees Objects Selection

variable {r : Request} {p : Program} {o : Options}

/-! ## Names that requests declare -/

def Request.symbol : Request → String
  | .declareRoutine m | .compile m _ _ => m.symbol
  | .declareStatic f => f.symbol

/-- The request that decides what a name stands for: the first that declares it. -/
def firstNaming (rs : List Request) (name : String) : Option Request :=
  rs.find? (·.symbol = name)

/-- What a request makes under a name that is new: storage for a static field, or a routine. -/
def Request.Makes (r : Request) (kind : ObjectKind) (data : List UInt8) : Prop :=
  match r with
  | .declareStatic f => kind = .data ∧ data = List.replicate (Program.staticSize f) 0
  | .declareRoutine _ | .compile _ _ _ => ∃ e, kind = .routine e

theorem Request.Makes.alike {x y : Object} (h : r.Makes x.kind x.data) (hxy : x.Alike y) :
    r.Makes y.kind y.data := by
  rcases hxy.kind with hkind | ⟨e, e', hx, hy⟩
  · rw [hkind, hxy.data]
    exact h
  · cases r with
    | declareStatic f => simp [Makes, hx] at h
    | declareRoutine | compile => exact ⟨e', hy⟩

/-- The name is one that blocks and constants of compiled routines may have. -/
def Program.Reserves (p : Program) (name : String) : Prop :=
  ∃ c ∈ p.routines, Reserved c.selected.name name

instance (p : Program) (name : String) : Decidable (p.Reserves name) :=
  inferInstanceAs (Decidable (∃ c ∈ p.routines, _))

/-- What there is after requests: every object is one of a compiled routine or what the first
request with its name has made, and all names that were declared exist. -/
structure Declared (rs : List Request) (p : Program) : Prop where
  objects : ∀ id x, p.arena.get? id = some x →
    p.Reserves x.name ∨ ∃ r, firstNaming rs x.name = some r ∧ r.Makes x.kind x.data
  names : ∀ r ∈ rs, ∃ id x, p.arena.get? id = some x ∧ x.name = r.symbol

theorem firstNaming_append {rs : List Request} {name : String} {r' : Request}
    (h : firstNaming rs name = some r) : firstNaming (rs ++ [r']) name = some r := by
  unfold firstNaming at h ⊢
  rw [List.find?_append, h]
  rfl

/-- A declaration finds an object with the name, or makes one. -/
inductive Program.Declares (p : Program) (r : Request) : Program → Prop
  | found {id : ObjectId} {x : Object} : p.arena.get? id = some x → x.name = r.symbol → Declares p r p
  | made {x : Object} : p.arena.find? r.symbol = none → x.name = r.symbol → r.Makes x.kind x.data →
      Declares p r { p with arena := p.arena.push x }

theorem Program.declareRoutine_declares {q : Program} (hp : p.arena.Indexed) {m : Method}
    {id : ObjectId} (h : p.declareRoutine m = .ok (id, q)) (hr : r.symbol = m.symbol)
    (hmakes : ∀ e data, r.Makes (.routine e) data) : p.Declares r q := by
  unfold Program.declareRoutine at h
  split at h
  · rename_i hfind
    cases h
    obtain ⟨x, hx, hname⟩ := (hp _ _).mp hfind
    exact .found hx (hname.trans hr.symm)
  · rename_i hfind
    obtain ⟨⟨id', arena⟩, hadd, hq⟩ := bind_eq_ok.mp h
    cases hq
    obtain ⟨-, rfl⟩ := Arena.insert_ok hadd
    exact .made (hr ▸ hfind) hr.symm (hmakes _ _)

theorem Program.declareStatic_declares (hp : p.arena.Indexed) (f : Field) :
    ∃ id q, p.declareStatic f = .ok (id, q) ∧ p.Declares (.declareStatic f) q := by
  unfold Program.declareStatic
  split
  · rename_i id hfind
    obtain ⟨x, hx, hname⟩ := (hp _ _).mp hfind
    exact ⟨id, p, rfl, .found hx hname⟩
  · rename_i hfind
    have hadd : p.arena.addData f.symbol (List.replicate (staticSize f) 0) = .ok (p.arena.size,
        p.arena.push { name := f.symbol, kind := .data, data := .replicate (staticSize f) 0 }) := by
      simp [Arena.addData, Arena.insert, hfind]
    rw [hadd]
    exact ⟨_, _, rfl, .made hfind rfl ⟨rfl, rfl⟩⟩

namespace Declared

variable {o : Options} {rs : List Request} {r : Request} {p q : Program}

theorem new (h : Program.new o = .ok p) : Declared [] p := by
  obtain ⟨u, -, h⟩ := bind_eq_ok.mp h
  cases h
  refine ⟨?_, nofun⟩
  intro id x hx
  simp [Arena.get?] at hx

theorem declare (h : Declared rs p) (hp : p.arena.Indexed) (hq : p.Declares r q) :
    Declared (rs ++ [r]) q := by
  have hold : ∀ id x, p.arena.get? id = some x →
      p.Reserves x.name ∨ ∃ r', firstNaming (rs ++ [r]) x.name = some r' ∧ r'.Makes x.kind x.data := by
    intro id x hx
    refine (h.objects id x hx).imp_right ?_
    rintro ⟨r', hr', hmakes⟩
    exact ⟨r', firstNaming_append hr', hmakes⟩
  cases hq with
  | @found id x hx hname =>
    refine ⟨hold, ?_⟩
    intro r' hr'
    rcases List.mem_append.mp hr' with hr' | hr'
    · exact h.names r' hr'
    · obtain rfl := List.mem_singleton.mp hr'
      exact ⟨id, x, hx, hname⟩
  | @made x hfind hname hmakes =>
    refine ⟨?_, ?_⟩
    · intro id y hy
      rcases Arena.get?_push hy with hy | ⟨-, rfl⟩
      · exact hold id y hy
      · -- an earlier request with the name would have left an object with it
        have hfirst : firstNaming rs y.name = none := by
          rw [firstNaming, List.find?_eq_none]
          intro r' hr' hsymbol
          obtain ⟨k, z, hz, hzname⟩ := h.names r' hr'
          have hfound := (hp _ _).mpr ⟨z, hz, rfl⟩
          rw [hzname, of_decide_eq_true hsymbol, hname, hfind] at hfound
          cases hfound
        refine .inr ⟨r, ?_, hmakes⟩
        unfold firstNaming at hfirst ⊢
        rw [List.find?_append, hfirst]
        simp [hname]
    · intro r' hr'
      rcases List.mem_append.mp hr' with hr' | hr'
      · obtain ⟨k, z, hz, hzname⟩ := h.names r' hr'
        exact ⟨k, z, Arena.get?_push_of_get? hz, hzname⟩
      · obtain rfl := List.mem_singleton.mp hr'
        exact ⟨_, x, Arena.get?_push_size _ _, hname⟩

/-- Compiled code adds reserved names only. -/
theorem compileDeclared {id : ObjectId} {m : Method} {body : Body} {resolver : Resolver}
    {c : CompiledRoutine} (h : Declared rs p) (hp : Sound o p)
    (hq : p.compileDeclared id m body resolver = (.ok c, q)) : Declared rs q := by
  obtain ⟨-, tree, s, arena, -, hselect, rfl, rfl⟩ := Program.compileDeclared_ok hq
  rw [hp.options] at hselect
  have hs := select_ok hselect hp.built.indexed (Options.arguments_le hp.valid)
  refine ⟨?_, ?_⟩
  · intro k y hy
    obtain ⟨x, hx, halike⟩ := exists_of_install hy
    rw [halike.name]
    rcases select_names hselect hx with hx | hname
    · refine (h.objects k x hx).imp ?_ ?_
      · rintro ⟨c, hc, hname⟩
        exact ⟨c, List.mem_append_left _ hc, hname⟩
      · rintro ⟨r, hr, hmakes⟩
        exact ⟨r, hr, hmakes.alike halike⟩
    · exact .inl ⟨_, List.mem_append_right _ (List.mem_singleton_self _), hname⟩
  · intro r hr
    obtain ⟨k, x, hx, hname⟩ := h.names r hr
    obtain ⟨y, hy, hyname, -⟩ := hs.install_old hx
    exact ⟨k, y, hy, hyname.trans hname⟩

theorem answer (h : Declared rs p) (hp : Sound o p) (r : Request) :
    Declared (rs ++ [r]) (p.answer r).2 := by
  have hindexed := hp.built.indexed
  cases r with
  | declareRoutine m =>
    obtain ⟨id, q, hq⟩ := p.exists_declareRoutine m
    rw [Program.answer, hq]
    exact h.declare hindexed (Program.declareRoutine_declares hindexed hq rfl fun e _ => ⟨e, rfl⟩)
  | declareStatic f =>
    obtain ⟨id, q, hq, hdeclares⟩ := Program.declareStatic_declares hindexed f
    rw [Program.answer, hq]
    exact h.declare hindexed hdeclares
  | compile m body resolver =>
    have hdeclare : ∀ {id q}, p.declareRoutine m = .ok (id, q) →
        Declared (rs ++ [.compile m body resolver]) q := fun hq =>
      h.declare hindexed (Program.declareRoutine_declares hindexed hq rfl fun e _ => ⟨e, rfl⟩)
    rcases hrun : p.compile m body resolver with ⟨e | c, q⟩
    · obtain ⟨⟨id, hq⟩, -⟩ := Program.compile_error hrun
      rw [Program.answer, hrun]
      exact hdeclare hq
    · obtain ⟨id, p', hp', hq⟩ := Program.compile_ok hrun
      rw [Program.answer, hrun]
      exact (hdeclare hp').compileDeclared (hp.declareRoutine hp').1 hq

end Declared

theorem Sound.answer (h : Sound o p) (r : Request) : Sound o (p.answer r).2 := by
  cases r with
  | declareRoutine m =>
    obtain ⟨id, q, hq⟩ := p.exists_declareRoutine m
    rw [Program.answer, hq]
    exact (h.declareRoutine hq).1
  | declareStatic f =>
    obtain ⟨id, q, hq, -⟩ := Program.declareStatic_declares h.built.indexed f
    rw [Program.answer, hq]
    exact h.declareStatic hq
  | compile m body resolver => exact h.compile m body resolver

theorem Program.serve_concat (p : Program) (rs : List Request) (r : Request) :
    (p.serve (rs ++ [r])).2 = ((p.serve rs).2.answer r).2 := by
  induction rs generalizing p with
  | nil => rfl
  | cons r' rs ih => exact ih _

/-- What requests leave behind, in whatever order they come. -/
theorem serve_declared {start : Program} (h : Program.new o = .ok start) (rs : List Request) :
    Sound o (start.serve rs).2 ∧ Declared rs (start.serve rs).2 := by
  induction rs using List.reverseRecOn with
  | nil => exact ⟨.new h, .new h⟩
  | append_singleton rs r ih =>
    rw [Program.serve_concat]
    exact ⟨ih.1.answer r, ih.2.answer ih.1 r⟩

end SpuCompiler
