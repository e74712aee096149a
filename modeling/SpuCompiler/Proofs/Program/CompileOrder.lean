import Mathlib.Data.List.Perm.Basic
import SpuCompiler.Proofs.Program.Runs
import SpuCompiler.Proofs.Selection.Independence
import SpuCompiler.Proofs.Trees.Entries

/-!
The order of compilation. To compile a method adds its blocks and constants, which are the same
whatever the program holds, and gives its routine an epilogue. Under names, two such changes can
be made in either order; so methods that compile in two orders give the same objects in both.
-/

namespace SpuCompiler.Trees

open Metadata Bytecode

/-- The tree form has the name of its method. -/
theorem build_name {m : Method} {body : Body} {resolver : Resolver} {tree : Routine}
    (h : build m body resolver = .ok tree) : tree.name = m.symbol := by
  obtain ⟨records, bs, b, -, -, hb, rfl⟩ := build_eq_ok h
  have hmethod : b.method = m := by
    refine foldlM_invariant (P := fun c => c.method = m) ?_ rfl hb
    intro c c' r _ hc hstep
    rw [(Builder.step_keeps hstep).method, Builder.method_enterAt, hc]
  exact congrArg Method.symbol hmethod

end SpuCompiler.Trees

namespace SpuCompiler.Selection

open Trees Objects

variable {o : Options} {a b : Arena} {r : Routine} {id : ObjectId} {s : SelectedRoutine}
variable {name : String} {y : NamedObject}

/-! ## A selected routine under names -/

theorem select_adds (h : select o a r id = .ok (s, b)) : a.Adds b := by
  have hadds := addRoutineCode_adds o a r id
  rwa [selectInto_eq_ok.mp (select_eq_ok.mp h)] at hadds

theorem install_get?_old (h : select o a r id = .ok (s, b)) (ha : a.Indexed) {k : ObjectId}
    {x : Object} (hx : a.get? k = some x) : (s.install b).get? k =
      some (if k = id then x.withEpilogue s.epilogue.object else x) := by
  obtain ⟨_, _, q, rfl, hparts⟩ := select_parts h ha b.namedBy_nameOf
  exact hparts.old_objects hx

theorem names_epilogue {names : ObjectId → Option String} (h : select o a r id = .ok (s, b))
    (ha : a.Indexed) (hnames : b.NamedBy names) :
    names s.epilogue.object = some s!"{r.name}#epilogue" := by
  obtain ⟨_, _, q, rfl, hparts⟩ := select_parts h ha hnames
  exact hparts.names_epilogue

theorem install_closed (h : select o a r id = .ok (s, b)) (ha : a.Indexed) (hclosed : a.Closed)
    (hid : id < a.size) : (s.install b).Closed := by
  intro names hnames k x hx
  have hb : b.NamedBy names := hnames.of_nameOf_eq (nameOf_install s b)
  have hold := hb.before (select_adds h)
  have hold' := b.namedBy_nameOf.before (select_adds h)
  rw [nameOf_install]
  rcases Nat.lt_or_ge k a.size with hlt | hge
  · obtain ⟨y, hy⟩ := Arena.exists_get? hlt
    rw [install_get?_old h ha hy] at hx
    obtain rfl := Option.some.inj hx
    split
    · rw [nameObject_withEpilogue, nameObject_withEpilogue, names_epilogue h ha hb,
        names_epilogue h ha b.namedBy_nameOf, hclosed _ hold k y hy, hclosed _ hold' k y hy]
    · rw [hclosed _ hold k y hy, hclosed _ hold' k y hy]
  · -- one run beside itself, under two ways to name what is not in the arena
    obtain ⟨y, hy⟩ := Arena.exists_get? hid
    have hsame := select_independent h h ha ha hid hid hb b.namedBy_nameOf
      ((hold id y hy).trans (hold' id y hy).symm)
    have hdrop : ((s.install b).objects.toList.drop a.size)[k - a.size]? = some x := by
      rw [List.getElem?_drop, Array.getElem?_toList, Nat.add_sub_cancel' hge]
      exact hx
    have hat := congrArg (·[k - a.size]?) hsame
    simp only [nameObjects, List.getElem?_map, hdrop, Option.map_some, Option.some.injEq,
      Prod.mk.injEq, true_and] at hat
    exact hat

/-- What there is under names with the code: the new objects, the routine with its epilogue, and
all else as before. -/
theorem install_named (h : select o a r id = .ok (s, b)) (ha : a.Indexed) (hclosed : a.Closed)
    (hid : a.find? r.name = some id) (hb : (s.install b).Indexed) (name : String) :
    (s.install b).named name = (((s.install b).namedFrom a.size).lookup name).or
      (if name = r.name then (a.named name).map (·.withEpilogue s!"{r.name}#epilogue")
        else a.named name) := by
  have hnames : a.NamedBy (s.install b).nameOf := by
    rw [nameOf_install]
    exact b.namedBy_nameOf.before (select_adds h)
  cases hlookup : ((s.install b).namedFrom a.size).lookup name with
  | some y =>
    obtain ⟨k, x, -, hx, rfl, rfl⟩ := Arena.lookup_namedFrom_eq_some hlookup
    exact hb.named hx
  | none =>
    rw [Option.none_or]
    split
    · rename_i hname
      obtain ⟨x, hx, hxname⟩ := (ha _ _).mp hid
      have hget := install_get?_old h ha hx
      rw [if_pos rfl] at hget
      have hnamed := hb.named hget
      rw [Object.name_withEpilogue, hxname] at hnamed
      have hepilogue := names_epilogue h ha b.namedBy_nameOf
      rw [hname, hnamed, ← hxname, ha.named hx, nameObject_withEpilogue, hclosed _ hnames id x hx,
        nameOf_install, hepilogue, hxname]
      rfl
    · rename_i hname
      refine hclosed.named_eq ha hb hnames ?_ ?_
      · intro k x hx hxname
        have hne : k ≠ id := by
          rintro rfl
          obtain ⟨x', hx', hxname'⟩ := (ha _ _).mp hid
          obtain rfl := Option.some.inj (hx.symm.trans hx')
          exact hname (hxname.symm.trans hxname')
        rw [install_get?_old h ha hx, if_neg hne]
      · intro k x hx hxname
        obtain ⟨y, hy⟩ := Arena.exists_get? (Arena.lookup_namedFrom_eq_none hlookup hx hxname)
        rw [install_get?_old h ha hy] at hx
        obtain rfl := Option.some.inj hx
        refine ⟨y, hy, ?_⟩
        rw [← hxname]
        split
        · exact (Object.name_withEpilogue _ y).symm
        · rfl

/-- No older object has the name of a new one. -/
theorem named_of_lookup (h : select o a r id = .ok (s, b)) (ha : a.Indexed)
    (hb : (s.install b).Indexed) (hy : ((s.install b).namedFrom a.size).lookup name = some y) :
    a.named name = none := by
  obtain ⟨k, x, hk, hx, rfl, -⟩ := Arena.lookup_namedFrom_eq_some hy
  refine ha.named_eq_none fun j z hz hname => ?_
  have hlt := Arena.lt_size_of_get? hz
  have hz' := install_get?_old h ha hz
  have hfound := (hb x.name k).mpr ⟨x, hx, rfl⟩
  have hfound' : (s.install b).find? x.name = some j := by
    refine (hb x.name j).mpr ⟨_, hz', ?_⟩
    split
    · rw [Object.name_withEpilogue, hname]
    · exact hname
  rw [hfound] at hfound'
  obtain rfl := Option.some.inj hfound'
  exact absurd hlt (Nat.not_lt.mpr hk)

/-- New objects are blocks and constants, which have no epilogue. -/
theorem withEpilogue_of_lookup (h : select o a r id = .ok (s, b)) (ha : a.Indexed)
    (hid : id < a.size) (hy : ((s.install b).namedFrom a.size).lookup name = some y)
    (e : Option String) : y.withEpilogue e = y := by
  obtain ⟨_, _, q, rfl, hparts⟩ := select_parts h ha b.namedBy_nameOf
  obtain ⟨xs, hxs, hq⟩ := hparts.exists_constants
  rw [Arena.namedFrom, nameOf_install, hparts.new_objects hid hq] at hy
  obtain ⟨l, l', hl, -⟩ := List.lookup_eq_some_iff.mp hy
  have hmem : (name, y) ∈ l ++ (name, y) :: l' := by simp
  rw [← hl] at hmem
  rcases List.mem_append.mp hmem with hmem | hmem
  · obtain ⟨k, hk⟩ := List.mem_iff_getElem?.mp hmem
    obtain ⟨_, code, -, -, hblock⟩ := List.getElem?_zipWith_eq_some.mp hk
    cases hblock
    rfl
  · obtain ⟨x, hx, hxy⟩ := List.mem_map.mp hmem
    obtain ⟨_, bits, rfl⟩ := hxs x hx
    cases hxy
    rfl

end SpuCompiler.Selection

namespace SpuCompiler

open Metadata Bytecode Trees Objects Selection

variable {p q : Program}

/-! ## One compilation -/

def newRoutine : NamedObject := ⟨.routine none, none, [], [], none⟩

/-- What compiling a routine does to what there is under names: its code is added, and the routine,
which is there then, has an epilogue. -/
def addRoutine (symbol : String) (code : List (String × NamedObject))
    (named : String → Option NamedObject) (name : String) : Option NamedObject :=
  (code.lookup name).or
    (if name = symbol then some (((named name).getD newRoutine).withEpilogue s!"{symbol}#epilogue")
      else named name)

theorem Program.declareRoutine_named {m : Method} {id : ObjectId} (hp : p.arena.Indexed)
    (hclosed : p.arena.Closed) (h : p.declareRoutine m = .ok (id, q)) :
    q.arena.Closed ∧ q.arena.find? m.symbol = some id ∧ ∀ name, q.arena.named name =
      if name = m.symbol then some ((p.arena.named name).getD newRoutine)
      else p.arena.named name := by
  unfold Program.declareRoutine at h
  split at h
  · rename_i hfind
    cases h
    refine ⟨hclosed, hfind, fun name => ?_⟩
    split
    · rename_i hname
      obtain ⟨x, hx, hxname⟩ := (hp _ _).mp hfind
      rw [hname, ← hxname, hp.named hx]
      rfl
    · rfl
  · rename_i hfind
    obtain ⟨⟨id', arena⟩, hadd, hq⟩ := bind_eq_ok.mp h
    cases hq
    refine ⟨hclosed.insert hadd fun _ _ => rfl, ?_, fun name => ?_⟩
    · obtain ⟨rfl, rfl⟩ := Arena.insert_ok hadd
      exact (Arena.find?_push _ _ _).trans (if_pos rfl)
    · rw [hclosed.named_insert hp hadd]
      split
      · rename_i hname
        have hnone : p.arena.named name = none := by
          rw [hname, Arena.named]
          simp [hfind]
        rw [hnone]
        rfl
      · rfl

structure MethodSource where
  method : Method
  body : Body
  resolver : Resolver

/-- A compilation with the code that it added. -/
def Program.Compiles (o : Options) (p : Program) (m : MethodSource) (q : Program)
    (code : List (String × NamedObject)) : Prop :=
  ∃ id p' tree s b, p.declareRoutine m.method = .ok (id, p') ∧
    build m.method m.body m.resolver = .ok tree ∧ select o p'.arena tree id = .ok (s, b) ∧
    q.arena = s.install b ∧ code = q.arena.namedFrom p'.arena.size

namespace Program.Compiles

variable {o : Options} {p p' q q' : Program} {m : MethodSource}
  {code code' : List (String × NamedObject)}

theorem of_compile {c : CompiledRoutine} (hp : Sound o p)
    (h : p.compile m.method m.body m.resolver = (.ok c, q)) : ∃ code, p.Compiles o m q code := by
  obtain ⟨id, p', hdeclare, hcompile⟩ := Program.compile_ok h
  obtain ⟨-, tree, s, b, hbuild, hselect, rfl, rfl⟩ := Program.compileDeclared_ok hcompile
  rw [(hp.declareRoutine hdeclare).1.options] at hselect
  exact ⟨_, id, p', tree, s, b, hdeclare, hbuild, hselect, rfl, rfl⟩

theorem closed (h : p.Compiles o m q code) (hp : Sound o p) (hclosed : p.arena.Closed) :
    q.arena.Closed := by
  obtain ⟨id, p', tree, s, b, hdeclare, -, hselect, hq, -⟩ := h
  obtain ⟨hp', hid, -⟩ := hp.declareRoutine hdeclare
  obtain ⟨hclosed', -⟩ := Program.declareRoutine_named hp.built.indexed hclosed hdeclare
  rw [hq]
  exact install_closed hselect hp'.built.indexed hclosed' hid

/-- Under names, the code is added to what there was. -/
theorem named (h : p.Compiles o m q code) (hp : Sound o p) (hclosed : p.arena.Closed)
    (hq : q.arena.Indexed) :
    q.arena.named = addRoutine m.method.symbol code p.arena.named := by
  obtain ⟨id, p', tree, s, b, hdeclare, hbuild, hselect, hqs, rfl⟩ := h
  obtain ⟨hp', -, -⟩ := hp.declareRoutine hdeclare
  obtain ⟨hclosed', hfind, hnamed⟩ :=
    Program.declareRoutine_named hp.built.indexed hclosed hdeclare
  rw [← build_name hbuild] at hfind hnamed ⊢
  rw [hqs] at hq ⊢
  funext name
  rw [install_named hselect hp'.built.indexed hclosed' hfind hq, hnamed, addRoutine]
  congr 1
  split <;> rfl

/-- The code is new, and has no routines. -/
theorem lookup (h : p.Compiles o m q code) (hp : Sound o p) (hclosed : p.arena.Closed)
    (hq : q.arena.Indexed) {name : String} {y : NamedObject} (hy : code.lookup name = some y) :
    p.arena.named name = none ∧ ∀ e, y.withEpilogue e = y := by
  obtain ⟨id, p', tree, s, b, hdeclare, -, hselect, hqs, rfl⟩ := h
  obtain ⟨hp', hid, -⟩ := hp.declareRoutine hdeclare
  obtain ⟨-, -, hnamed⟩ := Program.declareRoutine_named hp.built.indexed hclosed hdeclare
  rw [hqs] at hq hy
  have hnone := named_of_lookup hselect hp'.built.indexed hq hy
  refine ⟨?_, withEpilogue_of_lookup hselect hp'.built.indexed hid hy⟩
  rw [hnamed] at hnone
  split at hnone
  · cases hnone
  · exact hnone

/-- A method has the same code in all programs. -/
theorem code_eq (h : p.Compiles o m q code) (h' : p'.Compiles o m q' code') (hp : Sound o p)
    (hp' : Sound o p') (hclosed : p.arena.Closed) (hclosed' : p'.arena.Closed) : code = code' := by
  obtain ⟨id, r, tree, s, b, hdeclare, hbuild, hselect, hq, rfl⟩ := h
  obtain ⟨id', r', tree', s', b', hdeclare', hbuild', hselect', hq', rfl⟩ := h'
  obtain rfl : tree = tree' := Except.ok.inj (hbuild.symm.trans hbuild')
  obtain ⟨hr, hid, -⟩ := hp.declareRoutine hdeclare
  obtain ⟨hr', hid', -⟩ := hp'.declareRoutine hdeclare'
  obtain ⟨-, hfind, -⟩ := Program.declareRoutine_named hp.built.indexed hclosed hdeclare
  obtain ⟨-, hfind', -⟩ := Program.declareRoutine_named hp'.built.indexed hclosed' hdeclare'
  have hname : ∀ {r : Program} {id s b}, r.arena.Indexed → select o r.arena tree id = .ok (s, b) →
      r.arena.find? m.method.symbol = some id → b.nameOf id = some m.method.symbol := by
    intro r id s b hr hselect hfind
    obtain ⟨x, hx, hxname⟩ := (hr _ _).mp hfind
    rw [← hxname]
    exact b.namedBy_nameOf.before (select_adds hselect) id x hx
  rw [hq, hq', Arena.namedFrom, Arena.namedFrom, nameOf_install, nameOf_install]
  refine select_independent hselect hselect' hr.built.indexed hr'.built.indexed hid hid'
    b.namedBy_nameOf b'.namedBy_nameOf ?_
  rw [hname hr.built.indexed hselect hfind, hname hr'.built.indexed hselect' hfind']

end Program.Compiles

/-- Whatever is declared and compiled, objects refer to objects that exist. -/
theorem Program.Reached.closed {o : Options} (h : p.Reached o) : p.arena.Closed := by
  induction h with
  | new h =>
    obtain ⟨u, -, h⟩ := bind_eq_ok.mp h
    cases h
    intro names _ id x hx
    simp [Arena.get?] at hx
  | declareRoutine hp h ih => exact (Program.declareRoutine_named hp.sound.built.indexed ih h).1
  | @declareStatic p q f id hp h ih =>
    unfold Program.declareStatic at h
    split at h
    · cases h
      exact ih
    · obtain ⟨⟨id', arena⟩, hadd, hq⟩ := bind_eq_ok.mp h
      cases hq
      exact ih.insert hadd fun _ _ => rfl
  | @compile p m body resolver hp ih =>
    rcases hrun : p.compile m body resolver with ⟨e | c, q⟩
    · obtain ⟨⟨id, hq⟩, -⟩ := Program.compile_error hrun
      exact (Program.declareRoutine_named hp.sound.built.indexed ih hq).1
    · obtain ⟨code, hcode⟩ := Program.Compiles.of_compile (m := ⟨m, body, resolver⟩) hp.sound hrun
      exact hcode.closed hp.sound ih

/-- There is one code for each method, with which it is compiled wherever it is. -/
theorem exists_code (o : Options) (m : MethodSource) : ∃ code, ∀ (p q : Program) code',
    p.Reached o → p.Compiles o m q code' → code' = code := by
  by_cases h : ∃ (p q : Program) (code : _), p.Reached o ∧ p.Compiles o m q code
  · obtain ⟨p, q, code, hp, hcode⟩ := h
    exact ⟨code, fun p' q' code' hp' hcode' =>
      hcode'.code_eq hcode hp'.sound hp.sound hp'.closed hp.closed⟩
  · exact ⟨[], fun p' q' code' hp' hcode' => absurd ⟨p', q', code', hp', hcode'⟩ h⟩

/-! ## Two compilations -/

def Apart (code code' : List (String × NamedObject)) : Prop :=
  ∀ name, code.lookup name = none ∨ code'.lookup name = none

/-- Codes with no name in common can be added in either order. A name of the one may be the symbol
of the other; what is under it then has no epilogue. -/
theorem addRoutine_comm {symbol symbol' : String} {code code' : List (String × NamedObject)}
    (hne : symbol ≠ symbol') (hapart : Apart code code')
    (hcode : ∀ name y, code.lookup name = some y → ∀ e, y.withEpilogue e = y)
    (hcode' : ∀ name y, code'.lookup name = some y → ∀ e, y.withEpilogue e = y)
    (named : String → Option NamedObject) :
    addRoutine symbol' code' (addRoutine symbol code named) =
      addRoutine symbol code (addRoutine symbol' code' named) := by
  funext name
  unfold addRoutine
  cases hl : code.lookup name with
  | some y =>
    have hl' : code'.lookup name = none := (hapart name).resolve_left (by simp [hl])
    simp [hl', hcode name y hl]
  | none =>
    cases hl' : code'.lookup name with
    | some y => simp [hcode' name y hl']
    | none =>
      simp only [Option.none_or]
      by_cases hs : name = symbol
      · have hs' : name ≠ symbol' := fun h => hne (hs.symm.trans h)
        simp [hs, hne]
      · simp [hs]

/-! ## Compilations in a row -/

/-- Compiles methods one after the other, up to the first that fails. -/
def Program.compileAll (p : Program) : List MethodSource → Except CompileError Program
  | [] => .ok p
  | m :: ms =>
    match p.compile m.method m.body m.resolver with
    | (.ok _, q) => q.compileAll ms
    | (.error e, _) => .error e

theorem Program.compileAll_cons {m : MethodSource} {ms : List MethodSource}
    (h : p.compileAll (m :: ms) = .ok q) :
    ∃ c p', p.compile m.method m.body m.resolver = (.ok c, p') ∧ p'.compileAll ms = .ok q := by
  unfold Program.compileAll at h
  split at h
  · rename_i c p' hcompile
    exact ⟨c, p', hcompile, h⟩
  · cases h

section Runs

variable {o : Options} {code : MethodSource → List (String × NamedObject)}
  (hcode : ∀ m, ∀ (p q : Program) code', p.Reached o → p.Compiles o m q code' → code' = code m)
variable {m : MethodSource} {ms : List MethodSource}

include hcode

/-- One step of a run: the code of the method is new, without routines, and is added. -/
theorem Program.Reached.compile_step {p q : Program} {c : CompiledRoutine} (hp : p.Reached o)
    (h : p.compile m.method m.body m.resolver = (.ok c, q)) :
    q.Reached o ∧ q.arena.named = addRoutine m.method.symbol (code m) p.arena.named ∧
      ∀ name y, (code m).lookup name = some y →
        p.arena.named name = none ∧ ∀ e, y.withEpilogue e = y := by
  have hq : q.Reached o := by
    have hreached := Reached.compile m.method m.body m.resolver hp
    rwa [h] at hreached
  obtain ⟨code', hcompiles⟩ := Program.Compiles.of_compile hp.sound h
  obtain rfl := hcode m p q code' hp hcompiles
  have hindexed := hq.sound.built.indexed
  exact ⟨hq, hcompiles.named hp.sound hp.closed hindexed, fun name y hy =>
    hcompiles.lookup hp.sound hp.closed hindexed hy⟩

theorem compileAll_named {p q : Program} (hp : p.Reached o) (h : p.compileAll ms = .ok q) :
    q.Reached o ∧ q.arena.named =
      ms.foldl (fun named m => addRoutine m.method.symbol (code m) named) p.arena.named := by
  induction ms generalizing p with
  | nil =>
    cases h
    exact ⟨hp, rfl⟩
  | cons m ms ih =>
    obtain ⟨c, p', hcompile, hrest⟩ := Program.compileAll_cons h
    obtain ⟨hp', hnamed, -⟩ := hp.compile_step hcode hcompile
    rw [List.foldl_cons, ← hnamed]
    exact ih hp' hrest

/-- The code of a method in a run is new in the program that the run starts with. -/
theorem compileAll_fresh {p q : Program} (hp : p.Reached o) (h : p.compileAll ms = .ok q)
    (hm : m ∈ ms) {name : String} {y : NamedObject} (hy : (code m).lookup name = some y) :
    p.arena.named name = none ∧ ∀ e, y.withEpilogue e = y := by
  induction ms generalizing p with
  | nil => cases hm
  | cons m' ms ih =>
    obtain ⟨c, p', hcompile, hrest⟩ := Program.compileAll_cons h
    obtain ⟨hp', hnamed, hlookup⟩ := hp.compile_step hcode hcompile
    rcases List.mem_cons.mp hm with rfl | hm
    · exact hlookup name y hy
    · -- names stay, so a name that is new later is new now
      obtain ⟨hnone, hepilogue⟩ := ih hp' hrest hm
      refine ⟨?_, hepilogue⟩
      rw [hnamed, addRoutine, Option.or_eq_none_iff] at hnone
      by_contra hsome
      have hrest := hnone.2
      split at hrest
      · cases hrest
      · exact hsome hrest

theorem compileAll_apart {p q : Program} (hp : p.Reached o) (h : p.compileAll ms = .ok q) :
    ms.Pairwise fun m m' => Apart (code m) (code m') := by
  induction ms generalizing p with
  | nil => exact .nil
  | cons m ms ih =>
    obtain ⟨c, p', hcompile, hrest⟩ := Program.compileAll_cons h
    obtain ⟨hp', hnamed, -⟩ := hp.compile_step hcode hcompile
    refine .cons ?_ (ih hp' hrest)
    intro m' hm' name
    cases hl' : (code m').lookup name with
    | none => exact .inr rfl
    | some y =>
      -- the code of the first method is there when that of the second is added
      have hnone := (compileAll_fresh hcode hp' hrest hm' hl').1
      rw [hnamed, addRoutine, Option.or_eq_none_iff] at hnone
      exact .inl hnone.1

end Runs

/-- The order of compilation does not matter. Where methods with distinct symbols compile in two
orders, the resulting programs have the same objects, of the same names, kinds, data and code, with
names in the place of numbers. All numbers are of objects that exist, so nothing is lost by that. -/
theorem compileAll_order {o : Options} {p : Program} (hp : p.Reached o) {ms ms' : List MethodSource}
    (hdistinct : (ms.map (·.method.symbol)).Nodup) (hperm : ms.Perm ms') {q q' : Program}
    (hq : p.compileAll ms = .ok q) (hq' : p.compileAll ms' = .ok q') :
    q.arena.Closed ∧ q'.arena.Closed ∧
      (nameObjects q.arena.nameOf q.arena.objects.toList).Perm
        (nameObjects q'.arena.nameOf q'.arena.objects.toList) ∧
      ∀ name, q.arena.named name = q'.arena.named name := by
  choose code hcode using exists_code o
  obtain ⟨hreached, hnamed⟩ := compileAll_named hcode hp hq
  obtain ⟨hreached', hnamed'⟩ := compileAll_named hcode hp hq'
  have hsymm : Std.Symm fun m m' => Apart (code m) (code m') := ⟨fun _ _ h name => (h name).symm⟩
  have hapart := compileAll_apart hcode hp hq
  have hsymbols := List.inj_on_of_nodup_map hdistinct
  have hsame : ∀ name, q.arena.named name = q'.arena.named name := by
    rw [hnamed, hnamed', hperm.foldl_eq']
    · exact fun _ => rfl
    · intro m hm m' hm' named
      by_cases hne : m = m'
      · rw [hne]
      · exact addRoutine_comm (fun h => hne (hsymbols hm hm' h)) (hapart.forall hm hm' hne)
          (fun name y hy => (compileAll_fresh hcode hp hq hm hy).2)
          (fun name y hy => (compileAll_fresh hcode hp hq hm' hy).2) named
  have hobjects := hreached.sound.built.indexed.perm_nameObjects hreached'.sound.built.indexed hsame
  exact ⟨hreached.closed, hreached'.closed, hobjects, hsame⟩

def pingMethod : Method := { name := "Ping" }

def pongMethod : Method := { name := "Pong" }

def rallyTokens : Resolver := (TokenTable.of [.method pingMethod, .method pongMethod]).resolver

/-- Loads a wide constant and calls the method with a token. -/
def returnServe (constant token : UInt8) : Body :=
  { code := [0x21, constant, 0, 0, 0, 0, 0, 0, 0, 0x26, 0x28, token, 0, 0, 6, 0x2A] }

def pingSource : MethodSource := ⟨pingMethod, returnServe 7 2, rallyTokens⟩

def pongSource : MethodSource := ⟨pongMethod, returnServe 9 1, rallyTokens⟩

/-- Both methods are declared, since each calls the other. -/
def rallyStart : Program :=
  { arena := (Arena.push {} { name := "Ping", kind := .routine none }).push
      { name := "Pong", kind := .routine none } }

/-- The objects of each method have other numbers when it is the second. -/
theorem rally_order : ∃ q q', rallyStart.compileAll [pingSource, pongSource] = .ok q ∧
    rallyStart.compileAll [pongSource, pingSource] = .ok q' ∧
    q.arena.find? "Pong#const0" ≠ q'.arena.find? "Pong#const0" ∧
    q.arena.Closed ∧ q'.arena.Closed ∧
      (nameObjects q.arena.nameOf q.arena.objects.toList).Perm
        (nameObjects q'.arena.nameOf q'.arena.objects.toList) ∧
      ∀ name, q.arena.named name = q'.arena.named name := by
  have hreached : rallyStart.Reached {} :=
    .declareRoutine (m := pongMethod) (.declareRoutine (m := pingMethod) (.new rfl) rfl) rfl
  have hok : (rallyStart.compileAll [pingSource, pongSource]).isOk = true := by decide +kernel
  have hok' : (rallyStart.compileAll [pongSource, pingSource]).isOk = true := by decide +kernel
  have hmoved : (rallyStart.compileAll [pingSource, pongSource]).toOption.bind
        (·.arena.find? "Pong#const0") ≠
      (rallyStart.compileAll [pongSource, pingSource]).toOption.bind
        (·.arena.find? "Pong#const0") := by
    decide +kernel
  obtain ⟨q, hq⟩ := exists_of_isOk hok
  obtain ⟨q', hq'⟩ := exists_of_isOk hok'
  refine ⟨q, q', hq, hq', ?_, compileAll_order hreached (by decide) (.swap _ _ _) hq hq'⟩
  rw [hq, hq'] at hmoved
  exact hmoved

end SpuCompiler
