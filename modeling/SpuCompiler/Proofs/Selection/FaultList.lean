import SpuCompiler.Proofs.Selection.BlockNames
import SpuCompiler.Proofs.Selection.NodeFaults
import SpuCompiler.Proofs.Trees.Translation
import SpuCompiler.Proofs.Trees.WellTyped

/-!
The faults of a routine, all of them and in order. The fault of a node is a function of its
operation, its operand, its callee, its type and that of its left child, of the options and of the
names that were declared (`fault?`). Lowering goes on behind a fault, so what selection reports is
what this function gives for the nodes one after the other, behind the faults of the prologue.
-/

namespace SpuCompiler.Selection

open Machine Metadata Bytecode Trees Objects

def nodeError? (o : Options) (declared : String → Bool) (n : Node) : Option SelectionError :=
  (fault? o declared n.op n.operand n.callee? n.type (n.left?.map Node.type)).map fun fault =>
    ⟨n.offset, n.op, n.type, fault⟩

def treeErrors (o : Options) (declared : String → Bool) (n : Node) : List SelectionError :=
  n.postorder.filterMap (nodeError? o declared)

/-! ## Lowering -/

/-- The arena while a routine is lowered: names that are not reserved for the routine stand for
what they stood for, and the constants to come have free names. -/
structure Keeps (routine : String) (a : Arena) (p : Progress) : Prop where
  same : ∀ name, ¬ Reserved routine name → p.arena.find? name = a.find? name
  free : ∀ k, p.constants ≤ k → p.arena.find? (constantName routine k) = none

/-- The computation reports these errors whatever was done before it, and gives a result that
satisfies the condition. -/
def Notes {α : Type} (routine : String) (a : Arena) (m : LowerM α) (errors : List SelectionError)
    (Q : α → Prop) : Prop :=
  ∀ p, Keeps routine a p → Keeps routine a (m.run p).2 ∧
    (m.run p).2.errors.toList = p.errors.toList ++ errors ∧ Q (m.run p).1

namespace Notes

variable {α β : Type} {routine : String} {a : Arena}

theorem pure {x : α} {Q : α → Prop} (h : Q x) : Notes routine a (pure x) [] Q :=
  fun _ hp => ⟨hp, (List.append_nil _).symm, h⟩

theorem bind {m : LowerM α} {f : α → LowerM β} {es es' : List SelectionError} {P : α → Prop}
    {Q : β → Prop} (hm : Notes routine a m es P) (hf : ∀ x, P x → Notes routine a (f x) es' Q) :
    Notes routine a (m >>= f) (es ++ es') Q := by
  intro p hp
  obtain ⟨hkeeps, herrors, hx⟩ := hm p hp
  obtain ⟨hkeeps', herrors', hy⟩ := hf _ hx _ hkeeps
  exact ⟨hkeeps', by rw [← List.append_assoc, ← herrors]; exact herrors', hy⟩

/-- What reports nothing does not show in the list. -/
theorem after {m : LowerM α} {f : α → LowerM β} {es : List SelectionError} {P : α → Prop}
    {Q : β → Prop} (hm : Notes routine a m [] P) (hf : ∀ x, P x → Notes routine a (f x) es Q) :
    Notes routine a (m >>= f) es Q := hm.bind hf

theorem emit (e : Emit α) : Notes routine a (Lowering.emit e) [] fun _ => True :=
  fun _ hp => ⟨⟨hp.same, hp.free⟩, (List.append_nil _).symm, trivial⟩

theorem takeCode : Notes routine a Lowering.takeCode [] fun _ => True :=
  fun _ hp => ⟨⟨hp.same, hp.free⟩, (List.append_nil _).symm, trivial⟩

theorem report (n : Node) (fault : Fault) :
    Notes routine a (Lowering.report n fault) [⟨n.offset, n.op, n.type, fault⟩] fun _ => True :=
  fun _ hp => ⟨⟨hp.same, hp.free⟩, Array.toList_push .., trivial⟩

end Notes

namespace Lowering

variable {L : Lowering} {a : Arena} {vars : Variables} {blocks : Nat}

/-- The name of a constant is free, so its object is made. -/
theorem loadWide_notes (n : Node) (bits : BitVec 64) :
    Notes L.name a (L.loadWide n bits) [] fun _ => True := by
  intro p hp
  have hfree : p.arena.find? (constantName L.name p.constants) = none :=
    hp.free p.constants (Nat.le_refl _)
  have hadd : p.arena.addData (constantName L.name p.constants)
      (Binary.bigEndian 8 bits.toNat ++ List.replicate 8 0) = .ok (p.arena.size, p.arena.push
        { name := constantName L.name p.constants, kind := .data,
          data := Binary.bigEndian 8 bits.toNat ++ List.replicate 8 0 }) := by
    simp [Arena.addData, Arena.insert, hfree]
  unfold loadWide
  simp only [StateT.run_bind, StateT.run_get, StateT.run_set, pure_bind]
  split
  · rename_i id arena hrun
    obtain ⟨rfl, rfl⟩ := Prod.mk.inj (Except.ok.inj (hadd.symm.trans hrun))
    refine ⟨⟨fun name hname => ?_, fun k hk => ?_⟩, (List.append_nil _).symm, trivial⟩
    · refine (Arena.find?_push ..).trans ((if_neg ?_).trans (hp.same name hname))
      rintro rfl
      exact hname (reserved_constantName L.name p.constants)
    · have hk' : p.constants < k := hk
      refine (Arena.find?_push ..).trans ((if_neg ?_).trans (hp.free k hk'.le))
      intro heq
      exact absurd (constantName_injective heq) hk'.ne'
  · rename_i e hrun
    cases hadd.symm.trans hrun

structure Judged (vars : Variables) (blocks : Nat) (routine : String) (n : Node) : Prop where
  wellFormed : n.WellFormed vars blocks
  count : ∀ m, n.op = .call ∨ n.op = .callvirt → n.callee? = some m →
    n.children.length = m.argumentCount
  name : ∀ name, objectName? n = some name → ¬ Reserved routine name

theorem lowerNode_notes {n : Node} {regs : List Register} (hn : Judged vars blocks L.name n)
    (hplaces : Places vars L.vars) (hlen : regs.length = n.children.length) :
    Notes L.name a (L.lowerNode n regs)
      (nodeError? L.options (fun name => (a.find? name).isSome) n).toList fun _ => True := by
  rw [lowerNode_eq hn.wellFormed hlen]
  split
  · rename_i bits hwide
    obtain ⟨c, hop⟩ := wideConstant?_op hwide
    have hnone : nodeError? L.options (fun name => (a.find? name).isSome) n = none := by
      rw [nodeError?, hop]
      rfl
    rw [hnone]
    exact loadWide_notes n bits
  · rename_i hnone
    intro p hp
    have hfault : (Code.of ⟨L.options, L.vars, p.arena⟩ n regs).fault? =
        fault? L.options (fun name => (a.find? name).isSome) n.op n.operand n.callee? n.type
          (n.left?.map Node.type) :=
      Code.fault?_of hn.wellFormed hplaces hn.count hlen hnone fun name hname =>
        congrArg Option.isSome (hp.same name (hn.name name hname))
    simp only [StateT.run_bind, StateT.run_get, pure_bind, nodeError?, ← hfault]
    split
    · rename_i code hcode
      rw [hcode]
      exact Notes.emit code p hp
    · rename_i fault hcode
      rw [hcode]
      exact Notes.report n fault p hp

theorem judges_notes (hplaces : Places vars L.vars) :
    L.Judges (fun m ns Q => Notes L.name a m
        (ns.filterMap (nodeError? L.options fun name => (a.find? name).isSome)) Q)
      (Judged vars blocks L.name) fun _ => True where
  pure := .pure
  bind _ _ hm hf := by
    rw [List.filterMap_append]
    exact hm.bind hf
  fresh := .emit _
  node {n regs} hn hlength _ p hp := by
    obtain ⟨hkeeps, herrors, -⟩ := lowerNode_notes hn hplaces hlength p hp
    refine ⟨hkeeps, ?_, fun _ _ => trivial⟩
    rw [herrors]
    cases h : nodeError? L.options (fun name => (a.find? name).isSome) n <;> simp [h]

theorem lowerRoots_notes (hplaces : Places vars L.vars) {ns : List Node}
    (hns : ∀ n ∈ ns, ∀ k ∈ n.postorder, Judged vars blocks L.name k) :
    Notes L.name a (L.lowerRoots ns)
      (ns.flatMap (treeErrors L.options fun name => (a.find? name).isSome)) fun _ => True := by
  have hroots := (judges_notes (a := a) hplaces).lowerRoots hns
  rwa [List.filterMap_flatMap] at hroots

theorem lowerBlocks_notes (hplaces : Places vars L.vars) {bs : List Block}
    (hbs : ∀ b ∈ bs, ∀ n ∈ b.roots.toList, ∀ k ∈ n.postorder, Judged vars blocks L.name k) :
    Notes L.name a (L.lowerBlocks bs)
      (bs.flatMap fun b =>
        b.roots.toList.flatMap (treeErrors L.options fun name => (a.find? name).isSome))
      fun _ => True := by
  induction bs with
  | nil => exact .pure trivial
  | cons b bs ih =>
    rw [List.flatMap_cons, ← List.append_nil (bs.flatMap _)]
    refine (lowerRoots_notes hplaces (hbs b (by simp))).bind fun _ _ =>
      Notes.takeCode.after fun code _ => ?_
    exact (ih fun k hk => hbs k (by simp [hk])).bind fun codes _ => .pure trivial

theorem lowerRoutine_notes {r : Routine} (hplaces : Places vars L.vars)
    (hr : ∀ b ∈ r.blocks.toList, ∀ n ∈ b.roots.toList, ∀ k ∈ n.postorder,
      Judged vars blocks L.name k) (frame : Frame) :
    Notes L.name a (L.lowerRoutine frame r)
      (r.blocks.toList.flatMap fun b =>
        b.roots.toList.flatMap (treeErrors L.options fun name => (a.find? name).isSome))
      fun _ => True := by
  rw [← List.append_nil (r.blocks.toList.flatMap _)]
  exact (Notes.emit _).after fun _ _ => Notes.takeCode.after fun _ _ =>
    (lowerBlocks_notes hplaces hr).bind fun _ _ =>
    (Notes.emit _).after fun _ _ => Notes.takeCode.after fun _ _ => .pure trivial

end Lowering

/-! ## Routines -/

def routineErrors (o : Options) (declared : String → Bool) (r : Routine) : List SelectionError :=
  (Frame.of o r.vars).faults o r.arguments ++
    r.blocks.toList.flatMap fun b => b.roots.toList.flatMap (treeErrors o declared)

/-- Selection of a routine that gets its blocks fails for what lowering reports, if anything. -/
theorem select_lowered {o : Options} {a b : Arena} {r : Routine} {id : ObjectId}
    {objects : BlockObjects} {codes : Array Instr × List (Array Instr) × Array Instr} {p : Progress}
    (hblocks : Layout.Runs (allocateBlocks r id) a objects b)
    (hlower : (Lowering.lowerRoutine ⟨r.name, o, (Frame.of o r.vars).vars⟩ (Frame.of o r.vars) r).run
      { stream := { next := (Frame.of o r.vars).registers }, arena := b } = (codes, p))
    {errors : List SelectionError}
    (herrors : (Frame.of o r.vars).faults o r.arguments ++ p.errors.toList = errors) :
    (errors = [] → ∃ x, select o a r id = .ok x) ∧
      (errors ≠ [] → select o a r id = .error ⟨r.name, errors⟩) := by
  unfold Layout.Runs at hblocks
  unfold select selectInto addRoutineCode
  simp only [hblocks, hlower, herrors]
  cases errors with
  | nil => exact ⟨fun _ => ⟨_, rfl⟩, fun h => absurd rfl h⟩
  | cons e es => exact ⟨nofun, fun _ => rfl⟩

theorem judged_of_build {m : Method} {body : Body} {resolver : Resolver} {r : Routine}
    (hbuild : build m body resolver = .ok r) {b : Block} (hb : b ∈ r.blocks) {root : Node}
    (hroot : root ∈ b.roots) {n : Node} (hn : n ∈ root.postorder)
    (hname : ∀ name, objectName? n = some name → ¬ Reserved r.name name) :
    Lowering.Judged r.vars r.blocks.size r.name n := by
  have htyped := ((typedRoots_of_build hbuild).2 b hb root hroot).tree n hn
  refine ⟨(build_wellFormed hbuild).roots b hb root hroot n hn, fun c hop hc => ?_, hname⟩
  have hpops : n.op.pops = .callee := by rcases hop with hop | hop <;> rw [hop] <;> rfl
  have hnew : n.op ≠ .newobj := by rcases hop with hop | hop <;> rw [hop] <;> nofun
  obtain ⟨c', hc', hcount⟩ := htyped.callee hpops
  cases hc'.symm.trans hc
  rw [hcount, Node.callCount, if_neg fun h => hnew h.1]

/-- Selection of a routine that was built from a body reports the faults of the prologue and then
the fault of each node, in the order of the blocks, of their trees and of the nodes in them. It
succeeds exactly where there are none. The fault of a node is the same whatever the others are. -/
theorem select_faults {m : Method} {body : Body} {resolver : Resolver} {r : Routine}
    (hbuild : build m body resolver = .ok r) (o : Options) (a : Arena) (id : ObjectId)
    (hfree : ∀ name, Reserved r.name name → a.find? name = none)
    (hnames : ∀ b ∈ r.blocks, ∀ root ∈ b.roots, ∀ n ∈ root.postorder, ∀ name,
      objectName? n = some name → ¬ Reserved r.name name) :
    (∀ e, select o a r id = .error e ↔
      e = ⟨r.name, routineErrors o (fun name => (a.find? name).isSome) r⟩ ∧
        routineErrors o (fun name => (a.find? name).isSome) r ≠ []) ∧
    ((∃ x, select o a r id = .ok x) ↔
      routineErrors o (fun name => (a.find? name).isSome) r = []) := by
  have hoffsets : (r.blocks.toList.map Block.offset).Nodup :=
    (build_offsets hbuild).imp fun h => h.ne
  obtain ⟨objects, b, hblocks, hfind⟩ := allocateBlocks_free id (blockNames_nodup hoffsets)
    fun name hname => hfree name (reserved_of_mem_blockNames hname)
  have hkeeps : Keeps r.name a
      { stream := { next := (Frame.of o r.vars).registers }, arena := b } := by
    refine ⟨fun name hname => hfind name fun h => hname (reserved_of_mem_blockNames h), ?_⟩
    intro k _
    rw [hfind _ (constantName_not_mem_blockNames r k)]
    exact hfree _ (reserved_constantName r.name k)
  have hlower := Lowering.lowerRoutine_notes
    (L := ⟨r.name, o, (Frame.of o r.vars).vars⟩) (r := r) (Frame.places o r.vars)
    (fun block hblock root hroot n hn =>
      have hblock' : block ∈ r.blocks := by simpa using hblock
      have hroot' : root ∈ block.roots := by simpa using hroot
      judged_of_build hbuild hblock' hroot' hn (hnames block hblock' root hroot' n hn))
    (Frame.of o r.vars) _ hkeeps
  obtain ⟨hok, herror⟩ := select_lowered hblocks rfl
    (congrArg ((Frame.of o r.vars).faults o r.arguments ++ ·) hlower.2.1)
  refine ⟨fun e => ⟨fun h => ?_, fun h => ?_⟩, fun ⟨x, hx⟩ => ?_, hok⟩
  · by_cases hnil : routineErrors o (fun name => (a.find? name).isSome) r = []
    · obtain ⟨x, hx⟩ := hok hnil
      exact nomatch hx.symm.trans h
    · exact ⟨Except.error.inj (h.symm.trans (herror hnil)), hnil⟩
  · rw [h.1]
    exact herror h.2
  · by_contra hnil
    exact nomatch hx.symm.trans (herror hnil)

/-- Divides what another method gives, and depending on the quotient loads a wide constant before
it takes a remainder. -/
def survey : Method := { name := "survey", parameters := [.i4, .i4], returnType := .i4 }

def surveyBody : Body :=
  { code := [0x02, 0x28, 1, 0, 0, 6, 0x03, 0x5B, 0x2D, 0x0B, 0x21, 5, 0, 0, 0, 0, 0, 0, 0, 0x6C, 0x26,
      0x02, 0x03, 0x5D, 0x2A] }

def surveyNames : TokenTable :=
  .of [.method { name := "mark", parameters := [.i4], returnType := .i4 }]

def surveyOnly : Arena := ({} : Arena).push { name := "survey", kind := .routine none }

def surveyErrors : List SelectionError :=
  [⟨1, .call, .int32, .undeclaredRoutine "mark"⟩, ⟨7, .arith .div, .int32, .noDivide⟩,
    ⟨19, .conv .r8, .float64, .longToFloat⟩, ⟨23, .arith .rem, .int32, .integerDivision⟩]

/-- The division is reported although its operand has no code, and the blocks behind it as well. -/
theorem survey_faults :
    ∃ r, build survey surveyBody surveyNames.resolver = .ok r ∧ r.blocks.size = 3 ∧
      (∀ name, Reserved r.name name → surveyOnly.find? name = none) ∧
      (∀ b ∈ r.blocks, ∀ root ∈ b.roots, ∀ n ∈ root.postorder, ∀ name,
        objectName? n = some name → ¬ Reserved r.name name) ∧
      select {} surveyOnly r 0 = .error ⟨"survey", surveyErrors⟩ := by
  have hrun : ((build survey surveyBody surveyNames.resolver).toOption.map fun r =>
      (r.name, r.blocks.size, routineErrors {} (fun name => (surveyOnly.find? name).isSome) r,
        (r.blocks.toList.flatMap fun b => b.roots.toList.flatMap Node.postorder).filterMap
          objectName?)) =
      some ("survey", 3, surveyErrors, ["mark"]) := by decide +kernel
  obtain ⟨r, hr, hrun⟩ := Option.map_eq_some_iff.mp hrun
  simp only [Prod.mk.injEq] at hrun
  obtain ⟨hname, hsize, herrors, hobjects⟩ := hrun
  have hbuild := toOption_eq_some.mp hr
  have hfree : ∀ name, Reserved r.name name → surveyOnly.find? name = none := by
    rw [hname]
    intro name hreserved
    refine (Arena.find?_push ..).trans (if_neg ?_)
    rintro rfl
    exact absurd hreserved (by decide)
  have hnames : ∀ b ∈ r.blocks, ∀ root ∈ b.roots, ∀ n ∈ root.postorder, ∀ name,
      objectName? n = some name → ¬ Reserved r.name name := by
    intro b hb root hroot n hn name hobject
    have hmem : name ∈ ["mark"] := by
      rw [← hobjects]
      refine List.mem_filterMap.mpr ⟨n, List.mem_flatMap.mpr ⟨b, by simpa using hb, ?_⟩, hobject⟩
      exact List.mem_flatMap.mpr ⟨root, by simpa using hroot, hn⟩
    rw [hname, List.mem_singleton.mp hmem]
    decide
  refine ⟨r, hbuild, hsize, hfree, hnames, ?_⟩
  rw [(select_faults hbuild {} surveyOnly 0 hfree hnames).1, herrors, hname]
  exact ⟨rfl, by decide⟩

end SpuCompiler.Selection
