import SpuCompiler.Proofs.Selection.TreeCode

/-!
The code of a routine. The prologue is straight, the epilogue too up to the branch that ends it,
and each block between them is the code of its trees. A frame that passes the check of the
prologue, and whose size is a word of the machine, has room for the numbers of all its quadwords.
-/

namespace SpuCompiler

theorem Options.arguments_le {o : Options} {u : Unit} (h : o.validate = .ok u) :
    o.firstArgumentRegister + o.argumentRegisterCount ≤ 128 := by
  unfold Options.validate at h
  by_contra hpast
  have hcount : Options.registerCount < o.firstArgumentRegister + o.argumentRegisterCount := by
    unfold Options.registerCount
    omega
  simp only [hcount, if_true] at h
  split at h
  · cases h
  · split at h <;> cases h

end SpuCompiler

namespace SpuCompiler.Selection

open Machine Metadata Bytecode Trees Objects

variable {fits : Prop}
variable {a b a' : Arena} {id routine : ObjectId} {name : String} {names : List String}
  {ids : List ObjectId} {r : Routine} {objects : BlockObjects} {o : Options} {s : SelectedRoutine}

/-! ## Frames -/

namespace Frame

variable {v : Variable} {ty : Ty} {vars : Variables} {f : Frame} {arguments : List Nat}

theorem le_slotSize (h : storageType? v = some ty) : ty.size ≤ slotSize v := by
  unfold slotSize Binary.alignUp
  simp only [h, Option.map_some, Option.getD_some]
  omega

/-- Slots lie between the two ends. -/
theorem assign_slots (vs : List Variable) (offset register : Nat) :
    offset ≤ (assign offset register vs).2.1 ∧ ∀ v ∈ (assign offset register vs).1, ∀ x,
      v.storage = .frame x → offset ≤ x ∧ x + slotSize v ≤ (assign offset register vs).2.1 := by
  induction vs generalizing offset register with
  | nil => simp [assign]
  | cons v vs ih =>
    unfold assign
    split
    · obtain ⟨hle, hslots⟩ := ih (offset + slotSize v) register
      refine ⟨by simp only; omega, ?_⟩
      rintro w (_ | ⟨_, hw⟩) x hx
      · cases hx
        exact ⟨Nat.le_refl _, hle⟩
      · have := hslots w hw x hx
        simp only
        omega
    · obtain ⟨hle, hslots⟩ := ih offset (register + 1)
      refine ⟨hle, ?_⟩
      rintro w (_ | ⟨_, hw⟩) x hx
      · cases hx
      · exact hslots w hw x hx

theorem slot_le_size {id x : Nat} (hv : (Frame.of o vars).vars.get? id = some v)
    (hx : v.storage = .frame x) (hty : storageType? v = some ty) :
    ty.size ≤ (Frame.of o vars).size := by
  obtain ⟨-, hslots⟩ := assign_slots vars.entries.toList o.linkAreaSize 0
  have hmem : v ∈ (assign o.linkAreaSize 0 vars.entries.toList).1 := by
    have hget : (assign o.linkAreaSize 0 vars.entries.toList).1[id]? = some v := by
      simpa [Frame.of, Variables.get?] using hv
    exact List.mem_of_getElem? hget
  have hend := hslots v hmem x hx
  have hsize := le_slotSize hty
  calc ty.size
    _ ≤ (assign o.linkAreaSize 0 vars.entries.toList).2.1 := by omega
    _ ≤ (Frame.of o vars).size := Binary.le_alignUp _ (by decide)

theorem size_dvd (o : Options) (vars : Variables) : 16 ∣ (Frame.of o vars).size :=
  Binary.dvd_alignUp _ _

theorem amount_eq (h : f.size < 2 ^ 31) : f.amount = f.size := by
  unfold Frame.amount Emit.signed32
  rw [BitVec.toInt_eq_toNat_of_lt] <;> rw [BitVec.toNat_ofNat] <;> omega

theorem quadwords_eq (h : f.size < 2 ^ 31) : f.quadwords = (f.size / 16 : Nat) := by
  rw [Frame.quadwords, amount_eq h]
  rfl

theorem quadwords_le (h : f.faults o arguments = []) : f.quadwords ≤ 512 := by
  unfold faults at h
  by_contra hlarge
  simp only [if_pos (not_le.mp hlarge)] at h
  cases h

/-- A frame without faults is as large as 512 quadwords at most. -/
theorem size_le (hfaults : (Frame.of o vars).faults o arguments = [])
    (hsize : (Frame.of o vars).size < 2 ^ 31) : (Frame.of o vars).size ≤ 0x2000 := by
  have hle := quadwords_le hfaults
  have hdvd := size_dvd o vars
  rw [quadwords_eq hsize] at hle
  omega

theorem fits_of_faults {u : Unit} (hvalid : o.validate = .ok u)
    (hfaults : (Frame.of o vars).faults o arguments = [])
    (hsize : fits → (Frame.of o vars).size < 2 ^ 31) : FrameFits fits o (Frame.of o vars).vars := by
  refine ⟨Options.arguments_le hvalid, ?_⟩
  intro hf id v offset ty hv hoffset hty _
  exact (slot_le_size hv hoffset hty).trans (size_le hfaults (hsize hf))

theorem adjustStack_straight (delta : Int) : Straight fits NoObject (adjustStack delta) fun _ => True := by
  unfold adjustStack
  split
  · rename_i hshort
    exact .instr (plain_ri rfl (fun _ => (Emit.takes_short rfl rfl hshort).2) Emit.valid_sp
      Emit.valid_sp)
  · exact (Composed.closed (Emit.loadImmediate_composed delta)).bind fun amount hamount =>
      .instr (plain_rr (by decide) Emit.valid_sp Emit.valid_sp hamount)

theorem storeArguments_straight (hframe : FrameFits fits o vars) (slot : Nat) (ids : List Nat) :
    Straight fits NoObject (storeArguments o vars slot ids) fun _ => True := by
  induction ids generalizing slot with
  | nil => exact .pure trivial
  | cons id ids ih =>
    unfold storeArguments
    split
    · rename_i h v hh hv
      have hregister : (Register.hardware h).Valid := by
        have harguments := hframe.arguments
        unfold Options.argumentRegister at hh
        split at hh
        · cases hh
          change _ ≤ 127
          omega
        · cases hh
      have hstore : Straight fits NoObject (storeArgument v (.hardware h)) fun _ => True := by
        unfold storeArgument
        split
        · exact Emit.move_straight (fun _ => trivial) fun _ => hregister
        · rename_i offset ty hstorage hty
          exact Composed.effectOn hregister (Emit.storeMemory_composed _ fun hf =>
            hframe.slots hf id v offset ty hv hstorage hty)
        · exact .pure trivial
      exact hstore.bind fun _ _ => ih (slot + 1)
    · exact ih (slot + 1)

theorem valid_lr : Register.lr.Valid := Nat.zero_le _

theorem prologue_straight (hframe : FrameFits fits o f.vars) (hfaults : f.faults o arguments = [])
    (hsize : fits → f.size < 2 ^ 31) :
    Straight fits NoObject (f.prologue o arguments) fun _ => True := by
  have hchain : Plain fits NoObject (.ri .stqd .sp .sp (-f.quadwords)) := by
    refine ⟨rfl, fun hf => fits_ri (Emit.takes_short rfl rfl ?_) Emit.valid_sp Emit.valid_sp,
      .inl ⟨rfl, rfl⟩⟩
    have hle := quadwords_le hfaults
    have heq := quadwords_eq (hsize hf)
    simp only [Emit.isShort, decide_eq_true_eq]
    omega
  refine (Straight.instr (plain_ri rfl (fun _ => by decide) valid_lr Emit.valid_sp)).bind fun _ _ => ?_
  refine (Straight.instr hchain).bind fun _ _ => ?_
  refine (adjustStack_straight _).bind fun _ _ => ?_
  exact storeArguments_straight hframe 0 arguments

def returnBranch : Instr := { opcode := .bi, ra := some .lr }

theorem epilogue_writes (f : Frame) :
    Writes f.epilogue (fun code => ∃ pre, code = pre ++ [returnBranch] ∧ ∀ i ∈ pre, Plain fits NoObject i)
      fun _ => True := by
  have hpre : Straight fits NoObject (do adjustStack f.amount; Emit.instr (.ri .lqd .lr .sp 1))
      fun _ => True :=
    (adjustStack_straight f.amount).bind fun _ _ =>
      .instr (plain_ri rfl (fun _ => by decide) valid_lr Emit.valid_sp)
  have hassoc : f.epilogue = (do adjustStack f.amount; Emit.instr (.ri .lqd .lr .sp 1)) >>=
      fun _ => Emit.instr returnBranch := (bind_assoc ..).symm
  rw [hassoc]
  refine Writes.bind hpre (fun _ _ => Writes.instr returnBranch) ?_
  rintro _ - pre _ hplain rfl
  exact ⟨pre, rfl, hplain⟩

end Frame

/-! ## Blocks of a routine -/

def blockObject (routine : ObjectId) (name : String) : Object := { name := name, kind := .block routine }

open Layout in
theorem addBlock_runs :
    Runs (addBlock routine name) a id b ↔ a.addBlock routine name = .ok (id, b) := by
  simp only [addBlock, runs_bind, runs_get, runs_lift, runs_set, runs_pure]
  constructor
  · rintro ⟨_, _, ⟨rfl, rfl⟩, ⟨_, _⟩, _, ⟨hadd, rfl⟩, _, _, rfl, rfl, rfl⟩
    exact hadd
  · intro hadd
    exact ⟨_, _, ⟨rfl, rfl⟩, (id, b), _, ⟨hadd, rfl⟩, (), _, rfl, rfl, rfl⟩

theorem addBlock_adding (routine : ObjectId) (name : String) :
    Layout.Adding (addBlock routine name) := by
  intro a
  cases hadd : a.addBlock routine name with
  | ok added =>
    rw [addBlock_runs.mpr hadd]
    exact .insert hadd
  | error e =>
    have hrun : (addBlock routine name).run.run a = (.error e, a) := by
      have hlift : (liftM (a.addBlock routine name) : LayoutM (ObjectId × Arena)).run.run a =
          (a.addBlock routine name, a) := rfl
      unfold addBlock
      rw [Layout.run_bind]
      change ((liftM (a.addBlock routine name) : LayoutM _) >>= _).run.run a = _
      rw [Layout.run_bind, hlift, hadd]
    rw [hrun]
    exact .refl

theorem addBlock_ok (h : Layout.Runs (addBlock routine name) a id b) :
    id = a.size ∧ b.objects.toList = a.objects.toList ++ [blockObject routine name] := by
  obtain ⟨rfl, rfl⟩ := Arena.insert_ok (addBlock_runs.mp h)
  exact ⟨rfl, Array.toList_push ..⟩

theorem addBlock_built (ha : Built a) (hid : routine < a.size)
    (h : Layout.Runs (addBlock routine name) a id b) : Built b ∧ routine < b.size := by
  refine ⟨.addBlock ha hid (addBlock_runs.mp h), ?_⟩
  obtain ⟨-, rfl⟩ := Arena.insert_ok (addBlock_runs.mp h)
  exact hid.trans_le (by simp [Arena.size])

theorem addBlocks_adding (routine : ObjectId) (names : List String) :
    Layout.Adding (addBlocks routine names) := by
  induction names with
  | nil => exact .pure []
  | cons name names ih => exact (addBlock_adding routine name).bind fun _ => ih.bind fun _ => .pure _

theorem addBlocks_ok (h : Layout.Runs (addBlocks routine names) a ids b) :
    ids = List.range' a.size names.length ∧
      b.objects.toList = a.objects.toList ++ names.map (blockObject routine) := by
  induction names generalizing a ids with
  | nil =>
    obtain ⟨rfl, rfl⟩ := Layout.runs_pure.mp h
    exact ⟨rfl, by simp⟩
  | cons name names ih =>
    simp only [addBlocks, Layout.runs_bind, Layout.runs_pure] at h
    obtain ⟨id, c, hc, ids', _, hb, rfl, rfl⟩ := h
    obtain ⟨rfl, hobjects⟩ := addBlock_ok hc
    obtain ⟨rfl, hobjects'⟩ := ih hb
    have hsize : c.size = a.size + 1 := by
      have := congrArg List.length hobjects
      simpa [Arena.size] using this
    refine ⟨?_, by simp [hobjects', hobjects]⟩
    rw [hsize, List.length_cons, List.range'_succ]

theorem addBlocks_built (ha : Built a) (hid : routine < a.size)
    (h : Layout.Runs (addBlocks routine names) a ids b) : Built b ∧ routine < b.size := by
  induction names generalizing a ids with
  | nil =>
    obtain ⟨rfl, rfl⟩ := Layout.runs_pure.mp h
    exact ⟨ha, hid⟩
  | cons name names ih =>
    simp only [addBlocks, Layout.runs_bind, Layout.runs_pure] at h
    obtain ⟨id, c, hc, ids', _, hb, rfl, rfl⟩ := h
    obtain ⟨hbuilt, hlt⟩ := addBlock_built ha hid hc
    exact ih hbuilt hlt hb

def blockNames (r : Routine) : List String :=
  s!"{r.name}#prologue" :: (r.blocks.toList.map fun b => s!"{r.name}#{Text.codeLabel b.offset}") ++
    [s!"{r.name}#epilogue"]

theorem allocateBlocks_adding (r : Routine) (routine : ObjectId) :
    Layout.Adding (allocateBlocks r routine) :=
  (addBlock_adding _ _).bind fun _ => (addBlocks_adding _ _).bind fun _ =>
    (addBlock_adding _ _).bind fun _ => .pure _

theorem allocateBlocks_runs (h : Layout.Runs (allocateBlocks r routine) a objects b) :
    ∃ prologue body epilogue a₁ a₂, objects = ⟨prologue, body.toArray, epilogue⟩ ∧
      Layout.Runs (addBlock routine s!"{r.name}#prologue") a prologue a₁ ∧
      Layout.Runs (addBlocks routine
        (r.blocks.toList.map fun b => s!"{r.name}#{Text.codeLabel b.offset}")) a₁ body a₂ ∧
      Layout.Runs (addBlock routine s!"{r.name}#epilogue") a₂ epilogue b := by
  simp only [allocateBlocks, Layout.runs_bind, Layout.runs_pure] at h
  obtain ⟨prologue, a₁, h₁, body, a₂, h₂, epilogue, _, h₃, rfl, rfl⟩ := h
  exact ⟨prologue, body, epilogue, a₁, a₂, rfl, h₁, h₂, h₃⟩

theorem allocateBlocks_ok (h : Layout.Runs (allocateBlocks r routine) a objects b) :
    objects.prologue = a.size ∧ objects.body.toList = List.range' (a.size + 1) r.blocks.size ∧
      objects.epilogue = a.size + 1 + r.blocks.size ∧
      b.objects.toList = a.objects.toList ++ (blockNames r).map (blockObject routine) := by
  obtain ⟨prologue, body, epilogue, a₁, a₂, rfl, h₁, h₂, h₃⟩ := allocateBlocks_runs h
  obtain ⟨rfl, ho₁⟩ := addBlock_ok h₁
  obtain ⟨rfl, ho₂⟩ := addBlocks_ok h₂
  obtain ⟨rfl, ho₃⟩ := addBlock_ok h₃
  have hsize₁ : a₁.size = a.size + 1 := by simpa [Arena.size] using congrArg List.length ho₁
  have hsize₂ : a₂.size = a.size + 1 + r.blocks.size := by
    have := congrArg List.length ho₂
    simp only [Array.length_toList, List.length_append, List.length_map] at this
    rw [Arena.size, this, ← Arena.size, hsize₁]
  refine ⟨rfl, by simp [hsize₁], hsize₂, ?_⟩
  simp [ho₃, ho₂, ho₁, blockNames]

theorem allocateBlocks_built (ha : Built a) (hid : routine < a.size)
    (h : Layout.Runs (allocateBlocks r routine) a objects b) : Built b := by
  obtain ⟨prologue, body, epilogue, a₁, a₂, rfl, h₁, h₂, h₃⟩ := allocateBlocks_runs h
  obtain ⟨hbuilt₁, hlt₁⟩ := addBlock_built ha hid h₁
  obtain ⟨hbuilt₂, hlt₂⟩ := addBlocks_built hbuilt₁ hlt₁ h₂
  exact (addBlock_built hbuilt₂ hlt₂ h₃).1

theorem bodyBlocks_eq (body : Array ObjectId) (index : Nat) {objects : List ObjectId}
    {codes : List (Array Instr)} (h : objects.length = codes.length) :
    (bodyBlocks body index objects codes).map (·.object) = objects ∧
      List.Forall₂ (fun code b => b.code = code.map (resolveTarget body)) codes
        (bodyBlocks body index objects codes) := by
  induction objects generalizing index codes with
  | nil =>
    obtain rfl := List.length_eq_zero_iff.mp h.symm
    exact ⟨rfl, .nil⟩
  | cons object objects ih =>
    cases codes with
    | nil => simp at h
    | cons code codes =>
      obtain ⟨hobjects, hcodes⟩ := ih (index + 1) (by simpa using h)
      exact ⟨by simp [bodyBlocks, hobjects], .cons rfl hcodes⟩

/-- The code of a routine that is selected, with the targets of its jumps still blocks. -/
structure RoutineCode (fits : Prop) (arena : Arena) (r : Routine) (s : SelectedRoutine) : Prop where
  prologue : ∀ i ∈ s.prologue.code, Plain fits NoObject i
  epilogue : ∃ pre, s.epilogue.code.toList = pre ++ [Frame.returnBranch] ∧ ∀ i ∈ pre, Plain fits NoObject i
  blocks : List.Forall₂ (fun (b : Block) (c : SelectedBlock) => ∃ code,
    c.code.toList = code.map (resolveTarget (s.blocks.map (·.object)).toArray) ∧
      NodesCode fits arena (b.roots.toList.flatMap Node.postorder) code) r.blocks.toList s.blocks

theorem selectInto_eq_ok :
    selectInto o a r id = (.ok s, a') ↔ addRoutineCode o a r id = (.ok s, a') := by
  unfold selectInto
  rcases addRoutineCode o a r id with ⟨_ | _, _⟩ <;> simp

theorem select_eq_ok : select o a r id = .ok (s, a') ↔ selectInto o a r id = (.ok s, a') := by
  unfold select
  rcases selectInto o a r id with ⟨_ | _, _⟩ <;> simp

/-- The parts of a routine that is selected. -/
theorem select_run (h : select o a r id = .ok (s, a')) :
    ∃ objects a₁ codes p q e, Layout.Runs (allocateBlocks r id) a objects a₁ ∧
      p = (((Frame.of o r.vars).prologue o r.arguments).run
        { next := (Frame.of o r.vars).registers }).2 ∧
      (Lowering.lowerBlocks ⟨r.name, o, (Frame.of o r.vars).vars⟩ r.blocks.toList).run
        { stream := { p with code := #[] }, arena := a₁ } = (codes, q) ∧
      e = ((Frame.of o r.vars).epilogue.run q.stream).2 ∧
      (Frame.of o r.vars).faults o r.arguments = [] ∧ q.errors = #[] ∧ a' = q.arena ∧
      s = ⟨r.name, id, Frame.of o r.vars, e.next, ⟨objects.prologue, none, p.code⟩,
        bodyBlocks objects.body 0 objects.body.toList codes, ⟨objects.epilogue, none, e.code⟩⟩ := by
  obtain ⟨f, hf⟩ : ∃ f, Frame.of o r.vars = f := ⟨_, rfl⟩
  obtain ⟨p, hp⟩ : ∃ p, ((f.prologue o r.arguments).run { next := f.registers }).2 = p := ⟨_, rfl⟩
  have h := selectInto_eq_ok.mp (select_eq_ok.mp h)
  unfold addRoutineCode at h
  simp only [hf] at h ⊢
  split at h
  · cases h
  · rename_i objects a₁ halloc
    rcases hlow : (Lowering.lowerBlocks ⟨r.name, o, f.vars⟩ r.blocks.toList).run
        { stream := { p with code := #[] }, arena := a₁ } with ⟨codes, q⟩
    split at h
    rename_i prologue body epilogue q' hrun
    have hparts : ∀ v, (Lowering.lowerBlocks ⟨r.name, o, f.vars⟩ r.blocks.toList).run
        { stream := { p with code := #[] }, arena := a₁ } = v →
        ((p.code, v.1, (f.epilogue.run v.2.stream).2.code),
          { v.2 with stream := { (f.epilogue.run v.2.stream).2 with code := #[] } }) =
          ((prologue, body, epilogue), q') := by
      rintro _ rfl
      rw [← hp]
      exact hrun
    cases hparts _ hlow
    split at h
    · rename_i hnone
      obtain ⟨hfaults, herrors⟩ := List.append_eq_nil_iff.mp hnone
      cases h
      exact ⟨objects, a₁, codes, p, q, _, halloc, hp.symm, hlow, rfl, hfaults,
        by simpa using herrors, rfl, rfl⟩
    · cases h

/-- Selection only adds objects, with faults and without. -/
theorem addRoutineCode_adds (o : Options) (a : Arena) (r : Routine) (id : ObjectId) :
    a.Adds (addRoutineCode o a r id).2 := by
  have halloc := allocateBlocks_adding r id a
  unfold addRoutineCode
  dsimp only
  split
  · rename_i hrun
    rwa [hrun] at halloc
  · rename_i objects b hrun
    rw [hrun] at halloc
    split
    rename_i p hlow
    have hadds := halloc.trans ((Lowering.lowerRoutine_stepping _ _ r).growing.grows hlow).arena
    split <;> exact hadds

/-- A routine with faults leaves the arena as it was. -/
theorem selectInto_error {e : SelectionErrors} (h : selectInto o a r id = (.error e, a')) :
    a' = a := by
  have hadds := addRoutineCode_adds o a r id
  unfold selectInto at h
  split at h
  · cases h
  · rename_i hrun
    cases h
    rw [hrun] at hadds
    exact hadds.truncate

/-- A selected routine: its objects follow those of the arena, and its code is that of its trees
wherever the nodes have words. -/
structure Selected (o : Options) (a : Arena) (r : Routine) (id : ObjectId) (s : SelectedRoutine)
    (a' : Arena) : Prop where
  name : s.name = r.name
  routine : s.routine = id
  frame : s.frame = Frame.of o r.vars
  faults : s.frame.faults o r.arguments = []
  objects : s.allBlocks.map (·.object) = List.range' a.size (r.blocks.size + 2)
  length : s.blocks.length = r.blocks.size
  arena : ∃ a₁ : Arena, a₁.AddsData a' ∧
    a₁.objects.toList = a.objects.toList ++ (blockNames r).map (blockObject id)
  built : Built a → id < a.size → Built a'
  code : ∀ fits : Prop, FrameFits fits o s.frame.vars → (fits → s.frame.size < 2 ^ 31) →
    (fits → ∀ b ∈ r.blocks, ∀ n ∈ b.roots.toList.flatMap Node.postorder, NodeFits o n) →
    RoutineCode fits a' r s

theorem select_ok (h : select o a r id = .ok (s, a')) (harena : a.Indexed)
    (harguments : o.firstArgumentRegister + o.argumentRegisterCount ≤ 128) :
    Selected o a r id s a' := by
  obtain ⟨objects, a₁, codes, p, q, e, halloc, hp, hlow, he, hfaults, herrors, rfl, rfl⟩ :=
    select_run h
  obtain ⟨hprologue, hbody, hepilogue, hobjects⟩ := allocateBlocks_ok halloc
  have hblocks : ∀ fits : Prop, FrameFits fits o (Frame.of o r.vars).vars →
      (fits → ∀ b ∈ r.blocks, ∀ n ∈ b.roots.toList.flatMap Node.postorder, NodeFits o n) →
      a₁.AddsData q.arena ∧ q.stream.code = #[] ∧ List.Forall₂ (fun b code =>
        NodesCode fits q.arena (b.roots.toList.flatMap Node.postorder) code.toList)
        r.blocks.toList codes := by
    intro fits hframe hfits
    exact Lowering.lowerBlocks_lowers hframe (fun hf b hb => hfits hf b (by simpa using hb)) hlow rfl
      (((allocateBlocks_adding r id).adds halloc).indexed harena) (by simp [herrors])
  -- with nothing asked of the nodes, the objects and their number are already known
  obtain ⟨hadds, hempty, hall⟩ := hblocks False ⟨harguments, nofun⟩ nofun
  have hcount : objects.body.toList.length = codes.length := by
    rw [hbody, List.length_range', ← hall.length_eq, Array.length_toList]
  obtain ⟨hids, hcodes⟩ := bodyBlocks_eq objects.body 0 hcount
  refine ⟨rfl, rfl, rfl, hfaults, ?_, ?_, ⟨a₁, hadds, hobjects⟩,
    fun ha hid => hadds.built (allocateBlocks_built ha hid halloc), ?_⟩
  · calc SelectedRoutine.allBlocks _ |>.map (·.object)
      _ = objects.prologue :: objects.body.toList ++ [objects.epilogue] := by
        simp [SelectedRoutine.allBlocks, hids]
      _ = List.range' a.size (r.blocks.size + 2) := by
        rw [hprologue, hbody, hepilogue, ← List.range'_succ, Nat.add_assoc, Nat.add_comm 1,
          ← List.range'_1_concat]
  · rw [← hcodes.length_eq, ← hall.length_eq, Array.length_toList]
  · intro fits hframe hsize hfits
    obtain ⟨-, -, hall⟩ := hblocks fits hframe hfits
    constructor
    · obtain ⟨code, hcode, hplain, -⟩ :=
        Frame.prologue_straight hframe hfaults hsize { next := (Frame.of o r.vars).registers }
      rw [← hp] at hcode
      intro i hi
      rw [← Array.mem_toList_iff, hcode] at hi
      exact hplain i (by simpa using hi)
    · obtain ⟨code, hcode, hpre, -⟩ := Frame.epilogue_writes (Frame.of o r.vars) q.stream
      rw [← he, hempty] at hcode
      obtain ⟨pre, rfl, hplain⟩ := hpre
      exact ⟨pre, by simpa using hcode, hplain⟩
    · rw [hids, Array.toArray_toList]
      refine List.forall₂_iff_get.mpr ⟨hall.length_eq.trans hcodes.length_eq, ?_⟩
      intro k hk hk'
      have hk'' : k < codes.length := hall.length_eq ▸ hk
      refine ⟨_, ?_, (List.forall₂_iff_get.mp hall).2 k hk hk''⟩
      rw [(List.forall₂_iff_get.mp hcodes).2 k hk'' hk', Array.toList_map]

end SpuCompiler.Selection
