import SpuCompiler.Proofs.Selection.NodeFaults

/-!
What selection reports about routines that were built from a body. Some faults stand for trees
that no body gives: a node without the operand or the children that its operation needs, a
variable without storage, an operation on types that the typing rules refuse. A well-formed node
has none of them, so lowering reports only what the machine or the program lacks.
-/

namespace SpuCompiler.Selection

open Machine Metadata Bytecode Trees Objects

/-- Faults of trees that no body gives. -/
def Fault.isInternal : Fault → Bool
  | .operandCount _ _ | .missingConstant | .missingElementType | .missingType | .missingField
  | .missingTarget | .missingCallee | .missingVariable | .noStorage | .addressOfRegister
  | .nonScalar | .bitwise | .complement | .unexpectedOpcode => true
  | _ => false

/-- The fault is no internal one, and no comparison of two values is refused. -/
structure SelectionError.Benign (e : SelectionError) : Prop where
  fault : e.fault.isInternal = false
  compare : ∀ c, e.op = .compare c → e.fault ≠ .noComparison

/-! ## Nodes -/

/-- If there is no code, the fault is no internal one. -/
def Code.Benign (c : Code) : Prop := ∀ fault, c = .error fault → fault.isInternal = false

/-- What a node can have as its fault is no internal one. -/
theorem fault?_benign {o : Options} {declared : String → Bool} {n : Node} {fault : Fault}
    {left : Option StackType}
    (h : fault? o declared n.op n.operand n.callee? n.type left = some fault) :
    SelectionError.Benign ⟨n.offset, n.op, n.type, fault⟩ := by
  have hcall : ∀ m kind, callFault? o declared m kind = some fault → fault.isInternal = false := by
    intro m kind h
    unfold callFault? at h
    grind [Fault.isInternal]
  have hconv : ∀ c kind, convFault? c kind = some fault → fault.isInternal = false := by
    intro c kind h
    unfold convFault? at h
    grind [Fault.isInternal]
  have harith : ∀ a kind, arithFault? a kind = some fault → fault.isInternal = false := by
    intro a kind h
    unfold arithFault? at h
    grind [Fault.isInternal]
  refine ⟨?_, fun c hop => ?_⟩
  · unfold fault? elementFault? at h
    grind [Fault.isInternal, Option.bind_eq_some_iff]
  · simp [fault?, show n.op = .compare c from hop] at h

namespace Code

section Parts

variable {regs : List Register} {vars : Variables} {blocks : Nat} {n : Node} {ctx : Context}

theorem Benign.ok {e : Emit (Option Register)} : Benign (.ok e) := nofun

theorem Benign.error {fault : Fault} (h : fault.isInternal = false) : Benign (.error fault) := by
  rintro _ ⟨⟩
  exact h

theorem intrinsic_benign (i : Intrinsic) (regs : List Register) : Benign (intrinsic i regs) := by
  cases i <;> exact .ok

theorem callObject_benign (o : Options) (kind : ValueKind) (object : ObjectId)
    (regs : List Register) : Benign (callObject o kind object regs) := by
  unfold callObject
  dsimp only
  split
  · exact .error rfl
  · split
    · exact .ok
    · exact .error rfl
    · exact .ok

theorem call_benign (hn : n.Shaped blocks) (hpops : n.op.pops = .callee) (kind : ValueKind) :
    Benign (call ctx n kind regs) := by
  obtain ⟨m, hm⟩ := Option.isSome_iff_exists.mp (hn.callee hpops)
  unfold call
  simp only [hm]
  split
  · exact intrinsic_benign _ _
  · split
    · exact callObject_benign _ _ _ _
    · exact .error rfl

/-- A well-formed node has no internal fault. -/
theorem of_benign (hn : n.WellFormed vars blocks) (hplaces : Places vars ctx.vars)
    (hlen : regs.length = n.children.length) (hwide : Lowering.wideConstant? n = none)
    {fault : Fault} (h : of ctx n regs = .error fault) :
    SelectionError.Benign ⟨n.offset, n.op, n.type, fault⟩ := by
  by_cases hcall : n.op = .call ∨ n.op = .callvirt
  · have hof : of ctx n regs = call ctx n (ValueKind.of n.type) regs := by
      rcases hcall with hop | hop <;> simp [of, ofOp, hop, Op.pops]
    have hpops : n.op.pops = .callee := by rcases hcall with hop | hop <;> rw [hop] <;> rfl
    refine ⟨call_benign hn.toShaped hpops _ fault (hof.symm.trans h), fun c hop => ?_⟩
    simp [show n.op = .compare c from hop] at hcall
  · have hnames : ∀ name, objectName? n = some name → (ctx.arena.find? name).isSome =
        (fun name => (ctx.arena.find? name).isSome) name := fun _ _ => rfl
    have hfault := fault?_of hn hplaces (fun m hop => absurd hop hcall) hlen hwide hnames
    rw [h] at hfault
    exact fault?_benign hfault.symm

end Parts

end Code

/-! ## Lowering -/

/-- The computation reports benign errors only, and gives a result that satisfies the condition. -/
def Reports {α : Type} (m : LowerM α) (Q : α → Prop) : Prop :=
  ∀ p : Progress, (∀ e ∈ p.errors, e.Benign) → (∀ e ∈ (m.run p).2.errors, e.Benign) ∧ Q (m.run p).1

namespace Reports

variable {α β : Type}

theorem errors {m : LowerM α} {Q : α → Prop} (h : Reports m Q) {p p' : Progress} {x : α}
    (hp : ∀ e ∈ p.errors, e.Benign) (hrun : m.run p = (x, p')) : ∀ e ∈ p'.errors, e.Benign := by
  have := (h p hp).1
  rwa [hrun] at this

theorem pure {x : α} {Q : α → Prop} (h : Q x) : Reports (pure x) Q := fun _ hp => ⟨hp, h⟩

theorem bind {m : LowerM α} {f : α → LowerM β} {P : α → Prop} {Q : β → Prop} (hm : Reports m P)
    (hf : ∀ x, P x → Reports (f x) Q) : Reports (m >>= f) Q := by
  intro p hp
  obtain ⟨herrors, hx⟩ := hm p hp
  exact hf _ hx _ herrors

theorem emit (e : Emit α) : Reports (Lowering.emit e) fun _ => True := fun _ hp => ⟨hp, trivial⟩

theorem report {n : Node} {fault : Fault} (h : SelectionError.Benign ⟨n.offset, n.op, n.type, fault⟩) :
    Reports (Lowering.report n fault) fun _ => True := by
  refine fun p hp => ⟨fun e he => ?_, trivial⟩
  rcases Array.mem_push.mp he with he | rfl
  · exact hp e he
  · exact h

theorem takeCode : Reports Lowering.takeCode fun _ => True := fun _ hp => ⟨hp, trivial⟩

end Reports

namespace Lowering

variable {L : Lowering} {vars : Variables} {blocks : Nat}

theorem loadWide_reports {n : Node} {bits : BitVec 64} (h : wideConstant? n = some bits) :
    Reports (L.loadWide n bits) fun _ => True := by
  obtain ⟨c, hop⟩ := wideConstant?_op h
  intro p hp
  unfold loadWide
  simp only [StateT.run_bind, StateT.run_get, StateT.run_set, pure_bind]
  split
  · exact ⟨hp, trivial⟩
  · exact Reports.report ⟨rfl, by simp [hop]⟩ { p with constants := p.constants + 1 } hp

theorem lowerNode_reports {n : Node} {regs : List Register} (hn : n.WellFormed vars blocks)
    (hplaces : Places vars L.vars) (hlen : regs.length = n.children.length) :
    Reports (L.lowerNode n regs) fun _ => True := by
  rw [lowerNode_eq hn hlen]
  split
  · exact loadWide_reports ‹_›
  · rename_i hnone
    intro p hp
    simp only [StateT.run_bind, StateT.run_get, pure_bind]
    split
    · exact ⟨hp, trivial⟩
    · rename_i hfault
      exact Reports.report (Code.of_benign hn hplaces hlen hnone hfault) p hp

theorem judges_reports (hplaces : Places vars L.vars) :
    L.Judges (fun m _ Q => Reports m Q) (Node.WellFormed vars blocks) fun _ => True where
  pure := .pure
  bind _ _ hm hf := hm.bind hf
  fresh := .emit _
  node hn hlength _ p hp := ⟨(lowerNode_reports hn hplaces hlength p hp).1, fun _ _ => trivial⟩

theorem lowerBlocks_reports (hplaces : Places vars L.vars) {bs : List Block}
    (hbs : ∀ b ∈ bs, ∀ n ∈ b.roots, n.AllWellFormed vars blocks) :
    Reports (L.lowerBlocks bs) fun _ => True := by
  induction bs with
  | nil => exact .pure trivial
  | cons b bs ih =>
    have hroots : Reports (L.lowerRoots b.roots.toList) fun _ => True :=
      (judges_reports hplaces).lowerRoots fun n hn => hbs b (by simp) n (by simpa using hn)
    refine hroots.bind fun _ _ => Reports.takeCode.bind fun code _ => ?_
    exact (ih fun k hk => hbs k (by simp [hk])).bind fun codes _ => .pure trivial

theorem lowerRoutine_reports {r : Routine} (hr : r.WellFormed) (hplaces : Places r.vars L.vars)
    (frame : Frame) : Reports (L.lowerRoutine frame r) fun _ => True :=
  (Reports.emit _).bind fun _ _ => Reports.takeCode.bind fun _ _ =>
    (lowerBlocks_reports hplaces fun b hb => hr.roots b (by simpa using hb)).bind fun _ _ =>
    (Reports.emit _).bind fun _ _ => Reports.takeCode.bind fun _ _ => .pure trivial

end Lowering

/-! ## Routines -/

theorem Frame.argumentFaults_benign (o : Options) (vars : Variables) (slot : Nat)
    (arguments : List Nat) : ∀ e ∈ argumentFaults o vars slot arguments, e.Benign := by
  induction arguments generalizing slot with
  | nil => simp [argumentFaults]
  | cons id ids ih =>
    unfold argumentFaults
    dsimp only
    split
    · exact ih _
    · intro e he
      rcases List.mem_cons.mp he with rfl | he
      · exact ⟨rfl, nofun⟩
      · exact ih _ e he

theorem Frame.faults_benign (o : Options) (f : Frame) (arguments : List Nat) :
    ∀ e ∈ f.faults o arguments, e.Benign := by
  have harguments := argumentFaults_benign o f.vars 0 arguments
  unfold faults
  dsimp only
  split
  · intro e he
    rcases List.mem_cons.mp he with rfl | he
    · exact ⟨rfl, nofun⟩
    · exact harguments e he
  · exact harguments

theorem select_benign {r : Routine} (hr : r.WellFormed) {o : Options} {a : Arena} {id : ObjectId}
    {errors : SelectionErrors} (h : select o a r id = .error errors) :
    ∀ e ∈ errors.errors, e.Benign := by
  have hadd : (addRoutineCode o a r id).1 = .error errors := by
    unfold select selectInto at h
    rcases hrun : addRoutineCode o a r id with ⟨_ | _, _⟩ <;> simp_all
  unfold addRoutineCode at hadd
  dsimp only at hadd
  split at hadd
  · cases hadd
    simpa using ⟨rfl, nofun⟩
  · split at hadd
    rename_i p hrun
    have herrors := (Lowering.lowerRoutine_reports hr (Frame.places o r.vars) _).errors
      (by simp) hrun
    split at hadd
    · cases hadd
    · cases hadd
      intro e he
      rcases List.mem_append.mp he with he | he
      · exact Frame.faults_benign o _ _ e he
      · exact herrors e (by simpa using he)

/-- Where a body can be built, the trees have the operands, the children, the variables and the
blocks that they refer to, and whatever selection reports about them is no internal fault. -/
theorem build_meets_selection {m : Method} {body : Body} {resolver : Resolver} {r : Routine}
    (h : build m body resolver = .ok r) :
    (∀ id ∈ r.arguments, id < r.vars.size) ∧
    (∀ b ∈ r.blocks, ∀ n ∈ b.roots.toList.flatMap Node.postorder,
      (∀ count, n.op.pops = .fixed count → n.children.length = count) ∧
      n.left? = n.children[0]? ∧ n.right? = n.children[1]? ∧
      (∀ id, n.varId? = some id → id < r.vars.size) ∧
      ∀ k, n.blockId? = some k → k < r.blocks.size) ∧
    ∀ o a id errors, select o a r id = .error errors → ∀ e ∈ errors.errors,
      e.fault.isInternal = false ∧ ∀ c, e.op = .compare c → e.fault ≠ .noComparison := by
  have hr := build_wellFormed h
  refine ⟨hr.arguments, ?_, fun o a id errors hselect e he => ?_⟩
  · intro b hb n hn
    obtain ⟨root, hroot, hn⟩ := List.mem_flatMap.mp hn
    have hwf := hr.roots b hb root (by simpa using hroot) n hn
    exact ⟨hwf.count, hwf.left, hwf.right, fun id hid => hwf.var_lt hid, hwf.block⟩
  · have hbenign := select_benign hr hselect e he
    exact ⟨hbenign.fault, hbenign.compare⟩

/-- Loads elements of an array into a local, through whose address they are compared, until one is
not zero, and divides by it. -/
def divideByElement : Method :=
  { name := "divideByElement", parameters := [.array .i4, .i4], returnType := .i4 }

def divideByElementBody : Body :=
  { code := [0x02, 0x03, 0x94, 0x0A, 0x12, 0x00, 0x4A, 0x16, 0xFE, 0x01, 0x2D, 0xF4,
      0x03, 0x06, 0x5B, 0x2A]
    locals := [.i4] }

def routineOnly : Arena := ({} : Arena).push { name := "divideByElement", kind := .routine none }

/-- The routine has two blocks. It is refused for the division, and for nothing internal. -/
theorem divideByElement_meets_selection :
    ∃ r errors, build divideByElement divideByElementBody ({} : TokenTable).resolver = .ok r ∧
      r.blocks.size = 2 ∧
      (∀ b ∈ r.blocks, ∀ n ∈ b.roots.toList.flatMap Node.postorder,
        ∀ k, n.blockId? = some k → k < 2) ∧
      select {} routineOnly r 0 = .error errors ∧ ∀ e ∈ errors.errors, e.fault.isInternal = false := by
  have hrun : ((build divideByElement divideByElementBody ({} : TokenTable).resolver).toOption.map
      fun r => (r.blocks.size, (select {} routineOnly r 0).isOk)) = some (2, false) := by
    decide +kernel
  obtain ⟨r, hr, hrun⟩ := Option.map_eq_some_iff.mp hrun
  obtain ⟨hsize, hfails⟩ := Prod.mk.inj hrun
  have hb := toOption_eq_some.mp hr
  obtain ⟨-, hnodes, hselect⟩ := build_meets_selection hb
  obtain ⟨errors, hs⟩ := exists_of_not_isOk hfails
  refine ⟨r, errors, hb, hsize, ?_, hs, fun e he => (hselect _ _ _ _ hs e he).1⟩
  exact fun b hb n hn k hk => hsize ▸ (hnodes b hb n hn).2.2.2.2 k hk

end SpuCompiler.Selection
