import SpuCompiler.Proofs.Selection.Faults
import SpuCompiler.Proofs.Selection.NodeCode
import SpuCompiler.Proofs.Trees.TypingRules

/-!
The code of a node sets fresh registers, and registers of variables where the node stores into
one. It gives a register wherever the node has a value: only methods that are declared with a
result, but stand for an instruction without one, have no register for it.
-/

namespace SpuCompiler.Metadata

def Intrinsic.hasValue : Intrinsic → Bool
  | .stop _ | .writeChannel _ => false
  | .readChannel _ | .channelCount _ => true

/-- A method that stands for an instruction without a value is declared without one. -/
def Method.Truthful (m : Method) : Prop :=
  ∀ i ∈ m.intrinsic, i.hasValue = false → m.returnType = .void

instance (m : Method) : Decidable m.Truthful :=
  inferInstanceAs (Decidable (∀ i ∈ m.intrinsic, i.hasValue = false → m.returnType = .void))

end SpuCompiler.Metadata

namespace SpuCompiler.Selection

open Machine Metadata Bytecode Trees Objects

variable {vars start : Nat} {known : List Register}

/-- The code sets fresh registers, and gives a register where it has to have a value. -/
def CodeEmits (vars start : Nat) (known : List Register) (value : Prop) (c : Code) : Prop :=
  ∀ e, c = .ok e → Emits vars start known e Option.toList ∧ (value → ∀ s, (e.run s).1.isSome = true)

namespace Code

variable {value : Prop}

theorem error_emits (fault : Fault) : CodeEmits vars start known value (.error fault) := by
  rintro _ ⟨⟩

theorem value_emits {e : Emit Register} (h : Emits vars start known e ([·])) :
    CodeEmits vars start known value (Code.value e) := by
  rintro _ ⟨⟩
  exact ⟨h.bind fun r => .pure (by simp), fun _ s => rfl⟩

theorem effect_emits {e : Emit Unit} (h : Emits vars start known e fun _ => []) (hno : ¬ value) :
    CodeEmits vars start known value (Code.effect e) := by
  rintro _ ⟨⟩
  exact ⟨h.bind fun _ => .pure (by simp), fun hv => absurd hv hno⟩

theorem nothing_emits (hno : ¬ value) : CodeEmits vars start known value Code.nothing := by
  rintro _ ⟨⟩
  exact ⟨.pure (by simp), fun hv => absurd hv hno⟩

end Code

theorem CodeComposed.emits {fits value : Prop} {c : Code} (h : CodeComposed fits known value c) :
    CodeEmits vars start known value c := by
  cases h with
  | error fault => exact Code.error_emits fault
  | value h => exact Code.value_emits (h.emits vars start)
  | effect hno h => exact Code.effect_emits (h.emits vars start) hno
  | nothing hno => exact Code.nothing_emits hno

namespace Code

variable {value : Prop} {regs : List Register} {a l r : Register} {op : Machine.Opcode} {n : Node}
  {ctx : Context} {kind : ValueKind}

open Emit

/-- A branch reads its condition. -/
theorem branch_emits (hop : op = .brnz ∨ op = .brz) {condition : Register}
    (hc : Given known condition) (target : Target) :
    Emits vars start known (branch op (some condition) target) fun _ => [] := by
  rcases hop with rfl | rfl
  · exact .settled rfl (by
      simpa [Instr.withTarget, Instr.uses, Opcode.setsFirst, Opcode.readsFirst] using hc.readable)
  · exact .settled rfl (by
      simpa [Instr.withTarget, Instr.uses, Opcode.setsFirst, Opcode.readsFirst] using hc.readable)

theorem branchIf_emits (hop : op = .brnz ∨ op = .brz) (kind : ValueKind) [ha : Reads known a]
    (target : Target) (hno : ¬ value) :
    CodeEmits vars start known value (branchIf op kind a target) := by
  refine effect_emits ?_ hno
  split
  · refine (ri_emits rfl ha.given).bind fun low => ?_
    exact (rr_emits rfl (by simp [ha.given]) (by simp)).bind fun c => branch_emits hop (by simp) target
  · exact branch_emits hop ha.given target

theorem branchCompare_emits (c : BranchCompare) (kind : ValueKind) [Reads known l] [Reads known r]
    (target : Target) (hno : ¬ value) :
    CodeEmits vars start known value (branchCompare c kind l r target) := by
  unfold branchCompare
  dsimp only
  split
  · exact error_emits _
  · rename_i mask hmask
    have hcomposed : Composed False known mask ([·]) := compare?_composed hmask
    refine effect_emits ((hcomposed.emits _ _).bind fun m => branch_emits ?_ (by simp) _) hno
    split
    · exact .inl rfl
    · exact .inr rfl

theorem withStatic_emits {f : Target → Ty → Code}
    (h : ∀ t ty, CodeEmits vars start known value (f t ty)) :
    CodeEmits vars start known value (withStatic ctx n f) := by
  refine withField_of error_emits fun field _ => ?_
  split
  · exact h _ _
  · exact error_emits _

theorem loadStatic_emits (object : Target) (ty : Ty) :
    CodeEmits vars start known value (loadStatic object ty) := by
  unfold loadStatic
  split
  · exact value_emits (targeted_emits rfl object)
  · exact value_emits (loadObject_emits object ty)

theorem storeStatic_emits (object : Target) (ty : Ty) [Reads known a] (hno : ¬ value) :
    CodeEmits vars start known value (storeStatic object ty a) := by
  unfold storeStatic
  split
  · refine effect_emits ((targeted_emits rfl object).bind fun address => ?_) hno
    exact (storeMemory_composed 0 fun h : False => h.elim).emits _ _
  · exact effect_emits (storeObject_emits object ty) hno

theorem moveOut_emits (k : Nat) (ha : Given known a) :
    Emits vars start known (move (.hardware k) a) fun _ => [] := by
  refine move_emits ?_ ha.readable
  rintro _ ⟨⟩

theorem result_emits (o : Options) (kind : ValueKind) (hregs : ∀ r ∈ regs, Given known r)
    (hno : ¬ value) : CodeEmits vars start known value (result o kind regs) := by
  have hret : ∀ {known : List Register}, Emits vars start known (instr { opcode := .ret }) fun _ => [] :=
    .settled rfl (by simp [Instr.uses])
  unfold result
  split
  · exact effect_emits hret hno
  · rename_i a _
    split
    · exact error_emits _
    · exact effect_emits ((moveOut_emits _ (hregs a (by simp))).bind fun _ => hret) hno

/-! ## Calls -/

/-- Only intrinsics that read have a value. -/
theorem intrinsic_emits {i : Intrinsic} (hregs : ∀ r ∈ regs, Given known r)
    (hno : value → ∀ k, i ≠ .stop k ∧ i ≠ .writeChannel k) :
    CodeEmits vars start known value (intrinsic i regs) := by
  have hread : ∀ op : Machine.Opcode, op.setsFirst = true → ∀ channel : Nat,
      Emits vars start known (do
        let rt ← Emit.fresh
        Emit.instr { opcode := op, rt := some rt, ra := some (.hardware channel) }
        return rt) ([·]) :=
    fun op hop channel => .fresh hop (fun _ => ⟨rfl, rfl⟩) (by simp)
  cases i with
  | stop k =>
    exact effect_emits (.settled rfl (by simp [Instr.uses])) fun hv => (hno hv k).1 rfl
  | readChannel channel => exact value_emits (hread .rdch rfl channel)
  | channelCount channel => exact value_emits (hread .rchcnt rfl channel)
  | writeChannel channel =>
    refine effect_emits (.settled rfl ?_) fun hv => (hno hv channel).2 rfl
    intro r hr
    simp only [Instr.uses, Opcode.setsFirst, Opcode.readsFirst, List.filterMap_cons,
      List.filterMap_nil, id, List.mem_append, Option.mem_toList] at hr
    rcases hr with hr | hr
    · exact (hregs r (List.mem_of_mem_head? (by simpa using hr))).readable
    · simp_all

theorem passArguments_emits (register : Nat) (hregs : ∀ r ∈ regs, Given known r) :
    Emits vars start known (passArguments register regs) fun _ => [] := by
  induction regs generalizing register with
  | nil => exact .pure (by simp)
  | cons r rs ih =>
    unfold passArguments
    exact (moveOut_emits _ (hregs r (by simp))).bind fun _ => ih _ fun x hx => hregs x (by simp [hx])

theorem callObject_emits (o : Options) (object : ObjectId) (hregs : ∀ r ∈ regs, Given known r)
    (hkind : value → kind ≠ .void) :
    CodeEmits vars start known value (callObject o kind object regs) := by
  have hjump : Emits vars start known (do
      passArguments o.firstArgumentRegister regs
      instr (.withTarget .brsl (some .lr) (.object object))) fun _ => [] := by
    refine (passArguments_emits _ hregs).bind fun _ => .settled rfl ?_
    simp [Instr.withTarget, Instr.uses, Opcode.setsFirst, Opcode.readsFirst]
  unfold callObject
  dsimp only
  split
  · exact error_emits _
  · split
    · exact effect_emits hjump fun hv => hkind hv rfl
    · exact error_emits _
    · exact value_emits (hjump.bind fun _ =>
        .fresh (show Machine.Opcode.ori.setsFirst = true from rfl) (fun _ => ⟨rfl, rfl⟩)
          (by simp [Instr.ri]))

theorem call_emits (hregs : ∀ r ∈ regs, Given known r) (hkind : value → kind ≠ .void) (hno : value →
      ∀ m, n.callee? = some m → ∀ k, m.intrinsic ≠ some (.stop k) ∧ m.intrinsic ≠ some
      (.writeChannel k)) : CodeEmits vars start known value (call ctx n kind regs) := by
  unfold call
  split
  · exact error_emits _
  · rename_i m hm
    split
    · rename_i i hi
      refine intrinsic_emits hregs fun hv k => ?_
      simpa [hi] using hno hv m hm k
    · split
      · exact callObject_emits _ _ hregs hkind
      · exact error_emits _

end Code

/-! ## Variables -/

/-- Registers of variables are the first ones, and the slots of a frame have types. -/
structure Stores (vars : Nat) (placed : Variables) : Prop where
  register : ∀ id v r, placed.get? id = some v → v.storage = .register r → r < vars
  frame : ∀ id v offset, placed.get? id = some v → v.storage = .frame offset →
    ∃ ty, storageType? v = some ty

namespace Code

open Emit

section Variables

variable {ctx : Context} {n : Node} {vs : Variables} {blocks : Nat} {value : Prop}

theorem loadVariable_emits (hn : n.WellFormed vs blocks) (hplaces : Places vs ctx.vars)
    (hstores : Stores vars ctx.vars) (hshape : n.op.shape? = some .variable) :
    CodeEmits vars start known value (loadVariable ctx n) := by
  obtain ⟨id, v, hid, hv, hassigned, -⟩ := exists_placed hn hplaces hshape
  unfold loadVariable
  simp only [hid, Option.bind_some, hv]
  split
  · rename_i r hr
    exact value_emits (.ofVariable (hstores.register id v r hv hr))
  · rename_i offset hoffset
    obtain ⟨ty, hty⟩ := hstores.frame id v offset hv hoffset
    simp only [hty]
    have hload : Composed False known (loadMemory .sp (signed32 offset) ty) ([·]) :=
      loadMemory_composed _ ty
    exact value_emits (hload.emits vars start)
  · exact error_emits _

theorem storeVariable_emits (hstores : Stores vars ctx.vars) {a : Register} [ha : Reads known a]
    (hno : ¬ value) : CodeEmits vars start known value (storeVariable ctx n a) := by
  unfold storeVariable
  split
  · exact error_emits _
  · rename_i id _
    split
    · exact nothing_emits hno
    · rename_i v hv
      split
      · rename_i r hr
        refine effect_emits (move_emits ?_ ha.given.readable) hno
        rintro k ⟨⟩
        exact hstores.register id v r hv hr
      · split
        · exact effect_emits ((storeMemory_composed _ fun h : False => h.elim).emits _ _) hno
        · exact nothing_emits hno
      · exact error_emits _

theorem variableAddress_emits (hn : n.WellFormed vs blocks) (hplaces : Places vs ctx.vars)
    (hshape : n.op.shape? = some .variable) :
    CodeEmits vars start known value (variableAddress ctx n) := by
  obtain ⟨id, v, hid, hv, -, -⟩ := exists_placed hn hplaces hshape
  unfold variableAddress
  simp only [hid, Option.bind_some, hv]
  split
  · rename_i offset _
    have hadd : Composed False known (addImmediate .sp (signed32 offset)) ([·]) :=
      addImmediate_composed _
    exact value_emits (hadd.emits vars start)
  · exact error_emits _

end Variables

/-! ## Operations -/

section Nodes

variable {ctx : Context} {n : Node} {vs : Variables} {blocks : Nat} {regs : List Register}

theorem kind_of_isValue {t : StackType} (h : t.isValue = true) : ValueKind.of t ≠ .void := by
  cases t <;> simp_all [ValueKind.of, StackType.isValue]

/-- A call of a method with a result has the kind of a value. -/
theorem kind_ne_void (hn : n.WellFormed vs blocks) (hcallee : n.op.pushes = .callee)
    (h : n.Pushes) : ValueKind.of n.type ≠ .void := by
  obtain ⟨old, -, ht⟩ := hn.typed
  obtain ⟨m, hm, htype⟩ := typeOf_callee hcallee ht
  rcases h with hone | ⟨-, m', hm', hreturn⟩
  · rw [hcallee] at hone
    cases hone
  · obtain rfl : m = m' := Option.some.inj (hm.symm.trans hm')
    apply kind_of_isValue
    rw [htype, Builder.isValue_ofTy]
    simpa using hreturn

theorem callNode_emits (hn : n.WellFormed vs blocks) (hregs : ∀ r ∈ regs, Given known r)
    (htruthful : ∀ m, n.callee? = some m → m.Truthful) (hcallee : n.op.pushes = .callee) :
    CodeEmits vars start known n.Pushes (call ctx n (ValueKind.of n.type) regs) := by
  refine call_emits hregs (kind_ne_void hn hcallee) ?_
  rintro (hone | ⟨-, m', hm', hreturn⟩) m hm k
  · rw [hcallee] at hone
    cases hone
  · obtain rfl : m = m' := Option.some.inj (hm.symm.trans hm')
    exact ⟨fun hi => hreturn (htruthful m hm _ hi rfl), fun hi => hreturn (htruthful m hm _ hi rfl)⟩

theorem variableOp_emits (hn : n.WellFormed vs blocks) (hplaces : Places vs ctx.vars)
    (hstores : Stores vars ctx.vars) (hregs : ∀ r ∈ regs, Given known r)
    (hshape : n.op.shape? = some .variable) :
    CodeEmits vars start known n.Pushes (ofOp ctx n regs) := by
  unfold ofOp
  cases hop : n.op with
  | ldarg | ldloc => exact loadVariable_emits hn hplaces hstores hshape
  | starg | stloc =>
    exact unary_of_reads error_emits hregs fun a =>
      storeVariable_emits hstores (Node.not_pushes (by rw [hop]; rfl))
  | ldarga | ldloca => exact variableAddress_emits hn hplaces hshape
  | ldc c => cases c <;> simp [hop, Op.shape?] at hshape
  | _ => simp [hop, Op.shape?] at hshape

theorem jumpOp_emits (hregs : ∀ r ∈ regs, Given known r) (hjump : n.op.isBranch = true) :
    CodeEmits vars start known n.Pushes (ofOp ctx n regs) := by
  unfold ofOp
  cases hop : n.op with
  | br =>
    refine withTarget_of error_emits fun b _ => effect_emits ?_ (Node.not_pushes (by rw [hop]; rfl))
    exact .settled rfl (by simp [Instr.withTarget, Instr.uses, Opcode.setsFirst, Opcode.readsFirst])
  | brtrue =>
    exact withTarget_of error_emits fun b _ => unary_of_reads error_emits hregs fun a =>
      branchIf_emits (.inl rfl) _ _ (Node.not_pushes (by rw [hop]; rfl))
  | brfalse =>
    exact withTarget_of error_emits fun b _ => unary_of_reads error_emits hregs fun a =>
      branchIf_emits (.inr rfl) _ _ (Node.not_pushes (by rw [hop]; rfl))
  | branchCompare c =>
    exact withTarget_of error_emits fun b _ => binary_of_reads error_emits hregs fun l r =>
      branchCompare_emits c _ _ (Node.not_pushes (by rw [hop]; rfl))
  | switch | leave => exact error_emits _
  | _ => simp [hop, Op.isBranch, Op.flow] at hjump

theorem static_emits (hregs : ∀ r ∈ regs, Given known r) (hop : IsStaticAccess n) :
    CodeEmits vars start known n.Pushes (ofOp ctx n regs) := by
  unfold ofOp
  rcases hop with hop | hop | hop <;> simp only [hop]
  · exact withStatic_emits loadStatic_emits
  · exact withStatic_emits fun object _ => value_emits (targeted_emits rfl object)
  · exact withStatic_emits fun object ty => unary_of_reads error_emits hregs fun a =>
      storeStatic_emits object ty (Node.not_pushes (by rw [hop]; rfl))

/-- The code of a node sets fresh registers and has a value where the node has one. -/
theorem ofOp_emits (hn : n.WellFormed vs blocks) (hplaces : Places vs ctx.vars)
    (hstores : Stores vars ctx.vars) (hregs : ∀ r ∈ regs, Given known r)
    (htruthful : ∀ m, n.callee? = some m → m.Truthful) :
    CodeEmits vars start known n.Pushes (ofOp ctx n regs) := by
  by_cases hvariable : n.op.shape? = some .variable
  · exact variableOp_emits hn hplaces hstores hregs hvariable
  by_cases hjump : n.op.isBranch = true
  · exact jumpOp_emits hregs hjump
  by_cases hret : n.op = .ret
  · unfold ofOp
    simp only [hret]
    exact result_emits _ _ hregs (Node.not_pushes (by rw [hret]; rfl))
  by_cases hcall : n.op.flow = .call
  · unfold ofOp
    cases hop : n.op with
    | call | callvirt => exact callNode_emits hn hregs htruthful (by rw [hop]; rfl)
    | newobj => exact error_emits _
    | _ => simp [hop, Op.flow] at hcall
  by_cases hstatic : IsStaticAccess n
  · exact static_emits hregs hstatic
  have hcomposed : CodeComposed False known n.Pushes (ofOp ctx n regs) :=
    ofOp_composed hregs False.elim Node.not_pushes
      ⟨hvariable, by simpa using hjump, hret, hcall, hstatic⟩
  exact hcomposed.emits

theorem of_emits (hn : n.WellFormed vs blocks) (hplaces : Places vs ctx.vars)
    (hstores : Stores vars ctx.vars) (hregs : ∀ r ∈ regs, Given known r)
    (htruthful : ∀ m, n.callee? = some m → m.Truthful) :
    CodeEmits vars start known n.Pushes (of ctx n regs) := by
  have hop : CodeEmits vars start known n.Pushes (ofOp ctx n regs) :=
    ofOp_emits hn hplaces hstores hregs htruthful
  unfold of
  split
  · split
    · exact hop
    · exact error_emits _
  · exact hop

end Nodes

end Code

end SpuCompiler.Selection
