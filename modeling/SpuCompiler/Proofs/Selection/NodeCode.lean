import SpuCompiler.Proofs.Bytecode.Shapes
import SpuCompiler.Proofs.Objects.Index
import SpuCompiler.Proofs.Selection.Composition
import SpuCompiler.Selection.Routine

/-!
The code of one node. Jumps, returns and calls of routines have one transfer of control each,
at the end of their code or between the passing of arguments and that of the result; all other
code is straight.
-/

namespace SpuCompiler.Selection

open Machine Metadata Bytecode Trees Objects

variable {n : Node}

/-! ## What a node asks for -/

def IntrinsicFits : Intrinsic → Prop
  | .stop signal => signal ≤ 0x3FFF
  | .readChannel channel | .writeChannel channel | .channelCount channel => channel ≤ 127

instance (i : Intrinsic) : Decidable (IntrinsicFits i) := by
  cases i <;> exact Nat.decLe _ _

/-- The type whose storage a node writes or clears as a whole. -/
def movedType? (n : Node) : Option Ty :=
  match n.op, n.operand with
  | .stobj, .type ty | .initobj, .type ty => some ty
  | .stfld, .field f | .stsfld, .field f => some f.ty
  | _, _ => none

/-- The method that a node calls by a branch to its routine. -/
def calledRoutine? (n : Node) : Option Method :=
  if n.op = .call ∨ n.op = .callvirt then n.callee?.filter (·.intrinsic.isNone) else none

/-- The static field that a node reads, writes or takes the address of. -/
def staticField? (n : Node) : Option Field :=
  match n.op, n.operand with
  | .ldsfld, .field f | .ldsflda, .field f | .stsfld, .field f => some f
  | _, _ => none

/-- The node returns a value, or takes one from a routine. -/
def UsesReturnRegister (n : Node) : Prop :=
  n.op = .ret ∧ n.children ≠ [] ∨ (calledRoutine? n).isSome = true ∧ n.type ≠ .void

structure NodeFits (o : Options) (n : Node) : Prop where
  moved : ∀ ty, movedType? n = some ty → Emit.Movable ty
  element : ∀ ty, n.op = .ldelema → n.operand = .type ty → ty.size < 2 ^ 64
  intrinsic : ∀ m i, n.callee? = some m → m.intrinsic = some i → IntrinsicFits i
  result : UsesReturnRegister n → o.returnRegister ≤ 127

instance (n : Node) : Decidable (UsesReturnRegister n) := by
  unfold UsesReturnRegister
  infer_instance

def elementType? (n : Node) : Option Ty :=
  match n.op, n.operand with
  | .ldelema, .type ty => some ty
  | _, _ => none

theorem elementType?_eq_some {ty : Ty} :
    elementType? n = some ty ↔ n.op = .ldelema ∧ n.operand = .type ty := by
  unfold elementType?
  split <;> simp_all

instance (o : Options) (n : Node) : Decidable (NodeFits o n) :=
  decidable_of_iff ((∀ ty ∈ movedType? n, Emit.Movable ty) ∧
      (∀ ty ∈ elementType? n, ty.size < 2 ^ 64) ∧
      (∀ m ∈ n.callee?, ∀ i ∈ m.intrinsic, IntrinsicFits i) ∧
      (UsesReturnRegister n → o.returnRegister ≤ 127)) <| by
    constructor
    · rintro ⟨hmoved, helement, hintrinsic, hresult⟩
      exact ⟨hmoved, fun ty hop ht => helement ty (elementType?_eq_some.mpr ⟨hop, ht⟩),
        fun m i hm => hintrinsic m hm i, hresult⟩
    · intro h
      refine ⟨h.moved, fun ty hty => ?_, fun m hm i => h.intrinsic m i hm, h.result⟩
      obtain ⟨hop, ht⟩ := elementType?_eq_some.mp hty
      exact h.element ty hop ht

/-- Arguments have registers; where `fits` holds, values can be moved to all slots of a frame. -/
structure FrameFits (fits : Prop) (o : Options) (vars : Variables) : Prop where
  arguments : o.firstArgumentRegister + o.argumentRegisterCount ≤ 128
  slots : fits → ∀ id v offset ty, vars.get? id = some v → v.storage = .frame offset →
    storageType? v = some ty → Emit.Movable ty

/-! ## Straight code -/

variable {fits : Prop} {names : Nat → Prop}

def ValidResult (r : Option Register) : Prop := ∀ x, r = some x → x.Valid

def WritesCode (R : List Instr → Prop) (c : Code) : Prop := ∀ e, c = .ok e → Writes e R ValidResult

def CodeStraight (fits : Prop) (names : Nat → Prop) (c : Code) : Prop :=
  WritesCode (fun code => ∀ i ∈ code, Plain fits names i) c

namespace CodeStraight

theorem error (fault : Fault) : CodeStraight fits names (.error fault) := by
  rintro e ⟨⟩

theorem value {e : Emit Register} (h : Straight fits names e Register.Valid) :
    CodeStraight fits names (Code.value e) := by
  rintro _ ⟨⟩
  refine Straight.bind h fun r hr => .pure ?_
  rintro _ ⟨⟩
  exact hr

theorem effect {e : Emit Unit} (h : Straight fits names e fun _ => True) :
    CodeStraight fits names (Code.effect e) := by
  rintro _ ⟨⟩
  exact Straight.bind h fun _ _ => .pure nofun

theorem nothing : CodeStraight fits names Code.nothing := by
  rintro _ ⟨⟩
  exact Straight.pure nofun

end CodeStraight

namespace Code

variable {P : Code → Prop} {known regs : List Register}

variable (herror : ∀ fault, P (.error fault))

include herror

theorem unary_of {f : Register → Code} (h : ∀ a, regs = [a] → P (f a)) : P (unary regs f) := by
  unfold unary
  split
  · exact h _ rfl
  · exact herror _

theorem binary_of {f : Register → Register → Code} (h : ∀ a b, regs = [a, b] → P (f a b)) :
    P (binary regs f) := by
  unfold binary
  split
  · exact h _ _ rfl
  · exact herror _

theorem unary_of_reads {f : Register → Code} (hregs : ∀ r ∈ regs, Given known r)
    (h : ∀ a, [Reads known a] → P (f a)) : P (unary regs f) := by
  refine unary_of herror ?_
  rintro a rfl
  have : Reads known a := ⟨hregs a (by simp)⟩
  exact h a

theorem binary_of_reads {f : Register → Register → Code} (hregs : ∀ r ∈ regs, Given known r)
    (h : ∀ a b, [Reads known a] → [Reads known b] → P (f a b)) : P (binary regs f) := by
  refine binary_of herror ?_
  rintro a b rfl
  have : Reads known a := ⟨hregs a (by simp)⟩
  have : Reads known b := ⟨hregs b (by simp)⟩
  exact h a b

theorem withType_of {missing : Fault} {f : Ty → Code} (h : ∀ ty, n.operand = .type ty → P (f ty)) :
    P (withType n missing f) := by
  unfold withType
  split
  · exact h _ ‹_›
  · exact herror _

theorem withField_of {f : Field → Code} (h : ∀ field, n.operand = .field field → P (f field)) :
    P (withField n f) := by
  unfold withField
  split
  · exact h _ ‹_›
  · exact herror _

theorem withTarget_of {f : Target → Code} (h : ∀ b, n.blockId? = some b → P (f (.block b))) :
    P (withTarget n f) := by
  unfold withTarget
  split
  · exact h _ ‹_›
  · exact herror _

end Code

/-! ## Composed code -/

/-- Code that is composed from the given registers. Where a value is asked for, it has one. -/
inductive CodeComposed (fits : Prop) (known : List Register) (value : Prop) : Code → Prop
  | error (fault : Fault) : CodeComposed fits known value (.error fault)
  | value {e : Emit Register} : Composed fits known e ([·]) →
      CodeComposed fits known value (Code.value e)
  | effect {e : Emit Unit} : ¬ value → Composed fits known e (fun _ => []) →
      CodeComposed fits known value (Code.effect e)
  | nothing : ¬ value → CodeComposed fits known value Code.nothing

namespace CodeComposed

variable {known : List Register} {value : Prop}

theorem straight {c : Code} (h : CodeComposed fits known value c) (hknown : ∀ r ∈ known, r.Valid) :
    CodeStraight fits names c := by
  cases h with
  | error fault => exact .error fault
  | value h => exact .value (h.valid hknown)
  | effect _ h => exact .effect (h.effect hknown)
  | nothing => exact .nothing

end CodeComposed

namespace Code

open Emit

variable {l r a : Register} {known regs : List Register} {value : Prop} {ctx : Context}

section Operands

variable [Reads known l] [Reads known r] [Reads known a]

theorem arith_composed (op : Arith) (kind : ValueKind) :
    CodeComposed fits known value (arith op kind l r) := by
  cases op with
  | add | sub =>
    cases kind with
    | word | single | double => exact .value (.rr rfl)
    | _ => exact .error _
  | mul =>
    cases kind with
    | word => exact .value multiplyWord_composed
    | single | double => exact .value (.rr rfl)
    | _ => exact .error _
  | div =>
    cases kind with
    | single => exact .value divideSingle_composed
    | _ => exact .error _
  | and | or | xor =>
    cases kind with
    | word | long => exact .value (.rr rfl)
    | _ => exact .error _
  | _ => exact .error _

theorem shift_composed (op : Shift) (kind : ValueKind) :
    CodeComposed fits known value (shift op kind l r) := by
  unfold shift
  split
  · exact .error _
  · cases op with
    | shl => exact .value (.rr rfl)
    | shr | shrUn => exact .value (shiftRight_composed rfl)

theorem neg_composed (kind : ValueKind) : CodeComposed fits known value (neg kind a) := by
  cases kind with
  | word => exact .value (.ri rfl)
  | single => exact .value negateSingle_composed
  | double => exact .value negateDouble_composed
  | _ => exact .error _

theorem not_composed (kind : ValueKind) : CodeComposed fits known value (not kind a) := by
  cases kind with
  | word | long => exact .value (.rr rfl)
  | _ => exact .error _

theorem conv_composed (c : Conv) (kind : ValueKind) :
    CodeComposed fits known value (conv c kind a) := by
  cases kind with
  | word =>
    cases c with
    | i8 | u8 => exact .value (widen_composed _)
    | r4 => exact .value (.ri rfl)
    | r8 | rUn => exact .value (wordToDouble_composed _)
    | _ => exact .value (narrow_composed _)
  | long =>
    cases c with
    | i8 | u8 => exact .value .read
    | r4 | r8 | rUn => exact .error _
    | _ => exact .value (.bind (.ri rfl) fun _ => narrow_composed _)
  | single =>
    cases c with
    | r4 => exact .value .read
    | r8 | rUn => exact .value (.rr rfl)
    | i8 | u8 => exact .error _
    | _ => exact .value (.bind (.ri rfl) fun _ => narrow_composed _)
  | double =>
    cases c with
    | r8 | rUn => exact .value .read
    | r4 => exact .value (.rr rfl)
    | i8 | u8 => exact .error _
    | _ => exact .value (.bind (doubleToWord_composed _) fun _ => narrow_composed _)
  | struct | void => exact .error _

theorem compare_composed (c : Compare) (kind : ValueKind) :
    CodeComposed fits known value (compare c kind l r) := by
  unfold compare
  split
  · exact .error _
  · rename_i mask hmask
    exact .value (.bind (compare?_composed hmask) fun _ => .ri rfl)

theorem elementAddress_composed {size : Nat} (h : fits → size < 2 ^ 64) :
    CodeComposed fits known value (elementAddress size l r) := by
  unfold elementAddress
  split
  · rename_i e he
    exact .value (elementAddress?_composed he h)
  · exact .error _

end Operands

theorem constant_composed (c : Constant) (operand : Operand Ref) :
    CodeComposed fits known value (constant c operand) := by
  unfold constant
  split
  · exact .value (loadImmediate_composed _)
  · exact .value (loadImmediate_composed _)
  · exact .error _

theorem movable_storeType (access : StoreAccess) : Movable (storeType access) := by
  cases access <;> intro h <;> cases h

theorem breakpoint_composed :
    Composed fits known (instr { opcode := .stop, constant := 0x3FFF }) fun _ => [] where
  steady := inferInstance
  emits _ _ := .settled rfl (by simp [Instr.uses])
  straight names _ := by
    have hplain : Plain fits names { opcode := .stop, constant := 0x3FFF } := by
      refine ⟨rfl, fun _ => ⟨?_, by simp [Instr.registers], by simp⟩, .inl ⟨rfl, rfl⟩⟩
      rintro low high ⟨⟩
      decide
    exact (Straight.instr hplain).imp fun _ _ => by simp

def IsStaticAccess (n : Node) : Prop := n.op = .ldsfld ∨ n.op = .ldsflda ∨ n.op = .stsfld

/-- Operations on the registers of their operands alone. -/
structure IsComposed (n : Node) : Prop where
  noVariable : n.op.shape? ≠ some .variable
  noJump : n.op.isBranch = false
  noReturn : n.op ≠ .ret
  noCall : n.op.flow ≠ .call
  noStatic : ¬ IsStaticAccess n

/-- Without variables, static storage and transfers of control, the code of a node is composed. -/
theorem ofOp_composed (hregs : ∀ r ∈ regs, Given known r) (hnode : fits → NodeFits ctx.options n)
    (hno : n.op.pushes = .none → ¬ value) (h : IsComposed n) :
    CodeComposed fits known value (ofOp ctx n regs) := by
  have hmoved : ∀ ty, movedType? n = some ty → fits → Movable ty :=
    fun ty hty hf => (hnode hf).moved ty hty
  have hone : ∀ {f : Register → Code},
      (∀ a, [Reads known a] → CodeComposed fits known value (f a)) →
      CodeComposed fits known value (unary regs f) := unary_of_reads .error hregs
  have htwo : ∀ {f : Register → Register → Code},
      (∀ a b, [Reads known a] → [Reads known b] → CodeComposed fits known value (f a b)) →
      CodeComposed fits known value (binary regs f) := binary_of_reads .error hregs
  obtain ⟨hvariable, hjump, hret, hcall, hstatic⟩ := h
  unfold ofOp
  cases hop : n.op with
  | nop | pop => exact .nothing (hno (by rw [hop]; rfl))
  | breakpoint => exact .effect (hno (by rw [hop]; rfl)) breakpoint_composed
  | ldarg | ldloc | starg | stloc | ldarga | ldloca => simp [hop, Op.shape?] at hvariable
  | ldnull => exact .value (.imm rfl)
  | ldc c => exact constant_composed c n.operand
  | arith op => exact htwo fun _ _ => arith_composed op _
  | shift op => exact htwo fun _ _ => shift_composed op _
  | neg => exact hone fun _ => neg_composed _
  | not => exact hone fun _ => not_composed _
  | conv c => exact hone fun _ => conv_composed c _
  | compare c => exact htwo fun _ _ => compare_composed c _
  | ldlen => exact hone fun _ => .value (loadMemory_composed _ _)
  | ldelema =>
    exact withType_of .error fun ty hty => htwo fun _ _ =>
      elementAddress_composed fun hf => (hnode hf).element ty hop hty
  | ldind access => exact hone fun _ => .value (loadMemory_composed _ _)
  | stind access =>
    exact htwo fun _ _ => .effect (hno (by rw [hop]; rfl))
      (storeMemory_composed _ fun _ => movable_storeType access)
  | ldobj => exact withType_of .error fun ty _ => hone fun _ => .value (loadMemory_composed _ _)
  | stobj =>
    exact withType_of .error fun ty hty => htwo fun _ _ => .effect (hno (by rw [hop]; rfl))
      (storeMemory_composed _ (hmoved ty (by simp [movedType?, hop, hty])))
  | ldfld => exact withField_of .error fun f _ => hone fun _ => .value (loadMemory_composed _ _)
  | ldflda =>
    exact withField_of .error fun f _ => hone fun _ => .value (addImmediate_composed _)
  | stfld =>
    exact withField_of .error fun f hf => htwo fun _ _ => .effect (hno (by rw [hop]; rfl))
      (storeMemory_composed _ (hmoved f.ty (by simp [movedType?, hop, hf])))
  | ldsfld | ldsflda | stsfld => simp [IsStaticAccess, hop] at hstatic
  | initobj =>
    exact withType_of .error fun ty hty => hone fun _ => .effect (hno (by rw [hop]; rfl))
      (clearMemory_composed (hmoved ty (by simp [movedType?, hop, hty])))
  | sizeof => exact withType_of .error fun ty _ => .value (loadImmediate_composed _)
  | br | brtrue | brfalse | branchCompare c | switch | leave =>
    simp [hop, Op.isBranch, Op.flow] at hjump
  | ret => exact absurd hop hret
  | call | callvirt | newobj => simp [hop, Op.flow] at hcall
  | _ => exact .error _

/-! ## Variables and intrinsics -/

theorem loadVariable_straight (ctx : Context) (n : Node) :
    CodeStraight fits names (loadVariable ctx n) := by
  unfold loadVariable
  split
  · exact .nothing
  · split
    · exact .value (.pure trivial)
    · split
      · exact .value (Composed.closed (loadMemory_composed _ _))
      · exact .nothing
    · exact .error _

theorem storeVariable_straight (ha : a.Valid) (hframe : FrameFits fits ctx.options ctx.vars) :
    CodeStraight fits names (storeVariable ctx n a) := by
  unfold storeVariable
  split
  · exact .error _
  · rename_i id hid
    split
    · exact .nothing
    · rename_i v hv
      split
      · exact .effect (move_straight (fun _ => trivial) fun _ => ha)
      · rename_i offset hstorage
        split
        · rename_i ty hty
          exact .effect (Composed.effectOn ha (storeMemory_composed _ fun hf =>
            hframe.slots hf id v offset ty hv hstorage hty))
        · exact .nothing
      · exact .error _

theorem variableAddress_straight (ctx : Context) (n : Node) :
    CodeStraight fits names (variableAddress ctx n) := by
  unfold variableAddress
  split
  · exact .nothing
  · split
    · exact .value (Composed.closed (addImmediate_composed _))
    · exact .error _

theorem intrinsic_straight {i : Intrinsic} (hregs : ∀ r ∈ regs, r.Valid)
    (h : fits → IntrinsicFits i) : CodeStraight fits names (intrinsic i regs) := by
  have hread : ∀ (op : Machine.Opcode) (channel : Nat), op.Takes 0 → (fits → channel ≤ 127) →
      CodeStraight fits names (Code.value do
        let rt ← fresh
        instr { opcode := op, rt := some rt, ra := some (.hardware channel) }
        return rt) := by
    intro op channel hop hchannel
    refine .value (fresh_straight fun rt ht => ⟨isBranch_of_refers hop.1,
      fun hf => ⟨hop.2, ?_, hop.ne_ret⟩, .inl ⟨hop.1, rfl⟩⟩)
    have : (Register.hardware channel).Valid := hchannel hf
    simp [Instr.registers, ht, this]
  cases i with
  | stop signal =>
    refine .effect (.instr ⟨rfl, fun hf => ⟨?_, by simp [Instr.registers], by rintro ⟨⟩⟩,
      .inl ⟨rfl, rfl⟩⟩)
    have hsignal : signal ≤ 0x3FFF := h hf
    rintro low high ⟨⟩
    exact ⟨by simp, by simp only; omega⟩
  | readChannel channel => exact hread .rdch channel (by decide) h
  | channelCount channel => exact hread .rchcnt channel (by decide) h
  | writeChannel channel =>
    refine .effect (.instr ⟨rfl, fun hf => ⟨?_, ?_, by rintro ⟨⟩⟩, .inl ⟨rfl, rfl⟩⟩)
    · rintro low high ⟨⟩
    · have : (Register.hardware channel).Valid := h hf
      intro r hr
      simp only [Instr.registers, List.filterMap_cons, List.filterMap_nil, id] at hr
      cases hhead : regs.head? with
      | none =>
        simp only [hhead, List.mem_singleton] at hr
        exact hr ▸ this
      | some x =>
        simp only [hhead, List.mem_cons, List.not_mem_nil, or_false] at hr
        rcases hr with rfl | rfl
        · exact hregs _ (List.mem_of_mem_head? (by simp [hhead]))
        · exact this

/-- Operations without a transfer of control and without access to static storage have straight
code, which names no object. -/
theorem ofOp_straight (hregs : ∀ r ∈ regs, r.Valid) (hnode : fits → NodeFits ctx.options n)
    (hframe : FrameFits fits ctx.options ctx.vars) (hjump : n.op.isBranch = false)
    (hret : n.op ≠ .ret) (hcall : n.op.flow ≠ .call) (hstatic : ¬ IsStaticAccess n) :
    CodeStraight fits names (ofOp ctx n regs) := by
  by_cases hvariable : n.op.shape? = some .variable
  · unfold ofOp
    cases hop : n.op with
    | ldarg | ldloc => exact loadVariable_straight ctx n
    | starg | stloc =>
      refine unary_of .error ?_
      rintro a rfl
      exact storeVariable_straight (hregs a (by simp)) hframe
    | ldarga | ldloca => exact variableAddress_straight ctx n
    | ldc c => cases c <;> simp [hop, Op.shape?] at hvariable
    | _ => simp [hop, Op.shape?] at hvariable
  · have hcomposed : CodeComposed fits regs False (ofOp ctx n regs) :=
      ofOp_composed (fun _ hr => .inr hr) hnode (by simp) ⟨hvariable, hjump, hret, hcall, hstatic⟩
    exact hcomposed.straight hregs

end Code

/-! ## Transfers of control -/

/-- Objects that straight code of a node may name: a wide constant has an object of its own. -/
def NamesConstant (n : Node) (_ : ObjectId) : Prop := (Lowering.wideConstant? n).isSome = true

def NoObject (_ : ObjectId) : Prop := False

/-- The code of a node, by where it transfers control and what it names. Called objects and static
storage are those of an arena. -/
inductive NodeCode (fits : Prop) (arena : Arena) (n : Node) : List Instr → Prop
  | straight {code : List Instr} : n.op.isBranch = false → n.op ≠ .ret → calledRoutine? n = none →
      staticField? n = none → (∀ i ∈ code, Plain fits (NamesConstant n) i) →
      NodeCode fits arena n code
  | access {code : List Instr} {f : Field} {id : ObjectId} {o : Object} : staticField? n = some f →
      arena.get? id = some o → o.name = f.symbol → Accesses fits id code → NodeCode fits arena n code
  | jump {pre : List Instr} {op : Machine.Opcode} {condition : Option Register} {b : Nat} :
      n.op.isBranch = true → n.blockId? = some b → (∀ i ∈ pre, Plain fits NoObject i) →
      (op = .br ∨ op = .brz ∨ op = .brnz) → (∀ r, condition = some r → r.Valid) →
      NodeCode fits arena n (pre ++ [.withTarget op condition (.block b)])
  | ret {pre : List Instr} : n.op = .ret → (∀ i ∈ pre, Plain fits NoObject i) →
      NodeCode fits arena n (pre ++ [{ opcode := .ret }])
  | call {pre post : List Instr} {m : Method} {id : ObjectId} {o : Object} :
      calledRoutine? n = some m → arena.get? id = some o → o.name = m.symbol →
      (∀ i ∈ pre, Plain fits NoObject i) → (∀ i ∈ post, Plain fits NoObject i) →
      NodeCode fits arena n (pre ++ .withTarget .brsl (some .lr) (.object id) :: post)

theorem staticField?_eq_none (h : ¬ Code.IsStaticAccess n) : staticField? n = none := by
  unfold staticField?
  split
  · exact absurd (.inl ‹_›) h
  · exact absurd (.inr (.inl ‹_›)) h
  · exact absurd (.inr (.inr ‹_›)) h
  · rfl

theorem isStaticAccess_of_staticField? {f : Field} (h : staticField? n = some f) :
    Code.IsStaticAccess n := by
  by_contra hn
  rw [staticField?_eq_none hn] at h
  cases h

def KeepsNames (a b : Arena) : Prop :=
  ∀ id o, a.get? id = some o → ∃ o', b.get? id = some o' ∧ o'.name = o.name

theorem NodeCode.mono {a b : Arena} {code : List Instr} (h : NodeCode fits a n code)
    (hab : KeepsNames a b) : NodeCode fits b n code := by
  cases h with
  | straight hjump hret hcall hstatic hplain => exact .straight hjump hret hcall hstatic hplain
  | access hstatic ho hname hcode =>
    obtain ⟨o', ho', hname'⟩ := hab _ _ ho
    exact .access hstatic ho' (hname'.trans hname) hcode
  | jump hjump hb hplain hop hcondition => exact .jump hjump hb hplain hop hcondition
  | ret hret hplain => exact .ret hret hplain
  | call hcall ho hname hpre hpost =>
    obtain ⟨o', ho', hname'⟩ := hab _ _ ho
    exact .call hcall ho' (hname'.trans hname) hpre hpost

namespace Code

open Emit

variable {arena : Arena} {n : Node} {b : Nat}
variable {o : Options} {kind : ValueKind} {regs : List Register} {ctx : Context}

theorem effect_writes {e : Emit Unit} {R : List Instr → Prop} (he : Writes e R fun _ => True) :
    WritesCode R (Code.effect e) := by
  rintro _ ⟨⟩ s
  obtain ⟨code, hcode, hR, -⟩ := he s
  exact ⟨code, hcode, hR, nofun⟩

theorem value_writes {e : Emit Register} {R : List Instr → Prop}
    (he : Writes e R Register.Valid) : WritesCode R (Code.value e) := by
  rintro _ ⟨⟩ s
  obtain ⟨code, hcode, hR, hvalid⟩ := he s
  refine ⟨code, hcode, hR, ?_⟩
  rintro _ ⟨⟩
  exact hvalid

section Jumps

variable {op : Machine.Opcode} (hop : op = .br ∨ op = .brz ∨ op = .brnz)
  (hjump : n.op.isBranch = true) (hb : n.blockId? = some b)

include hop hjump hb

/-- A jump follows the code that leaves its condition in a register. -/
theorem jump_writes {condition : Emit Register}
    (hcondition : Straight fits NoObject condition Register.Valid) :
    Writes (do let c ← condition; branch op (some c) (.block b)) (NodeCode fits arena n)
      fun _ => True := by
  refine Writes.bind hcondition (fun _ _ => Writes.instr _) ?_
  rintro c hc pre _ hplain rfl
  refine .jump hjump hb hplain hop ?_
  rintro _ ⟨⟩
  exact hc

theorem branchIf_writes (kind : ValueKind) {a : Register} (ha : a.Valid) :
    WritesCode (NodeCode fits arena n) (branchIf op kind a (.block b)) := by
  refine effect_writes ?_
  split
  · have hcondition : Composed fits [a] (do let low ← ri .rotqbyi a 4; rr .or a low) ([·]) :=
      .bind (.ri rfl) fun _ => .rr rfl
    simpa using jump_writes hop hjump hb (hcondition.valid (by simpa using ha))
  · exact jump_writes hop hjump hb (.pure ha)

end Jumps

theorem branchCompare_writes (c : BranchCompare) (kind : ValueKind) {l r : Register} (hl : l.Valid)
    (hr : r.Valid) (hjump : n.op.isBranch = true) (hb : n.blockId? = some b) :
    WritesCode (NodeCode fits arena n) (branchCompare c kind l r (.block b)) := by
  cases hmask : compare? kind (Comparison.ofBranch c) l r with
  | none =>
    simp only [branchCompare, hmask]
    rintro _ ⟨⟩
  | some mask =>
    simp only [branchCompare, hmask]
    have hcomposed : Composed fits [l, r] mask ([·]) := compare?_composed hmask
    refine effect_writes (jump_writes ?_ hjump hb (hcomposed.valid (by simp [hl, hr])))
    split <;> simp

theorem result_writes (hregs : ∀ r ∈ regs, r.Valid) (hret : n.op = .ret)
    (h : fits → regs ≠ [] → o.returnRegister ≤ 127) :
    WritesCode (NodeCode fits arena n) (result o kind regs) := by
  unfold result
  split
  · have hcode : NodeCode fits arena n ([] ++ [{ opcode := .ret }]) := .ret hret (by simp)
    exact effect_writes fun s => ⟨_, Array.toList_push .., hcode, trivial⟩
  · rename_i a rest
    split
    · rintro _ ⟨⟩
    · have hmove : Straight fits NoObject (move (.hardware o.returnRegister) a) fun _ => True :=
        move_straight (fun hf => h hf (by simp)) fun _ => hregs a (by simp)
      refine effect_writes (Writes.bind hmove (fun _ _ => Writes.instr _) ?_)
      rintro _ - pre _ hplain rfl
      exact .ret hret hplain

theorem passArguments_straight {register : Nat} (hregs : ∀ r ∈ regs, r.Valid)
    (h : register + regs.length ≤ 128) :
    Straight fits NoObject (passArguments register regs) fun _ => True := by
  induction regs generalizing register with
  | nil => exact .pure trivial
  | cons r regs ih =>
    simp only [List.length_cons] at h
    have hmove : Straight fits NoObject (move (.hardware register) r) fun _ => True := by
      refine move_straight (fun _ => ?_) fun _ => hregs r (by simp)
      change register ≤ 127
      omega
    exact hmove.bind fun _ _ => ih (fun r hr => hregs r (by simp [hr])) (by omega)

theorem callObject_writes {id : ObjectId} {object : Object} {m : Method}
    (hregs : ∀ r ∈ regs, r.Valid) (hcall : calledRoutine? n = some m)
    (hobject : arena.get? id = some object) (hname : object.name = m.symbol)
    (harguments : o.firstArgumentRegister + o.argumentRegisterCount ≤ 128)
    (hresult : fits → kind ≠ .void → o.returnRegister ≤ 127) :
    WritesCode (NodeCode fits arena n) (callObject o kind id regs) := by
  unfold callObject
  split
  · rintro _ ⟨⟩
  rename_i hcount
  have hpass : Straight fits NoObject (passArguments o.firstArgumentRegister regs) fun _ => True :=
    passArguments_straight hregs (by omega)
  have hjump : Writes (do
      passArguments o.firstArgumentRegister regs
      instr (.withTarget .brsl (some .lr) (.object id)))
      (fun code => ∃ pre, code = pre ++ [.withTarget .brsl (some .lr) (.object id)] ∧
        ∀ i ∈ pre, Plain fits NoObject i) fun _ => True := by
    refine Writes.bind hpass (fun _ _ => Writes.instr _) ?_
    rintro _ - pre _ hplain rfl
    exact ⟨pre, rfl, hplain⟩
  have hvalue : kind ≠ .void → WritesCode (NodeCode fits arena n) (Code.value do
      passArguments o.firstArgumentRegister regs
      instr (.withTarget .brsl (some .lr) (.object id))
      let result ← fresh
      move result (.hardware o.returnRegister)
      return result) := by
    rintro hkind _ ⟨⟩
    have hback : Straight fits NoObject (do
        let result ← fresh
        move result (.hardware o.returnRegister)
        return some result) ValidResult := by
      refine Straight.fresh.bind fun result hr => ?_
      have hmove : Straight fits NoObject (move result (.hardware o.returnRegister)) fun _ => True :=
        move_straight (fun _ => hr) fun hf => hresult hf hkind
      refine hmove.bind fun _ _ => .pure ?_
      rintro _ ⟨⟩
      exact hr
    refine Writes.bind hjump (fun _ _ => hback) ?_
    rintro _ - _ post ⟨pre, rfl, hpre⟩ hpost
    rw [List.append_assoc]
    exact .call hcall hobject hname hpre hpost
  cases kind with
  | void =>
    refine effect_writes fun s => ?_
    obtain ⟨_, hcode, ⟨pre, rfl, hpre⟩, -⟩ := hjump s
    exact ⟨_, hcode, .call hcall hobject hname hpre (by simp), trivial⟩
  | struct => rintro _ ⟨⟩
  | word => exact hvalue (by simp)
  | long => exact hvalue (by simp)
  | single => exact hvalue (by simp)
  | double => exact hvalue (by simp)

theorem call_writes (hregs : ∀ r ∈ regs, r.Valid) (hnode : fits → NodeFits ctx.options n)
    (hframe : FrameFits fits ctx.options ctx.vars) (harena : ctx.arena.Indexed)
    (hop : n.op = .call ∨ n.op = .callvirt) :
    WritesCode (NodeCode fits ctx.arena n) (call ctx n (ValueKind.of n.type) regs) := by
  unfold call
  split
  · rintro _ ⟨⟩
  rename_i m hm
  split
  · rename_i i hi
    have hcalled : calledRoutine? n = none := by simp [calledRoutine?, hop, hm, hi]
    intro e he s
    obtain ⟨code, hcode, hplain, hvalid⟩ :=
      intrinsic_straight hregs (fun hf => (hnode hf).intrinsic m i hm hi) e he s
    refine ⟨code, hcode, .straight ?_ ?_ hcalled ?_ hplain, hvalid⟩
    · rcases hop with hop | hop <;> rw [hop] <;> rfl
    · rcases hop with hop | hop <;> rw [hop] <;> simp
    · rcases hop with hop | hop <;> simp [staticField?, hop]
  · rename_i hi
    have hcalled : calledRoutine? n = some m := by simp [calledRoutine?, hop, hm, hi]
    split
    · rename_i id hid
      obtain ⟨object, hobject, hname⟩ := (harena _ _).mp hid
      refine callObject_writes hregs hcalled hobject hname hframe.arguments ?_
      intro hf hkind
      refine (hnode hf).result (.inr ⟨by simp [hcalled], ?_⟩)
      intro hvoid
      exact hkind (by rw [hvoid]; rfl)
    · rintro _ ⟨⟩

/-! ## Access to static storage -/

theorem withStatic_writes {f : Target → Ty → Code} (harena : ctx.arena.Indexed)
    (hop : IsStaticAccess n) (hf : ∀ id field, n.operand = .field field → WritesCode (Accesses fits
      id) (f (.object id) field.ty)) :
    WritesCode (NodeCode fits ctx.arena n) (withStatic ctx n f) := by
  unfold withStatic withField
  split
  · rename_i field hfield
    dsimp only
    split
    · rename_i id hid
      obtain ⟨object, hobject, hname⟩ := (harena _ _).mp hid
      have hstatic : staticField? n = some field := by
        rcases hop with hop | hop | hop <;> simp [staticField?, hop, hfield]
      intro e he s
      obtain ⟨code, hcode, haccesses, hvalid⟩ := hf id field hfield e he s
      exact ⟨code, hcode, .access hstatic hobject hname haccesses, hvalid⟩
    · rintro _ ⟨⟩
  · rintro _ ⟨⟩

theorem address_accesses (id : ObjectId) :
    Writes (targeted .ila (.object id)) (Accesses fits id) Register.Valid := by
  have hpure : ∀ r : Register, r.Valid → Straight fits (· = id) (pure r) Register.Valid :=
    fun _ hr => .pure hr
  have h := targeted_accesses (.inr (.inr rfl)) hpure
  rwa [bind_pure] at h

theorem loadStatic_accesses (id : ObjectId) (ty : Ty) :
    WritesCode (Accesses fits id) (loadStatic (.object id) ty) := by
  unfold loadStatic
  split
  · exact value_writes (address_accesses id)
  · exact value_writes (loadObject_accesses id ty)

theorem storeStatic_accesses (id : ObjectId) {ty : Ty} {a : Register} (ha : a.Valid)
    (h : fits → Movable ty) : WritesCode (Accesses fits id) (storeStatic (.object id) ty a) := by
  unfold storeStatic
  split
  · refine effect_writes (targeted_accesses (by simp) fun address haddress => ?_)
    have hstore : Composed fits [address, a] (storeMemory address 0 a ty) fun _ => [] :=
      storeMemory_composed 0 h
    exact hstore.effect (by simp [haddress, ha])
  · exact effect_writes (storeObject_accesses id ty ha)

theorem static_writes (hregs : ∀ r ∈ regs, r.Valid) (hnode : fits → NodeFits ctx.options n)
    (harena : ctx.arena.Indexed) (hop : IsStaticAccess n) :
    WritesCode (NodeCode fits ctx.arena n) (ofOp ctx n regs) := by
  unfold ofOp
  rcases hop with hop | hop | hop <;> simp only [hop]
  · exact withStatic_writes harena (.inl hop) fun id field _ => loadStatic_accesses id field.ty
  · exact withStatic_writes harena (.inr (.inl hop)) fun id field _ =>
      value_writes (address_accesses id)
  · refine withStatic_writes harena (.inr (.inr hop)) fun id field hfield => ?_
    unfold unary
    split
    · refine storeStatic_accesses id (hregs _ (by simp)) fun hf => (hnode hf).moved field.ty ?_
      simp [movedType?, hop, hfield]
    · rintro _ ⟨⟩

theorem jumpOp_writes (hregs : ∀ r ∈ regs, r.Valid) (hjump : n.op.isBranch = true) :
    WritesCode (NodeCode fits arena n) (ofOp ctx n regs) := by
  have herror : ∀ fault, WritesCode (NodeCode fits arena n) (.error fault) := by
    rintro fault _ ⟨⟩
  have hunary : ∀ {f : Register → Code},
      (∀ a : Register, a.Valid → WritesCode (NodeCode fits arena n) (f a)) →
      WritesCode (NodeCode fits arena n) (unary regs f) := by
    intro f hf
    refine unary_of herror ?_
    rintro a rfl
    exact hf a (hregs a (by simp))
  unfold ofOp
  cases hop : n.op with
  | br =>
    refine withTarget_of herror fun b hb => ?_
    have hcode : NodeCode fits arena n ([] ++ [.withTarget .br none (.block b)]) :=
      .jump hjump hb (by simp) (.inl rfl) (by rintro _ ⟨⟩)
    exact effect_writes fun s => ⟨_, Array.toList_push .., hcode, trivial⟩
  | brtrue | brfalse =>
    exact withTarget_of herror fun b hb => hunary fun a ha => branchIf_writes (by simp) hjump hb _ ha
  | branchCompare c =>
    refine withTarget_of herror fun b hb => binary_of herror ?_
    rintro l r rfl
    exact branchCompare_writes c _ (hregs l (by simp)) (hregs r (by simp)) hjump hb
  | switch | leave => rintro _ ⟨⟩
  | _ => simp [hop, Op.isBranch, Op.flow] at hjump

/-- Where a node has code, its shape is that of its operation. -/
theorem of_writes (hregs : ∀ r ∈ regs, r.Valid) (hlength : regs.length = n.children.length)
    (hnode : fits → NodeFits ctx.options n) (hframe : FrameFits fits ctx.options ctx.vars)
    (harena : ctx.arena.Indexed) : WritesCode (NodeCode fits ctx.arena n) (Code.of ctx n regs) := by
  have hofOp : WritesCode (NodeCode fits ctx.arena n) (ofOp ctx n regs) := by
    by_cases hjump : n.op.isBranch = true
    · exact jumpOp_writes hregs hjump
    by_cases hret : n.op = .ret
    · unfold ofOp
      simp only [hret]
      refine result_writes hregs hret fun hf hne => (hnode hf).result (.inl ⟨hret, ?_⟩)
      intro hnone
      rw [hnone] at hlength
      exact hne (List.length_eq_zero_iff.mp hlength)
    by_cases hcall : n.op = .call ∨ n.op = .callvirt
    · have heq : ofOp ctx n regs = call ctx n (ValueKind.of n.type) regs := by
        unfold ofOp
        rcases hcall with hop | hop <;> rw [hop]
      rw [heq]
      exact call_writes hregs hnode hframe harena hcall
    by_cases hnew : n.op = .newobj
    · unfold ofOp
      simp only [hnew]
      rintro _ ⟨⟩
    by_cases hstatic : IsStaticAccess n
    · exact static_writes hregs hnode harena hstatic
    · have hflow : n.op.flow ≠ .call := by
        intro hflow
        cases hop : n.op <;> simp_all [Op.flow]
      intro e he s
      obtain ⟨code, hcode, hplain, hvalid⟩ := ofOp_straight hregs hnode hframe
        (by simpa using hjump) hret hflow hstatic e he s
      exact ⟨code, hcode, .straight (by simpa using hjump) hret (by simp [calledRoutine?, hcall])
        (staticField?_eq_none hstatic) hplain, hvalid⟩
  unfold Code.of
  split
  · split
    · exact hofOp
    · rintro _ ⟨⟩
  · exact hofOp

end Code

end SpuCompiler.Selection
