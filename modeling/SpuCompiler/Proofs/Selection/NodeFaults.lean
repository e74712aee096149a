import SpuCompiler.Proofs.Trees.WellFormed
import SpuCompiler.Proofs.Selection.TreeCode

/-!
The fault of a node of a routine that was built from a body. It is a function of the operation, the
operand, the callee, the type and that of the left child, of the options and of the names that were
declared (`fault?`).
-/

namespace SpuCompiler.Trees

open Bytecode

/-! ## Operands -/

section Operands

variable {blocks : Nat} {n : Node}

theorem Node.Shaped.exists_block (h : n.Shaped blocks) (hshape : n.op.shape? = some .target) :
    ∃ b, n.operand = .ref (.block b) := by
  have hoperand := h.operand
  rw [hshape] at hoperand
  cases ho : n.operand with
  | ref r =>
    cases r with
    | block b => exact ⟨b, rfl⟩
    | «variable» id => simp [ho, Operand.shape, Ref.shape] at hoperand
  | _ => simp [ho, Operand.shape] at hoperand

theorem Node.Shaped.exists_type (h : n.Shaped blocks) (hshape : n.op.shape? = some .type) :
    ∃ ty, n.operand = .type ty := by
  have hoperand := h.operand
  rw [hshape] at hoperand
  cases ho : n.operand with
  | type ty => exact ⟨ty, rfl⟩
  | ref r => cases r <;> simp [ho, Operand.shape, Ref.shape] at hoperand
  | _ => simp [ho, Operand.shape] at hoperand

theorem Node.Shaped.exists_field (h : n.Shaped blocks) (hshape : n.op.shape? = some .field) :
    ∃ f, n.operand = .field f := by
  have hoperand := h.operand
  rw [hshape] at hoperand
  cases ho : n.operand with
  | field f => exact ⟨f, rfl⟩
  | ref r => cases r <;> simp [ho, Operand.shape, Ref.shape] at hoperand
  | _ => simp [ho, Operand.shape] at hoperand

end Operands

/-! ## Types of operands -/

section Typing

variable {vars : Variables} {n : Node} {t : StackType}

theorem leftType_ok (h : n.leftType = .ok t) : ∃ c, n.left? = some c ∧ c.type = t := by
  unfold Node.leftType at h
  split at h
  · cases h
    exact ⟨_, ‹_›, rfl⟩
  · cases h

theorem typeOf_arith {a : Arith} (hop : n.op = .arith a) (h : typeOf vars n = .ok t) :
    ∃ l r, arithType? a l r = some t := by
  simp only [typeOf, hop] at h
  obtain ⟨l, -, h⟩ := bind_eq_ok.mp h
  obtain ⟨r, -, h⟩ := bind_eq_ok.mp h
  split at h
  · cases h
    exact ⟨l, r, ‹_›⟩
  · cases h

theorem typeOf_not (hop : n.op = .not) (h : typeOf vars n = .ok t) : t.isInteger = true := by
  simp only [typeOf, hop] at h
  obtain ⟨l, -, h⟩ := bind_eq_ok.mp h
  split at h
  · cases h
    assumption
  · cases h

theorem typeOf_conv {c : Conv} (hop : n.op = .conv c) (h : typeOf vars n = .ok t) :
    ∃ l, n.left? = some l ∧ convertible c l.type = true := by
  simp only [typeOf, hop] at h
  obtain ⟨_, hl, h⟩ := bind_eq_ok.mp h
  obtain ⟨l, hleft, rfl⟩ := leftType_ok hl
  split at h
  · exact ⟨l, hleft, ‹_›⟩
  · cases h

theorem typeOf_compare {c : Compare} (hop : n.op = .compare c) (h : typeOf vars n = .ok t) :
    ∃ l r, n.left? = some l ∧ comparable l.type r = true := by
  simp only [typeOf, hop] at h
  obtain ⟨_, hl, h⟩ := bind_eq_ok.mp h
  obtain ⟨l, hleft, rfl⟩ := leftType_ok hl
  obtain ⟨r, -, h⟩ := bind_eq_ok.mp h
  split at h
  · exact ⟨l, r, hleft, ‹_›⟩
  · cases h

end Typing

end SpuCompiler.Trees

namespace SpuCompiler.Selection

open Machine Metadata Bytecode Trees Objects

/-! ## Storage -/

/-- Every variable has storage, in memory if its address is taken. -/
def Places (vars placed : Variables) : Prop :=
  ∀ id v, vars.get? id = some v →
    ∃ s, placed.get? id = some { v with storage := s } ∧ s ≠ .unassigned ∧
      (v.escapes = .yes → ∃ offset, s = .frame offset)

namespace Frame

variable {v : Variable}

theorem exists_storage_assign {vs : List Variable} {k : Nat} (h : vs[k]? = some v)
    (offset register : Nat) :
    ∃ s, (assign offset register vs).1[k]? = some { v with storage := s } ∧
      if livesInMemory v then ∃ x, s = .frame x else ∃ n, s = .register n := by
  induction vs generalizing k offset register with
  | nil => simp at h
  | cons w vs ih =>
    unfold assign
    split
    · rename_i hmemory
      cases k with
      | zero =>
        cases h
        exact ⟨.frame offset, rfl, by rw [if_pos hmemory]; exact ⟨offset, rfl⟩⟩
      | succ k => exact ih h (offset + slotSize w) register
    · rename_i hmemory
      cases k with
      | zero =>
        cases h
        exact ⟨.register register, rfl, by rw [if_neg hmemory]; exact ⟨register, rfl⟩⟩
      | succ k => exact ih h offset (register + 1)

theorem exists_storage {vars : Variables} {id : Nat} (h : vars.get? id = some v) (o : Options) :
    ∃ s, (Frame.of o vars).vars.get? id = some { v with storage := s } ∧
      if livesInMemory v then ∃ x, s = .frame x else ∃ n, s = .register n := by
  have hget : vars.entries.toList[id]? = some v := by simpa [Variables.get?] using h
  obtain ⟨s, hs, hrest⟩ := exists_storage_assign hget o.linkAreaSize 0
  exact ⟨s, by simpa [Variables.get?, Frame.of] using hs, hrest⟩

theorem places (o : Options) (vars : Variables) : Places vars (Frame.of o vars).vars := by
  intro id v hv
  obtain ⟨s, hs, hstorage⟩ := exists_storage hv o
  refine ⟨s, hs, ?_, fun hescapes => ?_⟩
  · split at hstorage <;> (obtain ⟨_, rfl⟩ := hstorage; nofun)
  · rwa [if_pos (by simp [livesInMemory, hescapes])] at hstorage

end Frame

/-! ## The fault of a node -/

/-- Values that are added, subtracted, multiplied and negated. -/
def ValueKind.isArithmetic : ValueKind → Bool
  | .word | .single | .double => true
  | .long | .struct | .void => false

def arithFault? (a : Arith) (kind : ValueKind) : Option Fault :=
  match a with
  | .add => if kind.isArithmetic then none else some .noAdd
  | .sub => if kind.isArithmetic then none else some .noSubtract
  | .mul => if kind.isArithmetic then none else some .noMultiply
  | .div => if kind = .single then none else some .noDivide
  | .divUn | .rem | .remUn => some .integerDivision
  | .and | .or | .xor => none

def convFault? (c : Conv) (source : ValueKind) : Option Fault :=
  match source, c with
  | .long, .r4 | .long, .r8 | .long, .rUn => some .longToFloat
  | .single, .i8 | .single, .u8 | .double, .i8 | .double, .u8 => some .floatToLong
  | _, _ => none

/-- The fault of a call of a method with a result of the given kind. An intrinsic has its own
instructions. -/
def callFault? (o : Options) (declared : String → Bool) (m : Method) (kind : ValueKind) :
    Option Fault :=
  if m.intrinsic.isSome then none
  else if !declared m.symbol then some (.undeclaredRoutine m.symbol)
  else if o.argumentRegisterCount < m.argumentCount then some .tooManyArguments
  else if kind = .struct then some .callOfStruct
  else none

/-- The fault of an access to an element of a type: an index is scaled by a shift or a short
immediate. -/
def elementFault? (ty : Ty) : Option Fault :=
  if ty.size ≤ 511 ∨ 2 ^ ty.size.log2 = ty.size then none else some .elementTooLarge

/-- The fault of a node of a routine that was built from a body. -/
def fault? (o : Options) (declared : String → Bool) (op : Op) (operand : Operand Ref)
    (callee : Option Method) (type : StackType) (left : Option StackType) : Option Fault :=
  match op with
  | .arith a => arithFault? a (.of type)
  | .shift _ => if ValueKind.of type = .word then none else some .shift
  | .neg => if (ValueKind.of type).isArithmetic then none else some .noNegate
  | .conv c => left.bind fun t => convFault? c (.of t)
  | .branchCompare _ =>
    match left.map ValueKind.of with
    | some .struct | some .void | none => some .noComparison
    | _ => none
  | .ret => if left.map ValueKind.of = some .struct then some .returnOfStruct else none
  | .call | .callvirt => callee.bind fun m => callFault? o declared m (.of type)
  | .newobj => some .objectAllocation
  | .newarr => some .arrayAllocation
  | .ldstr => some .stringLiteral
  | .throw => some .exception
  | .ldelema =>
    match operand with
    | .type ty => elementFault? ty
    | _ => none
  | .ldsfld | .ldsflda | .stsfld =>
    match operand with
    | .field f => if declared f.symbol then none else some (.undeclaredField f.symbol)
    | _ => none
  | _ => none

def objectName? (n : Node) : Option String :=
  match n.op with
  | .call | .callvirt => n.callee?.map Method.symbol
  | .ldsfld | .ldsflda | .stsfld =>
    match n.operand with
    | .field f => some f.symbol
    | _ => none
  | _ => none

namespace Code

def fault? : Code → Option Fault
  | .ok _ => none
  | .error fault => some fault

section Parts

variable {regs : List Register} {vars : Variables} {blocks : Nat} {n : Node} {ctx : Context}
  {x : Option Fault}
variable {field : Field} {l r t : StackType} {a : Arith}

theorem fault?_unary {f : Register → Code} (h : regs.length = 1) (hf : ∀ a, (f a).fault? = x) :
    (unary regs f).fault? = x := by
  obtain ⟨a, rfl⟩ := List.length_eq_one_iff.mp h
  exact hf a

theorem fault?_binary {f : Register → Register → Code} (h : regs.length = 2)
    (hf : ∀ a b, (f a b).fault? = x) : (binary regs f).fault? = x := by
  obtain ⟨a, b, rfl⟩ := List.length_eq_two.mp h
  exact hf a b

theorem fault?_withTarget (hn : n.Shaped blocks) (hshape : n.op.shape? = some .target)
    {f : Target → Code} (hf : ∀ t, (f t).fault? = x) : (withTarget n f).fault? = x := by
  obtain ⟨b, hb⟩ := hn.exists_block hshape
  simp only [withTarget, Node.blockId?, hb]
  exact hf _

theorem fault?_withType {missing : Fault} {ty : Ty} {f : Ty → Code} (ho : n.operand = .type ty)
    (hf : (f ty).fault? = x) : (withType n missing f).fault? = x := by
  simp only [withType, ho]
  exact hf

theorem fault?_withField {f : Field → Code} (ho : n.operand = .field field)
    (hf : (f field).fault? = x) : (withField n f).fault? = x := by
  simp only [withField, ho]
  exact hf

theorem fault?_withStatic {declared : String → Bool} {f : Target → Ty → Code}
    (ho : n.operand = .field field)
    (hdeclared : (ctx.arena.find? field.symbol).isSome = declared field.symbol)
    (hf : ∀ object, (f object field.ty).fault? = none) :
    (withStatic ctx n f).fault? =
      if declared field.symbol then none else some (.undeclaredField field.symbol) := by
  refine fault?_withField ho ?_
  rw [← hdeclared]
  cases ctx.arena.find? field.symbol with
  | some id => exact hf _
  | none => rfl

/-- The variable of a well-formed node has storage. -/
theorem exists_placed (hn : n.WellFormed vars blocks) (hplaces : Places vars ctx.vars)
    (hshape : n.op.shape? = some .variable) :
    ∃ id v, n.varId? = some id ∧ ctx.vars.get? id = some v ∧ v.storage ≠ .unassigned ∧
      (n.TakesAddress → ∃ offset, v.storage = .frame offset) := by
  obtain ⟨id, x, hid, hx⟩ := hn.exists_variable hshape
  obtain ⟨s, hs, hassigned, hframe⟩ := hplaces id x hx
  refine ⟨id, _, hid, hs, hassigned, fun haddress => hframe ?_⟩
  obtain ⟨id', x', hid', hx', he⟩ := hn.marked haddress
  rw [hid] at hid'
  cases hid'
  rw [hx] at hx'
  cases hx'
  exact he

theorem fault?_loadVariable (hn : n.WellFormed vars blocks) (hplaces : Places vars ctx.vars)
    (hshape : n.op.shape? = some .variable) : (loadVariable ctx n).fault? = none := by
  obtain ⟨id, v, hid, hv, hassigned, -⟩ := exists_placed hn hplaces hshape
  simp only [loadVariable, hid, Option.bind_some, hv]
  cases hs : v.storage with
  | unassigned => exact absurd hs hassigned
  | register r => rfl
  | frame offset => cases storageType? v <;> rfl

theorem fault?_storeVariable (hn : n.WellFormed vars blocks) (hplaces : Places vars ctx.vars)
    (hshape : n.op.shape? = some .variable) (a : Register) :
    (storeVariable ctx n a).fault? = none := by
  obtain ⟨id, v, hid, hv, hassigned, -⟩ := exists_placed hn hplaces hshape
  simp only [storeVariable, hid, hv]
  cases hs : v.storage with
  | unassigned => exact absurd hs hassigned
  | register r => rfl
  | frame offset => cases storageType? v <;> rfl

theorem fault?_variableAddress (hn : n.WellFormed vars blocks) (hplaces : Places vars ctx.vars)
    (haddress : n.TakesAddress) : (variableAddress ctx n).fault? = none := by
  have hshape : n.op.shape? = some .variable := by
    rcases haddress with hop | hop <;> rw [hop] <;> rfl
  obtain ⟨id, v, hid, hv, -, hframe⟩ := exists_placed hn hplaces hshape
  obtain ⟨offset, hoffset⟩ := hframe haddress
  simp only [variableAddress, hid, Option.bind_some, hv, hoffset]
  rfl

/-- A constant that fits a word is in the operand. -/
theorem fault?_constant {c : Constant} (hn : n.Shaped blocks) (hop : n.op = .ldc c)
    (hwide : Lowering.wideConstant? n = none) : (constant c n.operand).fault? = none := by
  have hoperand := hn.operand
  unfold Lowering.wideConstant? at hwide
  rw [hop] at hoperand hwide
  cases ho : n.operand with
  | ref r => cases r <;> cases c <;> simp [ho, Op.shape?, Operand.shape, Ref.shape] at hoperand
  | _ => cases c <;> simp_all [Op.shape?, Operand.shape, constant, value, fault?]

/-! ## Operations on typed values -/

/-- Integers have a machine word or two. -/
theorem kind_of_isInteger (h : t.isInteger = true) :
    ValueKind.of t = .word ∨ ValueKind.of t = .long := by
  cases t <;> simp_all [StackType.isInteger, ValueKind.of]

theorem kind_of_bitwise (ha : a = .and ∨ a = .or ∨ a = .xor) (h : arithType? a l r = some t) :
    ValueKind.of t = .word ∨ ValueKind.of t = .long := by
  unfold arithType? at h
  split at h
  · rename_i hboth
    cases h
    apply kind_of_isInteger
    rcases ha with rfl | rfl | rfl <;> exact hboth.2
  · split at h
    · cases h
      exact .inl rfl
    · rcases ha with rfl | rfl | rfl <;> cases h

theorem fault?_arith (h : arithType? a l r = some t) (x y : Register) :
    (arith a (.of t) x y).fault? = arithFault? a (.of t) := by
  cases a with
  | and | or | xor => rcases kind_of_bitwise (by simp) h with hk | hk <;> rw [hk] <;> rfl
  | add | sub | mul | div => cases ValueKind.of t <;> rfl
  | divUn | rem | remUn => rfl

theorem fault?_conv {c : Conv} (h : convertible c t = true) (a : Register) :
    (conv c (.of t) a).fault? = convFault? c (.of t) := by
  have hkind : ValueKind.of t ≠ .struct ∧ ValueKind.of t ≠ .void := by
    cases t <;> cases c <;> simp_all [convertible, StackType.isNumeric, StackType.isInteger,
      StackType.isFloat, StackType.isReference, ValueKind.of]
  cases hk : ValueKind.of t with
  | struct => exact absurd hk hkind.1
  | void => exact absurd hk hkind.2
  | word | long | single | double => cases c <;> rfl

/-- Values that can be compared have a comparison. -/
theorem compare_ok (h : comparable l r = true) (c : Compare) (x y : Register) :
    ∃ e, compare c (ValueKind.of l) x y = .ok e := by
  have hkind : ValueKind.of l ≠ .struct ∧ ValueKind.of l ≠ .void := by
    unfold comparable at h
    cases l <;> simp_all [StackType.isNumeric, StackType.isInteger, StackType.isFloat,
      StackType.isReference, StackType.areMixedIntegers, ValueKind.of]
  cases hk : ValueKind.of l with
  | struct => exact absurd hk hkind.1
  | void => exact absurd hk hkind.2
  | word | long | single | double => exact ⟨_, rfl⟩

theorem fault?_branchCompare (c : BranchCompare) (t : StackType) (l r : Register)
    (target : Target) : (branchCompare c (.of t) l r target).fault? =
      match some (ValueKind.of t) with
      | some .struct | some .void | none => some .noComparison
      | _ => none := by
  cases ValueKind.of t <;> rfl

theorem isSome_scaleIndex? (size : Nat) (index : Register) :
    (Emit.scaleIndex? size index).isSome = true ↔ size ≤ 511 ∨ 2 ^ size.log2 = size := by
  unfold Emit.scaleIndex?
  rw [Nat.pow_eq]
  split
  · simp_all
  · split
    · simp_all
    · split
      · simp_all
      · rename_i hpower hlarge
        have hzero : size ≠ 0 := by omega
        simpa [hlarge] using fun h => hpower ⟨hzero, h⟩

theorem fault?_elementAddress (ty : Ty) (array index : Register) :
    (elementAddress ty.size array index).fault? = elementFault? ty := by
  have hscale := isSome_scaleIndex? ty.size index
  unfold elementAddress Emit.elementAddress? elementFault?
  cases hs : Emit.scaleIndex? ty.size index with
  | some e =>
    rw [hs] at hscale
    rw [if_pos (hscale.mp rfl)]
    rfl
  | none =>
    rw [hs] at hscale
    rw [if_neg fun h => nomatch hscale.mpr h]
    rfl

theorem fault?_call {declared : String → Bool} {m : Method} {kind : ValueKind}
    (hcallee : n.callee? = some m) (hcount : regs.length = m.argumentCount)
    (hdeclared : (ctx.arena.find? m.symbol).isSome = declared m.symbol) :
    (call ctx n kind regs).fault? = callFault? ctx.options declared m kind := by
  simp only [call, hcallee, callFault?, ← hdeclared]
  cases m.intrinsic with
  | some i => cases i <;> rfl
  | none =>
    cases ctx.arena.find? m.symbol with
    | none => rfl
    | some object =>
      simp only [callObject, hcount]
      split
      · rfl
      · cases kind <;> rfl

theorem fault?_result (hlen : regs.length = n.children.length) (hleft : n.left? = n.children[0]?)
    (o : Options) : (result o (leftKind n) regs).fault? =
      if (n.left?.map Node.type).map ValueKind.of = some .struct then some .returnOfStruct
      else none := by
  unfold leftKind
  rw [hleft]
  cases hc : n.children with
  | nil =>
    obtain rfl := List.length_eq_zero_iff.mp (hlen.trans (by rw [hc]; rfl))
    rfl
  | cons c cs =>
    cases regs with
    | nil => simp [hc] at hlen
    | cons a as =>
      simp only [List.getElem?_cons_zero, Option.map_some, Option.getD_some, result,
        Option.some.injEq]
      split <;> rfl

end Parts

/-! ## All operations -/

section Nodes

variable {regs : List Register} {vars : Variables} {blocks : Nat} {n : Node} {ctx : Context}
  {declared : String → Bool}

variable (hn : n.WellFormed vars blocks) (hplaces : Places vars ctx.vars)
  (hcallee : ∀ m, n.op = .call ∨ n.op = .callvirt → n.callee? = some m →
    n.children.length = m.argumentCount)
  (hlen : regs.length = n.children.length) (hwide : Lowering.wideConstant? n = none)
  (hdeclared : ∀ name, objectName? n = some name → (ctx.arena.find? name).isSome = declared name)

include hn hplaces hcallee hlen hwide hdeclared

/-- Where the names that a node refers to are known, its code has the fault that the node has. -/
theorem fault?_ofOp :
    (ofOp ctx n regs).fault? = Selection.fault? ctx.options declared n.op n.operand n.callee? n.type
      (n.left?.map Node.type) := by
  obtain ⟨old, -, ht⟩ := hn.typed
  have hs := hn.toShaped
  have hcount : ∀ {k}, n.op.pops = .fixed k → regs.length = k := fun hk => hlen.trans (hn.count _ hk)
  have hstatic : n.op = .ldsfld ∨ n.op = .ldsflda ∨ n.op = .stsfld → ∃ f, n.operand = .field f ∧
      (ctx.arena.find? f.symbol).isSome = declared f.symbol := by
    intro hop
    have hshape : n.op.shape? = some .field := by rcases hop with hop | hop | hop <;> rw [hop] <;> rfl
    obtain ⟨f, hf⟩ := hs.exists_field hshape
    refine ⟨f, hf, hdeclared _ ?_⟩
    rcases hop with hop | hop | hop <;> simp [objectName?, hop, hf]
  unfold ofOp Selection.fault?
  cases hop : n.op with
  | nop | pop | breakpoint | ldnull => rfl
  | ldarg | ldloc => exact fault?_loadVariable hn hplaces (by rw [hop]; rfl)
  | starg | stloc =>
    exact fault?_unary (hcount (by rw [hop]; rfl))
      (fault?_storeVariable hn hplaces (by rw [hop]; rfl))
  | ldarga => exact fault?_variableAddress hn hplaces (.inr hop)
  | ldloca => exact fault?_variableAddress hn hplaces (.inl hop)
  | ldc c => exact fault?_constant hs hop hwide
  | arith a =>
    obtain ⟨l, r, hlr⟩ := typeOf_arith hop ht
    exact fault?_binary (hcount (by rw [hop]; rfl)) (fault?_arith hlr)
  | shift s =>
    refine fault?_binary (hcount (by rw [hop]; rfl)) fun a count => ?_
    cases s <;> cases ValueKind.of n.type <;> rfl
  | neg =>
    refine fault?_unary (hcount (by rw [hop]; rfl)) fun a => ?_
    cases ValueKind.of n.type <;> rfl
  | not =>
    refine fault?_unary (hcount (by rw [hop]; rfl)) fun a => ?_
    rcases kind_of_isInteger (typeOf_not hop ht) with hk | hk <;> rw [hk] <;> rfl
  | conv c =>
    obtain ⟨l, hl, hconv⟩ := typeOf_conv hop ht
    simp only [leftKind, hl, Option.map_some, Option.getD_some]
    exact fault?_unary (hcount (by rw [hop]; rfl)) (fault?_conv hconv)
  | compare c =>
    obtain ⟨l, r, hl, hcompare⟩ := typeOf_compare hop ht
    simp only [leftKind, hl, Option.map_some, Option.getD_some]
    refine fault?_binary (hcount (by rw [hop]; rfl)) fun x y => ?_
    obtain ⟨e, he⟩ := compare_ok hcompare c x y
    rw [he]
    rfl
  | br => exact fault?_withTarget hs (by rw [hop]; rfl) fun _ => rfl
  | brtrue | brfalse =>
    exact fault?_withTarget hs (by rw [hop]; rfl) fun _ =>
      fault?_unary (hcount (by rw [hop]; rfl)) fun _ => rfl
  | branchCompare c =>
    have htwo : n.children.length = 2 := hn.count 2 (by rw [hop]; rfl)
    obtain ⟨l, r, hlr⟩ := List.length_eq_two.mp htwo
    have hl : n.left? = some l := by rw [hs.left, hlr]; rfl
    simp only [leftKind, hl, Option.map_some, Option.getD_some]
    exact fault?_withTarget hs (by rw [hop]; rfl) fun target =>
      fault?_binary (hcount (by rw [hop]; rfl)) fun x y => fault?_branchCompare c _ x y target
  | ret => exact fault?_result hlen hs.left _
  | call | callvirt =>
    obtain ⟨m, hm⟩ := Option.isSome_iff_exists.mp (hs.callee (by rw [hop]; rfl))
    rw [hm, Option.bind_some]
    refine fault?_call hm (hlen.trans (hcallee m (by simp [hop]) hm)) (hdeclared _ ?_)
    simp [objectName?, hop, hm]
  | newobj | newarr | ldstr | throw => rfl
  | ldlen | ldind _ => exact fault?_unary (hcount (by rw [hop]; rfl)) fun _ => rfl
  | stind _ => exact fault?_binary (hcount (by rw [hop]; rfl)) fun _ _ => rfl
  | ldelema =>
    obtain ⟨ty, hty⟩ := hs.exists_type (by rw [hop]; rfl)
    rw [hty]
    exact fault?_withType hty (fault?_binary (hcount (by rw [hop]; rfl)) (fault?_elementAddress ty))
  | ldobj | initobj =>
    obtain ⟨ty, hty⟩ := hs.exists_type (by rw [hop]; rfl)
    exact fault?_withType hty (fault?_unary (hcount (by rw [hop]; rfl)) fun _ => rfl)
  | stobj =>
    obtain ⟨ty, hty⟩ := hs.exists_type (by rw [hop]; rfl)
    exact fault?_withType hty (fault?_binary (hcount (by rw [hop]; rfl)) fun _ _ => rfl)
  | sizeof =>
    obtain ⟨ty, hty⟩ := hs.exists_type (by rw [hop]; rfl)
    exact fault?_withType hty rfl
  | ldfld | ldflda =>
    obtain ⟨f, hf⟩ := hs.exists_field (by rw [hop]; rfl)
    exact fault?_withField hf (fault?_unary (hcount (by rw [hop]; rfl)) fun _ => rfl)
  | stfld =>
    obtain ⟨f, hf⟩ := hs.exists_field (by rw [hop]; rfl)
    exact fault?_withField hf (fault?_binary (hcount (by rw [hop]; rfl)) fun _ _ => rfl)
  | ldsfld =>
    obtain ⟨f, hf, hsome⟩ := hstatic (by simp [hop])
    rw [hf]
    refine fault?_withStatic hf hsome fun object => ?_
    unfold loadStatic
    split <;> rfl
  | ldsflda =>
    obtain ⟨f, hf, hsome⟩ := hstatic (by simp [hop])
    rw [hf]
    exact fault?_withStatic hf hsome fun object => rfl
  | stsfld =>
    obtain ⟨f, hf, hsome⟩ := hstatic (by simp [hop])
    rw [hf]
    refine fault?_withStatic hf hsome fun object => ?_
    refine fault?_unary (hcount (by rw [hop]; rfl)) fun a => ?_
    unfold storeStatic
    split <;> rfl
  | switch =>
    have hoperand := hs.operand
    rw [hop] at hoperand
    cases hoperand
  | dup | ldelem _ | ldelemAny | stelem _ | stelemAny | box | unboxAny | castclass | isinst
  | ldtoken | convOvf | convOvfUn | leave =>
    -- the typing rules refuse these
    simp only [typeOf, hop] at ht
    cases ht

theorem fault?_of :
    (of ctx n regs).fault? = Selection.fault? ctx.options declared n.op n.operand n.callee? n.type
      (n.left?.map Node.type) := by
  have hop := fault?_ofOp hn hplaces hcallee hlen hwide hdeclared
  unfold of
  split
  · rename_i k hk
    rw [if_pos ((hlen.trans (hn.count k hk)).symm)]
    exact hop
  · exact hop

end Nodes

end Code

namespace Lowering

/-- A wide constant has no children, so it always has an object of its own. -/
theorem lowerNode_eq {L : Lowering} {vars : Variables} {blocks : Nat} {n : Node}
    {regs : List Register} (hn : n.WellFormed vars blocks)
    (hlen : regs.length = n.children.length) : L.lowerNode n regs =
      match wideConstant? n with
      | some bits => L.loadWide n bits
      | none => (do
        match Code.of ⟨L.options, L.vars, (← get).arena⟩ n regs with
        | .ok code => emit code
        | .error fault => report n fault) := by
  unfold lowerNode
  cases hwide : wideConstant? n with
  | none => rfl
  | some bits =>
    obtain ⟨c, hop⟩ := wideConstant?_op hwide
    have hregs : regs = [] :=
      List.length_eq_zero_iff.mp (hlen.trans (hn.count 0 (by rw [hop]; rfl)))
    subst hregs
    rfl

end Lowering

end SpuCompiler.Selection
