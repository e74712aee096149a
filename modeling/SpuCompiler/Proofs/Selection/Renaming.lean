import SpuCompiler.Proofs.Selection.NodeCode

/-!
Code in two arenas. What a node of a tree becomes depends on the numbers of objects only in the
targets of its instructions. So where the objects have the same names in two arenas, the code of a
node is the same in both, with names in the place of numbers.
-/

namespace SpuCompiler.Selection

open Machine Metadata Bytecode Trees Objects

variable {names names' : ObjectId → Option String}

namespace Emit

instance loadImmediate_steady (value : Int) : Steady (loadImmediate value) := by
  have h : Composed False [] (loadImmediate value) ([·]) := loadImmediate_composed value
  exact h.steady

instance addImmediate_steady (base : Register) (value : Int) :
    Steady (addImmediate base value) := by
  have h : Composed False [base] (addImmediate base value) ([·]) := addImmediate_composed value
  exact h.steady

instance loadMemory_steady (base : Register) (offset : Int) (ty : Ty) :
    Steady (loadMemory base offset ty) := by
  have h : Composed False [base] (loadMemory base offset ty) ([·]) := loadMemory_composed offset ty
  exact h.steady

instance storeMemory_steady (base : Register) (offset : Int) (value : Register) (ty : Ty) :
    Steady (storeMemory base offset value ty) := by
  have h : Composed False [base, value] (storeMemory base offset value ty) fun _ => [] :=
    storeMemory_composed offset False.elim
  exact h.steady

theorem compare?_steady {kind : ValueKind} {c : Comparison} {l r : Register} {e : Emit Register}
    (h : compare? kind c l r = some e) : Steady e := by
  have hcomposed : Composed False [l, r] e ([·]) := compare?_composed h
  exact hcomposed.steady

end Emit

namespace Frame

instance adjustStack_steady (delta : Int) : Steady (adjustStack delta) := by
  unfold adjustStack
  infer_instance

instance storeArgument_steady (v : Variable) (incoming : Register) :
    Steady (storeArgument v incoming) := by
  unfold storeArgument
  split <;> infer_instance

instance storeArguments_steady (o : Options) (vars : Variables) (slot : Nat) (ids : List Nat) :
    Steady (storeArguments o vars slot ids) := by
  induction ids generalizing slot with
  | nil => exact .pure ()
  | cons id ids ih =>
    unfold storeArguments
    split <;> infer_instance

instance prologue_steady (o : Options) (f : Frame) (arguments : List Nat) :
    Steady (f.prologue o arguments) := by
  unfold prologue
  infer_instance

instance epilogue_steady (f : Frame) : Steady f.epilogue := by
  unfold epilogue
  infer_instance

end Frame

/-! ## Code of nodes -/

/-- Where there is code, it refers to no object. -/
class SteadyCode (c : Code) : Prop where
  steady : ∀ e, c = .ok e → Steady e

namespace SteadyCode

variable {n : Node}

instance error (fault : Fault) : SteadyCode (.error fault) := ⟨nofun⟩

instance nothing : SteadyCode Code.nothing := by
  constructor
  rintro _ ⟨⟩
  exact .pure none

instance value {e : Emit Register} [Steady e] : SteadyCode (Code.value e) := by
  constructor
  rintro _ ⟨⟩
  exact .step ‹_› fun r => .pure (some r)

instance effect {e : Emit Unit} [Steady e] : SteadyCode (Code.effect e) := by
  constructor
  rintro _ ⟨⟩
  exact .step ‹_› fun _ => .pure none

instance ite {c : Prop} [Decidable c] {d d' : Code} [SteadyCode d] [SteadyCode d'] :
    SteadyCode (if c then d else d') := by
  split <;> infer_instance

instance unary {regs : List Register} {f : Register → Code} [∀ a, SteadyCode (f a)] :
    SteadyCode (Code.unary regs f) := by
  unfold Code.unary
  split <;> infer_instance

instance binary {regs : List Register} {f : Register → Register → Code}
    [∀ a b, SteadyCode (f a b)] : SteadyCode (Code.binary regs f) := by
  unfold Code.binary
  split <;> infer_instance

instance withTarget {f : Target → Code} [∀ b, SteadyCode (f (.block b))] :
    SteadyCode (Code.withTarget n f) := by
  unfold Code.withTarget
  split <;> infer_instance

end SteadyCode

theorem CodeComposed.steady {known : List Register} {value : Prop} {c : Code}
    (h : CodeComposed False known value c) : SteadyCode c := by
  cases h with
  | error fault => infer_instance
  | value h => exact @SteadyCode.value _ h.steady
  | effect _ h => exact @SteadyCode.effect _ h.steady
  | nothing => infer_instance

namespace Code

instance branch_steady (op : Machine.Opcode) (condition : Option Register) (b : Nat) :
    Steady (branch op condition (.block b)) := .instr nofun

instance branchIf_steady (op : Machine.Opcode) (kind : ValueKind) (a : Register) (b : Nat) :
    SteadyCode (branchIf op kind a (.block b)) := by
  unfold branchIf
  infer_instance

instance branchCompare_steady (c : BranchCompare) (kind : ValueKind) (l r : Register) (b : Nat) :
    SteadyCode (branchCompare c kind l r (.block b)) := by
  unfold branchCompare
  dsimp only
  split
  · infer_instance
  · have := Emit.compare?_steady ‹_›
    infer_instance

instance loadVariable_steady (ctx : Context) (n : Node) : SteadyCode (loadVariable ctx n) := by
  unfold loadVariable
  split
  · infer_instance
  · split
    · infer_instance
    · split <;> infer_instance
    · infer_instance

instance storeVariable_steady (ctx : Context) (n : Node) (a : Register) :
    SteadyCode (storeVariable ctx n a) := by
  unfold storeVariable
  split
  · infer_instance
  · split
    · infer_instance
    · split
      · infer_instance
      · split <;> infer_instance
      · infer_instance

instance variableAddress_steady (ctx : Context) (n : Node) :
    SteadyCode (variableAddress ctx n) := by
  unfold variableAddress
  split
  · infer_instance
  · split <;> infer_instance

instance intrinsic_steady (i : Intrinsic) (regs : List Register) :
    SteadyCode (intrinsic i regs) := by
  unfold intrinsic
  cases i <;> dsimp only <;> infer_instance

instance passArguments_steady (register : Nat) (regs : List Register) :
    Steady (passArguments register regs) := by
  induction regs generalizing register with
  | nil => exact .pure ()
  | cons r rs ih =>
    unfold passArguments
    infer_instance

instance result_steady (o : Options) (kind : ValueKind) (regs : List Register) :
    SteadyCode (result o kind regs) := by
  unfold result
  split <;> infer_instance

/-- Operations that refer to no object have the same code whatever the names are. -/
theorem ofOp_steady {ctx : Context} {n : Node} {regs : List Register} (hstatic : ¬ IsStaticAccess n)
    (hcall : ¬ (n.op = .call ∨ n.op = .callvirt)) : SteadyCode (ofOp ctx n regs) := by
  by_cases hcomposed : IsComposed n
  · have hcode : CodeComposed False regs False (ofOp ctx n regs) :=
      ofOp_composed (fun _ hr => .inr hr) False.elim (by simp) hcomposed
    exact hcode.steady
  · unfold ofOp
    cases hop : n.op with
    | ldarg | ldloc | starg | stloc | ldarga | ldloca | br | brtrue | brfalse | branchCompare c
    | switch | leave | ret | newobj => infer_instance
    | ldsfld | ldsflda | stsfld => simp [IsStaticAccess, hop] at hstatic
    | call | callvirt => simp [hop] at hcall
    | ldc c =>
      refine absurd ⟨?_, ?_, ?_, ?_, hstatic⟩ hcomposed <;> cases c <;>
        simp [hop, Op.shape?, Op.isBranch, Op.flow]
    | _ =>
      refine absurd ⟨?_, ?_, ?_, ?_, hstatic⟩ hcomposed <;>
        simp [hop, Op.shape?, Op.isBranch, Op.flow]

end Code

/-- Where there is code on both sides, it does the same, with names in the place of numbers. -/
def CodeAlike (names names' : ObjectId → Option String) (c c' : Code) : Prop :=
  ∀ e e', c = .ok e → c' = .ok e' → Alike names names' e e'

theorem SteadyCode.alike {c : Code} (h : SteadyCode c) : CodeAlike names names' c c := by
  rintro e _ he he'
  obtain rfl := Except.ok.inj (he.symm.trans he')
  exact (h.steady e he).alike names names'

namespace CodeAlike

theorem value {e e' : Emit Register} (h : Alike names names' e e') :
    CodeAlike names names' (Code.value e) (Code.value e') := by
  rintro _ _ ⟨⟩ ⟨⟩
  exact h.bind fun r => .pure (some r)

theorem effect {e e' : Emit Unit} (h : Alike names names' e e') :
    CodeAlike names names' (Code.effect e) (Code.effect e') := by
  rintro _ _ ⟨⟩ ⟨⟩
  exact h.bind fun _ => .pure none

theorem unary {regs : List Register} {f f' : Register → Code}
    (h : ∀ a, CodeAlike names names' (f a) (f' a)) :
    CodeAlike names names' (Code.unary regs f) (Code.unary regs f') := by
  unfold Code.unary
  split
  · exact h _
  · exact SteadyCode.alike inferInstance

end CodeAlike

/-! ## Code with objects -/

section Objects

variable {id id' : ObjectId} (h : names id = names' id')

include h

theorem Emit.targeted_alike (op : Machine.Opcode) :
    Alike names names' (targeted op (.object id)) (targeted op (.object id')) := by
  refine Alike.fresh.bind fun rt => Alike.bind (.instr ?_) fun _ => .pure rt
  simp [nameInstr, nameTarget, Instr.withTarget, h]

theorem Emit.loadObject_alike (ty : Ty) :
    Alike names names' (loadObject (.object id) ty) (loadObject (.object id') ty) := by
  obtain ⟨f, hf, hcomposed⟩ := exists_loadObject ty
  rw [hf, hf]
  exact (targeted_alike h .lqr).bind fun quadword =>
    (hcomposed False [quadword] quadword).steady.alike names names'

theorem Emit.storeObject_alike (value : Register) (ty : Ty) :
    Alike names names' (storeObject (.object id) value ty) (storeObject (.object id') value ty) := by
  refine (targeted_alike h .lqr).bind fun quadword => ?_
  refine Alike.bind (Steady.alike _ _) fun mask => Alike.bind (Steady.alike _ _) fun merged => ?_
  exact .instr (by simp [nameInstr, nameTarget, Instr.withTarget, h])

theorem Code.loadStatic_alike (ty : Ty) :
    CodeAlike names names' (loadStatic (.object id) ty) (loadStatic (.object id') ty) := by
  unfold loadStatic
  split
  · exact .value (Emit.targeted_alike h .ila)
  · exact .value (Emit.loadObject_alike h ty)

theorem Code.storeStatic_alike (ty : Ty) (a : Register) :
    CodeAlike names names' (storeStatic (.object id) ty a) (storeStatic (.object id') ty a) := by
  unfold storeStatic
  split
  · exact .effect ((Emit.targeted_alike h .ila).bind fun address => Steady.alike _ _)
  · exact .effect (Emit.storeObject_alike h a ty)

theorem Code.callObject_alike (o : Options) (kind : ValueKind) (regs : List Register) :
    CodeAlike names names' (callObject o kind id regs) (callObject o kind id' regs) := by
  have hjump : Alike names names'
      (do passArguments o.firstArgumentRegister regs
          Emit.instr (.withTarget .brsl (some .lr) (.object id)))
      (do passArguments o.firstArgumentRegister regs
          Emit.instr (.withTarget .brsl (some .lr) (.object id'))) := by
    refine Alike.bind (Steady.alike _ _) fun _ => .instr ?_
    simp [nameInstr, nameTarget, Instr.withTarget, h]
  unfold callObject
  dsimp only
  split
  · exact SteadyCode.alike inferInstance
  · split
    · exact .effect hjump
    · exact SteadyCode.alike inferInstance
    · exact .value (hjump.bind fun _ => Steady.alike _ _)

end Objects

def SameNames (names names' : ObjectId → Option String) (a a' : Arena) : Prop :=
  ∀ name id id', a.find? name = some id → a'.find? name = some id' → names id = names' id'

namespace Code

variable {o : Options} {vars : Variables} {a a' : Arena} (h : SameNames names names' a a')

include h

theorem withStatic_alike (n : Node) {f : Target → Ty → Code}
    (hf : ∀ id id' ty, names id = names' id' →
      CodeAlike names names' (f (.object id) ty) (f (.object id') ty)) :
    CodeAlike names names' (withStatic ⟨o, vars, a⟩ n f) (withStatic ⟨o, vars, a'⟩ n f) := by
  unfold withStatic withField
  split
  · rename_i field _
    dsimp only
    cases hfind : a.find? field.symbol with
    | none => exact nofun
    | some id =>
      cases hfind' : a'.find? field.symbol with
      | none => exact fun _ _ _ he' => nomatch he'
      | some id' => exact hf id id' field.ty (h field.symbol id id' hfind hfind')
  · exact SteadyCode.alike inferInstance

theorem call_alike (n : Node) (kind : ValueKind) (regs : List Register) :
    CodeAlike names names' (call ⟨o, vars, a⟩ n kind regs) (call ⟨o, vars, a'⟩ n kind regs) := by
  unfold call
  split
  · exact SteadyCode.alike inferInstance
  · rename_i m _
    dsimp only
    split
    · exact SteadyCode.alike inferInstance
    · cases hfind : a.find? m.symbol with
      | none => exact fun _ _ he => nomatch he
      | some id =>
        cases hfind' : a'.find? m.symbol with
        | none => exact fun _ _ _ he' => nomatch he'
        | some id' => exact callObject_alike (h m.symbol id id' hfind hfind') o kind regs

theorem ofOp_alike (n : Node) (regs : List Register) :
    CodeAlike names names' (ofOp ⟨o, vars, a⟩ n regs) (ofOp ⟨o, vars, a'⟩ n regs) := by
  by_cases hcall : n.op = .call ∨ n.op = .callvirt
  · unfold ofOp
    rcases hcall with hop | hop <;> simp only [hop] <;> exact call_alike h n _ regs
  by_cases hstatic : IsStaticAccess n
  · unfold ofOp
    rcases hstatic with hop | hop | hop <;> simp only [hop]
    · exact withStatic_alike h n fun id id' ty hid => loadStatic_alike hid ty
    · exact withStatic_alike h n fun id id' ty hid => .value (Emit.targeted_alike hid .ila)
    · exact withStatic_alike h n fun id id' ty hid => .unary fun a => storeStatic_alike hid ty a
  · have hsame : ofOp ⟨o, vars, a'⟩ n regs = ofOp ⟨o, vars, a⟩ n regs := by
      unfold ofOp
      cases hop : n.op <;> first | rfl | simp_all [IsStaticAccess]
    rw [hsame]
    exact (ofOp_steady hstatic hcall).alike

theorem of_alike (n : Node) (regs : List Register) :
    CodeAlike names names' (Code.of ⟨o, vars, a⟩ n regs) (Code.of ⟨o, vars, a'⟩ n regs) := by
  unfold Code.of
  split
  · split
    · exact ofOp_alike h n regs
    · exact SteadyCode.alike inferInstance
  · exact ofOp_alike h n regs

end Code

end SpuCompiler.Selection
