import SpuCompiler.Proofs.Bytecode.Instructions

/-!
Kinds of operands by operation. All rows of the opcode table with one operation agree on the kind
of operand that they give, so a record has the operand that its operation needs, whichever form it
was encoded in.
-/

namespace SpuCompiler

/-- Kinds of operands. A reference is to a variable or to a place in the code. -/
inductive Shape where
  | none | int32 | int64 | float32 | float64 | field | method | type | string | variable | target
  deriving DecidableEq

def Operand.shape {ρ : Type} (ref : ρ → Shape) : Operand ρ → Shape
  | .none => .none
  | .int32 _ => .int32
  | .int64 _ => .int64
  | .float32 _ => .float32
  | .float64 _ => .float64
  | .field _ => .field
  | .method _ => .method
  | .type _ => .type
  | .string _ => .string
  | .ref p => ref p

namespace Bytecode

variable {o : Opcode} {op : Op} {s : Scope} {x : Operand Place}

def Place.shape : Place → Shape
  | .target _ => .target
  | _ => .variable

/-- The kind of operand that an operation needs. The table of a switch is never read. -/
def Op.shape? : Op → Option Shape
  | .ldarg | .ldarga | .starg | .ldloc | .ldloca | .stloc => some .variable
  | .ldc .i4 => some .int32
  | .ldc .i8 => some .int64
  | .ldc .r4 => some .float32
  | .ldc .r8 => some .float64
  | .call | .callvirt | .newobj => some .method
  | .br | .brfalse | .brtrue | .branchCompare _ | .leave => some .target
  | .switch => none
  | .ldobj | .stobj | .newarr | .ldelema | .ldelemAny | .stelemAny | .initobj | .sizeof | .box
  | .unboxAny | .castclass | .isinst | .ldtoken => some .type
  | .ldstr => some .string
  | .ldfld | .ldflda | .stfld | .ldsfld | .ldsflda | .stsfld => some .field
  | _ => some .none

def Opcode.shape? (o : Opcode) : Option Shape :=
  match o.operand with
  | .none =>
    match o.implied with
    | .none => some .none
    | .int _ => some .int32
    | .index _ => some .variable
  | .shortVar | .var => some .variable
  | .shortI | .i => some .int32
  | .i8 => some .int64
  | .r4 => some .float32
  | .r => some .float64
  | .shortTarget | .target => some .target
  | .field => some .field
  | .method => some .method
  | .type => some .type
  | .string => some .string
  | .switch => none

theorem Opcode.shape?_of_mem (hmem : o ∈ table) (hop : o.op = some op) : o.shape? = op.shape? := by
  have hall : table.all (fun o => o.op.all fun op => o.shape? = op.shape?) = true := by decide
  have := List.all_eq_true.mp hall o hmem
  simpa [hop] using this

theorem Scope.shape_variableAt {name : String} {index : Nat}
    (h : s.variableAt name op index = .ok x) : x.shape Place.shape = .variable := by
  rcases variableAt_ok h with ⟨rfl, -⟩ | ⟨rfl, -⟩ <;> rfl

theorem Scope.shape_operand {stop value : Nat} (h : s.operand o op stop value = .ok x) :
    o.shape? = some (x.shape Place.shape) := by
  unfold operand at h
  unfold Opcode.shape?
  cases hk : o.operand with
  | none =>
    cases hi : o.implied with
    | none | int v =>
      simp only [hk, hi, Except.ok.injEq] at h
      rw [← h]
      rfl
    | index n =>
      simp only [hk, hi] at h
      simp [shape_variableAt h]
  | shortVar | var =>
    simp only [hk] at h
    simp [shape_variableAt h]
  | shortI | i | i8 | r4 | r =>
    simp only [hk, Except.ok.injEq] at h
    rw [← h]
    rfl
  | shortTarget | target =>
    simp only [hk] at h
    obtain ⟨t, -, rfl⟩ := target_ok h
    rfl
  | field | method | type | string =>
    simp only [hk] at h
    obtain ⟨y, rfl⟩ := resolve_ok h
    rfl
  | switch => simp [hk] at h

/-- The record has the operand that its operation needs. -/
def Record.Shaped (r : Record) : Prop := r.op.shape? = some (r.operand.shape Place.shape)

theorem Scope.Accepts.shaped {r : Record} (h : s.Accepts r) : r.Shaped := by
  obtain ⟨o, hmem, hop, value, hv⟩ := h.row
  exact (Opcode.shape?_of_mem hmem hop).symm.trans (shape_operand hv)

theorem shaped_openAll {is : List Record} (h : ∀ r ∈ is, r.Shaped) (t : Nat) :
    ∀ r ∈ openAll t is, r.Shaped := by
  intro r hr
  rcases mem_openAll hr with ⟨hr, -⟩ | ⟨q, -, i, hr⟩
  · exact h r hr
  · simp only [Record.openDup, List.mem_cons, List.not_mem_nil, or_false] at hr
    rcases hr with rfl | rfl | rfl <;> rfl

/-- Whatever is read has the operands that its operations need. -/
theorem Reader.shaped_readAll {m : Metadata.Method} {body : Metadata.Body}
    {resolver : Metadata.Resolver} {records : List Record}
    (h : (Reader.of m body resolver).readAll = .ok records) : ∀ r ∈ records, r.Shaped := by
  obtain ⟨is, hdecodes, -, rfl⟩ := (Reader.readAll_eq_ok_iff m body resolver records).mp h
  exact shaped_openAll (fun r hr => (hdecodes.accepts r hr).shaped) 0

end Bytecode

end SpuCompiler
