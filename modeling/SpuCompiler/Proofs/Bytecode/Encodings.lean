import SpuCompiler.Proofs.Bytecode.Operands

/-!
Encodings of instructions. An instruction has an operation and an immediate, and a branch names the
number of the instruction that it goes to. An encoding chooses a form for each instruction: a row of
the opcode table with the same operation, and operand bytes that say the same. Whatever forms are
chosen, the code is read as the instructions of the list, moved from their numbers to the offsets
of their forms, or not at all.
-/

namespace SpuCompiler

def Operand.map {ρ σ : Type} (f : ρ → σ) : Operand ρ → Operand σ
  | .none => .none
  | .int32 v => .int32 v
  | .int64 v => .int64 v
  | .float32 b => .float32 b
  | .float64 b => .float64 b
  | .field x => .field x
  | .method m => .method m
  | .type t => .type t
  | .string s => .string s
  | .ref p => .ref (f p)

namespace Bytecode

open Metadata

variable {φ : Nat → Nat}
variable {r r' : Record} {rs rs' : List Record} {s : Scope} {k k' : Nat}

/-! ## Moved instructions -/

def Place.relocate (φ : Nat → Nat) : Place → Place
  | .target t => .target (φ t)
  | p => p

/-- The same instruction in moved code. Its form and its name may be others. -/
structure Record.Moved (φ : Nat → Nat) (r r' : Record) : Prop where
  op : r'.op = r.op
  operand : r'.operand = r.operand.map (Place.relocate φ)
  offset : r'.offset = φ r.offset
  stop : r'.stop = φ r.stop
  size : 0 < r'.size ↔ 0 < r.size

theorem Record.Moved.target? (h : r.Moved φ r') : r'.target? = r.target?.map φ := by
  unfold Record.target?
  rw [h.operand]
  cases r.operand with
  | ref p => cases p <;> rfl
  | _ => rfl

theorem Record.Moved.opened (h : r.Moved φ r') (t : Nat) :
    List.Forall₂ (Record.Moved φ) (r.opened t) (r'.opened t) := by
  have hpart : ∀ op, Record.Moved φ ⟨op, .ref (.temporary t), r.offset, 0, r.name⟩
      ⟨op, .ref (.temporary t), r'.offset, 0, r'.name⟩ :=
    fun op => ⟨rfl, rfl, h.offset, h.offset, Iff.rfl⟩
  unfold Record.opened
  rw [h.op]
  split
  · exact .cons (hpart _) (.cons (hpart _) (.cons ⟨rfl, rfl, h.offset, h.stop, h.size⟩ .nil))
  · exact .cons h .nil

theorem Record.Moved.nextTemporary (h : r.Moved φ r') (t : Nat) :
    r'.nextTemporary t = r.nextTemporary t := by
  unfold Record.nextTemporary
  rw [h.op]

theorem openAll_moved (h : List.Forall₂ (Record.Moved φ) rs rs') (t : Nat) :
    List.Forall₂ (Record.Moved φ) (openAll t rs) (openAll t rs') := by
  induction h generalizing t with
  | nil => exact .nil
  | cons hr _ ih =>
    rw [openAll, openAll, hr.nextTemporary]
    exact List.rel_append (hr.opened t) (ih _)

theorem nextTemporaryAll_moved (h : List.Forall₂ (Record.Moved φ) rs rs') (t : Nat) :
    nextTemporaryAll t rs' = nextTemporaryAll t rs := by
  induction h generalizing t with
  | nil => rfl
  | cons hr _ ih => rw [nextTemporaryAll, nextTemporaryAll, hr.nextTemporary, ih]

/-! ## Immediates -/

/-- What an instruction says besides its operation. The table of a switch is never looked at. -/
inductive Immediate (π : Type) where
  | none
  | int32 (value : BitVec 32)
  | int64 (value : BitVec 64)
  | float32 (bits : BitVec 32)
  | float64 (bits : BitVec 64)
  /-- The index of a variable. -/
  | index (index : Nat)
  | token (kind : OperandKind) (token : Nat)
  /-- A place in the code. -/
  | target (place : π)
  | table
  deriving DecidableEq

def Immediate.map {π ρ : Type} (f : π → ρ) : Immediate π → Immediate ρ
  | .none => .none
  | .int32 v => .int32 v
  | .int64 v => .int64 v
  | .float32 b => .float32 b
  | .float64 b => .float64 b
  | .index i => .index i
  | .token kind t => .token kind t
  | .target p => .target (f p)
  | .table => .table

/-- What an opcode with the number `value` in its operand bytes says, where the instruction ends
at `stop`. -/
def Opcode.immediate (o : Opcode) (stop value : Nat) : Immediate Int :=
  match o.operand with
  | .none =>
    match o.implied with
    | .none => .none
    | .int v => .int32 (BitVec.ofInt 32 v)
    | .index n => .index n
  | .shortVar | .var => .index value
  | .shortI => .int32 ((BitVec.ofNat 8 value).signExtend 32)
  | .i => .int32 (BitVec.ofNat 32 value)
  | .i8 => .int64 (BitVec.ofNat 64 value)
  | .r4 => .float32 (BitVec.ofNat 32 value)
  | .r => .float64 (BitVec.ofNat 64 value)
  | .shortTarget => .target (stop + (BitVec.ofNat 8 value).toInt)
  | .target => .target (stop + (BitVec.ofNat 32 value).toInt)
  | .field | .method | .type | .string => .token o.operand value
  | .switch => .table

namespace Scope

def entity? (s : Scope) (kind : OperandKind) (token : Nat) : Option (Operand Place) :=
  match kind with
  | .field => (s.resolver.field token).map .field
  | .method => (s.resolver.method token).map .method
  | .type => (s.resolver.type token).map .type
  | .string => (s.resolver.string token).map .string
  | _ => none

def operand? (s : Scope) (op : Op) : Immediate Int → Option (Operand Place)
  | .none => some .none
  | .int32 v => some (.int32 v)
  | .int64 v => some (.int64 v)
  | .float32 b => some (.float32 b)
  | .float64 b => some (.float64 b)
  | .index i => s.slot? op i
  | .token kind t => s.entity? kind t
  | .target p => s.target? p
  | .table => none

/-- An operand is accepted by what the opcode says, not by how. -/
theorem toOption_operand (s : Scope) (o : Opcode) (op : Op) (stop value : Nat) :
    (s.operand o op stop value).toOption = s.operand? op (o.immediate stop value) := by
  unfold operand Opcode.immediate
  cases o.operand with
  | none =>
    cases o.implied with
    | index n => exact toOption_variableAt ..
    | _ => rfl
  | shortVar | var => exact toOption_variableAt ..
  | shortTarget | target => exact toOption_target ..
  | field | method | type | string => exact toOption_resolve ..
  | _ => rfl

def relocate (φ : Nat → Nat) (s : Scope) : Scope := { s with length := φ s.length }

theorem target?_relocate (hφ : StrictMono φ) (s : Scope) (k : Nat) :
    (s.relocate φ).target? (φ k) = (s.target? k).map (Operand.map (Place.relocate φ)) := by
  have hlt : ((φ k : Int) < (s.relocate φ).length) ↔ (k : Int) < s.length := by
    rw [Nat.cast_lt, Nat.cast_lt]
    exact hφ.lt_iff_lt
  simp only [target?, Nat.cast_nonneg, true_and, hlt, Int.toNat_natCast]
  split <;> rfl

theorem slot?_relocate (s : Scope) (op : Op) (i : Int) :
    (s.relocate φ).slot? op i = (s.slot? op i).map (Operand.map (Place.relocate φ)) := by
  unfold slot? relocate
  split <;> split <;> rfl

theorem entity?_relocate (s : Scope) (kind : OperandKind) (t : Nat) :
    (s.relocate φ).entity? kind t =
      (s.entity? kind t).map (Operand.map (Place.relocate φ)) := by
  unfold entity? relocate
  split <;> simp [Function.comp_def, Operand.map]

/-- Moved code means the same, moved. -/
theorem operand?_relocate (hφ : StrictMono φ) (s : Scope) (op : Op) (v : Immediate Nat) :
    (s.relocate φ).operand? op (v.map fun k => (φ k : Int)) =
      (s.operand? op (v.map fun k : Nat => (k : Int))).map (Operand.map (Place.relocate φ)) := by
  cases v with
  | index i => exact slot?_relocate s op i
  | token kind t => exact entity?_relocate s kind t
  | target k => exact target?_relocate hφ s k
  | _ => rfl

end Scope

/-! ## Instructions and forms -/

/-- An instruction without its form. A modifier has no operation; a branch has the number of the
instruction that it goes to. -/
structure Instruction where
  op : Option Op
  immediate : Immediate Nat
  deriving DecidableEq

variable {i : Instruction} {is : List Instruction}

/-- The instruction with number `k`, where every instruction has size one. -/
def Instruction.record? (s : Scope) (k : Nat) (i : Instruction) : Option Record := do
  let op ← i.op
  let operand ← s.operand? op (i.immediate.map fun k : Nat => (k : Int))
  return ⟨op, operand, k, 1, ""⟩

theorem Instruction.record?_eq_some :
    i.record? s k = some r ↔ ∃ op x, i.op = some op ∧
      s.operand? op (i.immediate.map fun k : Nat => (k : Int)) = some x ∧
      ⟨op, x, k, 1, ""⟩ = r := by
  simp [record?, Option.bind_eq_some_iff]

def records? (s : Scope) : Nat → List Instruction → Option (List Record)
  | _, [] => some []
  | k, i :: is => do
    let r ← i.record? s k
    let rs ← records? s (k + 1) is
    return r :: rs

theorem records?_cons : records? s k (i :: is) = some rs ↔ ∃ r rest, i.record? s k = some r ∧
      records? s (k + 1) is = some rest ∧ r :: rest = rs := by
  simp [records?, Option.bind_eq_some_iff]

/-- The bytes of an instruction: an opcode and what stands behind it. -/
structure Form where
  opcode : Opcode
  operandBytes : List UInt8
  deriving DecidableEq

variable {fs : List Form} {f : Form}

namespace Form

def bytes (f : Form) : List UInt8 := f.opcode.selector ++ f.operandBytes

def size (f : Form) : Nat := f.opcode.selectorLength + f.operandBytes.length

theorem length_bytes (f : Form) : f.bytes.length = f.size := by
  rw [bytes, List.length_append, f.opcode.length_selector, size]

theorem size_pos (f : Form) : 0 < f.size := by
  have hselector : 0 < f.opcode.selectorLength := by
    unfold Opcode.selectorLength
    split <;> decide
  unfold size
  omega

/-- A form that ends at `stop` says what an instruction does, where `φ` gives the offsets of the
instructions. The table of a switch may have any size. -/
structure Fits (f : Form) (φ : Nat → Nat) (stop : Nat) (i : Instruction) : Prop where
  mem : f.opcode ∈ Opcode.table
  op : f.opcode.op = i.op
  width : ∀ w ∈ f.opcode.operand.width?, f.operandBytes.length = w
  immediate : f.opcode.immediate stop (Binary.ofLittleEndian f.operandBytes) =
    i.immediate.map fun k => (φ k : Int)

instance (f : Form) (φ : Nat → Nat) (stop : Nat) (i : Instruction) :
    Decidable (f.Fits φ stop i) :=
  decidable_of_iff (f.opcode ∈ Opcode.table ∧ f.opcode.op = i.op ∧
      (∀ w ∈ f.opcode.operand.width?, f.operandBytes.length = w) ∧
      f.opcode.immediate stop (Binary.ofLittleEndian f.operandBytes) =
        i.immediate.map fun k => (φ k : Int))
    ⟨fun ⟨hmem, hop, hwidth, himm⟩ => ⟨hmem, hop, hwidth, himm⟩,
      fun h => ⟨h.mem, h.op, h.width, h.immediate⟩⟩

end Form

/-- The offset of the instruction with a number; numbers go on behind the last one. -/
def startOf : List Form → Nat → Nat
  | [], k => k
  | _ :: _, 0 => 0
  | f :: fs, k + 1 => f.size + startOf fs k

theorem startOf_zero (fs : List Form) : startOf fs 0 = 0 := by
  cases fs <;> rfl

theorem startOf_length (fs : List Form) :
    startOf fs fs.length = (fs.flatMap Form.bytes).length := by
  induction fs with
  | nil => rfl
  | cons f fs ih =>
    rw [List.length_cons, startOf, ih, List.flatMap_cons, List.length_append, f.length_bytes]

theorem startOf_strictMono (fs : List Form) : StrictMono (startOf fs) := by
  induction fs with
  | nil => exact strictMono_id
  | cons f fs ih =>
    refine strictMono_nat_of_lt_succ fun k => ?_
    cases k with
    | zero =>
      have := f.size_pos
      simp only [startOf]
      omega
    | succ k => exact Nat.add_lt_add_left (ih k.lt_succ_self) f.size

def EncodesFrom (φ : Nat → Nat) : Nat → List Form → List Instruction → Prop
  | _, [], [] => True
  | k, f :: fs, i :: is => f.Fits φ (φ (k + 1)) i ∧ EncodesFrom φ (k + 1) fs is
  | _, _, _ => False

/-- Bytes that hold instructions in the forms `fs`. -/
structure Encodes (fs : List Form) (is : List Instruction) (bytes : List UInt8) : Prop where
  fits : EncodesFrom (startOf fs) 0 fs is
  bytes_eq : bytes = fs.flatMap Form.bytes

instance decidableEncodesFrom (φ : Nat → Nat) :
    (k : Nat) → (fs : List Form) → (is : List Instruction) → Decidable (EncodesFrom φ k fs is)
  | _, [], [] => .isTrue trivial
  | k, f :: fs, i :: is =>
    have := decidableEncodesFrom φ (k + 1) fs is
    inferInstanceAs (Decidable (f.Fits φ (φ (k + 1)) i ∧ EncodesFrom φ (k + 1) fs is))
  | _, [], _ :: _ => .isFalse id
  | _, _ :: _, [] => .isFalse id

instance (fs : List Form) (is : List Instruction) (bytes : List UInt8) :
    Decidable (Encodes fs is bytes) :=
  decidable_of_iff (EncodesFrom (startOf fs) 0 fs is ∧ bytes = fs.flatMap Form.bytes)
    ⟨fun ⟨hfits, hbytes⟩ => ⟨hfits, hbytes⟩, fun h => ⟨h.fits, h.bytes_eq⟩⟩

theorem EncodesFrom.length_eq (h : EncodesFrom φ k fs is) : fs.length = is.length := by
  fun_induction EncodesFrom φ k fs is with
  | case1 => rfl
  | case2 k f fs i is ih => rw [List.length_cons, List.length_cons, ih h.2]
  | case3 => exact h.elim

/-! ## Reading an encoding -/

namespace Scope

variable {s : Scope}

/-- What is not read, as there is no width for it, means nothing. -/
theorem operand?_of_width? {o : Opcode} (h : o.operand.width? = none) (op : Op) (stop value : Nat) :
    s.operand? op (o.immediate stop value) = none := by
  have hkind : o.operand = .switch := by
    cases hkind : o.operand <;> simp [hkind, OperandKind.width?] at h ⊢
  simp only [Opcode.immediate, hkind, operand?]

end Scope

def Form.record (f : Form) (φ : Nat → Nat) (r : Record) : Record :=
  ⟨r.op, r.operand.map (Place.relocate φ), φ r.offset, f.size, f.opcode.name⟩

/-- The operand of a form is read as what its instruction means, moved. -/
theorem Form.Fits.operand_ok_iff (hφ : StrictMono φ) {stop : Nat} (h : f.Fits φ stop i) (op : Op)
    {x' : Operand Place} :
    (s.relocate φ).operand f.opcode op stop (Binary.ofLittleEndian f.operandBytes) = .ok x' ↔
      ∃ x, s.operand? op (i.immediate.map fun k : Nat => (k : Int)) = some x ∧
        x.map (Place.relocate φ) = x' := by
  rw [← toOption_eq_some, Scope.toOption_operand, h.immediate, Scope.operand?_relocate hφ,
    Option.map_eq_some_iff]

/-- A form is read as its instruction. -/
theorem decode_form (hφ : StrictMono φ) (hfits : f.Fits φ (φ (k + 1)) i)
    (hstop : φ (k + 1) = φ k + f.size) (rest : List UInt8) {n : Nat} :
    (s.relocate φ).decode (φ k) (f.bytes ++ rest) = (.ok r', n) ↔
      n = f.size ∧ ∃ r, i.record? s k = some r ∧ r' = f.record φ r := by
  rw [Form.bytes, List.append_assoc, Scope.decode_selector _ _ hfits.mem]
  simp only [Instruction.record?_eq_some]
  cases hop : i.op with
  | none => simp [Scope.decodeOperand, hfits.op.trans hop]
  | some op =>
    have hop' := hfits.op.trans hop
    cases hwidth : f.opcode.operand.width? with
    | none =>
      -- a switch: it is refused, and its instruction means nothing
      have hnone := Scope.operand?_relocate hφ s op i.immediate
      rw [← hfits.immediate, Scope.operand?_of_width? hwidth] at hnone
      simp [Scope.decodeOperand, hop', hwidth, Option.map_eq_none_iff.mp hnone.symm]
    | some w =>
      obtain rfl := hfits.width w hwidth
      have hsize : φ k + (f.opcode.selectorLength + f.operandBytes.length) = φ (k + 1) := hstop.symm
      simp only [Scope.decodeOperand_bytes _ _ rest hop' hwidth, Prod.mk.injEq, map_eq_ok, hsize,
        hfits.operand_ok_iff hφ]
      constructor
      · rintro ⟨⟨_, ⟨x, hx, rfl⟩, rfl⟩, rfl⟩
        exact ⟨rfl, _, ⟨op, x, rfl, hx, rfl⟩, rfl⟩
      · rintro ⟨rfl, _, ⟨_, x, ⟨⟩, hx, rfl⟩, rfl⟩
        exact ⟨⟨_, ⟨x, hx, rfl⟩, rfl⟩, rfl⟩

theorem Form.record_moved (hr : i.record? s k = some r) (hstop : φ (k + 1) = φ k + f.size) :
    r.Moved φ (f.record φ r) := by
  obtain ⟨op, x, -, -, rfl⟩ := Instruction.record?_eq_some.mp hr
  exact ⟨rfl, rfl, rfl, hstop.symm, iff_of_true f.size_pos Nat.one_pos⟩

/-- Offsets from number `k` on are those of the forms `fs`. -/
def Follows (φ : Nat → Nat) (k : Nat) (fs : List Form) : Prop :=
  ∀ j, φ (k + j) = φ k + startOf fs j

theorem follows_startOf (fs : List Form) : Follows (startOf fs) 0 fs := by
  intro j
  rw [startOf_zero, Nat.zero_add, Nat.zero_add]

theorem Follows.stop (h : Follows φ k (f :: fs)) : φ (k + 1) = φ k + f.size := by
  rw [h 1, startOf, startOf_zero, Nat.add_zero]

theorem Follows.tail (h : Follows φ k (f :: fs)) : Follows φ (k + 1) fs := by
  intro j
  rw [Nat.add_assoc, Nat.add_comm 1, h, startOf, h.stop, Nat.add_assoc]

theorem drop_flatMap_bytes (f : Form) (fs : List Form) :
    ((f :: fs).flatMap Form.bytes).drop f.size = fs.flatMap Form.bytes := by
  rw [List.flatMap_cons, ← f.length_bytes, List.drop_left]

/-- Instructions that are accepted are read, moved to the offsets of their forms. -/
theorem exists_decodes (hφ : StrictMono φ) (hfits : EncodesFrom φ k fs is) (hstart : Follows φ k fs)
    (hrs : records? s k is = some rs) :
    ∃ rs', (s.relocate φ).Decodes (φ k) (fs.flatMap Form.bytes) rs' ∧
      List.Forall₂ (Record.Moved φ) rs rs' := by
  fun_induction EncodesFrom φ k fs is generalizing rs with
  | case1 k =>
    cases hrs
    exact ⟨[], .nil _, .nil⟩
  | case2 k f fs i is ih =>
    obtain ⟨r, rest, hr, hrest, rfl⟩ := records?_cons.mp hrs
    obtain ⟨rest', hdecodes, hmoved⟩ := ih hfits.2 hstart.tail hrest
    refine ⟨f.record φ r :: rest', ?_, .cons (f.record_moved hr hstart.stop) hmoved⟩
    refine .cons ((decode_form hφ hfits.1 hstart.stop _).mpr ⟨rfl, r, hr, rfl⟩) ?_
    rwa [drop_flatMap_bytes, ← hstart.stop]
  | case3 => exact hfits.elim

/-- Only instructions that are accepted are read. -/
theorem exists_records? (hφ : StrictMono φ) (hfits : EncodesFrom φ k fs is)
    (hstart : Follows φ k fs) (h : (s.relocate φ).Decodes (φ k) (fs.flatMap Form.bytes) rs') :
    ∃ rs, records? s k is = some rs := by
  fun_induction EncodesFrom φ k fs is generalizing rs' with
  | case1 k => exact ⟨[], rfl⟩
  | case2 k f fs i is ih =>
    generalize hcode : (f :: fs).flatMap Form.bytes = code at h
    cases h with
    | nil =>
      have hlength := congrArg List.length hcode
      rw [List.flatMap_cons, List.length_append, f.length_bytes, List.length_nil] at hlength
      have hpos := f.size_pos
      omega
    | cons hd ht =>
      subst hcode
      obtain ⟨rfl, r, hr, -⟩ := (decode_form hφ hfits.1 hstart.stop _).mp hd
      rw [drop_flatMap_bytes, ← hstart.stop] at ht
      obtain ⟨rest, hrest⟩ := ih hfits.2 hstart.tail ht
      exact ⟨r :: rest, records?_cons.mpr ⟨r, rest, hr, hrest, rfl⟩⟩
  | case3 => exact hfits.elim

/-! ## Moved instructions of a list -/

def Instruction.relocate (φ : Nat → Nat) (i : Instruction) : Instruction :=
  { i with immediate := i.immediate.map φ }

theorem Instruction.record?_relocate (hφ : StrictMono φ) (hk : φ k = k')
    (hstop : φ (k + 1) = k' + 1) (h : i.record? s k = some r) :
    ∃ r', (i.relocate φ).record? (s.relocate φ) k' = some r' ∧ r.Moved φ r' := by
  obtain ⟨op, x, hop, hx, rfl⟩ := record?_eq_some.mp h
  have himmediate : (i.relocate φ).immediate.map (fun k : Nat => (k : Int)) =
      i.immediate.map fun k => (φ k : Int) := by
    unfold relocate
    cases i.immediate <;> rfl
  refine ⟨⟨op, x.map (Place.relocate φ), k', 1, ""⟩, ?_, rfl, rfl, hk.symm, hstop.symm, Iff.rfl⟩
  refine record?_eq_some.mpr ⟨op, _, hop, ?_, rfl⟩
  rw [himmediate, Scope.operand?_relocate hφ, hx, Option.map_some]

theorem offset_lt_of_records? (h : records? s k is = some rs) :
    ∀ r ∈ rs, r.offset < k + is.length := by
  induction is generalizing k rs with
  | nil =>
    cases h
    simp
  | cons i is ih =>
    obtain ⟨r, rest, hr, hrest, rfl⟩ := records?_cons.mp h
    obtain ⟨_, _, -, -, rfl⟩ := Instruction.record?_eq_some.mp hr
    rw [List.length_cons]
    rintro q (_ | ⟨_, hq⟩)
    · dsimp only
      omega
    · have := ih hrest q hq
      omega

theorem records?_append {js : List Instruction} :
    records? s k (is ++ js) = some rs ↔ ∃ rs₁ rs₂, records? s k is = some rs₁ ∧
      records? s (k + is.length) js = some rs₂ ∧ rs₁ ++ rs₂ = rs := by
  induction is generalizing k rs with
  | nil => simp [records?]
  | cons i is ih =>
    have hlength : k + (i :: is).length = k + 1 + is.length := by
      rw [List.length_cons]
      omega
    simp only [List.cons_append, records?_cons, ih, hlength]
    constructor
    · rintro ⟨r, _, hr, ⟨rs₁, rs₂, h₁, h₂, rfl⟩, rfl⟩
      exact ⟨r :: rs₁, rs₂, ⟨r, rs₁, hr, h₁, rfl⟩, h₂, rfl⟩
    · rintro ⟨_, rs₂, ⟨r, rs₁, hr, h₁, rfl⟩, h₂, rfl⟩
      exact ⟨r, rs₁ ++ rs₂, hr, ⟨rs₁, rs₂, h₁, h₂, rfl⟩, rfl⟩

/-- Instructions that are moved together. -/
theorem records?_relocate (hφ : StrictMono φ) (hk : ∀ j ≤ is.length, φ (k + j) = k' + j)
    (h : records? s k is = some rs) :
    ∃ rs', records? (s.relocate φ) k' (is.map (·.relocate φ)) = some rs' ∧
      List.Forall₂ (Record.Moved φ) rs rs' := by
  induction is generalizing k k' rs with
  | nil =>
    cases h
    exact ⟨[], rfl, .nil⟩
  | cons i is ih =>
    obtain ⟨r, rest, hr, hrest, rfl⟩ := records?_cons.mp h
    obtain ⟨r', hr', hmoved⟩ := Instruction.record?_relocate hφ (hk 0 (Nat.zero_le _))
      (hk 1 (by simp)) hr
    have hk' (j : Nat) (hj : j ≤ is.length) : φ (k + 1 + j) = k' + 1 + j := by
      have := hk (1 + j) (by rw [List.length_cons]; omega)
      rwa [← Nat.add_assoc, ← Nat.add_assoc] at this
    obtain ⟨rest', hrest', hmoved'⟩ := ih hk' hrest
    exact ⟨r' :: rest', records?_cons.mpr ⟨r', rest', hr', hrest', rfl⟩, .cons hmoved hmoved'⟩

end Bytecode

end SpuCompiler
