import SpuCompiler.Proofs.Outcome
import SpuCompiler.Selection.Arithmetic
import SpuCompiler.Trees.Typing

/-!
Values of integer trees. Words and 64-bit values wrap around; a shift by 32 or more has no value.
Variables are read from an environment. An integer tree is well typed and made of constants,
variables in registers, arithmetic, shifts, conversions and comparisons.
-/

namespace SpuCompiler.Trees

open Bytecode Selection

inductive IntegerValue where
  | word (bits : BitVec 32)
  | long (bits : BitVec 64)
  deriving DecidableEq

namespace IntegerValue

def kind : IntegerValue → ValueKind
  | .word _ => .word
  | .long _ => .long

def Fits (v : IntegerValue) (t : StackType) : Prop := t.isInteger = true ∧ ValueKind.of t = v.kind

instance (v : IntegerValue) (t : StackType) : Decidable (v.Fits t) := inferInstanceAs (Decidable (_ ∧ _))

def arithBits {w : Nat} (x y : BitVec w) : Arith → Option (BitVec w)
  | .add => some (x + y)
  | .sub => some (x - y)
  | .mul => some (x * y)
  | .and => some (x &&& y)
  | .or => some (x ||| y)
  | .xor => some (x ^^^ y)
  | .div | .divUn | .rem | .remUn => none

def arith (a : Arith) : IntegerValue → IntegerValue → Option IntegerValue
  | .word x, .word y => (arithBits x y a).map .word
  | .long x, .long y => (arithBits x y a).map .long
  | _, _ => none

def shiftBits {w : Nat} (x : BitVec w) (count : Nat) : Shift → BitVec w
  | .shl => x <<< count
  | .shr => x.sshiftRight count
  | .shrUn => x >>> count

def shift (s : Shift) : IntegerValue → IntegerValue → Option IntegerValue
  | .word x, .word count => if count.toNat < 32 then some (.word (shiftBits x count.toNat s)) else none
  | .long x, .word count => if count.toNat < 32 then some (.long (shiftBits x count.toNat s)) else none
  | _, _ => none

def neg : IntegerValue → IntegerValue
  | .word x => .word (-x)
  | .long x => .long (-x)

def not : IntegerValue → IntegerValue
  | .word x => .word (~~~x)
  | .long x => .long (~~~x)

/-- Cuts or extends to the width of the conversion, and then extends narrow values to a word. -/
def convBits {w : Nat} (x : BitVec w) : Conv → Option IntegerValue
  | .i1 => some (.word ((x.setWidth 8).signExtend 32))
  | .u1 => some (.word ((x.setWidth 8).setWidth 32))
  | .i2 => some (.word ((x.setWidth 16).signExtend 32))
  | .u2 => some (.word ((x.setWidth 16).setWidth 32))
  | .i4 | .u4 | .i | .u => some (.word (x.setWidth 32))
  | .i8 => some (.long (x.signExtend 64))
  | .u8 => some (.long (x.setWidth 64))
  | .r4 | .r8 | .rUn => none

def conv (c : Conv) : IntegerValue → Option IntegerValue
  | .word x => convBits x c
  | .long x => convBits x c

def compareBits {w : Nat} (x y : BitVec w) : Compare → Bool
  | .eq => x == y
  | .gt => y.slt x
  | .gtUn => y.ult x
  | .lt => x.slt y
  | .ltUn => x.ult y

def branchBits {w : Nat} (x y : BitVec w) : BranchCompare → Bool
  | .eq => x == y
  | .neUn => x != y
  | .ge => y.sle x
  | .geUn => y.ule x
  | .gt => y.slt x
  | .gtUn => y.ult x
  | .le => x.sle y
  | .leUn => x.ule y
  | .lt => x.slt y
  | .ltUn => x.ult y

def compareWith (holds : ∀ {w : Nat}, BitVec w → BitVec w → Bool) :
    IntegerValue → IntegerValue → Option Bool
  | .word x, .word y => some (holds x y)
  | .long x, .long y => some (holds x y)
  | _, _ => none

def compare (c : Compare) (x y : IntegerValue) : Option Bool :=
  compareWith (fun x y => compareBits x y c) x y

def branchCompare (c : BranchCompare) (x y : IntegerValue) : Option Bool :=
  compareWith (fun x y => branchBits x y c) x y

def isZero : IntegerValue → Bool
  | .word x => x == 0
  | .long x => x == 0

def ofBool (b : Bool) : IntegerValue := .word (if b then 1 else 0)

end IntegerValue

/-! ## Trees -/

namespace Node

open IntegerValue

def leafValue (env : Nat → IntegerValue) (h : Head) : Option IntegerValue :=
  match h.op, h.operand with
  | .ldc .i4, .int32 v => some (.word v)
  | .ldc .i8, .int64 v => some (.long v)
  | .ldloc, .ref (.variable id) | .ldarg, .ref (.variable id) => some (env id)
  | _, _ => none

def unaryValue (op : Op) (v : IntegerValue) : Option IntegerValue :=
  match op with
  | .neg => some v.neg
  | .not => some v.not
  | .conv c => v.conv c
  | _ => none

def binaryValue (op : Op) (x y : IntegerValue) : Option IntegerValue :=
  match op with
  | .arith a => x.arith a y
  | .shift s => x.shift s y
  | .compare c => (x.compare c y).map ofBool
  | _ => none

def integer? (env : Nat → IntegerValue) : Node → Option IntegerValue
  | .leaf h => leafValue env h
  | .unary h l => (integer? env l).bind (unaryValue h.op)
  | .binary h l r => (integer? env l).bind fun x => (integer? env r).bind (binaryValue h.op x)
  | .rightOnly .. | .call .. => none

def branchTaken? (env : Nat → IntegerValue) : Node → Option Bool
  | .unary h l =>
    match h.op with
    | .brtrue => (integer? env l).map fun v => !v.isZero
    | .brfalse => (integer? env l).map isZero
    | _ => none
  | .binary h l r =>
    match h.op with
    | .branchCompare c =>
      (integer? env l).bind fun x => (integer? env r).bind (x.branchCompare c)
    | _ => none
  | _ => none

def ShiftsInRange (env : Nat → IntegerValue) : Node → Prop
  | .unary _ l => ShiftsInRange env l
  | .binary h l r =>
    ShiftsInRange env l ∧ ShiftsInRange env r ∧
      ∀ s count, h.op = .shift s → integer? env r = some (.word count) → count.toNat < 32
  | _ => True

end Node

def isUnaryInteger : Op → Bool
  | .neg | .not => true
  | .conv c => (convType c).isInteger
  | _ => false

def isBinaryInteger : Op → Bool
  | .arith a => a ∈ [.add, .sub, .mul, .and, .or, .xor]
  | .shift _ | .compare _ => true
  | _ => false

inductive IntegerTree (vars : Variables) : Node → Prop
  | word {h : Head} {v : BitVec 32} (op : h.op = .ldc .i4) (operand : h.operand = .int32 v)
      (typed : typeOf vars (.leaf h) = .ok h.type) : IntegerTree vars (.leaf h)
  | long {h : Head} {v : BitVec 64} (op : h.op = .ldc .i8) (operand : h.operand = .int64 v)
      (typed : typeOf vars (.leaf h) = .ok h.type) : IntegerTree vars (.leaf h)
  | load {h : Head} {id r : Nat} {v : Variable} {t : StackType} (op : h.op = .ldloc ∨ h.op = .ldarg)
      (operand : h.operand = .ref (.variable id)) (get : vars.get? id = some v)
      (storage : v.storage = .register r) (type : v.stackType = some t)
      (integer : t.isInteger = true) (typed : typeOf vars (.leaf h) = .ok h.type) :
      IntegerTree vars (.leaf h)
  | unary {h : Head} {l : Node} (op : isUnaryInteger h.op = true) (left : IntegerTree vars l)
      (typed : typeOf vars (.unary h l) = .ok h.type) : IntegerTree vars (.unary h l)
  | binary {h : Head} {l r : Node} (op : isBinaryInteger h.op = true) (left : IntegerTree vars l)
      (right : IntegerTree vars r) (typed : typeOf vars (.binary h l r) = .ok h.type) :
      IntegerTree vars (.binary h l r)

/-- Each integer variable in a register has a value of its type. -/
def Variables.Typed (vars : Variables) (env : Nat → IntegerValue) : Prop :=
  ∀ id v r t, vars.get? id = some v → v.storage = .register r → v.stackType = some t →
    t.isInteger = true → (env id).Fits t

/-! ## Types -/

theorem kind_of_arithType {a : Arith} {l r t : StackType} (h : arithType? a l r = some t)
    (hl : l.isInteger = true) (hr : r.isInteger = true) :
    t.isInteger = true ∧ ValueKind.of l = ValueKind.of t ∧ ValueKind.of r = ValueKind.of t := by
  cases l <;> simp [StackType.isInteger] at hl <;> cases r <;> simp [StackType.isInteger] at hr <;>
    simp [arithType?, StackType.areMixedIntegers] at h <;> grind [StackType.isInteger, ValueKind.of]

theorem kind_of_comparable {l r : StackType} (h : comparable l r = true) (hl : l.isInteger = true)
    (hr : r.isInteger = true) : ValueKind.of l = ValueKind.of r := by
  cases l <;> simp [StackType.isInteger] at hl <;> cases r <;> simp [StackType.isInteger] at hr <;>
    simp [comparable, StackType.areMixedIntegers, StackType.isReference, ValueKind.of] at h ⊢

theorem kind_of_isIndex {t : StackType} (h : t.isIndex = true) : ValueKind.of t = .word := by
  cases t <;> simp [StackType.isIndex, ValueKind.of] at h ⊢

namespace IntegerValue

theorem exists_arith {a : Arith} (ha : a ∈ [Arith.add, .sub, .mul, .and, .or, .xor])
    {x y : IntegerValue} (h : x.kind = y.kind) : ∃ v, x.arith a y = some v ∧ v.kind = x.kind := by
  cases x <;> cases y <;> cases h <;> fin_cases ha <;> exact ⟨_, rfl, rfl⟩

theorem exists_shift (s : Shift) (x : IntegerValue) {count : BitVec 32} (h : count.toNat < 32) :
    ∃ v, x.shift s (.word count) = some v ∧ v.kind = x.kind := by
  cases x <;> simp [shift, h, kind]

theorem exists_compareWith (holds : ∀ {w : Nat}, BitVec w → BitVec w → Bool) {x y : IntegerValue}
    (h : x.kind = y.kind) : ∃ b, x.compareWith holds y = some b := by
  cases x <;> cases y <;> cases h <;> exact ⟨_, rfl⟩

theorem exists_conv {c : Conv} (hc : (convType c).isInteger = true) (x : IntegerValue) :
    ∃ v, x.conv c = some v ∧ ValueKind.of (convType c) = v.kind := by
  cases x <;> cases c <;> cases hc <;> exact ⟨_, rfl, rfl⟩

theorem exists_word {v : IntegerValue} (h : v.kind = .word) : ∃ x, v = .word x := by
  cases v with
  | word x => exact ⟨x, rfl⟩
  | long x => cases h

end IntegerValue

namespace IntegerTree

variable {vars : Variables} {h : Head} {l r : Node}

/-- The operations of one operand and their types. -/
theorem unary_cases (op : isUnaryInteger h.op = true)
    (typed : typeOf vars (.unary h l) = .ok h.type) :
    ((h.op = .neg ∨ h.op = .not) ∧ h.type = l.type) ∨
      ∃ c, h.op = .conv c ∧ (convType c).isInteger = true ∧ h.type = convType c := by
  have hop : (Node.unary h l).op = h.op := rfl
  unfold typeOf at typed
  rw [hop] at typed
  cases ho : h.op <;> simp only [ho, isUnaryInteger, Bool.false_eq_true] at op typed
  case neg =>
    obtain ⟨t, ht, typed⟩ := bind_eq_ok.mp typed
    cases ht
    exact .inl ⟨.inl rfl, (ite_eq_ok.mp typed).2.symm⟩
  case not =>
    obtain ⟨t, ht, typed⟩ := bind_eq_ok.mp typed
    cases ht
    exact .inl ⟨.inr rfl, (ite_eq_ok.mp typed).2.symm⟩
  case conv c =>
    obtain ⟨t, ht, typed⟩ := bind_eq_ok.mp typed
    exact .inr ⟨c, rfl, op, (ite_eq_ok.mp typed).2.symm⟩

/-- The operations of two operands and their types. -/
theorem binary_cases (op : isBinaryInteger h.op = true)
    (typed : typeOf vars (.binary h l r) = .ok h.type) :
    (∃ a, h.op = .arith a ∧ a ∈ [Arith.add, .sub, .mul, .and, .or, .xor] ∧
      arithType? a l.type r.type = some h.type) ∨
    (∃ s, h.op = .shift s ∧ h.type = l.type ∧ r.type.isIndex = true) ∨
    ∃ c, h.op = .compare c ∧ h.type = .int32 ∧ comparable l.type r.type = true := by
  have hop : (Node.binary h l r).op = h.op := rfl
  unfold typeOf at typed
  rw [hop] at typed
  cases ho : h.op <;> simp only [ho, isBinaryInteger, Bool.false_eq_true] at op typed
  case arith a =>
    obtain ⟨t, ht, typed⟩ := bind_eq_ok.mp typed
    obtain ⟨u, hu, typed⟩ := bind_eq_ok.mp typed
    cases ht
    cases hu
    split at typed
    · rename_i ht
      cases typed
      exact .inl ⟨a, rfl, by simpa using op, ht⟩
    · cases typed
  case shift s =>
    obtain ⟨t, ht, typed⟩ := bind_eq_ok.mp typed
    obtain ⟨u, hu, typed⟩ := bind_eq_ok.mp typed
    cases ht
    cases hu
    split at typed
    · rename_i ht
      cases typed
      simp only [shiftType?, Option.ite_none_right_eq_some, Option.some.injEq] at ht
      exact .inr (.inl ⟨s, rfl, ht.2.symm, ht.1.2⟩)
    · cases typed
  case compare c =>
    obtain ⟨t, ht, typed⟩ := bind_eq_ok.mp typed
    obtain ⟨u, hu, typed⟩ := bind_eq_ok.mp typed
    cases ht
    cases hu
    obtain ⟨hc, ht⟩ := ite_eq_ok.mp typed
    exact .inr (.inr ⟨c, rfl, ht.symm, hc⟩)

theorem load_type {id : Nat} {v : Variable} {t : StackType} (op : h.op = .ldloc ∨ h.op = .ldarg)
    (operand : h.operand = .ref (.variable id)) (get : vars.get? id = some v)
    (type : v.stackType = some t) (typed : typeOf vars (.leaf h) = .ok h.type) : h.type = t := by
  have hvar : (Node.leaf h).variableOf vars = .ok v := by
    simp [Node.variableOf, Node.varId?, Node.operand, Node.head, operand, get]
  have hop : (Node.leaf h).op = h.op := rfl
  unfold typeOf at typed
  rw [hop] at typed
  rcases op with op | op <;>
  · rw [op] at typed
    simp only at typed
    obtain ⟨w, hw, typed⟩ := bind_eq_ok.mp typed
    obtain rfl : v = w := by simpa [hvar] using hw
    rw [type] at typed
    cases typed
    rfl

/-- An integer tree has a value of its type, which is an integer type, if no shift is too wide. -/
theorem exists_value {n : Node} (hn : IntegerTree vars n) {env : Nat → IntegerValue}
    (henv : vars.Typed env) (hshift : n.ShiftsInRange env) :
    ∃ v, n.integer? env = some v ∧ v.Fits n.type := by
  induction hn with
  | @word h v op operand typed =>
    have ht : h.type = .int32 := by
      simpa [typeOf, Node.op, Node.head, op, constantType, eq_comm] using typed
    exact ⟨.word v, by simp [Node.integer?, Node.leafValue, op, operand], by
      simp [Node.type, Node.head, ht, IntegerValue.Fits, StackType.isInteger, ValueKind.of,
        IntegerValue.kind]⟩
  | @long h v op operand typed =>
    have ht : h.type = .int64 := by
      simpa [typeOf, Node.op, Node.head, op, constantType, eq_comm] using typed
    exact ⟨.long v, by simp [Node.integer?, Node.leafValue, op, operand], by
      simp [Node.type, Node.head, ht, IntegerValue.Fits, StackType.isInteger, ValueKind.of,
        IntegerValue.kind]⟩
  | @load h id r v t op operand get storage type integer typed =>
    refine ⟨env id, by rcases op with op | op <;> simp [Node.integer?, Node.leafValue, op, operand],
      ?_⟩
    rw [show (Node.leaf h).type = t from load_type op operand get type typed]
    exact henv id v r t get storage type integer
  | @unary h l op left typed ih =>
    obtain ⟨x, hx, hl, hk⟩ := ih hshift
    have hval : (Node.unary h l).integer? env = Node.unaryValue h.op x := by
      simp [Node.integer?, hx]
    rw [hval]
    rcases unary_cases op typed with ⟨hop, ht⟩ | ⟨c, hop, hc, ht⟩
    · rw [show (Node.unary h l).type = l.type from ht]
      rcases hop with hop | hop <;> rw [hop]
      · exact ⟨x.neg, rfl, hl, by cases x <;> exact hk⟩
      · exact ⟨x.not, rfl, hl, by cases x <;> exact hk⟩
    · obtain ⟨v, hv, hvk⟩ := IntegerValue.exists_conv hc x
      rw [hop, show (Node.unary h l).type = convType c from ht]
      exact ⟨v, hv, hc, hvk⟩
  | @binary h l r op left right typed ihl ihr =>
    obtain ⟨x, hx, hl, hxk⟩ := ihl hshift.1
    obtain ⟨y, hy, hr, hyk⟩ := ihr hshift.2.1
    have hval : (Node.binary h l r).integer? env = Node.binaryValue h.op x y := by
      simp [Node.integer?, hx, hy]
    have htype : (Node.binary h l r).type = h.type := rfl
    rw [hval, htype]
    rcases binary_cases op typed with ⟨a, hop, ha, ht⟩ | ⟨s, hop, ht, hi⟩ | ⟨c, hop, ht, hc⟩
    · obtain ⟨hint, hkl, hkr⟩ := kind_of_arithType ht hl hr
      obtain ⟨v, hv, hvk⟩ := IntegerValue.exists_arith ha (hxk.symm.trans (hkl.trans (hkr.symm.trans hyk)))
      exact ⟨v, by simpa [hop, Node.binaryValue] using hv, hint, hkl.symm.trans (hxk.trans hvk.symm)⟩
    · obtain ⟨count, rfl⟩ := IntegerValue.exists_word (hyk.symm.trans (kind_of_isIndex hi))
      obtain ⟨v, hv, hvk⟩ := IntegerValue.exists_shift s x (hshift.2.2 s count hop hy)
      rw [ht]
      exact ⟨v, by simpa [hop, Node.binaryValue] using hv, hl, hxk.trans hvk.symm⟩
    · obtain ⟨b, hb⟩ : ∃ b, x.compare c y = some b := IntegerValue.exists_compareWith _
        (hxk.symm.trans ((kind_of_comparable hc hl hr).trans hyk))
      rw [ht]
      exact ⟨.ofBool b, by simp [hop, Node.binaryValue, hb], rfl, rfl⟩

end IntegerTree

end SpuCompiler.Trees
