import SpuCompiler.Proofs.Outcome
import SpuCompiler.Trees.Typing

/-!
Operands of comparisons. Two numbers of one type can be compared, a word with a native integer, and
two references. A comparison of such operands has a type, in whichever order they stand, unless both
are references of one type.
-/

namespace SpuCompiler.Trees

open Metadata Bytecode

variable {n x y : Node} {c : Compare}

namespace StackType

variable {l r : StackType}

/-- Types of operands between which a comparison means something. -/
inductive Comparable : StackType → StackType → Prop
  | numbers {t : StackType} : t.isNumeric = true → Comparable t t
  | wordNative : Comparable .int32 .nativeInt
  | nativeWord : Comparable .nativeInt .int32
  | references {l r : StackType} : l.isReference = true → r.isReference = true → Comparable l r

theorem Comparable.symm (h : Comparable l r) : Comparable r l := by
  cases h with
  | numbers ht => exact .numbers ht
  | wordNative => exact .nativeWord
  | nativeWord => exact .wordNative
  | references hl hr => exact .references hr hl

theorem Comparable.comm : Comparable l r ↔ Comparable r l := ⟨.symm, .symm⟩

def SameReferences (l r : StackType) : Prop := l = r ∧ l.isReference = true

theorem SameReferences.symm (h : SameReferences l r) : SameReferences r l := by
  obtain ⟨rfl, hl⟩ := h
  exact ⟨rfl, hl⟩

theorem SameReferences.comm : SameReferences l r ↔ SameReferences r l :=
  ⟨.symm, .symm⟩

theorem isReference_eq_false {t : StackType} (h : t.isNumeric = true) : t.isReference = false := by
  cases t <;> first | rfl | cases h

theorem areMixedIntegers_iff :
    l.areMixedIntegers r = true ↔ l = .int32 ∧ r = .nativeInt ∨ l = .nativeInt ∧ r = .int32 := by
  unfold areMixedIntegers
  split <;> simp_all

end StackType

open StackType

/-- The rule for comparisons asks first whether the types are equal, so equal references never reach
the case of two references. -/
theorem comparable_iff {l r : StackType} :
    comparable l r = true ↔ Comparable l r ∧ ¬ SameReferences l r := by
  unfold comparable
  split
  · rename_i heq
    subst heq
    constructor
    · intro hnum
      refine ⟨.numbers hnum, ?_⟩
      rintro ⟨-, href⟩
      rw [isReference_eq_false hnum] at href
      cases href
    · rintro ⟨hcomp, hsame⟩
      cases hcomp with
      | numbers hnum => exact hnum
      | references href => exact absurd ⟨rfl, href⟩ hsame
  · rename_i hne
    rw [Bool.or_eq_true, Bool.and_eq_true, areMixedIntegers_iff]
    constructor
    · intro h
      refine ⟨?_, fun hsame => hne hsame.1⟩
      rcases h with (⟨rfl, rfl⟩ | ⟨rfl, rfl⟩) | ⟨hl, hr⟩
      · exact .wordNative
      · exact .nativeWord
      · exact .references hl hr
    · rintro ⟨hcomp, -⟩
      cases hcomp with
      | numbers => exact absurd rfl hne
      | wordNative => exact .inl (.inl ⟨rfl, rfl⟩)
      | nativeWord => exact .inl (.inr ⟨rfl, rfl⟩)
      | references hl hr => exact .inr ⟨hl, hr⟩

/-- A comparison with both operands has a type or an error by the types of these alone. -/
theorem derive_compare (vars : Variables) (hop : n.op = .compare c) (hx : n.left? = some x)
    (hy : n.right? = some y) :
    derive vars n = if comparable x.type y.type then .ok (n.withType .int32, vars)
      else .error (.incompatibleOperands n.offset n.op x.type y.type) := by
  have hvars : afterStore vars n = .ok vars := by simp [afterStore, hop]
  have htype : typeOf vars n = if comparable x.type y.type then .ok .int32
      else .error (.incompatibleOperands n.offset n.op x.type y.type) := by
    simp only [typeOf, hop, Node.leftType, Node.rightType, hx, hy, Node.incompatible, bind,
      Except.bind, pure, Except.pure]
  unfold derive
  rw [htype]
  split
  · simp only [hvars, bind, Except.bind, pure, Except.pure]
  · rfl

theorem exists_derive_compare_iff (vars : Variables) (hop : n.op = .compare c)
    (hx : n.left? = some x) (hy : n.right? = some y) :
    (∃ result, derive vars n = .ok result) ↔
      Comparable x.type y.type ∧ ¬ SameReferences x.type y.type := by
  rw [← comparable_iff, derive_compare vars hop hx hy]
  split <;> simp_all

/-- A comparison has a type for exactly the operands that can be compared, two references of one type
apart. The type is a word, and no variable changes; other operands are reported as incompatible. The
operands may change places. -/
theorem derive_comparison (vars : Variables) {n x y : Node} {c : Compare} (hop : n.op = .compare c)
    (hx : n.left? = some x) (hy : n.right? = some y) :
    ((∃ result, derive vars n = .ok result) ↔
        Comparable x.type y.type ∧ ¬ SameReferences x.type y.type) ∧
      (∀ result, derive vars n = .ok result → result = (n.withType .int32, vars)) ∧
      (∀ e, derive vars n = .error e → e = .incompatibleOperands n.offset n.op x.type y.type) ∧
      ∀ (vars' : Variables) (n' : Node) (c' : Compare), n'.op = .compare c' → n'.left? = some y →
        n'.right? = some x →
        ((∃ result, derive vars' n' = .ok result) ↔ ∃ result, derive vars n = .ok result) := by
  have haccept := exists_derive_compare_iff vars hop hx hy
  have hderive := derive_compare vars hop hx hy
  refine ⟨haccept, ?_, ?_, ?_⟩
  · intro result hresult
    rw [hderive] at hresult
    split at hresult
    · cases hresult
      rfl
    · cases hresult
  · intro e he
    rw [hderive] at he
    split at he
    · cases he
    · cases he
      rfl
  · intro vars' n' c' hop' hy' hx'
    rw [haccept, exists_derive_compare_iff vars' hop' hy' hx', Comparable.comm, SameReferences.comm]

def operandOf (t : StackType) : Node := .leaf { op := .nop, offset := 0, type := t }

def arrayAgainstAddress : Node :=
  .binary { op := .compare .gtUn, offset := 2 } (operandOf (.objectRef (.array (.byRef .i4))))
    (operandOf (.managedPointer (.array (.byRef .i4))))

theorem arrayAgainstAddress_derived :
    derive {} arrayAgainstAddress = .ok (arrayAgainstAddress.withType .int32, {}) := by
  obtain ⟨haccept, hresult, -, -⟩ := derive_comparison {} (n := arrayAgainstAddress) rfl rfl rfl
  have hcomp : Comparable (.objectRef (.array (.byRef .i4))) (.managedPointer (.array (.byRef .i4))) :=
    .references rfl rfl
  have hsame : ¬ SameReferences (.objectRef (.array (.byRef .i4)))
      (.managedPointer (.array (.byRef .i4))) := by
    rintro ⟨h, -⟩
    cases h
  obtain ⟨result, h⟩ := haccept.mpr ⟨hcomp, hsame⟩
  rw [h, hresult result h]

/-- Two objects, or two addresses of words, cannot be compared by any comparison. -/
theorem sameReferences_refused :
    Comparable (.objectRef .object) (.objectRef .object) ∧
      Comparable (.managedPointer .i4) (.managedPointer .i4) ∧
      (∀ c : Compare, derive {} (.binary { op := .compare c, offset := 0 }
          (operandOf (.objectRef .object)) (operandOf (.objectRef .object))) =
        .error (.incompatibleOperands 0 (.compare c) (.objectRef .object) (.objectRef .object))) ∧
      ∀ c : Compare, derive {} (.binary { op := .compare c, offset := 0 }
          (operandOf (.managedPointer .i4)) (operandOf (.managedPointer .i4))) =
        .error (.incompatibleOperands 0 (.compare c) (.managedPointer .i4) (.managedPointer .i4)) :=
  ⟨.references rfl rfl, .references rfl rfl, fun _ => rfl, fun _ => rfl⟩

end SpuCompiler.Trees
