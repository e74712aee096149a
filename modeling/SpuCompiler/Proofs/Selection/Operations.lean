import SpuCompiler.Proofs.Selection.Fragments
import SpuCompiler.Selection.Code

/-!
Code of single operations on integers. Where an operation has code at all, the code computes the
value of the operation from registers that keep the values of its operands, and a conditional
branch at the end of the code is taken exactly if its condition holds.
-/

namespace SpuCompiler.Selection

open Machine Bytecode Trees

variable {address : Nat → Address} {a : Stream} {s : State} {ra rb : Register}
  {x y v : IntegerValue}

def Yields (v : IntegerValue) (o : Option Register) (a : Stream) (s : State) : Prop :=
  ∃ r, o = some r ∧ Holds v r a s

namespace Code

open Emit

variable {e : Emit (Option Register)} {op : Arith} {c : Conv} {w : Nat} {b taken : Bool}

theorem value_yields {e : Emit Register} (h : Computes address e a s (Holds v)) :
    Computes address (some <$> e) a s (Yields v) := by
  obtain ⟨r, b, t, hrun, hadv, hr⟩ := h
  refine ⟨some r, b, t, ?_, hadv, r, rfl, hr⟩
  rw [StateT.run_map, hrun]
  rfl

theorem value_gives {e : Emit Register} {q : Quadword} (h : Computes address e a s (Gives q))
    (hq : InSlot v q) : Computes address (some <$> e) a s (Yields v) :=
  value_yields (h.mono fun _ _ _ _ hr => hr.holds hq)

theorem arithWord_computes {x y : BitVec 32} (he : Code.arith op .word ra rb = .ok e)
    (hx : Holds (.word x) ra a s) (hy : Holds (.word y) rb a s)
    (hv : (IntegerValue.word x).arith op (.word y) = some v) :
    Computes address e a s (Yields v) := by
  have hx₀ : (s.registers ra).word 0 = x := hx.2
  have hy₀ : (s.registers rb).word 0 = y := hy.2
  cases op <;> cases hv <;> cases he
  case sub.refl.refl =>
    exact value_gives (rr_computes rfl hy.gives hx.gives) (by simp [InSlot, hx₀, hy₀])
  case mul.refl.refl =>
    exact value_gives (multiplyWord_computes hx.gives hy.gives) (by simp [InSlot, hx₀, hy₀])
  all_goals exact value_gives (rr_computes rfl hx.gives hy.gives) (by simp [InSlot, hx₀, hy₀])

theorem arithLong_computes {x y : BitVec 64} (he : Code.arith op .long ra rb = .ok e)
    (hx : Holds (.long x) ra a s) (hy : Holds (.long y) rb a s)
    (hv : (IntegerValue.long x).arith op (.long y) = some v) :
    Computes address e a s (Yields v) := by
  have hx₀ : (s.registers ra).long = x := hx.2
  have hy₀ : (s.registers rb).long = y := hy.2
  cases op <;> cases hv <;> cases he
  all_goals exact value_gives (rr_computes rfl hx.gives hy.gives) (by simp [InSlot, hx₀, hy₀])

theorem arith_computes (he : Code.arith op x.kind ra rb = .ok e) (hx : Holds x ra a s)
    (hy : Holds y rb a s) (hv : x.arith op y = some v) : Computes address e a s (Yields v) := by
  cases x with
  | word x =>
    cases y with
    | word y => exact arithWord_computes he hx hy hv
    | long y => cases hv
  | long x =>
    cases y with
    | word y => cases hv
    | long y => exact arithLong_computes he hx hy hv

theorem shift_computes {op : Shift} (he : Code.shift op x.kind ra rb = .ok e) (hx : Holds x ra a s)
    (hy : Holds y rb a s) (hv : x.shift op y = some v) : Computes address e a s (Yields v) := by
  cases x with
  | long x => cases he
  | word x =>
    cases y with
    | long y => cases hv
    | word count =>
      have hx₀ : (s.registers ra).word 0 = x := hx.2
      have hc₀ : (s.registers rb).word 0 = count := hy.2
      simp only [IntegerValue.shift, Option.ite_none_right_eq_some, Option.some.injEq] at hv
      obtain ⟨hlt, rfl⟩ := hv
      cases op with
      | shl =>
        cases he
        refine value_gives (rr_computes rfl hx.gives hy.gives) ?_
        rw [InSlot, Quadword.word_map₂, hx₀, hc₀, shiftLeft_of_lt x hlt, IntegerValue.shiftBits]
      | shr =>
        cases he
        refine value_gives (shiftRight_computes rfl hx.gives hy.gives) ?_
        rw [InSlot, Quadword.word_map₂, Quadword.word_map, hx₀, hc₀,
          rotateMaskSigned_negated x hlt, IntegerValue.shiftBits]
      | shrUn =>
        cases he
        refine value_gives (shiftRight_computes rfl hx.gives hy.gives) ?_
        rw [InSlot, Quadword.word_map₂, Quadword.word_map, hx₀, hc₀, rotateMask_negated x hlt,
          IntegerValue.shiftBits]

theorem neg_computes (he : Code.neg x.kind ra = .ok e) (hx : Holds x ra a s) :
    Computes address e a s (Yields x.neg) := by
  cases x with
  | long x => cases he
  | word x =>
    cases he
    refine value_gives (ri_computes rfl hx.gives 0) ?_
    rw [IntegerValue.neg, InSlot, Quadword.word_map, immediateWord_zero, BitVec.zero_sub,
      show (s.registers ra).word 0 = x from hx.2]

theorem not_computes (he : Code.not x.kind ra = .ok e) (hx : Holds x ra a s) :
    Computes address e a s (Yields x.not) := by
  cases x with
  | word x =>
    cases he
    have hx₀ : (s.registers ra).word 0 = x := hx.2
    exact value_gives (rr_computes rfl hx.gives hx.gives) (by simp [IntegerValue.not, InSlot, hx₀])
  | long x =>
    cases he
    have hx₀ : (s.registers ra).long = x := hx.2
    exact value_gives (rr_computes rfl hx.gives hx.gives) (by simp [IntegerValue.not, InSlot, hx₀])

/-- A conversion to a word or less reads the low word only. -/
theorem convBits_append {h l w : BitVec 32}
    (hv : IntegerValue.convBits (h ++ l) c = some (.word w)) :
    IntegerValue.convBits l c = some (.word w) := by
  have hlow {k : Nat} (hk : k ≤ 32) : (h ++ l).setWidth k = l.setWidth k := by
    rw [BitVec.setWidth_append, dif_pos hk]
  cases c <;> simp only [IntegerValue.convBits, hlow (Nat.le_refl 32), hlow (show 8 ≤ 32 by omega),
    hlow (show 16 ≤ 32 by omega), Option.some.injEq, reduceCtorEq] at hv ⊢ <;> exact hv

theorem convWord_computes {x : BitVec 32} (he : Code.conv c .word ra = .ok e)
    (hx : Holds (.word x) ra a s) (hv : IntegerValue.convBits x c = some v) :
    Computes address e a s (Yields v) := by
  cases c <;> cases hv <;> cases he
  case i8.refl.refl => exact value_yields (widen_computes true hx)
  case u8.refl.refl => exact value_yields (widen_computes false hx)
  all_goals exact value_yields (narrow_computes rfl hx)

theorem convLong_computes {x : BitVec 64} (he : Code.conv c .long ra = .ok e)
    (hx : Holds (.long x) ra a s) (hv : IntegerValue.convBits x c = some v) :
    Computes address e a s (Yields v) := by
  obtain rfl : (s.registers ra).long = x := hx.2
  have hnarrow {w : BitVec 32} (hw : IntegerValue.convBits (s.registers ra).long c = some (.word w)) :
      Computes address (do let low ← ri .rotqbyi ra 4; narrow c low) a s (Holds (.word w)) := by
    refine (ri_computes rfl hx.gives 4).bind fun low b t h hr => ?_
    exact narrow_computes (convBits_append hw) (hr.holds (word_rotate_four _ 0))
  cases c <;> cases hv <;> cases he
  case i8.refl.refl => exact value_yields (.pure (by simpa using hx))
  case u8.refl.refl => exact value_yields (.pure (by simpa using hx))
  all_goals exact value_yields (hnarrow rfl)

theorem conv_computes (he : Code.conv c x.kind ra = .ok e) (hx : Holds x ra a s)
    (hv : x.conv c = some v) : Computes address e a s (Yields v) := by
  cases x with
  | word x => exact convWord_computes he hx hv
  | long x => exact convLong_computes he hx hv

/-! ## Comparisons -/

theorem maskSet_of (c : Compare) (x y : BitVec w) :
    maskSet (.of c) x y = IntegerValue.compareBits x y c := by
  cases c <;> rfl

/-- A branch goes where the mask is set or where it is not. -/
theorem maskSet_ofBranch (c : BranchCompare) (x y : BitVec w) :
    (maskSet (.ofBranch c) x y == (Comparison.ofBranch c).whenSet) =
      IntegerValue.branchBits x y c := by
  cases c <;> rw [Bool.eq_iff_iff] <;>
    simp [maskSet, Comparison.ofBranch, Comparison.of, IntegerValue.branchBits, BitVec.slt,
      BitVec.sle, BitVec.ult, BitVec.ule]

theorem mask_computes {c : Comparison} {e : Emit Register} (he : compare? x.kind c ra rb = some e)
    (hx : Holds x ra a s) (hy : Holds y rb a s)
    (hb : x.compareWith (fun x y => maskSet c x y) y = some b) :
    Computes address e a s (Holds (.word (wordMask b))) := by
  cases x with
  | word x =>
    cases y with
    | long y => cases hb
    | word y =>
      obtain rfl : (s.registers ra).word 0 = x := hx.2
      obtain rfl : (s.registers rb).word 0 = y := hy.2
      cases hb
      exact compareWord_computes he hx.gives hy.gives
  | long x =>
    cases y with
    | word y => cases hb
    | long y =>
      obtain rfl : (s.registers ra).long = x := hx.2
      obtain rfl : (s.registers rb).long = y := hy.2
      cases hb
      exact compareLong_computes he hx.gives hy.gives

theorem compare_computes {c : Compare} (he : Code.compare c x.kind ra rb = .ok e)
    (hx : Holds x ra a s) (hy : Holds y rb a s) (hv : x.compare c y = some b) :
    Computes address e a s (Yields (.ofBool b)) := by
  unfold Code.compare at he
  split at he
  · cases he
  · rename_i mask hmask
    cases he
    have hb : x.compareWith (fun x y => maskSet (.of c) x y) y = some b := by
      simpa only [IntegerValue.compare, maskSet_of] using hv
    refine value_yields ((mask_computes hmask hx hy hb).bind fun m b t h hm => ?_)
    refine (ri_computes rfl hm.gives 1).mono fun _ _ _ _ hr => hr.holds ?_
    rw [IntegerValue.ofBool, InSlot, Quadword.word_map,
      show (t.registers m).word 0 = wordMask _ from hm.2, wordMask_and_one]

/-! ## Branches -/

/-- The code of a fragment ends with a branch to the target. Where it runs to that branch, the
branch is taken or not, as given. -/
def Branches (address : Nat → Address) (e : Emit (Option Register)) (a : Stream) (s : State)
    (target : Target) (taken : Bool) : Prop :=
  ∃ b i t, e.run a = (none, { b with code := b.code.push i }) ∧ Advances address a b s t ∧
    i.target = some target ∧ t.takes? i = some taken

/-- A branch on a word that a fragment computes. -/
theorem branch_branches {e : Emit Register} {w : BitVec 32} {op : Machine.Opcode} (target : Target)
    (h : Computes address e a s (Holds (.word w)))
    (hop : op = .brnz ∧ taken = (w != 0) ∨ op = .brz ∧ taken = (w == 0)) :
    Branches address (do
      e >>= fun r => branch op (some r) target
      return none) a s target taken := by
  obtain ⟨r, b, t, hrun, hadv, hr⟩ := h
  refine ⟨b, .withTarget op (some r) target, t, ?_, hadv, rfl, ?_⟩
  · simp only [StateT.run_bind, hrun]
    rfl
  · have hw : (t.registers r).word 0 = w := hr.2
    rcases hop with ⟨rfl, rfl⟩ | ⟨rfl, rfl⟩ <;> simp [State.takes?, Instr.withTarget, hw]

theorem branchIf_branches {op : Machine.Opcode} (target : Target)
    (he : branchIf op x.kind ra target = .ok e) (hx : Holds x ra a s)
    (hop : op = .brnz ∧ taken = (!x.isZero) ∨ op = .brz ∧ taken = x.isZero) :
    Branches address e a s target taken := by
  cases x with
  | word x =>
    cases he
    exact branch_branches target (.pure hx) hop
  | long x =>
    cases he
    obtain rfl : (s.registers ra).long = x := hx.2
    have hzero : ((s.registers ra).long == 0) =
        ((s.registers ra).word 0 ||| (s.registers ra).word 1 == 0) := append_beq_zero _ _
    have hor : Computes address (do let low ← ri .rotqbyi ra 4; rr .or ra low) a s
        (Holds (.word ((s.registers ra).word 0 ||| (s.registers ra).word 1))) := by
      refine (ri_computes rfl hx.gives 4).bind fun _ b t h low => ?_
      refine (rr_computes rfl (hx.gives.after h) low).mono fun _ _ _ _ hr => hr.holds ?_
      rw [InSlot, Quadword.word_or, word_rotate_four]
      rfl
    rw [IntegerValue.isZero, hzero] at hop
    exact branch_branches target hor hop

theorem branchCompare_branches {c : BranchCompare} (target : Target)
    (he : Code.branchCompare c x.kind ra rb target = .ok e) (hx : Holds x ra a s)
    (hy : Holds y rb a s) (hv : x.branchCompare c y = some taken) :
    Branches address e a s target taken := by
  obtain ⟨m, hm, htaken⟩ : ∃ m, x.compareWith (fun x y => maskSet (.ofBranch c) x y) y = some m ∧
      taken = (m == (Comparison.ofBranch c).whenSet) := by
    cases x <;> cases y <;> cases hv <;> exact ⟨_, rfl, (maskSet_ofBranch ..).symm⟩
  unfold Code.branchCompare at he
  dsimp only at he
  split at he
  · cases he
  · rename_i mask hmask
    cases he
    refine branch_branches target (mask_computes hmask hx hy hm) ?_
    cases hset : (Comparison.ofBranch c).whenSet <;> cases m <;> simp [hset, htaken, wordMask]

end Code

end SpuCompiler.Selection
