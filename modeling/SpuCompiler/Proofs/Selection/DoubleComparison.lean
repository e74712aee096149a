import SpuCompiler.Proofs.Machine.DoubleOrder
import SpuCompiler.Proofs.Machine.LocalStore
import SpuCompiler.Proofs.Selection.Fragments

/-!
Comparison of doubles. Equality compares bits, and order compares keys, which are unsigned integers
in the order of doubles. Both are right for all numbers and infinities, except for a zero and a zero
of the other sign: these have different bits and different keys, but are the same number.
-/

namespace SpuCompiler.Machine

/-- The pattern that takes the first word to all places. -/
theorem Quadword.word_shuffle_first (p q : Quadword) (i : Fin 4) :
    (p.shuffle q (.splat 0x00010203#32)).word i = p.word 0 := by
  have hbyte (m : Fin 4) : shuffleByte p q ((splat 0x00010203#32).byte
      (4 * i.castLE (by omega) + m.castLE (by omega))) = p.byte (m.castLE (by omega)) := by
    rw [byte_eq_word, word_splat]
    fin_cases m <;> rfl
  rw [shuffle, word_ofBytes, ← bytesWord_byte p 0]
  simp only [bytesWord]
  have hfirst := hbyte 0
  rw [show (0 : Fin 4).castLE (by omega) = (0 : Fin 16) from rfl, add_zero] at hfirst
  exact congrArg₂ _ (congrArg₂ _ (congrArg₂ _ hfirst (hbyte 1)) (hbyte 2)) (hbyte 3)

namespace Double

open Bytecode

def compares (x y : Extended) : Compare → Bool
  | .eq => x = y
  | .gt | .gtUn => y < x
  | .lt | .ltUn => x < y

def branches (x y : Extended) : BranchCompare → Bool
  | .eq => x = y
  | .neUn => x ≠ y
  | .ge | .geUn => y ≤ x
  | .gt | .gtUn => y < x
  | .le | .leUn => x ≤ y
  | .lt | .ltUn => x < y

end Double

end SpuCompiler.Machine

namespace SpuCompiler.Selection.Emit

open Machine Bytecode

variable {address : Nat → Address} {a : Stream} {s : State} {p q : Quadword} {ra rb : Register}

/-! ## Keys -/

theorem orderedKey_eq (value : Register) :
    orderedKey value = (do
      let signWords ← ri .rotmai value (-31)
      let pattern ← loadImmediate (0x00010203#32).toInt
      let sign ← rrr .shufb signWords signWords pattern
      let signBit ← doubleSignMask
      let flip ← rr .or sign signBit
      rr .xor value flip) := rfl

theorem doubleSignMask_computes :
    Computes address doubleSignMask a s fun r b t =>
      ∃ m, Gives m r b t ∧ m.long = BitVec.intMin 64 := by
  refine (imm_computes rfl 0x8000).bind fun _ b₁ s₁ h₁ sign => ?_
  refine (imm_computes rfl 0xF000).bind fun _ b₂ s₂ h₂ firstWord => ?_
  refine (rr_computes rfl (sign.after h₂) firstWord).mono fun _ _ _ _ hr => ⟨_, hr, ?_⟩
  decide

theorem flip_sign (h l : BitVec 32) :
    ((h ++ l) ^^^ ((wordMask h.msb ++ wordMask h.msb) ||| BitVec.intMin 64)) =
      Double.orderKey (h ++ l) := by
  rw [Double.orderKey, BitVec.msb_append]
  cases h.msb with
  | false =>
    change (h ++ l) ^^^ (0#64 ||| BitVec.intMin 64) = (h ++ l) ^^^ BitVec.intMin 64
    rw [BitVec.zero_or]
  | true =>
    change (h ++ l) ^^^ (BitVec.allOnes 64 ||| BitVec.intMin 64) = ~~~(h ++ l)
    rw [BitVec.allOnes_or, BitVec.xor_allOnes]

theorem orderedKey_computes (hq : Gives q ra a s) :
    Computes address (orderedKey ra) a s (Holds (.long (Double.orderKey q.long))) := by
  rw [orderedKey_eq]
  refine (ri_computes rfl hq (-31)).bind fun _ b₁ s₁ h₁ signWords => ?_
  refine (loadImmediate_computes 0x00010203#32).bind fun _ b₂ s₂ h₂ pattern => ?_
  have signWords₂ := signWords.after h₂
  refine (rrr_computes rfl signWords₂ signWords₂ pattern).bind fun _ b₃ s₃ h₃ sign => ?_
  refine doubleSignMask_computes.bind fun _ b₄ s₄ h₄ ⟨m, signBit, hm⟩ => ?_
  refine (rr_computes rfl (sign.after h₄) signBit).bind fun _ b₅ s₅ h₅ flip => ?_
  have h₁₅ := h₁.trans (h₂.trans (h₃.trans (h₄.trans h₅)))
  refine (rr_computes rfl (hq.after h₁₅) flip).mono fun _ _ _ _ hr => hr.holds ?_
  have hsign : (Quadword.shuffle (q.map fun x => rotateMaskSigned x (immediateWord 7 (-31)))
      (q.map fun x => rotateMaskSigned x (immediateWord 7 (-31))) (.splat 0x00010203#32)).long =
      wordMask (q.word 0).msb ++ wordMask (q.word 0).msb := by
    rw [Quadword.long, Quadword.word_shuffle_first, Quadword.word_shuffle_first, Quadword.word_map,
      rotateMaskSigned_sign, sshiftRight_sign]
  rw [InSlot, Quadword.long_xor, Quadword.long_or, hsign, hm]
  exact flip_sign (q.word 0) (q.word 1)

theorem greaterDouble_computes (hp : Gives p ra a s) (hq : Gives q rb a s) :
    Computes address (greaterDouble ra rb) a s
      (Holds (.word (wordMask ((Double.orderKey q.long).ult (Double.orderKey p.long))))) := by
  refine (orderedKey_computes hp).bind fun _ b₁ s₁ h₁ left => ?_
  refine (orderedKey_computes (hq.after h₁)).bind fun _ b₂ s₂ h₂ right => ?_
  have hleft : Quadword.long _ = _ := (left.after h₂).2
  have hright : Quadword.long _ = _ := right.2
  rw [← hleft, ← hright]
  exact greaterLong_computes false (left.after h₂).gives right.gives

/-! ## Comparisons -/

def doubleMaskSet (c : Comparison) (d e : BitVec 64) : Bool :=
  let a := if c.swap then e else d
  let b := if c.swap then d else e
  if c.equal then a == b else (Double.orderKey b).ult (Double.orderKey a)

theorem compareDouble_computes (c : Comparison) (hp : Gives p ra a s) (hq : Gives q rb a s) :
    ∃ e, compare? .double c ra rb = some e ∧
      Computes address e a s (Holds (.word (wordMask (doubleMaskSet c p.long q.long)))) := by
  obtain ⟨equal, signed, swap, whenSet⟩ := c
  refine ⟨_, rfl, ?_⟩
  cases swap with
  | false =>
    cases equal with
    | false => exact greaterDouble_computes hp hq
    | true => exact equalLong_computes hp hq
  | true =>
    cases equal with
    | false => exact greaterDouble_computes hq hp
    | true => exact equalLong_computes hq hp

section Ordered

open Double

variable {d e : BitVec 64} {x y : Extended} (hx : extended? d = some x) (hy : extended? e = some y)
  (hzeros : x = 0 → y = 0 → d.msb = e.msb)

include hx hy hzeros

theorem orderKey_ult : (orderKey d).ult (orderKey e) = decide (x < y) := by
  rw [BitVec.ult, decide_eq_decide, orderKey_lt_iff, extended?_lt_iff hx hy, or_iff_left]
  rintro ⟨hposition, hd, he⟩
  have hsame : d = e :=
    (extended?_eq_iff_eq hx hy hzeros).mp ((extended?_eq_iff hx hy).mpr hposition)
  rw [hsame, he] at hd
  cases hd

theorem doubleMaskSet_of (c : Compare) : doubleMaskSet (.of c) d e = compares x y c := by
  have heq : (d == e) = decide (x = y) := by
    rw [beq_eq_decide, decide_eq_decide]
    exact (extended?_eq_iff_eq hx hy hzeros).symm
  have hlt := orderKey_ult hx hy hzeros
  have hgt := orderKey_ult hy hx fun hy hx => (hzeros hx hy).symm
  cases c
  · exact heq
  · exact hgt
  · exact hgt
  · exact hlt
  · exact hlt

/-- A branch on a mask that is not set is one on the comparison that is the opposite. -/
theorem doubleMaskSet_ofBranch (c : BranchCompare) :
    doubleMaskSet (.ofBranch c) d e = (branches x y c == (Comparison.ofBranch c).whenSet) := by
  have h := doubleMaskSet_of hx hy hzeros
  have hne : decide (x = y) = (decide (x ≠ y) == false) := by simp
  have hlt (x y : Extended) : decide (x < y) = (decide (y ≤ x) == false) := by simp [← not_lt]
  cases c with
  | eq => exact (h .eq).trans (beq_true _).symm
  | gt => exact (h .gt).trans (beq_true _).symm
  | gtUn => exact (h .gtUn).trans (beq_true _).symm
  | lt => exact (h .lt).trans (beq_true _).symm
  | ltUn => exact (h .ltUn).trans (beq_true _).symm
  | neUn => exact (h .eq).trans hne
  | ge => exact (h .lt).trans (hlt x y)
  | geUn => exact (h .ltUn).trans (hlt x y)
  | le => exact (h .gt).trans (hlt y x)
  | leUn => exact (h .gtUn).trans (hlt y x)

end Ordered

/-- Comparisons of doubles are in the order of their values, for all finite numbers and infinities:
the mask is all ones in the first word exactly if the comparison holds, or for a branch that is
taken on a mask of zeros, exactly if it does not. Two zeros have to be of the same sign. -/
theorem compareDouble_orders (address : Nat → Address) (a : Stream) (s : State)
    {left right : Register} (hleft : Known a.next left) (hright : Known a.next right)
    {x y : Double.Extended} (hx : Double.extended? (s.registers left).long = some x)
    (hy : Double.extended? (s.registers right).long = some y)
    (hzeros : x = 0 → y = 0 → (s.registers left).long.msb = (s.registers right).long.msb) :
    (∀ c : Compare, ∃ e, compare? (.of .float64) (.of c) left right = some e ∧
      Computes address e a s (Holds (.word (wordMask (Double.compares x y c))))) ∧
    (∀ c : BranchCompare, ∃ e, compare? (.of .float64) (.ofBranch c) left right = some e ∧
      Computes address e a s (Holds (.word
        (wordMask (Double.branches x y c == (Comparison.ofBranch c).whenSet))))) := by
  have hmask (c : Comparison) : ∃ e, compare? .double c left right = some e ∧
      Computes address e a s (Holds (.word
        (wordMask (doubleMaskSet c (s.registers left).long (s.registers right).long)))) :=
    compareDouble_computes c ⟨hleft, rfl⟩ ⟨hright, rfl⟩
  constructor
  · intro c
    rw [← doubleMaskSet_of hx hy hzeros]
    exact hmask (.of c)
  · intro c
    rw [← doubleMaskSet_ofBranch hx hy hzeros]
    exact hmask (.ofBranch c)

/-- Two doubles in the first registers, with garbage behind them. -/
def twoDoubles (d e : BitVec 64) : State where
  registers r := (if r = .virtual 0 then d else e) ++ 0x0123456789ABCDEF#64
  store _ := 0

theorem long_append (d e : BitVec 64) : Quadword.long (d ++ e) = d := by
  apply BitVec.eq_of_toNat_eq
  have he := e.isLt
  rw [Quadword.toNat_long, toNat_append_eq_add]
  omega

theorem twoDoubles_left (d e : BitVec 64) : ((twoDoubles d e).registers (.virtual 0)).long = d :=
  long_append d _

theorem twoDoubles_right (d e : BitVec 64) : ((twoDoubles d e).registers (.virtual 1)).long = e :=
  long_append e _

/-- A negative zero is above the negative infinity. -/
theorem negativeZero_greater :
    Double.extended? 0x8000000000000000#64 = some 0 ∧
    Double.extended? 0xFFF0000000000000#64 = some ⊥ ∧
      ∃ e, compare? (.of .float64) (.of .gt) (.virtual 0) (.virtual 1) = some e ∧
        Computes (fun _ => 0) e ⟨2, #[]⟩ (twoDoubles 0x8000000000000000#64 0xFFF0000000000000#64)
          (Holds (.word (BitVec.allOnes 32))) := by
  have hx : Double.extended? 0x8000000000000000#64 = some 0 :=
    Double.extended?_of_rest_eq_zero (by decide)
  have hy : Double.extended? 0xFFF0000000000000#64 = some ⊥ := by
    have hvalue : Double.value? 0xFFF0000000000000#64 = none := if_pos (by decide)
    have hfraction : Double.fraction 0xFFF0000000000000#64 = 0 := by decide
    rw [Double.extended?, hvalue, hfraction]
    rfl
  have hleft : Known 2 (.virtual 0) := Nat.two_pos
  have hright : Known 2 (.virtual 1) := Nat.one_lt_two
  have horders := compareDouble_orders (fun _ => 0) ⟨2, #[]⟩
    (twoDoubles 0x8000000000000000#64 0xFFF0000000000000#64) hleft hright
    ((congrArg _ (twoDoubles_left ..)).trans hx) ((congrArg _ (twoDoubles_right ..)).trans hy)
    (fun _ hbot => absurd hbot (WithBot.bot_ne_coe))
  exact ⟨hx, hy, horders.1 .gt⟩

/-- Zeros of different signs are the same number, but they are not found equal, and one is found
greater than the other. -/
theorem zeros_ordered :
    Double.extended? 0x0000000000000000#64 = some 0 ∧
    Double.extended? 0x8000000000000000#64 = some 0 ∧
    (∃ e, compare? (.of .float64) (.of .eq) (.virtual 0) (.virtual 1) = some e ∧
      Computes (fun _ => 0) e ⟨2, #[]⟩ (twoDoubles 0x0000000000000000#64 0x8000000000000000#64)
        (Holds (.word 0#32))) ∧
    (∃ e, compare? (.of .float64) (.of .gt) (.virtual 0) (.virtual 1) = some e ∧
      Computes (fun _ => 0) e ⟨2, #[]⟩ (twoDoubles 0x0000000000000000#64 0x8000000000000000#64)
        (Holds (.word (BitVec.allOnes 32)))) := by
  have hleft : Known 2 (.virtual 0) := Nat.two_pos
  have hright : Known 2 (.virtual 1) := Nat.one_lt_two
  have hmask (c : Comparison) : ∃ e, compare? .double c (.virtual 0) (.virtual 1) = some e ∧
      Computes (fun _ => 0) e ⟨2, #[]⟩ (twoDoubles 0x0000000000000000#64 0x8000000000000000#64)
        (Holds (.word (wordMask (doubleMaskSet c 0x0000000000000000#64 0x8000000000000000#64)))) := by
    obtain ⟨e, he, hmask⟩ := @compareDouble_computes (fun _ => 0) ⟨2, #[]⟩
      (twoDoubles 0x0000000000000000#64 0x8000000000000000#64) _ _ _ _ c ⟨hleft, rfl⟩ ⟨hright, rfl⟩
    rw [twoDoubles_left, twoDoubles_right] at hmask
    exact ⟨e, he, hmask⟩
  exact ⟨Double.extended?_of_rest_eq_zero (by decide), Double.extended?_of_rest_eq_zero (by decide),
    hmask (.of .eq), hmask (.of .gt)⟩

end SpuCompiler.Selection.Emit
