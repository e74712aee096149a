import SpuCompiler.Proofs.Machine.Words
import SpuCompiler.Proofs.Trees.Integers

/-!
What fragments of code compute. A fragment adds code to a stream; running that code changes no
register that was there before, so values stay where they are while later fragments run.
-/

namespace SpuCompiler.Selection

open Machine Metadata Bytecode Trees

variable {n : Nat} {r : Register} {a b : Stream} {s t : State} {q : Quadword} {v : IntegerValue}

/-- The register is a hardware register or one given out before `next`. -/
def Known (next : Nat) : Register → Prop
  | .hardware _ => True
  | .virtual k => k < next

theorem Known.mono {m : Nat} (h : Known m r) (hmn : m ≤ n) : Known n r := by
  cases r with
  | hardware k => trivial
  | virtual k => exact Nat.lt_of_lt_of_le h hmn

theorem Known.ne_virtual (h : Known n r) : r ≠ .virtual n := by
  rintro rfl
  exact Nat.lt_irrefl n h

/-- The code between two streams takes one state to the other, and sets new registers only. It may
store. -/
structure Moves (address : Nat → Address) (a b : Stream) (s t : State) : Prop where
  emitted : ∃ code, b.code.toList = a.code.toList ++ code ∧ s.run address code = some t
  next_le : a.next ≤ b.next
  registers : ∀ r, Known a.next r → t.registers r = s.registers r

theorem Moves.trans {address : Nat → Address} {c : Stream} {u : State} (h : Moves address a b s t)
    (h' : Moves address b c t u) : Moves address a c s u := by
  obtain ⟨code, hcode, hrun⟩ := h.emitted
  obtain ⟨more, hmore, hrun'⟩ := h'.emitted
  refine ⟨⟨code ++ more, ?_, ?_⟩, h.next_le.trans h'.next_le, fun r hr => ?_⟩
  · rw [hmore, hcode, List.append_assoc]
  · rw [State.run_append, hrun, Option.bind_some, hrun']
  · rw [h'.registers r (hr.mono h.next_le), h.registers r hr]

/-- The code between two streams takes one state to the other, and sets new registers only. -/
structure Advances (address : Nat → Address) (a b : Stream) (s t : State) : Prop where
  emitted : ∃ code, b.code.toList = a.code.toList ++ code ∧ s.run address code = some t
  next_le : a.next ≤ b.next
  registers : ∀ r, Known a.next r → t.registers r = s.registers r
  store : t.store = s.store

namespace Advances

variable {address : Nat → Address} {a b c : Stream} {s t u : State}

theorem moves (h : Advances address a b s t) : Moves address a b s t :=
  ⟨h.emitted, h.next_le, h.registers⟩

theorem refl (a : Stream) (s : State) : Advances address a a s s :=
  ⟨⟨[], by simp, rfl⟩, Nat.le_refl _, fun _ _ => rfl, rfl⟩

theorem trans (h : Advances address a b s t) (h' : Advances address b c t u) :
    Advances address a c s u :=
  have hmoves := h.moves.trans h'.moves
  ⟨hmoves.emitted, hmoves.next_le, hmoves.registers, h'.store.trans h.store⟩

/-- Code that sets the next register and no other. -/
theorem set {code : List Instr} (hnext : b.next = a.next + 1)
    (hcode : b.code.toList = a.code.toList ++ code)
    (hrun : s.run address code = some (s.set (.virtual a.next) q)) :
    Advances address a b s (s.set (.virtual a.next) q) :=
  ⟨⟨code, hcode, hrun⟩, by omega, fun _ hr => State.registers_set_of_ne s q hr.ne_virtual, rfl⟩

end Advances

/-- From the given stream and state, a fragment adds code that runs to its end, and then the
condition holds of its result. -/
def Computes {α : Type} (address : Nat → Address) (e : Emit α) (a : Stream) (s : State)
    (Q : α → Stream → State → Prop) : Prop :=
  ∃ x b t, e.run a = (x, b) ∧ Advances address a b s t ∧ Q x b t

namespace Computes

variable {α β : Type} {address : Nat → Address} {a : Stream} {s : State}

theorem pure {x : α} {Q : α → Stream → State → Prop} (h : Q x a s) :
    Computes address (pure x) a s Q :=
  ⟨x, a, s, rfl, .refl a s, h⟩

theorem bind {e : Emit α} {f : α → Emit β} {P : α → Stream → State → Prop}
    {Q : β → Stream → State → Prop} (h : Computes address e a s P)
    (hf : ∀ x b t, Advances address a b s t → P x b t → Computes address (f x) b t Q) :
    Computes address (e >>= f) a s Q := by
  obtain ⟨x, b, t, hrun, hadv, hx⟩ := h
  obtain ⟨y, c, u, hrun', hadv', hy⟩ := hf x b t hadv hx
  refine ⟨y, c, u, ?_, hadv.trans hadv', hy⟩
  rw [StateT.run_bind, hrun]
  exact hrun'

theorem mono {e : Emit α} {P Q : α → Stream → State → Prop} (h : Computes address e a s P)
    (hPQ : ∀ x b t, Advances address a b s t → P x b t → Q x b t) : Computes address e a s Q := by
  obtain ⟨x, b, t, hrun, hadv, hx⟩ := h
  exact ⟨x, b, t, hrun, hadv, hPQ x b t hadv hx⟩

end Computes

def Gives (q : Quadword) (r : Register) (a : Stream) (s : State) : Prop :=
  Known a.next r ∧ s.registers r = q

theorem Gives.after {address : Nat → Address} (h : Gives q r a s) (hadv : Advances address a b s t) :
    Gives q r b t :=
  ⟨h.1.mono hadv.next_le, (hadv.registers r h.1).trans h.2⟩

/-- Where a register keeps an integer: a word is in the first word, a 64-bit value in the first
two. Nothing is said of the others. -/
def InSlot : IntegerValue → Quadword → Prop
  | .word x, q => q.word 0 = x
  | .long x, q => q.long = x

def Holds (v : IntegerValue) (r : Register) (a : Stream) (s : State) : Prop :=
  Known a.next r ∧ InSlot v (s.registers r)

theorem Holds.after {address : Nat → Address} (h : Holds v r a s) (hadv : Advances address a b s t) :
    Holds v r b t :=
  ⟨h.1.mono hadv.next_le, hadv.registers r h.1 ▸ h.2⟩

theorem Holds.gives (h : Holds v r a s) : Gives (s.registers r) r a s :=
  ⟨h.1, rfl⟩

theorem Gives.holds (h : Gives q r a s) (hv : InSlot v q) : Holds v r a s :=
  ⟨h.1, h.2 ▸ hv⟩

namespace Emit

variable {address : Nat → Address} {a : Stream} {s : State} {p q m : Quadword}
  {ra rb rc : Register}
variable {op : Machine.Opcode} {c : Comparison} {e : Emit Register}

/-- An instruction with a fresh register for its result. -/
theorem fresh_computes (i : Register → Instr)
    (h : s.exec address (i (.virtual a.next)) = some (s.set (.virtual a.next) q)) :
    Computes address (do let rt ← fresh; instr (i rt); return rt) a s (Gives q) := by
  refine ⟨.virtual a.next, ⟨a.next + 1, a.code.push (i (.virtual a.next))⟩, _, rfl,
    .set rfl (Array.toList_push ..) ?_, Nat.lt_succ_self _, State.registers_set_self ..⟩
  simp [State.run, h]

theorem rr_computes {f : Quadword → Quadword → Quadword} (hf : rrResult op = some f)
    (hp : Gives p ra a s) (hq : Gives q rb a s) :
    Computes address (rr op ra rb) a s (Gives (f p q)) :=
  fresh_computes (fun rt => .rr op rt ra rb) (by simp [State.exec, Instr.rr, hf, hp.2, hq.2])

theorem rrr_computes {f : Quadword → Quadword → Quadword → Quadword} (hf : rrrResult op = some f)
    (hp : Gives p ra a s) (hq : Gives q rb a s) (hm : Gives m rc a s) :
    Computes address (rrr op ra rb rc) a s (Gives (f p q m)) :=
  fresh_computes (fun rt => .rrr op rt ra rb rc)
    (by simp [State.exec, Instr.rrr, hf, hp.2, hq.2, hm.2])

theorem ri_computes {f : Quadword → Int → Quadword} (hf : riResult op = some f)
    (hp : Gives p ra a s) (constant : Int) :
    Computes address (ri op ra constant) a s (Gives (f p constant)) :=
  fresh_computes (fun rt => .ri op rt ra constant) (by simp [State.exec, Instr.ri, hf, hp.2])

theorem imm_computes {f : Int → Quadword} (hf : immResult op = some fun _ c => f c)
    (constant : Int) : Computes address (imm op constant) a s (Gives (f constant)) :=
  fresh_computes (fun rt => .imm op rt constant) (State.exec_imm hf ..)

theorem lqr_computes (object : Nat) :
    Computes address (targeted .lqr (.object object)) a s (Gives (s.load (address object))) :=
  fresh_computes (fun rt => .withTarget .lqr (some rt) (.object object))
    (by simp [State.exec, Instr.withTarget])

/-! ## Sequences -/

theorem loadImmediate_computes (v : BitVec 32) :
    Computes address (loadImmediate v.toInt) a s (Gives (.splat v)) := by
  unfold loadImmediate
  split
  · rename_i h
    have hv : (BitVec.ofInt 16 v.toInt).signExtend 32 = v := by
      simp only [isHalf, decide_eq_true_eq] at h
      apply signExtend_ofInt (by omega)
      apply Int.bmod_eq_of_le <;> omega
    exact (imm_computes rfl v.toInt).mono fun _ _ _ _ hr => hv ▸ hr
  · rw [BitVec.ofInt_toInt]
    by_cases hlow : v.toNat % 0x10000 = 0
    · have hv : BitVec.ofInt 16 (v.toNat / 0x10000 : Nat) ++ 0#16 = v := by
        simpa [hlow] using ofInt_halves v
      simp only [hlow, ne_eq, not_true_eq_false, if_false, bind_pure]
      exact (imm_computes rfl _).mono fun _ _ _ _ hr => hv ▸ hr
    · simp only [hlow, ne_eq, not_false_eq_true, if_true]
      -- The second instruction sets the register of the first again.
      let i : Instr := .imm .ilhu (.virtual a.next) (v.toNat / 0x10000 : Nat)
      let j : Instr := .imm .iohl (.virtual a.next) (v.toNat % 0x10000 : Nat)
      have hrun : s.run address [i, j] = some (s.set (.virtual a.next) (.splat v)) := by
        rw [State.run, State.exec_imm (show immResult .ilhu = some _ from rfl), Option.bind_some,
          State.run, State.exec_imm (show immResult .iohl = some _ from rfl), Option.bind_some,
          State.run, State.registers_set_self, State.set_set, Quadword.map_splat, ofInt_halves]
      exact ⟨.virtual a.next, ⟨a.next + 1, (a.code.push i).push j⟩, _, rfl,
        .set rfl (by simp) hrun, Nat.lt_succ_self _, State.registers_set_self ..⟩

theorem immediateWord_short {v : BitVec 32} (h : isShort v.toInt = true) :
    immediateWord 10 v.toInt = v := by
  simp only [isShort, decide_eq_true_eq] at h
  rw [immediateWord_eq h, BitVec.ofInt_toInt]

theorem addImmediate_computes {x : BitVec 32} (hp : Holds (.word x) ra a s) (v : BitVec 32) :
    Computes address (addImmediate ra v.toInt) a s (Holds (.word (x + v))) := by
  have hx : (s.registers ra).word 0 = x := hp.2
  unfold addImmediate
  split
  · rename_i h
    have hv : v = 0#32 := BitVec.eq_of_toInt_eq h
    exact .pure (by simpa [hv] using hp)
  · split
    · rename_i h
      refine (ri_computes rfl hp.gives v.toInt).mono fun _ _ _ _ hr => hr.holds ?_
      rw [InSlot, Quadword.word_map, immediateWord_short h, hx]
    · refine (loadImmediate_computes v).bind fun _ b t h amount => ?_
      refine (rr_computes rfl (hp.gives.after h) amount).mono fun _ _ _ _ hr => hr.holds ?_
      rw [InSlot, Quadword.word_map₂, Quadword.word_splat, hx]

theorem multiplyWord_computes (hp : Gives p ra a s) (hq : Gives q rb a s) :
    Computes address (multiplyWord ra rb) a s (Gives (.map₂ (fun x y => x * y) p q)) := by
  refine (rr_computes rfl hp hq).bind fun _ b₁ s₁ h₁ highLeft => ?_
  refine (rr_computes rfl (hq.after h₁) (hp.after h₁)).bind fun _ b₂ s₂ h₂ highRight => ?_
  have h₁₂ := h₁.trans h₂
  refine (rr_computes rfl (hp.after h₁₂) (hq.after h₁₂)).bind fun _ b₃ s₃ h₃ low => ?_
  refine (rr_computes rfl (highLeft.after (h₂.trans h₃)) (highRight.after h₃)).bind
    fun _ b₄ s₄ h₄ high => ?_
  have hvalue : Quadword.map₂ (fun x y => x * y) p q =
      .map₂ (fun x y => x + y) (.map₂ (fun x y => x + y) (.map₂ multiplyHigh p q)
        (.map₂ multiplyHigh q p)) (.map₂ multiplyUnsigned p q) := by
    simp only [Quadword.map₂, Quadword.word_ofWords, multiply_halves]
  rw [hvalue]
  exact rr_computes rfl high (low.after h₄)

theorem shiftRight_computes {f : Quadword → Quadword → Quadword} (hf : rrResult op = some f)
    (hp : Gives p ra a s) (hq : Gives q rb a s) :
    Computes address (shiftRight op ra rb) a s (Gives (f p (q.map fun x => 0#32 - x))) := by
  refine (ri_computes rfl hq 0).bind fun _ b t h count => ?_
  rw [immediateWord_zero] at count
  exact rr_computes hf (hp.after h) count

/-- The low words are compared next to the high ones; a rotation brings their mask over. -/
theorem equalLong_computes (hp : Gives p ra a s) (hq : Gives q rb a s) :
    Computes address (equalLong ra rb) a s (Holds (.word (wordMask (p.long == q.long)))) := by
  refine (rr_computes rfl hp hq).bind fun _ b₁ s₁ h₁ equal => ?_
  refine (ri_computes rfl equal 4).bind fun _ b₂ s₂ h₂ lowEqual => ?_
  refine (rr_computes rfl (equal.after h₂) lowEqual).mono fun r b t _ hr => hr.holds ?_
  rw [InSlot, Quadword.word_and, word_rotate_four, Quadword.word_map₂, Quadword.word_map₂, wordMask_and,
    Quadword.long, Quadword.long, append_beq]
  rfl

theorem greaterLong_computes (signed : Bool) (hp : Gives p ra a s) (hq : Gives q rb a s) :
    Computes address (greaterLong signed ra rb) a s
      (Holds (.word (wordMask (if signed then q.long.slt p.long else q.long.ult p.long)))) := by
  have hf : rrResult (if signed then .cgt else .clgt) =
      some (.map₂ fun x y => wordMask (if signed then y.slt x else y.ult x)) := by
    cases signed <;> rfl
  refine (rr_computes rfl hp hq).bind fun _ b₁ s₁ h₁ equal => ?_
  refine (rr_computes hf (hp.after h₁) (hq.after h₁)).bind fun _ b₂ s₂ h₂ highGreater => ?_
  have h₁₂ := h₁.trans h₂
  refine (rr_computes rfl (hp.after h₁₂) (hq.after h₁₂)).bind fun _ b₃ s₃ h₃ greater => ?_
  refine (ri_computes rfl greater 4).bind fun _ b₄ s₄ h₄ lowGreater => ?_
  have h₂₄ := h₂.trans (h₃.trans h₄)
  refine (rr_computes rfl (equal.after h₂₄) lowGreater).bind fun _ b₅ s₅ h₅ tieBreak => ?_
  have h₃₅ := h₃.trans (h₄.trans h₅)
  refine (rr_computes rfl (highGreater.after h₃₅) tieBreak).mono fun r b t _ hr => hr.holds ?_
  rw [InSlot, Quadword.word_or, Quadword.word_and, word_rotate_four, Quadword.word_map₂, Quadword.word_map₂,
    Quadword.word_map₂, wordMask_and, wordMask_or]
  cases signed with
  | false => simp only [Quadword.long, append_ult, Bool.false_eq_true, if_false, BEq.comm]; rfl
  | true => simp only [Quadword.long, append_slt, if_true, BEq.comm]; rfl

def maskSet {w : Nat} (c : Comparison) (x y : BitVec w) : Bool :=
  let a := if c.swap then y else x
  let b := if c.swap then x else y
  if c.equal then a == b else if c.signed then b.slt a else b.ult a

theorem compareWord_computes (he : compare? .word c ra rb = some e) (hp : Gives p ra a s)
    (hq : Gives q rb a s) :
    Computes address e a s (Holds (.word (wordMask (maskSet c (p.word 0) (q.word 0))))) := by
  obtain ⟨equal, signed, swap, whenSet⟩ := c
  have hf : rrResult (if equal then .ceq else if signed then .cgt else .clgt) =
      some (.map₂ fun x y => wordMask
        (if equal then x == y else if signed then y.slt x else y.ult x)) := by
    cases equal <;> cases signed <;> rfl
  cases he
  cases swap with
  | false => exact (rr_computes hf hp hq).mono fun _ _ _ _ hr => hr.holds (Quadword.word_map₂ ..)
  | true => exact (rr_computes hf hq hp).mono fun _ _ _ _ hr => hr.holds (Quadword.word_map₂ ..)

theorem compareLong_computes (he : compare? .long c ra rb = some e) (hp : Gives p ra a s)
    (hq : Gives q rb a s) :
    Computes address e a s (Holds (.word (wordMask (maskSet c p.long q.long)))) := by
  obtain ⟨equal, signed, swap, whenSet⟩ := c
  cases he
  cases swap with
  | false =>
    cases equal with
    | false => exact greaterLong_computes signed hp hq
    | true => exact equalLong_computes hp hq
  | true =>
    cases equal with
    | false => exact greaterLong_computes signed hq hp
    | true => exact equalLong_computes hq hp

/-- A word moves to the second place, behind another one. -/
theorem pair_computes {x y : BitVec 32} (hx : Holds (.word x) ra a s) (hy : Holds (.word y) rb a s) :
    Computes address (do
        let low ← ri .rotqbyi rb 12
        let secondWord ← imm .fsmbi 0x0F00
        rrr .selb ra low secondWord) a s
      (Holds (.long (x ++ y))) := by
  refine (ri_computes rfl hy.gives 12).bind fun _ b₁ s₁ h₁ low => ?_
  refine (imm_computes rfl 0x0F00).bind fun _ b₂ s₂ h₂ secondWord => ?_
  refine (rrr_computes rfl (hx.gives.after (h₁.trans h₂)) (low.after h₂) secondWord).mono
    fun _ _ _ _ hr => hr.holds ?_
  have hmask₀ : (Quadword.byteMask (BitVec.ofInt 16 0x0F00)).word 0 = 0#32 := by decide
  have hmask₁ : (Quadword.byteMask (BitVec.ofInt 16 0x0F00)).word 1 = BitVec.allOnes 32 := by decide
  have hx : (s.registers ra).word 0 = x := hx.2
  have hy : (s.registers rb).word (1 + 3) = y := hy.2
  simp only [InSlot, Quadword.long, Quadword.select, Quadword.word_or, Quadword.word_and,
    Quadword.word_not, word_rotate_twelve, hmask₀, hmask₁, hx, hy, BitVec.not_zero,
    BitVec.not_allOnes, BitVec.and_allOnes, BitVec.and_zero, BitVec.or_zero, BitVec.zero_or]

theorem widen_computes (signed : Bool) {x : BitVec 32} (hx : Holds (.word x) ra a s) :
    Computes address (widen signed ra) a s
      (Holds (.long (if signed then x.signExtend 64 else x.setWidth 64))) := by
  cases signed with
  | false =>
    refine (imm_computes rfl 0).bind fun zero b t h hr => ?_
    have hzero : Holds (.word 0#32) zero b t := hr.holds (Quadword.word_splat ..)
    rw [if_neg Bool.false_ne_true, setWidth_eq_zero_append 32]
    exact pair_computes hzero (hx.after h)
  | true =>
    refine (ri_computes rfl hx.gives (-31)).bind fun sign b t h hr => ?_
    have hsign : Holds (.word (x.sshiftRight 31)) sign b t := by
      refine hr.holds ?_
      rw [InSlot, Quadword.word_map, rotateMaskSigned_sign, show (s.registers ra).word 0 = x from hx.2]
    rw [if_pos rfl, signExtend_eq_append]
    exact pair_computes hsign (hx.after h)

def extendWord (ty : Ty) (x : BitVec 32) : BitVec 32 :=
  match ty with
  | .basic .i1 => (x.setWidth 8).signExtend 32
  | .basic .i2 => (x.setWidth 16).signExtend 32
  | .basic .u1 | .basic .bool => (x.setWidth 8).setWidth 32
  | _ => (x.setWidth 16).setWidth 32

theorem extend_computes (ty : Ty) {x : BitVec 32} (hp : Holds (.word x) ra a s) :
    Computes address (extend ra ty) a s (Holds (.word (extendWord ty x))) := by
  have hx : (s.registers ra).word 0 = x := hp.2
  unfold extend
  split
  · refine (rr_computes rfl hp.gives hp.gives).bind fun _ b t h half => ?_
    refine (rr_computes rfl half half).mono fun _ _ _ _ hr => hr.holds ?_
    rw [InSlot, Quadword.word_map, Quadword.word_map, extendHalf_extendBytes, hx, extendWord]
  · refine (rr_computes rfl hp.gives hp.gives).mono fun _ _ _ _ hr => hr.holds ?_
    rw [InSlot, Quadword.word_map, extendHalf_eq, hx, extendWord]
  · refine (ri_computes rfl hp.gives 0xFF).mono fun _ _ _ _ hr => hr.holds ?_
    rw [InSlot, Quadword.word_map, and_byteMask, hx, extendWord]
  · refine (ri_computes rfl hp.gives 0xFF).mono fun _ _ _ _ hr => hr.holds ?_
    rw [InSlot, Quadword.word_map, and_byteMask, hx, extendWord]
  · refine (ri_computes rfl hp.gives 16).bind fun _ b t h high => ?_
    refine (ri_computes rfl high (-16)).mono fun _ _ _ _ hr => hr.holds ?_
    rw [InSlot, Quadword.word_map, Quadword.word_map, rotateMask_shiftLeft, hx, extendWord] <;> assumption

theorem narrow_computes {c : Conv} {x w : BitVec 32} (hv : IntegerValue.convBits x c = some (.word w))
    (hp : Holds (.word x) ra a s) : Computes address (narrow c ra) a s (Holds (.word w)) := by
  cases c <;> cases hv
  case i1 => exact extend_computes (.basic .i1) hp
  case i2 => exact extend_computes (.basic .i2) hp
  case u1 => exact extend_computes (.basic .u1) hp
  case u2 => exact extend_computes (.basic .u2) hp
  all_goals exact .pure (by simpa using hp)

end Emit

end SpuCompiler.Selection
