import SpuCompiler.Proofs.Machine.LocalStore
import SpuCompiler.Proofs.Selection.Fragments

/-!
Access to scalars in memory. The code of a load leaves the bytes at the address in the slot of a
register, extended as their type asks, and the code of a store changes these bytes and nothing else.
Both hold at every multiple of the size, wherever in a quadword that is.
-/

namespace SpuCompiler.Metadata

variable {ty : Ty}

/-- A value of the type is held in a register. -/
def Ty.isScalar : Ty → Bool
  | .struct _ | .basic .void => false
  | _ => true

theorem Ty.size_dvd_eight (h : ty.isScalar = true) : ty.size ∣ 8 := by
  cases ty with
  | basic b => cases b <;> revert h <;> decide
  | struct d => cases h
  | reference d | array e | byRef p => exact ⟨2, rfl⟩

theorem Ty.four_le_size (h : ty.isScalar = true) (hone : ty.size ≠ 1) (htwo : ty.size ≠ 2) :
    4 ≤ ty.size := by
  rcases Machine.Quadword.eq_of_dvd_eight (Ty.size_dvd_eight h) with h | h | h | h <;> omega

theorem Ty.isValueType_of_isScalar (h : ty.isScalar = true) : ty.isValueType = false := by
  cases ty with
  | struct d => cases h
  | _ => rfl

end SpuCompiler.Metadata

namespace SpuCompiler.Selection

open Machine Metadata Bytecode Trees

variable {ty : Ty}

/-! ## Values of scalars -/

/-- What the bits of a scalar are in a register: short integers with a sign keep it, all other bits
stay as they are, with zeros before them. -/
def loadedValue (ty : Ty) (bits : Nat) : IntegerValue :=
  match ty with
  | .basic .i1 => .word ((BitVec.ofNat 8 bits).signExtend 32)
  | .basic .i2 => .word ((BitVec.ofNat 16 bits).signExtend 32)
  | _ => if ty.size = 8 then .long (BitVec.ofNat 64 bits) else .word (BitVec.ofNat 32 bits)

theorem ofNat_toNat_mod {w : Nat} (x : BitVec w) (m n : Nat) :
    BitVec.ofNat m (x.toNat % 2 ^ n) = (x.setWidth n).setWidth m := by
  apply BitVec.eq_of_toNat_eq
  rw [BitVec.toNat_ofNat, BitVec.toNat_setWidth, BitVec.toNat_setWidth]

/-- Words and pairs of words are used as they are. -/
theorem inSlot_loadedValue (q : Quadword) (hty : ty.isScalar = true) (hsize : 4 ≤ ty.size) :
    InSlot (loadedValue ty (q.slot ty.size % 256 ^ ty.size)) q := by
  have hword : BitVec.ofNat 32 ((q.word 0).toNat % 2 ^ 32) = q.word 0 := by
    simp only [ofNat_toNat_mod, BitVec.setWidth_eq]
  have hlong : BitVec.ofNat 64 (q.long.toNat % 2 ^ 64) = q.long := by
    simp only [ofNat_toNat_mod, BitVec.setWidth_eq]
  unfold loadedValue
  split
  · exact absurd hsize (by decide)
  · exact absurd hsize (by decide)
  · rcases Quadword.eq_of_dvd_eight (Ty.size_dvd_eight hty) with h | h | h | h
    · omega
    · omega
    · rw [h, if_neg (by decide), Quadword.slot, if_neg (by decide)]
      exact hword.symm
    · rw [h, if_pos rfl, Quadword.slot, if_pos rfl]
      exact hlong.symm

/-- Shorter scalars are extended. -/
theorem loadedValue_short (q : Quadword) (hty : ty.isScalar = true) (hsize : ty.size < 4) :
    loadedValue ty (q.slot ty.size % 256 ^ ty.size) = .word (Emit.extendWord ty (q.word 0)) := by
  cases ty with
  | basic b =>
    cases b
    case bool | u1 => exact congrArg _ (ofNat_toNat_mod (q.word 0) 32 8)
    case char | u2 => exact congrArg _ (ofNat_toNat_mod (q.word 0) 32 16)
    case i1 =>
      have hbits := ofNat_toNat_mod (q.word 0) 8 8
      rw [BitVec.setWidth_eq] at hbits
      exact congrArg (fun x => IntegerValue.word (x.signExtend 32)) hbits
    case i2 =>
      have hbits := ofNat_toNat_mod (q.word 0) 16 16
      rw [BitVec.setWidth_eq] at hbits
      exact congrArg (fun x => IntegerValue.word (x.signExtend 32)) hbits
    case void => cases hty
    all_goals exact absurd hsize (by decide)
  | struct d => cases hty
  | reference d | array e | byRef p => exact absurd hsize (Nat.lt_irrefl 4)

/-! ## Code that stores -/

/-- From the given stream and state, a fragment adds code that runs to its end and leaves the given
store, and then the condition holds of its result. -/
def Updates {α : Type} (address : Nat → Address) (e : Emit α) (a : Stream) (s : State)
    (store : Address → BitVec 8) (Q : α → Stream → State → Prop) : Prop :=
  ∃ x b t, e.run a = (x, b) ∧ Moves address a b s t ∧ t.store = store ∧ Q x b t

section Sequences

variable {α β : Type} {address : Nat → Address} {a : Stream} {s : State} {e : Emit α}
  {f : α → Emit β} {store : Address → BitVec 8} {P : α → Stream → State → Prop}
  {Q : β → Stream → State → Prop}

theorem Computes.updates (h : Computes address e a s P)
    (hf : ∀ x b t, Advances address a b s t → P x b t → Updates address (f x) b t store Q) :
    Updates address (e >>= f) a s store Q := by
  obtain ⟨x, b, t, hrun, hadv, hx⟩ := h
  obtain ⟨y, c, u, hrun', hmoves, hstore, hy⟩ := hf x b t hadv hx
  refine ⟨y, c, u, ?_, hadv.moves.trans hmoves, hstore, hy⟩
  rw [StateT.run_bind, hrun]
  exact hrun'

theorem Updates.bind (h : Updates address e a s store P)
    (hf : ∀ x b t, Moves address a b s t → t.store = store → P x b t →
      Computes address (f x) b t Q) : Updates address (e >>= f) a s store Q := by
  obtain ⟨x, b, t, hrun, hmoves, hstore, hx⟩ := h
  obtain ⟨y, c, u, hrun', hadv, hy⟩ := hf x b t hmoves hstore hx
  refine ⟨y, c, u, ?_, hmoves.trans hadv.moves, hadv.store.trans hstore, hy⟩
  rw [StateT.run_bind, hrun]
  exact hrun'

end Sequences

theorem Holds.moved {address : Nat → Address} {v : IntegerValue} {r : Register} {a b : Stream}
    {s t : State} (h : Holds v r a s) (hmoves : Moves address a b s t) : Holds v r b t :=
  ⟨h.1.mono hmoves.next_le, hmoves.registers r h.1 ▸ h.2⟩

namespace Emit

variable {address : Nat → Address} {a : Stream} {s : State} {p q : Quadword} {ra rb : Register}
variable {size : Nat} {t : State}

theorem quadwordAddress_zero (q : Quadword) :
    State.quadwordAddress q 0 = (q.word 0).setWidth 18 := by
  rw [State.quadwordAddress, immediateWord_zero, BitVec.zero_shiftLeft, BitVec.add_zero]

theorem lqd_computes {x : BitVec 32} (hx : Holds (.word x) ra a s) :
    Computes address (ri .lqd ra 0) a s (Gives (s.load (x.setWidth 18))) := by
  have hword : (s.registers ra).word 0 = x := hx.2
  refine fresh_computes (fun rt => .ri .lqd rt ra 0) ?_
  simp [State.exec, Instr.ri, riResult, quadwordAddress_zero, hword]

/-- An instruction that stores. -/
theorem instr_updates {i : Instr} {store : Address → BitVec 8}
    (h : s.exec address i = some { s with store := store }) :
    Updates address (instr i) a s store fun _ _ _ => True := by
  refine ⟨(), ⟨a.next, a.code.push i⟩, { s with store := store }, rfl,
    ⟨⟨[i], Array.toList_push .., ?_⟩, Nat.le_refl _, fun _ _ => rfl⟩, rfl, trivial⟩
  rw [State.run, h, Option.bind_some, State.run]

theorem stqd_updates {x : BitVec 32} (hx : Holds (.word x) ra a s) (hq : Gives q rb a s) :
    Updates address (instr (.ri .stqd rb ra 0)) a s (s.save (x.setWidth 18) q).store
      fun _ _ _ => True := by
  have hword : (s.registers ra).word 0 = x := hx.2
  refine instr_updates ?_
  simp [State.exec, Instr.ri, riResult, quadwordAddress_zero, hword, hq.2, State.save]

section Scalar

variable {ty : Ty} (hty : ty.isScalar = true) {ea : Address} (hea : ty.size ∣ ea.toNat)
  {shift : Nat} (hq : ∀ j, q.byte j = (s.load ea).byte (j + Fin.ofNat 16 shift))
  (hshift : (shift + (4 - ty.size)) % 16 = ea.toNat % 16)

include hty hea hq hshift

theorem inSlot_rotated (hsize : 4 ≤ ty.size) :
    InSlot (loadedValue ty (readNat s.store ea ty.size)) q := by
  rw [slot_rotated (Ty.size_dvd_eight hty) hea s hq hshift]
  exact inSlot_loadedValue q hty hsize

theorem extend_rotated {b : Stream} (hsize : ty.size < 4) (hr : Gives q ra b t) :
    Computes address (extend ra ty) b t (Holds (loadedValue ty (readNat s.store ea ty.size))) := by
  rw [slot_rotated (Ty.size_dvd_eight hty) hea s hq hshift, loadedValue_short q hty hsize]
  exact extend_computes ty (hr.holds rfl)

end Scalar

theorem dvd_toNat_setWidth {x : BitVec 32} (hsize : size ∣ 8) (h : size ∣ x.toNat) :
    size ∣ (x.setWidth 18).toNat := by
  rw [BitVec.toNat_setWidth]
  exact (Nat.dvd_mod_iff (hsize.trans (by decide))).mpr h

theorem toNat_setWidth_mod (x : BitVec 32) : (x.setWidth 18).toNat % 16 = x.toNat % 16 := by
  rw [BitVec.toNat_setWidth]
  omega

/-- A scalar shorter than a word ends where the word ends: the quadword is rotated by a little less
than the address. -/
theorem loadShort_computes (hty : ty.isScalar = true) (hsize : ty.size < 4) {y : BitVec 32}
    (hdvd : ty.size ∣ (y.setWidth 18).toNat) {constant : Int}
    (hconstant : immediateWord 10 constant = BitVec.ofNat 32 (2 ^ 32 + ty.size - 4)) {b : Stream}
    (hp : Gives (s.load (y.setWidth 18)) ra b t) (hy : Holds (.word y) rb b t) :
    Computes address (do
        let shift ← ri .ai rb constant
        let value ← rr .rotqby ra shift
        extend value ty) b t
      (Holds (loadedValue ty (readNat s.store (y.setWidth 18) ty.size))) := by
  have hword : (t.registers rb).word 0 = y := hy.2
  refine (ri_computes rfl hy.gives constant).bind fun _ c u h shift => ?_
  refine (rr_computes rfl (hp.after h) shift).bind fun _ _ _ _ hvalue => ?_
  refine extend_rotated hty hdvd (Quadword.byte_ofBytes _) ?_ hsize hvalue
  rw [toNat_setWidth_mod, Quadword.word_map, hword, hconstant, BitVec.toNat_add, BitVec.toNat_ofNat]
  omega

theorem loadMemory_computes (hty : ty.isScalar = true) {x : BitVec 32} (hx : Holds (.word x) ra a s)
    (offset : BitVec 32) (haligned : ty.size ∣ (x + offset).toNat) :
    Computes address (loadMemory ra offset.toInt ty) a s
      (Holds (loadedValue ty (readNat s.store ((x + offset).setWidth 18) ty.size))) := by
  have hdvd := dvd_toNat_setWidth (Ty.size_dvd_eight hty) haligned
  unfold loadMemory
  refine (addImmediate_computes hx offset).bind fun ea b t h hea => ?_
  rw [Ty.isValueType_of_isScalar hty, ← h.store]
  refine (lqd_computes hea).bind fun quadword c u h' hquad => ?_
  replace hea := hea.after h'
  split
  · rename_i hsize
    exact loadShort_computes hty (by omega) hdvd (by rw [hsize]; decide) hquad hea
  · rename_i hsize
    exact loadShort_computes hty (by omega) hdvd (by rw [hsize]; decide) hquad hea
  · rename_i hone htwo
    have hsize := Ty.four_le_size hty hone htwo
    have hword : (u.registers ea).word 0 = x + offset := hea.2
    refine (rr_computes rfl hquad hea.gives).mono fun _ _ _ _ hr => hr.holds ?_
    refine inSlot_rotated hty hdvd (Quadword.byte_ofBytes _) ?_ hsize
    rw [toNat_setWidth_mod, hword]
    omega

/-- The pattern that the instruction for a size makes. -/
theorem insertOpcode_result (hsize : size ∣ 8) :
    riResult (insertOpcode size) = some (insertPatternAt size) := by
  rcases Quadword.eq_of_dvd_eight hsize with rfl | rfl | rfl | rfl <;> rfl

theorem insertPatternAt_zero {y : BitVec 32} (hsize : size ∣ 8)
    (hdvd : size ∣ (y.setWidth 18).toNat) (hp : p.word 0 = y) :
    insertPatternAt size p 0 = .insertPattern size ((y.setWidth 18).toNat % 16) := by
  have hzero : immediateWord 7 0 = 0#32 := by decide
  rw [insertPatternAt, hp, hzero, BitVec.add_zero, ← toNat_setWidth_mod]
  rcases Quadword.eq_of_dvd_eight hsize with rfl | rfl | rfl | rfl <;> congr 1 <;> omega

theorem save_store_congr (h : t.store = s.store) {ea : Address} :
    (t.save ea q).store = (s.save ea q).store := by
  simp only [State.save, h]

theorem storeMemory_updates (hty : ty.isScalar = true) {x : BitVec 32} (hx : Holds (.word x) ra a s)
    (hp : Gives p rb a s) (offset : BitVec 32) (haligned : ty.size ∣ (x + offset).toNat) :
    Updates address (storeMemory ra offset.toInt rb ty) a s
      (writeNat s.store ((x + offset).setWidth 18) ty.size (p.slot ty.size)) fun _ _ _ => True := by
  have hsize := Ty.size_dvd_eight hty
  have hdvd := dvd_toNat_setWidth hsize haligned
  unfold storeMemory
  refine (addImmediate_computes hx offset).updates fun ea b₁ s₁ h₁ hea => ?_
  rw [Ty.isValueType_of_isScalar hty]
  refine (lqd_computes hea).updates fun quadword b₂ s₂ h₂ hquad => ?_
  have hea₂ := hea.after h₂
  refine (ri_computes (insertOpcode_result hsize) hea₂.gives 0).updates fun mask b₃ s₃ h₃ hmask => ?_
  rw [insertPatternAt_zero hsize hdvd hea₂.2] at hmask
  have h₁₃ := h₁.trans (h₂.trans h₃)
  refine (rrr_computes rfl (hp.after h₁₃) (hquad.after h₃) hmask).updates
    fun merged b₄ s₄ h₄ hmerged => ?_
  have h₂₄ := h₂.trans (h₃.trans h₄)
  rw [← h₁.store, ← save_inserted hsize hdvd s₁ p, ← save_store_congr h₂₄.store]
  exact stqd_updates (hea.after h₂₄) hmerged

/-- Access to scalars is exact. At a multiple of its size, wherever that is in a quadword, a store
changes the bytes of the scalar to those in the slot of the value and leaves all others; a load
gives these bytes, extended as the type asks, and changes nothing. What was stored is loaded. -/
theorem memoryAccess_exact {ty : Ty} (hty : ty.isScalar = true) (address : Nat → Address)
    (a : Stream) (s : State) {base value : Register} (hbase : Known a.next base)
    (hvalue : Known a.next value) (offset : BitVec 32)
    (haligned : ty.size ∣ ((s.registers base).word 0 + offset).toNat) :
    let ea : Address := ((s.registers base).word 0 + offset).setWidth 18
    let number := (s.registers value).slot ty.size
    Updates address (storeMemory base offset.toInt value ty) a s
        (writeNat s.store ea ty.size number) (fun _ _ _ => True) ∧
      Computes address (loadMemory base offset.toInt ty) a s
        (Holds (loadedValue ty (readNat s.store ea ty.size))) ∧
      Updates address (do storeMemory base offset.toInt value ty; loadMemory base offset.toInt ty) a s
        (writeNat s.store ea ty.size number)
        (Holds (loadedValue ty (number % 256 ^ ty.size))) := by
  intro ea number
  have hx : Holds (.word ((s.registers base).word 0)) base a s := ⟨hbase, rfl⟩
  have hstored : Updates address (storeMemory base offset.toInt value ty) a s
      (writeNat s.store ea ty.size number) fun _ _ _ => True :=
    storeMemory_updates hty hx ⟨hvalue, rfl⟩ offset haligned
  refine ⟨hstored, loadMemory_computes hty hx offset haligned, ?_⟩
  refine hstored.bind fun _ b t hmoves hstore _ => ?_
  have hread : readNat t.store ea ty.size = number % 256 ^ ty.size := by
    rw [hstore]
    exact readNat_writeNat s.store ea number (Ty.size_dvd_eight hty)
  rw [← hread]
  exact loadMemory_computes hty (hx.moved hmoves) offset haligned

/-- A base in the first register and a value in the others, over a store of equal bytes. -/
def baseAndValue : State where
  registers r := if r = .virtual 0 then .splat 0x1005#32 else .splat 0x1234FFFE#32
  store _ := 0x55#8

/-- A negative half in the middle of a quadword, too far away for a short immediate. -/
theorem negativeHalf_exact :
    Ty.i2.size ∣ ((baseAndValue.registers (.virtual 0)).word 0 + 0x2001#32).toNat ∧
      Updates (fun _ => 0) (do
          storeMemory (.virtual 0) (0x2001#32).toInt (.virtual 1) .i2
          loadMemory (.virtual 0) (0x2001#32).toInt .i2)
        ⟨2, #[]⟩ baseAndValue (writeNat (fun _ => 0x55#8) 0x3006#18 2 0x1234FFFE)
        (Holds (.word 0xFFFFFFFE#32)) := by
  have haligned : Ty.i2.size ∣ ((baseAndValue.registers (.virtual 0)).word 0 + 0x2001#32).toNat := by
    decide
  have hbase : Known 2 (.virtual 0) := Nat.two_pos
  have hvalue : Known 2 (.virtual 1) := Nat.one_lt_two
  have hexact := memoryAccess_exact rfl (fun _ => 0) ⟨2, #[]⟩ baseAndValue hbase hvalue 0x2001#32
    haligned
  exact ⟨haligned, hexact.2.2⟩

end Emit

end SpuCompiler.Selection
