import SpuCompiler.Proofs.Selection.FrameLayout
import SpuCompiler.Proofs.Selection.MemoryAccess

/-!
What the code of a frame does. The prologue saves the link register above the new frame and the
stack pointer at its bottom, and then stores arguments, which reaches slots and registers of
variables only. The epilogue finds the link register where it was saved and returns to it.
-/

namespace SpuCompiler.Selection

open Machine Metadata Bytecode Trees Objects

variable {a : Stream} {s t : State}

/-! ## Code that changes a region -/

def Executes (address : Nat → Address) (a b : Stream) (s t : State) : Prop :=
  ∃ code, b.code.toList = a.code.toList ++ code ∧ s.run address code = some t

theorem Executes.trans {address : Nat → Address} {b c : Stream} {u : State}
    (h : Executes address a b s t) (h' : Executes address b c t u) : Executes address a c s u := by
  obtain ⟨code, hcode, hrun⟩ := h
  obtain ⟨more, hmore, hrun'⟩ := h'
  refine ⟨code ++ more, by rw [hmore, hcode, List.append_assoc], ?_⟩
  rw [State.run_append, hrun, Option.bind_some, hrun']

theorem executes_instr {address : Nat → Address} {i : Instr} (h : s.exec address i = some t) :
    Executes address a { a with code := a.code.push i } s t :=
  ⟨[i], Array.toList_push .., by rw [State.run, h, Option.bind_some, State.run]⟩

/-- The fragment adds code that changes new registers and the given region of the store. -/
def Alters (address : Nat → Address) (base : Address) (low high : Nat) (e : Emit Unit) (a : Stream)
    (s : State) : Prop :=
  ∃ b t, e.run a = ((), b) ∧ Moves address a b s t ∧ SameOutside base low high s.store t.store

section Alters

variable {address : Nat → Address} {base : Address} {low high : Nat} {a : Stream} {s : State}

theorem Computes.alters {α : Type} {e : Emit α} {f : α → Emit Unit} {P : α → Stream → State → Prop}
    (h : Computes address e a s P) (hf : ∀ x b t, Advances address a b s t → P x b t →
      Alters address base low high (f x) b t) : Alters address base low high (e >>= f) a s := by
  obtain ⟨x, b, t, hrun, hadv, hx⟩ := h
  obtain ⟨c, u, hrun', hmoves, hsame⟩ := hf x b t hadv hx
  refine ⟨c, u, ?_, hadv.moves.trans hmoves, hadv.store ▸ hsame⟩
  rw [StateT.run_bind, hrun]
  exact hrun'

theorem Alters.bind {e : Emit Unit} {f : Unit → Emit Unit} (h : Alters address base low high e a s)
    (hf : ∀ b t, Moves address a b s t → Alters address base low high (f ()) b t) :
    Alters address base low high (e >>= f) a s := by
  obtain ⟨b, t, hrun, hmoves, hsame⟩ := h
  obtain ⟨c, u, hrun', hmoves', hsame'⟩ := hf b t hmoves
  refine ⟨c, u, ?_, hmoves.trans hmoves', hsame.trans hsame'⟩
  rw [StateT.run_bind, hrun]
  exact hrun'

end Alters

namespace Emit

variable {address : Nat → Address} {base : Address} {a : Stream} {s : State} {ra rb : Register}

section Region

variable {k high : Nat} (hbase : 16 ∣ base.toNat) (hk : 16 ∣ k) (hhigh : 16 ∣ high)
  (hfits : high ≤ 0x2000)
variable {index : Nat}

include hbase hk hhigh hfits

/-- A quadword that is stored by its number from the front of a region on. -/
theorem stqd_alters {y : BitVec 32} (hy : Holds (.word y) ra a s)
    (hplace : y.setWidth 18 = base + BitVec.ofNat 18 k) (hindex : k + 16 * (index + 1) ≤ high) :
    Alters address base k high (instr (.ri .stqd rb ra index)) a s := by
  have hword : (s.registers ra).word 0 = y := hy.2
  have hplace' : State.quadwordAddress (s.registers ra) index =
      base + BitVec.ofNat 18 (k + 16 * index) := by
    have hbytes : BitVec.ofInt 32 (16 * (index : Int)) = BitVec.ofNat 32 (16 * index) := by
      rw [← BitVec.ofInt_natCast]
      rfl
    rw [quadwordAddress_eq (by omega), hword, hbytes, setWidth_add_ofNat, hplace, BitVec.add_assoc,
      ← BitVec.ofNat_add]
  refine ⟨{ a with code := a.code.push _ }, _, rfl,
    ⟨executes_instr (State.exec_stqd address s rb ra index), Nat.le_refl _, fun _ _ => rfl⟩, ?_⟩
  rw [hplace']
  exact save_sameOutside hbase hk hhigh (by omega) (by omega) s _

theorem copyQuadwords_alters {y : BitVec 32} (hy : Holds (.word y) ra a s) (hrb : Known a.next rb)
    (hplace : y.setWidth 18 = base + BitVec.ofNat 18 k) {count : Nat}
    (hcount : k + 16 * (index + count) ≤ high) :
    Alters address base k high (copyQuadwords ra rb index count) a s := by
  induction count generalizing index a s with
  | zero => exact ⟨a, s, rfl, (Advances.refl a s).moves, .refl _⟩
  | succ count ih =>
    have hload : Computes address (ri .lqd rb index) a s
        (Gives (s.load (State.quadwordAddress (s.registers rb) index))) :=
      fresh_computes (fun rt => .ri .lqd rt rb index) (State.exec_lqd ..)
    refine hload.alters fun value b t hadv hvalue => ?_
    have hy' := hy.after hadv
    refine (stqd_alters hbase hk hhigh hfits hy' hplace (by omega)).bind fun c u hmoves => ?_
    exact ih (hy'.moved hmoves) (hrb.mono (hadv.next_le.trans hmoves.next_le)) (by omega)

/-- A store of a value of any type changes the quadwords that the type covers, and one at least. -/
theorem storeMemory_alters {x : BitVec 32} (hx : Holds (.word x) ra a s) (hrb : Known a.next rb)
    (hplace : x.setWidth 18 = base) (ty : Ty) (hone : k + 16 ≤ high)
    (hcovers : k + 16 * Binary.quadwords ty.size ≤ high) :
    Alters address base k high (storeMemory ra (signed32 k) rb ty) a s := by
  have hplace' : (x + BitVec.ofNat 32 k).setWidth 18 = base + BitVec.ofNat 18 k := by
    rw [setWidth_add_ofNat, hplace]
  unfold storeMemory signed32
  refine (addImmediate_computes hx (BitVec.ofNat 32 k)).alters fun ea b t h hea => ?_
  split
  · exact copyQuadwords_alters hbase hk hhigh hfits hea (hrb.mono h.next_le) hplace' (by omega)
  · refine (lqd_computes hea).alters fun quadword b₁ s₁ h₁ hquad => ?_
    have hea₁ := hea.after h₁
    obtain ⟨f, hf⟩ : ∃ f, riResult (insertOpcode ty.size) = some f := by
      unfold insertOpcode
      split <;> exact ⟨_, rfl⟩
    refine (ri_computes hf hea₁.gives 0).alters fun mask b₂ s₂ h₂ hmask => ?_
    have hvalue : Gives (s₂.registers rb) rb b₂ s₂ :=
      ⟨hrb.mono (h.next_le.trans (h₁.next_le.trans h₂.next_le)), rfl⟩
    refine (rrr_computes rfl hvalue (hquad.after h₂) hmask).alters fun merged b₃ s₃ h₃ _ => ?_
    have hstored : k + 16 * (0 + 1) ≤ high := hone
    exact stqd_alters hbase hk hhigh hfits (hea₁.after (h₂.trans h₃)) hplace' hstored

end Region

end Emit

/-! ## Arguments -/

/-- The code between two streams changes virtual registers and the given region of the store. -/
structure Fills (address : Nat → Address) (base : Address) (low high : Nat) (a b : Stream)
    (s t : State) : Prop where
  executes : Executes address a b s t
  hardware : ∀ k, t.registers (.hardware k) = s.registers (.hardware k)
  store : SameOutside base low high s.store t.store

section Fills

variable {address : Nat → Address} {base : Address} {low high : Nat} {a b c : Stream} {s t u : State}

theorem Fills.refl (a : Stream) (s : State) : Fills address base low high a a s s :=
  ⟨⟨[], by simp, rfl⟩, fun _ => rfl, .refl _⟩

theorem Fills.trans (h : Fills address base low high a b s t)
    (h' : Fills address base low high b c t u) : Fills address base low high a c s u :=
  ⟨h.executes.trans h'.executes, fun k => (h'.hardware k).trans (h.hardware k),
    h.store.trans h'.store⟩

theorem Alters.fills {e : Emit Unit} {low' high' : Nat} (h : Alters address base low' high' e a s)
    (hlow : low ≤ low') (hhigh : high' ≤ high) :
    ∃ b t, e.run a = ((), b) ∧ Fills address base low high a b s t := by
  obtain ⟨b, t, hrun, hmoves, hsame⟩ := h
  exact ⟨b, t, hrun, hmoves.emitted, fun k => hmoves.registers _ trivial, hsame.mono hlow hhigh⟩

end Fills

theorem sixteen_le_slotSize (v : Variable) : 16 ≤ slotSize v := by
  unfold slotSize Binary.alignUp
  omega

theorem quadwords_le_slotSize {v : Variable} {ty : Ty} (h : storageType? v = some ty) :
    16 * Binary.quadwords ty.size ≤ slotSize v := by
  unfold slotSize Binary.alignUp Binary.quadwords
  simp only [h, Option.map_some, Option.getD_some]
  omega

namespace Frame

section Arguments

variable {address : Nat → Address} {base : Address} {low high : Nat} {a : Stream} {s : State}

theorem storeArgument_fills {v : Variable} (hbase : 16 ∣ base.toNat)
    (hsp : ((s.registers .sp).word 0).setWidth 18 = base) (hfits : high ≤ 0x2000)
    (hslot : ∀ k, v.storage = .frame k → 16 ∣ k ∧ low ≤ k ∧ k + slotSize v ≤ high) (n : Nat) :
    ∃ b t, (storeArgument v (.hardware n)).run a = ((), b) ∧ Fills address base low high a b s t := by
  unfold storeArgument
  split
  · rename_i k _ _
    refine ⟨_, _, rfl, executes_instr (State.exec_ri rfl address s _ _ 0), fun j => ?_, .refl _⟩
    exact State.registers_set_of_ne _ _ (by rintro ⟨⟩)
  · rename_i k ty hstorage hty
    obtain ⟨hk, hlow, hhigh⟩ := hslot k hstorage
    have hone := sixteen_le_slotSize v
    have hcovers := quadwords_le_slotSize hty
    have hpointer : Holds (.word ((s.registers .sp).word 0)) .sp a s := ⟨trivial, rfl⟩
    have hvalue : Known a.next (.hardware n) := trivial
    have hstored : Alters address base k (k + slotSize v)
        (Emit.storeMemory .sp (Emit.signed32 k) (.hardware n) ty) a s :=
      Emit.storeMemory_alters hbase hk (hk.add (sixteen_dvd_slotSize v)) (by omega) hpointer hvalue
        hsp ty (by omega) (by omega)
    exact hstored.fills hlow hhigh
  · exact ⟨a, s, rfl, .refl a s⟩

theorem storeArguments_fills (o : Options) {vars : Variables} (hbase : 16 ∣ base.toNat)
    (hsp : ((s.registers .sp).word 0).setWidth 18 = base) (hfits : high ≤ 0x2000)
    (hslots : ∀ id v k, vars.get? id = some v → v.storage = .frame k →
      16 ∣ k ∧ low ≤ k ∧ k + slotSize v ≤ high) (slot : Nat) (ids : List Nat) :
    ∃ b t, (storeArguments o vars slot ids).run a = ((), b) ∧
      Fills address base low high a b s t := by
  induction ids generalizing slot a s with
  | nil => exact ⟨a, s, rfl, .refl a s⟩
  | cons id ids ih =>
    rw [storeArguments]
    split
    · rename_i n v hn hv
      obtain ⟨b, t, hrun, hfills⟩ : ∃ b t, (storeArgument v (.hardware n)).run a = ((), b) ∧
          Fills address base low high a b s t :=
        storeArgument_fills hbase hsp hfits (hslots id v · hv) n
      have hsp' : ((t.registers .sp).word 0).setWidth 18 = base := by
        rw [← hsp]
        exact congrArg (fun q : Quadword => (q.word 0).setWidth 18) (hfills.hardware _)
      obtain ⟨c, u, hrun', hfills'⟩ := ih hsp' (slot + 1)
      refine ⟨c, u, ?_, hfills.trans hfills'⟩
      rw [StateT.run_bind, hrun]
      exact hrun'
    · exact ih hsp (slot + 1)

end Arguments

/-! ## Prologue and epilogue -/

section Code

variable {address : Nat → Address}
variable {f : Frame}

/-- The stack pointer moves by a word, and nothing else that was there before changes. -/
structure Shifts (address : Nat → Address) (v : BitVec 32) (a b : Stream) (s t : State) : Prop where
  executes : Executes address a b s t
  sp : t.registers .sp = (s.registers .sp).map (· + v)
  store : t.store = s.store

theorem map₂_splat (f : BitVec 32 → BitVec 32 → BitVec 32) (p : Quadword) (v : BitVec 32) :
    Quadword.map₂ f p (.splat v) = p.map (f · v) := by
  simp [Quadword.map₂, Quadword.map]

theorem adjustStack_shifts (v : BitVec 32) (a : Stream) (s : State) :
    ∃ b t, (adjustStack v.toInt).run a = ((), b) ∧ Shifts address v a b s t := by
  unfold adjustStack
  split
  · rename_i hshort
    refine ⟨_, _, rfl, executes_instr (State.exec_ri rfl address s .sp .sp v.toInt), ?_, rfl⟩
    rw [State.registers_set_self, Emit.immediateWord_short hshort]
  · have hload : Computes address (Emit.loadImmediate v.toInt) a s (Gives (.splat v)) :=
      Emit.loadImmediate_computes v
    obtain ⟨r, b, t, hrun, hadv, hr⟩ := hload
    have hsp : t.registers .sp = s.registers .sp := hadv.registers .sp trivial
    have hloaded : Executes address a b s t := hadv.emitted
    refine ⟨{ b with code := b.code.push (.rr .a .sp .sp r) }, _, ?_,
      hloaded.trans (executes_instr (State.exec_rr rfl address t .sp .sp r)), ?_, hadv.store⟩
    · rw [StateT.run_bind, hrun]
      rfl
    · rw [State.registers_set_self, hr.2, hsp, map₂_splat]

def pointer (f : Frame) (s : State) : BitVec 32 := (s.registers .sp).word 0 - BitVec.ofNat 32 f.size

def linkAddress (s : State) : Address := ((s.registers .sp).word 0 + 16#32).setWidth 18

/-- What the prologue makes of the state in which a routine is entered. -/
structure Entered (f : Frame) (s t : State) : Prop where
  sp : t.registers .sp = (s.registers .sp).map (· - BitVec.ofNat 32 f.size)
  link : t.load (linkAddress s) = s.registers .lr
  chain : t.load ((f.pointer s).setWidth 18) = s.registers .sp

/-- The link register is saved behind the frame. -/
theorem linkAddress_eq (f : Frame) (s : State) :
    linkAddress s = (f.pointer s).setWidth 18 + BitVec.ofNat 18 (f.size + 16) := by
  rw [← setWidth_add_ofNat, linkAddress, pointer, BitVec.ofNat_add, ← BitVec.add_assoc,
    BitVec.sub_add_cancel]

theorem neg_amount (h : f.size < 2 ^ 31) : -f.amount = (-BitVec.ofNat 32 f.size).toInt := by
  have hamount : (BitVec.ofNat 32 f.size).toInt = f.size := amount_eq h
  rw [BitVec.toInt_neg, hamount, amount_eq h, Int.bmod_eq_of_le] <;> omega

/-- The back chain is stored where the stack pointer will be. -/
theorem quadwordAddress_back (hdvd : 16 ∣ f.size) (hsize : f.size ≤ 0x2000) (s : State) :
    State.quadwordAddress (s.registers .sp) (-f.quadwords) = (f.pointer s).setWidth 18 := by
  have hbytes : (16 * -((f.size / 16 : Nat) : Int)) = -(f.size : Int) := by omega
  rw [quadwords_eq (by omega), quadwordAddress_eq (by omega), hbytes, BitVec.ofInt_neg,
    BitVec.ofInt_natCast, ← BitVec.sub_eq_add_neg]
  rfl

theorem dvd_pointer (hdvd : 16 ∣ f.size) (haligned : 16 ∣ ((s.registers .sp).word 0).toNat) :
    16 ∣ ((f.pointer s).setWidth 18).toNat := by
  rw [BitVec.toNat_setWidth, pointer, BitVec.toNat_sub, BitVec.toNat_ofNat]
  omega

def saved (f : Frame) (s : State) : State :=
  (s.save (linkAddress s) (s.registers .lr)).save ((f.pointer s).setWidth 18) (s.registers .sp)

section Saved

variable {f : Frame} (hdvd : 16 ∣ f.size) (hsize : f.size ≤ 0x2000) {s : State}

include hdvd hsize

theorem saved_executes (a : Stream) : Executes address a { a with
      code := (a.code.push (.ri .stqd .lr .sp 1)).push (.ri .stqd .sp .sp (-f.quadwords)) }
    s (f.saved s) := by
  have hlink : s.exec address (.ri .stqd .lr .sp 1) =
      some (s.save (linkAddress s) (s.registers .lr)) := by
    rw [State.exec_stqd, quadwordAddress_eq (by decide)]
    rfl
  refine (executes_instr hlink).trans (executes_instr ?_)
  rw [State.exec_stqd]
  exact congrArg (fun x => some (State.save _ x (s.registers .sp))) (quadwordAddress_back hdvd hsize s)

/-- The back chain is below what was saved before it. -/
theorem load_saved (haligned : 16 ∣ ((s.registers .sp).word 0).toNat) :
    (f.saved s).load (linkAddress s) = s.registers .lr := by
  have hbase := dvd_pointer hdvd haligned
  have hchain := save_sameOutside hbase (Nat.dvd_zero 16) (Nat.dvd_refl 16) (by decide)
    ⟨Nat.le_refl 0, by decide⟩ (s.save (linkAddress s) (s.registers .lr)) (s.registers .sp)
  rw [BitVec.add_zero] at hchain
  have hkept := hchain.load_eq hbase (k := f.size + 16) (by omega) (by omega) (.inr (by omega))
  rw [← linkAddress_eq f s] at hkept
  exact hkept.trans (load_save ..)

theorem prologue_enters {o : Options} (hlink : 32 ≤ o.linkAreaSize)
    (hslots : ∀ id v k, f.vars.get? id = some v → v.storage = .frame k →
      16 ∣ k ∧ o.linkAreaSize ≤ k ∧ k + slotSize v ≤ f.size) (arguments : List Nat) (a : Stream)
    (haligned : 16 ∣ ((s.registers .sp).word 0).toNat) :
    ∃ b t, (f.prologue o arguments).run a = ((), b) ∧ Executes address a b s t ∧ f.Entered s t := by
  have hbase := dvd_pointer hdvd haligned
  obtain ⟨mid, hmid, hsaved⟩ : ∃ mid : Stream, { a with
      code := (a.code.push (.ri .stqd .lr .sp 1)).push (.ri .stqd .sp .sp (-f.quadwords)) } = mid ∧
      Executes address a mid s (f.saved s) := ⟨_, rfl, saved_executes hdvd hsize a⟩
  obtain ⟨b, t, hrun, hshifts⟩ : ∃ b t,
      (adjustStack (-BitVec.ofNat 32 f.size).toInt).run mid = ((), b) ∧
      Shifts address (-BitVec.ofNat 32 f.size) mid b (f.saved s) t := adjustStack_shifts _ _ _
  have hsp : t.registers .sp = (s.registers .sp).map (· - BitVec.ofNat 32 f.size) := by
    simp only [BitVec.sub_eq_add_neg]
    exact hshifts.sp
  have hbottom : ((t.registers .sp).word 0).setWidth 18 = (f.pointer s).setWidth 18 := by
    rw [hsp, Quadword.word_map, pointer]
  obtain ⟨c, u, hrun', hfills⟩ : ∃ c u, (storeArguments o f.vars 0 arguments).run b = ((), c) ∧
      Fills address ((f.pointer s).setWidth 18) o.linkAreaSize f.size b c t u :=
    storeArguments_fills o hbase hbottom hsize hslots 0 arguments
  refine ⟨c, u, ?_, (hsaved.trans hshifts.executes).trans hfills.executes, ?_, ?_, ?_⟩
  · unfold prologue
    rw [neg_amount (by omega)]
    change ((adjustStack _).run { a with code := _ } >>= fun x =>
      (storeArguments o f.vars 0 arguments).run x.2) = _
    rw [hmid, hrun]
    exact hrun'
  · exact (hfills.hardware _).trans hsp
  · have hkept : u.load (linkAddress s) = t.load (linkAddress s) := by
      rw [linkAddress_eq f s]
      exact hfills.store.load_eq hbase (by omega) (by omega) (.inr (by omega))
    rw [hkept, load_congr hshifts.store, load_saved hdvd hsize haligned]
  · have hkept := hfills.store.load_eq hbase (Nat.dvd_zero 16) (by decide) (.inl (by omega))
    rw [BitVec.add_zero] at hkept
    rw [hkept, load_congr hshifts.store]
    exact load_save ..

end Saved

/-- The epilogue moves the stack pointer up by the size of the frame and loads the link register from
above it. -/
theorem epilogue_leaves (address : Nat → Address) (f : Frame) (a : Stream) (t : State) :
    ∃ b code u, f.epilogue.run a = ((), b) ∧ b.code.toList = a.code.toList ++ (code ++ [returnBranch]) ∧
      t.run address code = some u ∧
      u.registers .sp = (t.registers .sp).map (· + BitVec.ofNat 32 f.size) ∧
      u.registers .lr =
        t.load (((t.registers .sp).word 0 + BitVec.ofNat 32 f.size + 16#32).setWidth 18) := by
  obtain ⟨b, u, hrun, hshifts⟩ : ∃ b u,
      (adjustStack (BitVec.ofNat 32 f.size).toInt).run a = ((), b) ∧
      Shifts address (BitVec.ofNat 32 f.size) a b t u := adjustStack_shifts _ _ _
  have hload := executes_instr (a := b) (State.exec_lqd address u .lr .sp 1)
  obtain ⟨code, hcode, hexec⟩ := hshifts.executes.trans hload
  refine ⟨{ b with code := (b.code.push (.ri .lqd .lr .sp 1)).push returnBranch }, code, _, ?_, ?_,
    hexec, ?_, ?_⟩
  · unfold epilogue amount Emit.signed32
    rw [StateT.run_bind, hrun]
    rfl
  · rw [← List.append_assoc, ← hcode]
    exact Array.toList_push ..
  · exact (State.registers_set_of_ne _ _ (by decide)).trans hshifts.sp
  · rw [State.registers_set_self, load_congr hshifts.store, quadwordAddress_eq (by decide), hshifts.sp,
      Quadword.word_map]
    rfl

/-- From the stack pointer of the frame, with the saved link register as it was, the epilogue returns
to where the routine was called. -/
theorem epilogue_returns (address : Nat → Address) (f : Frame) (hempty : a.code = #[])
    (hsp : (t.registers .sp).word 0 = f.pointer s)
    (hload : t.load (linkAddress s) = s.registers .lr) :
    ∃ u, t.leave? address (f.epilogue.run a).2.code.toList =
        some (u, State.codeAddress (s.registers .lr)) ∧
      u.registers .sp = (t.registers .sp).map (· + BitVec.ofNat 32 f.size) ∧
      (u.registers .sp).word 0 = (s.registers .sp).word 0 ∧ u.registers .lr = s.registers .lr := by
  obtain ⟨b, code, u, hrun, hcode, hexec, hup, hlr⟩ := epilogue_leaves address f a t
  have hpointer : (t.registers .sp).word 0 + BitVec.ofNat 32 f.size = (s.registers .sp).word 0 := by
    rw [hsp, pointer, BitVec.sub_add_cancel]
  have hreturns : u.registers .lr = s.registers .lr := by
    rw [hlr, hpointer]
    exact hload
  refine ⟨u, ?_, hup, ?_, hreturns⟩
  · rw [hrun, hcode, hempty, ← hreturns]
    exact State.leave?_concat hexec rfl
  · rw [hup, Quadword.word_map, hpointer]

/-- A store to a slot keeps what is above the frame. -/
theorem slot_keeps_link (hdvd : 16 ∣ f.size) (hsize : f.size ≤ 0x2000)
    (haligned : 16 ∣ ((s.registers .sp).word 0).toNat) {k size j : Nat} (hk : 16 ∣ k)
    (hslot : 16 ∣ size) (hend : k + size ≤ f.size) (hj : j < size) (t : State) (q : Quadword) :
    (t.save ((f.pointer s + BitVec.ofNat 32 (k + j)).setWidth 18) q).load (linkAddress s) =
      t.load (linkAddress s) := by
  have hbase := dvd_pointer hdvd haligned
  rw [setWidth_add_ofNat, linkAddress_eq f s]
  refine (save_sameOutside hbase hk (hk.add hslot) (by omega) ⟨by omega, by omega⟩ t q).load_eq hbase
    (by omega) (by omega) (.inr (by omega))

end Code

end Frame

/-! ## Routines -/

theorem Lowering.code_lowerBlocks (L : Lowering) (bs : List Block) {p : Progress}
    (h : p.stream.code = #[]) : ((L.lowerBlocks bs).run p).2.stream.code = #[] := by
  induction bs generalizing p with
  | nil => exact h
  | cons b bs ih => exact ih rfl

/-- Frames are disjoint and balanced. Variables in memory have slots of their own between the link
area and the end of the frame, and all others registers of their own. The prologue moves the stack
pointer down by the size of the frame, with the link register saved above the frame and the old
stack pointer at its bottom; from there the epilogue returns, with both as they were. No store to a
slot reaches the saved link register. -/
theorem select_balances {m : Method} {body : Body} {resolver : Resolver} {r : Routine}
    (hbuild : build m body resolver = .ok r) {o : Options} (hvalid : o.validate = .ok ())
    {a a' : Arena} {id : ObjectId} {x : SelectedRoutine} (hselect : select o a r id = .ok (x, a'))
    (hsize : x.frame.size < 2 ^ 31) :
    x.frame.Allocates o r.vars ∧
    (∀ b ∈ r.blocks, ∀ root ∈ b.roots, ∀ n ∈ root.postorder, n.TakesAddress →
      ∃ id v, n.varId? = some id ∧ r.vars.get? id = some v ∧ InMemory v) ∧
    ∀ (address : Nat → Address) (s : State), 16 ∣ ((s.registers .sp).word 0).toNat →
      (∃ t, s.run address x.prologue.code.toList = some t ∧ x.frame.Entered s t) ∧
      (∀ t : State, (t.registers .sp).word 0 = x.frame.pointer s →
        t.load (Frame.linkAddress s) = s.registers .lr →
        ∃ u, t.leave? address x.epilogue.code.toList = some (u, State.codeAddress (s.registers .lr)) ∧
          u.registers .sp = (t.registers .sp).map (· + BitVec.ofNat 32 x.frame.size) ∧
          (u.registers .sp).word 0 = (s.registers .sp).word 0 ∧
          u.registers .lr = s.registers .lr) ∧
      ∀ id v k, x.frame.vars.get? id = some v → v.storage = .frame k →
        ∀ j < Binary.alignUp (max 16 (typeSize v)) 16, ∀ (t : State) (q : Quadword),
          (t.save ((x.frame.pointer s + BitVec.ofNat 32 (k + j)).setWidth 18) q).load
            (Frame.linkAddress s) = t.load (Frame.linkAddress s) := by
  obtain ⟨hlink, hlinkDvd⟩ := Options.linkArea_of_validate hvalid
  obtain ⟨objects, a₁, codes, p, q, e, -, hp, hlow, he, hfaults, -, -, rfl⟩ := select_run hselect
  have hdvd := Frame.size_dvd o r.vars
  have hle := Frame.size_le hfaults hsize
  have hslots : ∀ id v k, (Frame.of o r.vars).vars.get? id = some v → v.storage = .frame k →
      16 ∣ k ∧ o.linkAreaSize ≤ k ∧ k + slotSize v ≤ (Frame.of o r.vars).size :=
    fun _ _ _ => Frame.slot_bounds hlinkDvd
  refine ⟨Frame.of_allocates hlinkDvd, ?_, fun address s haligned => ⟨?_, ?_, ?_⟩⟩
  · intro b hb root hroot n hn haddress
    obtain ⟨id, v, hid, hv, hescapes⟩ :=
      ((build_wellFormed hbuild).roots b hb root hroot n hn).marked haddress
    exact ⟨id, v, hid, hv, .inl hescapes⟩
  · obtain ⟨b, t, hrun, ⟨code, hcode, hexec⟩, hentered⟩ : ∃ b t,
        ((Frame.of o r.vars).prologue o r.arguments).run { next := (Frame.of o r.vars).registers } =
          ((), b) ∧
        Executes address { next := (Frame.of o r.vars).registers } b s t ∧
        (Frame.of o r.vars).Entered s t :=
      Frame.prologue_enters hdvd hle hlink hslots r.arguments _ haligned
    rw [hrun] at hp
    subst hp
    refine ⟨t, ?_, hentered⟩
    rw [hcode]
    exact hexec
  · intro t hsp hload
    have hempty : q.stream.code = #[] := by
      have hcode := Lowering.code_lowerBlocks ⟨r.name, o, (Frame.of o r.vars).vars⟩ r.blocks.toList
        (p := { stream := { p with code := #[] }, arena := a₁ }) rfl
      rwa [hlow] at hcode
    rw [he]
    exact Frame.epilogue_returns address _ hempty hsp hload
  · intro id v k hv hk j hj t q'
    obtain ⟨hdvd', -, hend⟩ := hslots id v k hv hk
    rw [← slotSize_eq] at hj
    exact Frame.slot_keeps_link hdvd hle haligned hdvd' (sixteen_dvd_slotSize v) hend hj t q'

/-- Stores a number through the address of a local, behind an argument of 500 bytes. -/
def spill : Method :=
  { name := "spill", parameters := [.struct ⟨"Samples", [], 500⟩, .i4], returnType := .i4 }

def spillBody : Body :=
  { code := [0x12, 0x00, 0x03, 0x54, 0x06, 0x2A], locals := [.i4] }

def spillOnly : Arena := ({} : Arena).push { name := "spill", kind := .routine none }

/-- A caller with its stack pointer near the end of the local store. -/
def caller : State where
  registers r := if r = .sp then .splat 0x3F000#32 else .splat 0x1234#32
  store _ := 0#8

/-- The frame takes 560 bytes, more than a short immediate. The number stays in a register. -/
theorem spill_balances :
    ∃ r x a', build spill spillBody ({} : TokenTable).resolver = .ok r ∧
      select {} spillOnly r 0 = .ok (x, a') ∧ x.frame.size = 560 ∧
      x.frame.vars.entries.map (·.storage) = #[.frame 32, .register 0, .frame 544] ∧
      ∃ t u, caller.run (fun _ => 0) x.prologue.code.toList = some t ∧
        (t.registers .sp).word 0 = 0x3EDD0#32 ∧ t.load 0x3F010#18 = .splat 0x1234#32 ∧
        t.leave? (fun _ => 0) x.epilogue.code.toList = some (u, 0x1234#18) ∧
        (u.registers .sp).word 0 = 0x3F000#32 := by
  have hrun : ((build spill spillBody ({} : TokenTable).resolver).toOption.bind fun r =>
      (select {} spillOnly r 0).toOption.map fun y =>
        (y.1.frame.size, y.1.frame.vars.entries.map (·.storage))) =
      some (560, #[.frame 32, .register 0, .frame 544]) := by decide +kernel
  obtain ⟨r, hr, hrun⟩ := Option.bind_eq_some_iff.mp hrun
  obtain ⟨⟨x, a'⟩, hx, hrun⟩ := Option.map_eq_some_iff.mp hrun
  obtain ⟨hsize, hstorage⟩ := Prod.mk.inj hrun
  have hbuild := toOption_eq_some.mp hr
  have hselect := toOption_eq_some.mp hx
  dsimp only at hsize hstorage
  have haligned : 16 ∣ ((caller.registers .sp).word 0).toNat := by decide
  obtain ⟨-, -, hcode⟩ := select_balances hbuild rfl hselect (by rw [hsize]; decide)
  obtain ⟨⟨t, ht, hentered⟩, hleaves, -⟩ := hcode (fun _ => 0) caller haligned
  have hsp : (t.registers .sp).word 0 = x.frame.pointer caller := by
    rw [hentered.sp, Quadword.word_map]
    rfl
  obtain ⟨u, hu, -, hup, -⟩ := hleaves t hsp hentered.link
  refine ⟨r, x, a', hbuild, hselect, hsize, hstorage, t, u, ht, ?_, hentered.link, hu, hup⟩
  rw [hsp, Frame.pointer, hsize]
  decide

end SpuCompiler.Selection
