import SpuCompiler.Proofs.Selection.Lowering
import SpuCompiler.Proofs.Selection.MemoryAccess

/-!
Access to static fields. A field is the front of an object of its own, so it can be accessed by the
name of the object, with rotations that are known beforehand, or by its address, as any other place
in memory. Both ways read the same value and leave the same store.
-/

namespace SpuCompiler.Trees

open Bytecode Metadata

/-- The instruction of a node, wherever it stands and whatever the type of its value. -/
def Head.Is (h : Head) (op : Op) (operand : Operand Ref) : Prop := h.op = op ∧ h.operand = operand

end SpuCompiler.Trees

namespace SpuCompiler.Selection

open Machine Metadata Bytecode Trees Objects

variable {a : Stream} {s : State}

namespace Emit

variable {address : Nat → Address} {a : Stream} {s : State} {p : Quadword} {ra : Register}
  {ty : Ty} {id : ObjectId}

theorem ila_computes (id : ObjectId) :
    Computes address (targeted .ila (.object id)) a s
      (Holds (.word ((address id).setWidth 32))) := by
  have hila : Computes address (targeted .ila (.object id)) a s
      (Gives (.splat ((address id).setWidth 32))) :=
    fresh_computes (fun rt => .withTarget .ila (some rt) (.object id))
      (by simp [State.exec, Instr.withTarget])
  exact hila.mono fun _ _ _ _ hr => hr.holds (Quadword.word_splat ..)

theorem toNat_mod_of_front {x : Address} (h : x &&& 0x3FFF0#18 = x) : x.toNat % 16 = 0 := by
  have hfront := toNat_quadword x
  rw [h] at hfront
  omega

theorem dvd_toNat_of_mod {size n : Nat} (hsize : size ∣ 8) (h : n % 16 = 0) : size ∣ n := by
  obtain ⟨k, rfl⟩ := Nat.dvd_of_mod_eq_zero h
  exact Dvd.dvd.mul_right (hsize.trans (by decide)) k

variable (hty : ty.isScalar = true) (hfront : address id &&& 0x3FFF0#18 = address id)

include hty hfront

theorem extendFront_computes (hsize : ty.size < 4) {constant : Int}
    (hconstant : ((immediateWord 7 constant).toNat + (4 - ty.size)) % 16 = 0) {b : Stream}
    {t : State} (hp : Gives (s.load (address id)) ra b t) :
    Computes address (do
        let value ← ri .rotqbyi ra constant
        extend value ty) b t
      (Holds (loadedValue ty (readNat s.store (address id) ty.size))) := by
  have hmod := toNat_mod_of_front hfront
  have hdvd := dvd_toNat_of_mod (Ty.size_dvd_eight hty) hmod
  refine (ri_computes rfl hp constant).bind fun _ _ _ _ hvalue => ?_
  exact extend_rotated hty hdvd (Quadword.byte_ofBytes _) (hconstant.trans hmod.symm) hsize hvalue

theorem loadObject_computes :
    Computes address (loadObject (.object id) ty) a s
      (Holds (loadedValue ty (readNat s.store (address id) ty.size))) := by
  have hmod := toNat_mod_of_front hfront
  have hdvd := dvd_toNat_of_mod (Ty.size_dvd_eight hty) hmod
  unfold loadObject
  refine (lqr_computes id).bind fun quadword b t h hquad => ?_
  split
  · rename_i hsize
    exact extendFront_computes hty hfront (by omega) (by rw [hsize]; decide) hquad
  · rename_i hsize
    exact extendFront_computes hty hfront (by omega) (by rw [hsize]; decide) hquad
  · rename_i hone htwo
    -- The scalar is where it should be: this is a rotation by nothing.
    have hsame : ∀ j, (s.load (address id)).byte j = (s.load (address id)).byte (j + Fin.ofNat 16 0) :=
      fun j => congrArg _ (add_zero j).symm
    have hsize := Ty.four_le_size hty hone htwo
    exact .pure (hquad.holds (inSlot_rotated hty hdvd hsame (by omega) hsize))

theorem storeObject_updates (hsp : ((s.registers .sp).word 0).toNat % 16 = 0)
    (hp : Gives p ra a s) :
    Updates address (storeObject (.object id) ra ty) a s
      (writeNat s.store (address id) ty.size (p.slot ty.size)) fun _ _ _ => True := by
  have hsize := Ty.size_dvd_eight hty
  have hmod := toNat_mod_of_front hfront
  have hdvd := dvd_toNat_of_mod hsize hmod
  have hpattern : insertPatternAt ty.size (s.registers .sp) 0 =
      .insertPattern ty.size ((address id).toNat % 16) := by
    have hplace := toNat_setWidth_mod ((s.registers .sp).word 0)
    rw [insertPatternAt_zero hsize (dvd_toNat_of_mod hsize (hplace.trans hsp)) rfl, hplace, hsp, hmod]
  unfold storeObject
  refine (lqr_computes id).updates fun quadword b₁ s₁ h₁ hquad => ?_
  have hstack : Gives (s.registers .sp) .sp b₁ s₁ := ⟨trivial, h₁.registers .sp trivial⟩
  refine (ri_computes (insertOpcode_result hsize) hstack 0).updates fun mask b₂ s₂ h₂ hmask => ?_
  rw [hpattern] at hmask
  have h₁₂ := h₁.trans h₂
  refine (rrr_computes rfl (hp.after h₁₂) (hquad.after h₂) hmask).updates
    fun merged b₃ s₃ h₃ hmerged => ?_
  rw [← save_inserted hsize hdvd s p, ← save_store_congr (h₁₂.trans h₃).store]
  refine instr_updates ?_
  simp [State.exec, Instr.withTarget, hmerged.2, State.save]

/-! ### By the address -/

omit hty hfront in
theorem setWidth_address_add (x : Address) : (x.setWidth 32 + 0#32).setWidth 18 = x := by
  rw [BitVec.add_zero]
  exact BitVec.setWidth_setWidth_of_le x (by omega)

theorem dvd_toNat_address : ty.size ∣ ((address id).setWidth 32 + 0#32).toNat := by
  rw [BitVec.add_zero, BitVec.toNat_setWidth_of_le (by omega)]
  exact dvd_toNat_of_mod (Ty.size_dvd_eight hty) (toNat_mod_of_front hfront)

theorem loadAt_computes (hr : Holds (.word ((address id).setWidth 32)) ra a s) :
    Computes address (loadMemory ra 0 ty) a s
      (Holds (loadedValue ty (readNat s.store (address id) ty.size))) := by
  refine (loadMemory_computes hty hr 0#32 (dvd_toNat_address hty hfront)).mono fun r b t _ hr => ?_
  rwa [setWidth_address_add] at hr

theorem storeAt_updates {rb : Register} (hr : Holds (.word ((address id).setWidth 32)) ra a s)
    (hp : Gives p rb a s) :
    Updates address (storeMemory ra 0 rb ty) a s
      (writeNat s.store (address id) ty.size (p.slot ty.size)) fun _ _ _ => True := by
  have hstore : Updates address (storeMemory ra (0#32).toInt rb ty) a s
      (writeNat s.store _ ty.size (p.slot ty.size)) fun _ _ _ => True :=
    storeMemory_updates hty hr hp 0#32 (dvd_toNat_address hty hfront)
  rwa [setWidth_address_add] at hstore

end Emit

/-! ## Trees -/

/-- The tree is lowered without an error. Its code runs to its end and leaves the given store, and
then the condition holds of its register. -/
def LowersTo (address : Nat → Address) (L : Lowering) (n : Node) (p : Progress) (s : State)
    (store : Address → BitVec 8) (Q : Option Register → Stream → State → Prop) : Prop :=
  ∃ o q t, (L.lower n).run p = (o, q) ∧ q.errors = p.errors ∧
    Moves address p.stream q.stream s t ∧ t.store = store ∧ Q o q.stream t

/-- Wherever a condition holds, the code of the tree leaves a number in the slot of a register and
stores nothing. The condition is kept by code that stores nothing. -/
structure Delivers (address : Nat → Address) (L : Lowering) (v : Node) (size number : Nat)
    (Inv : Progress → State → Prop) : Prop where
  kept : ∀ {p stream s t}, Inv p s → Advances address p.stream stream s t →
    Inv { p with stream := stream } t
  code : ∀ {p s}, Inv p s → LowersTo address L v p s s.store fun o a t =>
    ∃ r, o = some r ∧ Known a.next r ∧ (t.registers r).slot size = number

theorem Computes.updates_self {α : Type} {address : Nat → Address} {e : Emit α}
    {Q : α → Stream → State → Prop} (h : Computes address e a s Q) :
    Updates address e a s s.store Q := by
  obtain ⟨x, b, t, hrun, hadv, hx⟩ := h
  exact ⟨x, b, t, hrun, hadv.moves, hadv.store, hx⟩

theorem Moves.advances {address : Nat → Address} {b : Stream} {t : State}
    (h : Moves address a b s t) (hstore : t.store = s.store) : Advances address a b s t :=
  ⟨h.emitted, h.next_le, h.registers, hstore⟩

theorem Code.effect_updates {address : Nat → Address} {e : Emit Unit} {store : Address → BitVec 8}
    (h : Updates address e a s store fun _ _ _ => True) :
    Updates address (do e; return none : Emit (Option Register)) a s store fun _ _ _ => True :=
  h.bind fun _ _ _ _ _ _ => .pure trivial

section Access

variable {address : Nat → Address} {L : Lowering} {p : Progress} {s : State}
variable {n : Node} {op : Op} {regs : List Register} {e : Emit (Option Register)} {q : Progress}
  {load place store : Head}

theorem lowerNode_run {o : Option Register} {b : Stream} (hop : n.op = op)
    (hwide : ∀ c, op ≠ .ldc c) (hpops : op.pops = .fixed regs.length)
    (hcode : Code.ofOp ⟨L.options, L.vars, p.arena⟩ n regs = .ok e)
    (hemit : e.run p.stream = (o, b)) :
    (L.lowerNode n regs).run p = (o, { p with stream := b }) := by
  subst hop
  unfold Lowering.lowerNode
  simp only [Lowering.wideConstant?_eq_none hwide, StateT.run_bind, StateT.run_get, pure_bind,
    Code.of, hpops, if_true, hcode]
  change ((e.run p.stream).1, { p with stream := (e.run p.stream).2 }) = _
  rw [hemit]

/-- A node whose operands have been lowered runs the code of its operation. -/
theorem LowersTo.of_code {t : State} {store : Address → BitVec 8}
    {Q : Option Register → Stream → State → Prop}
    (hrun : (L.lower n).run p = (L.lowerNode n regs).run q) (herr : q.errors = p.errors)
    (hmoves : Moves address p.stream q.stream s t) (hop : n.op = op) (hwide : ∀ c, op ≠ .ldc c)
    (hpops : op.pops = .fixed regs.length)
    (hcode : Code.ofOp ⟨L.options, L.vars, q.arena⟩ n regs = .ok e)
    (h : Updates address e q.stream t store Q) : LowersTo address L n p s store Q := by
  obtain ⟨o, b, u, hemit, hmoves', hstore, hQ⟩ := h
  refine ⟨o, { q with stream := b }, u, ?_, herr, hmoves.trans hmoves', hstore, hQ⟩
  rw [hrun, lowerNode_run hop hwide hpops hcode hemit]

theorem run_operand {α : Type} {l : Node} {r : Register} {k : Register → LowerM α}
    (hl : (L.lower l).run p = (some r, q)) :
    (L.lower l >>= fun o => Lowering.orFresh o >>= k).run p = (k r).run q := by
  rw [StateT.run_bind, hl]
  rfl

variable {f : Field} {id : ObjectId} (hfind : p.arena.find? f.symbol = some id)

include hfind

theorem lower_address (hplace : place.Is .ldsflda (.field f)) :
    ∃ r b t, (L.lower (.leaf place)).run p = (some r, { p with stream := b }) ∧
      Advances address p.stream b s t ∧ Holds (.word ((address id).setWidth 32)) r b t := by
  obtain ⟨hop, hoperand⟩ := hplace
  have hila : Computes address (Emit.targeted .ila (.object id)) p.stream s
      (Holds (.word ((address id).setWidth 32))) := Emit.ila_computes id
  obtain ⟨o, b, t, hrun, hadv, r, rfl, hr⟩ := Code.value_yields hila
  refine ⟨r, b, t, ?_, hadv, hr⟩
  rw [Lowering.lower]
  refine lowerNode_run hop nofun rfl ?_ hrun
  simp [Code.ofOp, Node.op, Node.operand, Node.head, hop, hoperand, Code.withStatic,
    Code.withField, hfind, Code.value]

variable (hty : f.ty.isScalar = true) (hfront : address id &&& 0x3FFF0#18 = address id)

include hty hfront

theorem load_direct (hload : load.Is .ldsfld (.field f)) :
    LowersTo address L (.leaf load) p s s.store
      (Yields (loadedValue f.ty (readNat s.store (address id) f.ty.size))) := by
  obtain ⟨hop, hoperand⟩ := hload
  refine .of_code (by rw [Lowering.lower]) rfl (Advances.refl p.stream s).moves hop nofun rfl ?_
    (Code.value_yields (Emit.loadObject_computes hty hfront)).updates_self
  simp [Code.ofOp, Node.op, Node.operand, Node.head, hop, hoperand, Code.withStatic,
    Code.withField, hfind, Code.loadStatic, Ty.isValueType_of_isScalar hty, Code.value]

theorem load_byAddress (hload : load.Is .ldobj (.type f.ty))
    (hplace : place.Is .ldsflda (.field f)) :
    LowersTo address L (.unary load (.leaf place)) p s s.store
      (Yields (loadedValue f.ty (readNat s.store (address id) f.ty.size))) := by
  obtain ⟨hop, hoperand⟩ := hload
  obtain ⟨r, b, t, hrun, hadv, hr⟩ := lower_address (s := s) hfind hplace
  rw [← hadv.store]
  refine .of_code (q := { p with stream := b }) (by rw [Lowering.lower, run_operand hrun]) rfl
    hadv.moves hop nofun rfl ?_
    (Code.value_yields (Emit.loadAt_computes hty hfront hr)).updates_self
  simp [Code.ofOp, Node.op, Node.operand, Node.head, hop, hoperand, Code.withType, Code.unary,
    Code.value]

variable {v : Node} {number : Nat} {Inv : Progress → State → Prop}
  (hv : Delivers address L v f.ty.size number Inv) (hinv : Inv p s)

include hv hinv

theorem store_direct (hsp : ((s.registers .sp).word 0).toNat % 16 = 0)
    (hstore : store.Is .stsfld (.field f)) :
    LowersTo address L (.unary store v) p s (writeNat s.store (address id) f.ty.size number)
      fun _ _ _ => True := by
  obtain ⟨hop, hoperand⟩ := hstore
  obtain ⟨o, q, t, hrun, herr, hmoves, hkept, r, rfl, hknown, hnumber⟩ := hv.code hinv
  have hfound : q.arena.find? f.symbol = some id :=
    ((L.lower_growing v).grows hrun).arena.find? _ _ hfind
  have hstack : ((t.registers .sp).word 0).toNat % 16 = 0 := by
    rwa [hmoves.registers .sp trivial]
  rw [← hkept, ← hnumber]
  refine .of_code (by rw [Lowering.lower, run_operand hrun]) herr hmoves hop nofun rfl ?_
    (Code.effect_updates (Emit.storeObject_updates hty hfront hstack ⟨hknown, rfl⟩))
  simp [Code.ofOp, Node.op, Node.operand, Node.head, hop, hoperand, Code.withStatic,
    Code.withField, hfound, Code.unary, Code.storeStatic, Ty.isValueType_of_isScalar hty,
    Code.effect]

theorem store_byAddress (hstore : store.Is .stobj (.type f.ty))
    (hplace : place.Is .ldsflda (.field f)) :
    LowersTo address L (.binary store (.leaf place) v) p s
      (writeNat s.store (address id) f.ty.size number) fun _ _ _ => True := by
  obtain ⟨hop, hoperand⟩ := hstore
  obtain ⟨ra, b, t, hrun, hadv, hra⟩ := lower_address (s := s) hfind hplace
  obtain ⟨o, q, u, hrun', herr, hmoves, hkept, r, rfl, hknown, hnumber⟩ := hv.code (hv.kept hinv hadv)
  have hadv' := hmoves.advances hkept
  rw [← hadv.store, ← hkept, ← hnumber]
  refine .of_code (by rw [Lowering.lower, run_operand hrun, run_operand hrun']) herr
    (hadv.moves.trans hmoves) hop nofun rfl ?_
    (Code.effect_updates (Emit.storeAt_updates hty hfront (hra.after hadv') ⟨hknown, rfl⟩))
  simp [Code.ofOp, Node.op, Node.operand, Node.head, hop, hoperand, Code.withType, Code.binary,
    Code.effect]

end Access

/-- Direct access and access by address agree. For a static field of a scalar type whose object is
at the front of a quadword, both ways of loading it are lowered without an error and give the value
in the store, and both ways of storing what a tree delivers leave the same store. -/
theorem staticAccess_agree {address : Nat → Address} {L : Lowering} {p : Progress} {s : State}
    {f : Field} {id : ObjectId} (hty : f.ty.isScalar = true)
    (hfind : p.arena.find? f.symbol = some id)
    (hfront : address id &&& 0x3FFF0#18 = address id)
    (hsp : ((s.registers .sp).word 0).toNat % 16 = 0) {v : Node} {number : Nat}
    {Inv : Progress → State → Prop} (hv : Delivers address L v f.ty.size number Inv) (hinv : Inv p s)
    {place load loadObject store storeObject : Head} (hplace : place.Is .ldsflda (.field f))
    (hload : load.Is .ldsfld (.field f)) (hloadObject : loadObject.Is .ldobj (.type f.ty))
    (hstore : store.Is .stsfld (.field f)) (hstoreObject : storeObject.Is .stobj (.type f.ty)) :
    let value := loadedValue f.ty (readNat s.store (address id) f.ty.size)
    let stored := writeNat s.store (address id) f.ty.size number
    (LowersTo address L (.leaf load) p s s.store (Yields value) ∧
      LowersTo address L (.unary loadObject (.leaf place)) p s s.store (Yields value)) ∧
    (LowersTo address L (.unary store v) p s stored fun _ _ _ => True) ∧
      LowersTo address L (.binary storeObject (.leaf place) v) p s stored fun _ _ _ => True :=
  ⟨⟨load_direct hfind hty hfront hload, load_byAddress hfind hty hfront hloadObject hplace⟩,
    store_direct hfind hty hfront hv hinv hsp hstore,
    store_byAddress hfind hty hfront hv hinv hstoreObject hplace⟩

/-- A variable in a register is delivered as it is. -/
theorem Delivers.register {address : Nat → Address} {L : Lowering} {h : Head} {id r : Nat}
    {v : Variable} (hh : h.Is .ldloc (.ref (.variable id))) (hget : L.vars.get? id = some v)
    (hstorage : v.storage = .register r) (size number : Nat) :
    Delivers address L (.leaf h) size number fun p s =>
      Known p.stream.next (.virtual r) ∧ (s.registers (.virtual r)).slot size = number where
  kept hinv hadv := ⟨hinv.1.mono hadv.next_le, hadv.registers _ hinv.1 ▸ hinv.2⟩
  code {p s} hinv := by
    obtain ⟨hop, hoperand⟩ := hh
    have hpure : Computes address (pure (some (.virtual r))) p.stream s fun o a t =>
        ∃ r, o = some r ∧ Known a.next r ∧ (t.registers r).slot size = number :=
      .pure ⟨_, rfl, hinv⟩
    refine .of_code (by rw [Lowering.lower]) rfl (Advances.refl p.stream s).moves hop nofun rfl ?_
      hpure.updates_self
    simp [Code.ofOp, Node.op, Node.head, hop, Code.loadVariable, Node.varId?, Node.operand,
      hoperand, hget, hstorage, Code.value]

def delayField : Field := .static "Clock" "Delay" .i2

def delayLowering : Lowering where
  name := "Clock::Set"
  options := {}
  vars := { entries := #[⟨.localVar, 0, some .i4, some .int32, .no, .register 0⟩] }

def delayProgress : Progress where
  stream := { next := 1 }
  arena := (Arena.push {} { name := "Clock::Set", kind := .routine none }).push
    { name := "Clock::Delay", kind := .data, data := List.replicate 16 0 }

def delayAddress (id : ObjectId) : Address := BitVec.ofNat 18 (0x80 + 16 * id)

/-- The stack is at the end of the store, and the local is a word whose low half is negative. -/
def delayState : State where
  registers r := if r = .sp then .splat 0x3FFE0#32 else .splat 0x1234FFFE#32
  store x := x.setWidth 8

def delayPlace : Head := ⟨.ldsflda, .field delayField, 0, .managedPointer .i2⟩

def delayValue : Head := ⟨.ldloc, .ref (.variable 0), 5, .int32⟩

/-- The half at 0x90 is loaded and stored both ways. -/
theorem delay_agree :
    (LowersTo delayAddress delayLowering (.leaf ⟨.ldsfld, .field delayField, 0, .int32⟩)
        delayProgress delayState delayState.store (Yields (.word 0xFFFF9091#32)) ∧
      LowersTo delayAddress delayLowering (.unary ⟨.ldobj, .type .i2, 5, .int32⟩ (.leaf delayPlace))
        delayProgress delayState delayState.store (Yields (.word 0xFFFF9091#32))) ∧
    (LowersTo delayAddress delayLowering
        (.unary ⟨.stsfld, .field delayField, 6, .void⟩ (.leaf delayValue)) delayProgress delayState
        (writeNat delayState.store 0x90#18 2 0x1234FFFE) fun _ _ _ => True) ∧
      LowersTo delayAddress delayLowering
        (.binary ⟨.stobj, .type .i2, 6, .void⟩ (.leaf delayPlace) (.leaf delayValue)) delayProgress
        delayState (writeNat delayState.store 0x90#18 2 0x1234FFFE) fun _ _ _ => True := by
  have hfind : delayProgress.arena.find? delayField.symbol = some 1 := by decide +kernel
  have hfront : delayAddress 1 &&& 0x3FFF0#18 = delayAddress 1 := by decide
  have hsp : ((delayState.registers .sp).word 0).toNat % 16 = 0 := by decide
  have hslot : (delayState.registers (.virtual 0)).slot 2 = 0x1234FFFE := by decide
  have hv : Delivers delayAddress delayLowering (.leaf delayValue) 2 0x1234FFFE _ :=
    .register ⟨rfl, rfl⟩ rfl rfl 2 0x1234FFFE
  have hload : Head.Is ⟨.ldsfld, .field delayField, 0, .int32⟩ .ldsfld (.field delayField) :=
    ⟨rfl, rfl⟩
  have hloadObject : Head.Is ⟨.ldobj, .type .i2, 5, .int32⟩ .ldobj (.type .i2) := ⟨rfl, rfl⟩
  have hstore : Head.Is ⟨.stsfld, .field delayField, 6, .void⟩ .stsfld (.field delayField) :=
    ⟨rfl, rfl⟩
  have hstoreObject : Head.Is ⟨.stobj, .type .i2, 6, .void⟩ .stobj (.type .i2) := ⟨rfl, rfl⟩
  have hplace : delayPlace.Is .ldsflda (.field delayField) := ⟨rfl, rfl⟩
  exact staticAccess_agree rfl hfind hfront hsp hv ⟨Nat.one_pos, hslot⟩ hplace hload hloadObject hstore
    hstoreObject

end SpuCompiler.Selection
