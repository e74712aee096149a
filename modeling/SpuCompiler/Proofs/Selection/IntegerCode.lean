import SpuCompiler.Proofs.Selection.Lowering

/-!
Integer code is correct. A tree or a conditional branch over integers that is lowered without an
error has code that computes the value of the tree, or that ends with a branch which is taken
exactly if the condition holds.
-/

namespace SpuCompiler.Selection

open Machine Bytecode Trees Objects

variable {l n r : Node} {p p' : Progress} {s : State} {taken : Bool} {e : Emit (Option Register)}
  {ctx : Context} {h : Head} {x y : IntegerValue} {a : Stream} {c : BranchCompare}

/-- A branch on an integer tree, or on two integer trees of the same kind. -/
inductive IntegerBranch (vars : Variables) : Node → Prop
  | test {h : Head} {l : Node} (op : h.op = .brtrue ∨ h.op = .brfalse)
      (left : IntegerTree vars l) : IntegerBranch vars (.unary h l)
  | compare {h : Head} {l r : Node} {c : BranchCompare} (op : h.op = .branchCompare c)
      (left : IntegerTree vars l) (right : IntegerTree vars r)
      (kinds : ValueKind.of l.type = ValueKind.of r.type) : IntegerBranch vars (.binary h l r)

variable {address : Nat → Address} {L : Lowering} {env : Nat → IntegerValue}

/-- The code of a node ends with a branch to the block, taken or not as given. -/
def BranchesTo (address : Nat → Address) (p p' : Progress) (s : State) (block : Nat)
    (taken : Bool) : Prop :=
  ∃ b i t, p'.stream.code = b.code.push i ∧ Advances address p.stream b s t ∧
    i.target = some (.block block) ∧ t.takes? i = some taken

/-- Code of a node that branches. -/
theorem lowerNode_branches {regs : List Register} {o : Option Register}
    (hrun : (L.lowerNode n regs).run p = (o, p')) (herr : p'.errors.size ≤ p.errors.size)
    (hwide : ∀ c, n.op ≠ .ldc c) (hpops : n.op.pops = .fixed regs.length) (hcode : ∀ e, Code.ofOp
      ⟨L.options, L.vars, p.arena⟩ n regs = .ok e → ∃ block, n.blockId? = some block ∧ Code.Branches
      address e p.stream s (.block block) taken) :
    o = none ∧ ∃ block, n.blockId? = some block ∧ BranchesTo address p p' s block taken := by
  obtain ⟨e, he, hstream⟩ :=
    Lowering.lowerNode_ok hrun herr (Lowering.wideConstant?_eq_none hwide) hpops
  obtain ⟨block, hblock, b, i, t, hx, hadv, htarget, htakes⟩ := hcode e he
  rw [hstream] at hx
  obtain ⟨rfl, hb⟩ := Prod.mk.inj hx
  exact ⟨rfl, block, hblock, b, i, t, by rw [hb], hadv, htarget, htakes⟩

theorem withTarget_ok {f : Target → Code} (h : Code.withTarget n f = .ok e) :
    ∃ block, n.blockId? = some block ∧ f (.block block) = .ok e := by
  unfold Code.withTarget at h
  split at h
  · exact ⟨_, ‹_›, h⟩
  · cases h

theorem test_branches {r : Register}
    (op : h.op = .brtrue ∧ taken = (!x.isZero) ∨ h.op = .brfalse ∧ taken = x.isZero)
    (hx : x.Fits l.type) (he : Code.ofOp ctx (.unary h l) [r] = .ok e) (hr : Holds x r a s) :
    ∃ block, (Node.unary h l).blockId? = some block ∧
      Code.Branches address e a s (.block block) taken := by
  have hkind : Code.leftKind (.unary h l) = x.kind := hx.2
  unfold Code.ofOp at he
  rcases op with ⟨op, htaken⟩ | ⟨op, htaken⟩
  · rw [show (Node.unary h l).op = .brtrue from op, hkind] at he
    obtain ⟨block, hblock, he⟩ := withTarget_ok he
    exact ⟨block, hblock, Code.branchIf_branches _ he hr (.inl ⟨rfl, htaken⟩)⟩
  · rw [show (Node.unary h l).op = .brfalse from op, hkind] at he
    obtain ⟨block, hblock, he⟩ := withTarget_ok he
    exact ⟨block, hblock, Code.branchIf_branches _ he hr (.inr ⟨rfl, htaken⟩)⟩

theorem compare_branches {ra rb : Register} (op : h.op = .branchCompare c) (hx : x.Fits l.type)
    (htaken : x.branchCompare c y = some taken)
    (he : Code.ofOp ctx (.binary h l r) [ra, rb] = .ok e) (hra : Holds x ra a s)
    (hrb : Holds y rb a s) :
    ∃ block, (Node.binary h l r).blockId? = some block ∧
      Code.Branches address e a s (.block block) taken := by
  have hkind : Code.leftKind (.binary h l r) = x.kind := hx.2
  unfold Code.ofOp at he
  rw [show (Node.binary h l r).op = .branchCompare c from op, hkind] at he
  obtain ⟨block, hblock, he⟩ := withTarget_ok he
  exact ⟨block, hblock, Code.branchCompare_branches _ he hra hrb htaken⟩

theorem BranchesTo.after {q : Progress} {t : State} {block : Nat}
    (h : BranchesTo address q p' t block taken) (hadv : Advances address p.stream q.stream s t) :
    BranchesTo address p p' s block taken := by
  obtain ⟨b, i, u, hcode, hadv', htarget, htakes⟩ := h
  exact ⟨b, i, u, hcode, hadv.trans hadv', htarget, htakes⟩

/-- Code of a branch, if it is lowered without an error, branches as the tree does. -/
def SelectsBranch (address : Nat → Address) (L : Lowering) (env : Nat → IntegerValue) (n : Node)
    (taken : Bool) : Prop :=
  ∀ p p' o s, (L.lower n).run p = (o, p') → p'.errors.size ≤ p.errors.size →
    Held L.vars env p.stream s → Loaded address p'.arena s →
    o = none ∧ ∃ block, n.blockId? = some block ∧ BranchesTo address p p' s block taken

theorem selectsBranch_test
    (op : h.op = .brtrue ∧ taken = (!x.isZero) ∨ h.op = .brfalse ∧ taken = x.isZero)
    (hl : Selects address L env l x) (hx : x.Fits l.type) :
    SelectsBranch address L env (.unary h l) taken := by
  intro p p' o s hrun herr hheld hloaded
  rw [Lowering.lower] at hrun
  obtain ⟨r, q, t, hnode, herr', hadv, hr, -⟩ :=
    hl.operand (fun r => L.lowerNode_growing _ [r]) hrun herr hheld hloaded
  obtain ⟨hop, hpops⟩ : (∀ c, h.op ≠ .ldc c) ∧ h.op.pops = .fixed 1 := by
    rcases op with ⟨op, -⟩ | ⟨op, -⟩ <;> simp [op, Op.pops]
  obtain ⟨ho, block, hblock, hbranch⟩ := lowerNode_branches hnode herr' hop hpops
    fun e he => test_branches op hx he hr
  exact ⟨ho, block, hblock, hbranch.after hadv⟩

theorem selectsBranch_compare (op : h.op = .branchCompare c) (hl : Selects address L env l x)
    (hr : Selects address L env r y) (hx : x.Fits l.type)
    (htaken : x.branchCompare c y = some taken) :
    SelectsBranch address L env (.binary h l r) taken := by
  intro p p' o s hrun herr hheld hloaded
  obtain ⟨ra, rb, q, t, hnode, herr', hadv, hra, hrb⟩ := hl.operands hr hrun herr hheld hloaded
  obtain ⟨hop, hpops⟩ : (∀ c, h.op ≠ .ldc c) ∧ h.op.pops = .fixed 2 := by simp [op, Op.pops]
  obtain ⟨ho, block, hblock, hbranch⟩ := lowerNode_branches hnode herr' hop hpops
    fun e he => compare_branches op hx htaken he hra hrb
  exact ⟨ho, block, hblock, hbranch.after hadv⟩

/-- A branch over integers has a condition, and its code branches on it. -/
theorem IntegerBranch.selects (hn : IntegerBranch L.vars n) (henv : L.vars.Typed env)
    (hshift : n.ShiftsInRange env) :
    ∃ taken, n.branchTaken? env = some taken ∧ SelectsBranch address L env n taken := by
  cases hn with
  | @test h l op left =>
    obtain ⟨x, hx, hfits⟩ := left.exists_value henv hshift
    have hl : Selects address L env l x := selects_integerTree left henv hshift hx
    rcases op with op | op
    · exact ⟨!x.isZero, by simp [Node.branchTaken?, op, hx],
        selectsBranch_test (.inl ⟨op, rfl⟩) hl hfits⟩
    · exact ⟨x.isZero, by simp [Node.branchTaken?, op, hx],
        selectsBranch_test (.inr ⟨op, rfl⟩) hl hfits⟩
  | @compare h l r c op left right kinds =>
    obtain ⟨x, hx, hxfits⟩ := left.exists_value henv hshift.1
    obtain ⟨y, hy, hyfits⟩ := right.exists_value henv hshift.2.1
    obtain ⟨taken, htaken⟩ : ∃ taken, x.branchCompare c y = some taken :=
      IntegerValue.exists_compareWith _ (hxfits.2.symm.trans (kinds.trans hyfits.2))
    exact ⟨taken, by simp [Node.branchTaken?, op, hx, hy, htaken],
      selectsBranch_compare op (selects_integerTree left henv hshift.1 hx)
        (selects_integerTree right henv hshift.2.1 hy) hxfits htaken⟩

def KeepsVariables (vars : Variables) (s t : State) : Prop :=
  ∀ id v r, vars.get? id = some v → v.storage = .register r →
    t.registers (.virtual r) = s.registers (.virtual r)

theorem opcode_of_takes? {i : Instr} (h : s.takes? i = some taken) :
    i.opcode = .brnz ∨ i.opcode = .brz := by
  unfold State.takes? at h
  split at h
  · exact .inl ‹_›
  · exact .inr ‹_›
  · cases h

/-- Integer code is correct. Let the variables in registers have registers of their own, and the
state have their values there and the constants in the local store. Then the code of an integer
tree that is lowered without an error runs to its end, leaves the value of the tree in the
register that lowering gives, and keeps the variables. The code of a branch over integers is
straight-line code before one conditional branch to its target, taken exactly if the condition
holds. -/
theorem lower_integers (address : Nat → Address) (L : Lowering) (env : Nat → IntegerValue)
    (n : Node) (p p' : Progress) (o : Option Register) (s : State) (henv : L.vars.Typed env)
    (hshift : n.ShiftsInRange env)
    (hregisters : ∀ id v r, L.vars.get? id = some v → v.storage = .register r → r < p.stream.next)
    (hrun : (L.lower n).run p = (o, p')) (herrors : p'.errors = p.errors)
    (hvars : ∀ id v r t, L.vars.get? id = some v → v.storage = .register r →
      v.stackType = some t → t.isInteger = true → InSlot (env id) (s.registers (.virtual r)))
    (hloaded : Loaded address p'.arena s) :
    (IntegerTree L.vars n → ∃ v r code t,
      n.integer? env = some v ∧ v.Fits n.type ∧ o = some r ∧
      p'.stream.code.toList = p.stream.code.toList ++ code ∧ s.run address code = some t ∧
      InSlot v (t.registers r) ∧ KeepsVariables L.vars s t) ∧
    (IntegerBranch L.vars n → ∃ taken block code i t,
      n.branchTaken? env = some taken ∧ n.blockId? = some block ∧
      p'.stream.code.toList = p.stream.code.toList ++ code ++ [i] ∧ s.run address code = some t ∧
      (i.opcode = .brnz ∨ i.opcode = .brz) ∧ i.target = some (.block block) ∧
      t.takes? i = some taken ∧ KeepsVariables L.vars s t) := by
  have hheld : Held L.vars env p.stream s := fun id v r t hget hstorage htype hint =>
    ⟨hregisters id v r hget hstorage, hvars id v r t hget hstorage htype hint⟩
  have hkept {b : Stream} {t : State} (hadv : Advances address p.stream b s t) :
      KeepsVariables L.vars s t := fun id v r hget hstorage =>
    hadv.registers (.virtual r) (hregisters id v r hget hstorage)
  have herr : p'.errors.size ≤ p.errors.size := by rw [herrors]
  constructor
  · intro hn
    obtain ⟨v, hv, hfits⟩ := hn.exists_value henv hshift
    obtain ⟨t, hadv, r, ho, hr⟩ :=
      selects_integerTree hn henv hshift hv p p' o s hrun herr hheld hloaded
    obtain ⟨code, hcode, hexec⟩ := hadv.emitted
    exact ⟨v, r, code, t, hv, hfits, ho, hcode, hexec, hr.2, hkept hadv⟩
  · intro hn
    obtain ⟨taken, htaken, hbranch⟩ := hn.selects henv hshift
    obtain ⟨-, block, hblock, b, i, t, hpush, hadv, htarget, htakes⟩ :=
      hbranch p p' o s hrun herr hheld hloaded
    obtain ⟨code, hcode, hexec⟩ := hadv.emitted
    refine ⟨taken, block, code, i, t, htaken, hblock, ?_, hexec, opcode_of_takes? htakes, htarget,
      htakes, hkept hadv⟩
    rw [hpush, Array.toList_push, hcode]

/-- Goes to the fourth block if a product, taken as a word, is below a bound that no word
reaches. -/
def branchBelowBound : Node :=
  .unary ⟨.brtrue, .ref (.block 3), 18, .void⟩
    (.binary ⟨.compare .lt, .none, 16, .int32⟩
      (.unary ⟨.conv .i8, .none, 6, .int64⟩
        (.binary ⟨.arith .mul, .none, 5, .int32⟩
          (.leaf ⟨.ldloc, .ref (.variable 0), 0, .int32⟩)
          (.leaf ⟨.ldc .i4, .int32 100000, 1, .int32⟩)))
      (.leaf ⟨.ldc .i8, .int64 0x123456789, 7, .int64⟩))

def oneLocal : Lowering where
  name := "scale"
  options := {}
  vars := { entries := #[⟨.localVar, 0, some (.basic .i4), some .int32, .no, .register 0⟩] }

def oneLocalStart : Progress := { stream := { next := 1 }, arena := {} }

def boundBytes : List UInt8 := [0, 0, 0, 1, 0x23, 0x45, 0x67, 0x89, 0, 0, 0, 0, 0, 0, 0, 0]

/-- The local is 50000, with garbage behind it, and the bound stands at 0x100. -/
def oneLocalState : State where
  registers _ := 50000#32 ++ 1#32 ++ 2#32 ++ 3#32
  store a := (boundBytes.getD (a - 0x100#18).toNat 0).toBitVec

/-- The product wraps around, is below the bound, and the branch is taken. -/
theorem branchBelowBound_taken :
    ∃ code i t, ((oneLocal.lower branchBelowBound).run oneLocalStart).2.stream.code.toList =
        code ++ [i] ∧
      oneLocalState.run (fun _ => 0x100#18) code = some t ∧ i.target = some (.block 3) ∧
      t.takes? i = some true := by
  have hone {id : Nat} {v : Variable} (h : oneLocal.vars.get? id = some v) :
      v = ⟨.localVar, 0, some (.basic .i4), some .int32, .no, .register 0⟩ := by
    simpa [oneLocal] using Array.mem_of_getElem? h
  have hsize : ((oneLocal.lower branchBelowBound).run oneLocalStart).2.errors.size = 0 := by
    decide +kernel
  have hdata : ((oneLocal.lower branchBelowBound).run oneLocalStart).2.arena.objects.toList.map
      Object.data = [boundBytes] := by
    decide +kernel
  rcases hrun : (oneLocal.lower branchBelowBound).run oneLocalStart with ⟨o, p'⟩
  rw [hrun] at hsize hdata
  have hloaded : Loaded (fun _ => 0x100#18) p'.arena oneLocalState := by
    intro id o ho hkind
    have ho : o.data = boundBytes := by
      have hmem : o ∈ p'.arena.objects.toList := Array.mem_def.mp (Array.mem_of_getElem? ho)
      simpa [hdata] using List.mem_map_of_mem (f := Object.data) hmem
    refine ⟨show 0x100#18 &&& 0x3FFF0#18 = 0x100#18 by decide, fun j b hj => ?_⟩
    rw [ho] at hj
    have hlt : j < 16 := (List.getElem?_eq_some_iff.mp hj).1
    have hindex : (0x100#18 + BitVec.ofNat 18 j - 0x100#18).toNat = j := by
      rw [BitVec.add_comm, BitVec.add_sub_cancel, BitVec.toNat_ofNat, Nat.mod_eq_of_lt (by omega)]
    simp only [oneLocalState, hindex, List.getD_eq_getElem?_getD, hj, Option.getD_some]
  have hn : IntegerBranch oneLocal.vars branchBelowBound :=
    .test (.inl rfl) (.binary rfl (.unary rfl (.binary rfl (.load (.inl rfl) rfl rfl rfl rfl rfl rfl)
      (.word rfl rfl rfl) rfl) rfl) (.long rfl rfl rfl) rfl)
  have hword : (oneLocalState.registers (.virtual 0)).word 0 = 50000#32 := by decide
  obtain ⟨taken, block, code, i, t, htaken, hblock, hcode, hexec, -, htarget, htakes, -⟩ :=
    (lower_integers (fun _ => 0x100#18) oneLocal (fun _ => .word 50000) branchBelowBound
      oneLocalStart p' o oneLocalState
      (fun id v r t hget hstorage htype hint => by cases hone hget; cases htype; exact ⟨rfl, rfl⟩)
      (by simp [branchBelowBound, Node.ShiftsInRange])
      (fun id v r hget hstorage => by cases hone hget; cases hstorage; decide)
      hrun (Array.eq_empty_of_size_eq_zero hsize)
      (fun id v r t hget hstorage htype hint => by cases hone hget; exact hword)
      hloaded).2 hn
  obtain rfl : true = taken := Option.some.inj htaken
  obtain rfl : 3 = block := Option.some.inj hblock
  exact ⟨code, i, t, hcode, hexec, htarget, htakes⟩

end SpuCompiler.Selection
