import SpuCompiler.Proofs.Selection.RoutineCode
import SpuCompiler.Proofs.Selection.TreeRegisters
import SpuCompiler.Proofs.Trees.WellTyped

/-!
Selected routines assign each register once, outside of variables. The frame gives variables the
first registers, no two of them the same one. All other registers are set in the order of their
numbers, through the prologue, the blocks and the epilogue, so each of them belongs to one block,
which sets it before it reads it.
-/

namespace SpuCompiler.Trees

def Variable.register? (v : Variable) : Option Nat :=
  match v.storage with
  | .register r => some r
  | _ => none

theorem Variable.register?_eq_some {v : Variable} {r : Nat} :
    v.register? = some r ↔ v.storage = .register r := by
  unfold register?
  split <;> simp_all

/-- Every method that the routine calls is declared as the machine runs it. -/
def Routine.CallsTruthful (r : Routine) : Prop :=
  ∀ b ∈ r.blocks, ∀ root ∈ b.roots, ∀ n ∈ root.postorder, ∀ m ∈ n.callee?, m.Truthful

instance (r : Routine) : Decidable r.CallsTruthful :=
  inferInstanceAs (Decidable (∀ b ∈ r.blocks, ∀ root ∈ b.roots, ∀ n ∈ root.postorder,
    ∀ m ∈ n.callee?, m.Truthful))

end SpuCompiler.Trees

namespace SpuCompiler.Selection

open Machine Metadata Bytecode Trees Objects

/-! ## Frames -/

namespace Frame

/-- The registers of variables are consecutive. -/
theorem registers_assign (vs : List Variable) (offset register : Nat) :
    ∃ count, (assign offset register vs).1.filterMap Variable.register? = List.range' register count ∧
      (assign offset register vs).2.2 = register + count := by
  induction vs generalizing offset register with
  | nil => exact ⟨0, rfl, rfl⟩
  | cons v vs ih =>
    unfold assign
    split
    · exact ih (offset + slotSize v) register
    · obtain ⟨count, hregisters, hend⟩ := ih offset (register + 1)
      refine ⟨count + 1, ?_, by simp only [hend]; omega⟩
      rw [List.range'_succ, ← hregisters]
      rfl

theorem registers_of (o : Options) (vars : Variables) :
    (Frame.of o vars).vars.entries.toList.filterMap Variable.register? =
      List.range (Frame.of o vars).registers := by
  obtain ⟨count, hregisters, hend⟩ := registers_assign vars.entries.toList o.linkAreaSize 0
  have hcount : (Frame.of o vars).registers = count := hend.trans (Nat.zero_add _)
  rw [hcount, List.range_eq_range', ← hregisters]
  rfl

section Registers

variable {o : Options} {vars : Variables}

/-- The registers below that number are those of variables. -/
theorem lt_registers_iff {k : Nat} : k < (Frame.of o vars).registers ↔
    ∃ id v, (Frame.of o vars).vars.get? id = some v ∧ v.storage = .register k := by
  rw [← List.mem_range, ← registers_of, List.mem_filterMap]
  constructor
  · rintro ⟨v, hv, hk⟩
    obtain ⟨id, hid⟩ := List.mem_iff_getElem?.mp hv
    exact ⟨id, v, by simpa [Variables.get?] using hid, Variable.register?_eq_some.mp hk⟩
  · rintro ⟨id, v, hv, hk⟩
    exact ⟨v, Array.mem_toList_iff.mpr (Array.mem_of_getElem? hv),
      Variable.register?_eq_some.mpr hk⟩

/-- No two variables share a register. -/
theorem register_injective {id id' k : Nat} {v v' : Variable}
    (hv : (Frame.of o vars).vars.get? id = some v) (hv' : (Frame.of o vars).vars.get? id' = some v')
    (hk : v.storage = .register k) (hk' : v'.storage = .register k) : id = id' := by
  have hsorted : ((Frame.of o vars).vars.entries.toList.filterMap Variable.register?).Pairwise
      (· < ·) := by
    rw [registers_of]
    exact List.pairwise_lt_range
  rw [List.pairwise_filterMap, List.pairwise_iff_getElem] at hsorted
  have horder : ∀ {i j : Nat} {x y : Variable}, (Frame.of o vars).vars.get? i = some x →
      (Frame.of o vars).vars.get? j = some y → x.storage = .register k → y.storage = .register k →
      ¬ i < j := by
    intro i j x y hx hy hxk hyk hij
    obtain ⟨hi, rfl⟩ := Array.getElem?_eq_some_iff.mp hx
    obtain ⟨hj, rfl⟩ := Array.getElem?_eq_some_iff.mp hy
    have := hsorted i j (by simpa using hi) (by simpa using hj) hij k
      (Variable.register?_eq_some.mpr (by simpa using hxk)) k
      (Variable.register?_eq_some.mpr (by simpa using hyk))
    omega
  have hlt := horder hv hv' hk hk'
  have hgt := horder hv' hv hk' hk
  omega

theorem livesInMemory_of_frame {vs : List Variable} {offset register x : Nat} {v : Variable}
    (hv : v ∈ (assign offset register vs).1) (hx : v.storage = .frame x) :
    ∃ w ∈ vs, livesInMemory w = true ∧ v = { w with storage := .frame x } := by
  induction vs generalizing offset register with
  | nil => simp [assign] at hv
  | cons w vs ih =>
    unfold assign at hv
    split at hv
    · rename_i hmemory
      rcases List.mem_cons.mp hv with rfl | hv
      · cases hx
        exact ⟨w, by simp, hmemory, rfl⟩
      · obtain ⟨w', hw', hrest⟩ := ih hv
        exact ⟨w', by simp [hw'], hrest⟩
    · rcases List.mem_cons.mp hv with rfl | hv
      · cases hx
      · obtain ⟨w', hw', hrest⟩ := ih hv
        exact ⟨w', by simp [hw'], hrest⟩

/-- What is kept in memory has a declared type or is a value of some type. -/
theorem stores {Free : Prop} (hvars : vars.WellTyped Free) :
    Stores (Frame.of o vars).registers (Frame.of o vars).vars := by
  refine ⟨fun id v r hv hr => lt_registers_iff.mpr ⟨id, v, hv, hr⟩, ?_⟩
  intro id v offset hv hoffset
  have hmem : v ∈ (assign o.linkAreaSize 0 vars.entries.toList).1 := by
    have := Array.mem_of_getElem? hv
    simpa [Frame.of] using this
  obtain ⟨w, hw, hmemory, rfl⟩ := livesInMemory_of_frame hmem hoffset
  obtain ⟨i, hi⟩ := List.mem_iff_getElem?.mp hw
  have hget : vars.get? i = some w := by simpa [Variables.get?] using hi
  simp only [livesInMemory, Bool.or_eq_true, decide_eq_true_eq, Option.any_eq_true] at hmemory
  rcases hmemory with hescapes | ⟨ty, hty, -⟩
  · obtain ⟨ty, hty⟩ := hvars.addressed i w hget hescapes
    exact ⟨ty, by simp [storageType?, hty]⟩
  · exact ⟨ty, hty⟩

end Registers

/-! ## Prologue and epilogue -/

variable {vars start : Nat} {known : List Register}

theorem adjustStack_emits (delta : Int) :
    Emits vars start known (adjustStack delta) fun _ => [] := by
  unfold adjustStack
  split
  · exact .settled rfl (by simp [Instr.ri, Instr.uses, Opcode.setsFirst, Opcode.readsFirst, Readable])
  · have hload : Composed False known (Emit.loadImmediate delta) ([·]) :=
      Emit.loadImmediate_composed delta
    refine (hload.emits vars start).bind fun amount => .settled rfl ?_
    simp [Instr.rr, Instr.uses, Opcode.setsFirst, Opcode.readsFirst, Readable]

theorem storeArguments_emits {o : Options} {placed : Variables} (hstores : Stores vars placed)
    (slot : Nat) (ids : List Nat) :
    Emits vars start known (storeArguments o placed slot ids) fun _ => [] := by
  induction ids generalizing slot known with
  | nil => exact .pure (by simp)
  | cons id ids ih =>
    unfold storeArguments
    split
    · rename_i h v hh hv
      have hstore : Emits vars start known (storeArgument v (.hardware h)) fun _ => [] := by
        unfold storeArgument
        split
        · rename_i r hr
          refine Emit.move_emits ?_ (readable_hardware h)
          rintro k ⟨⟩
          exact hstores.register id v r hv hr
        · rename_i offset ty _ _
          have hstore : Composed False (.hardware h :: known) (Emit.storeMemory .sp
              (Emit.signed32 offset) (.hardware h) ty) fun _ => [] :=
            Emit.storeMemory_composed _ False.elim
          exact .hardware (hstore.emits vars start)
        · exact .pure (by simp)
      exact hstore.bind fun _ => ih (slot + 1)
    · exact ih (slot + 1)

theorem prologue_emits {o : Options} {f : Frame} {arguments : List Nat}
    (hstores : Stores vars f.vars) :
    Emits vars start known (f.prologue o arguments) fun _ => [] := by
  refine Emits.bind (.hardware (Emit.stqd_emits (given_cons.mpr (.inl rfl)) given_sp)) fun _ => ?_
  refine (Emit.stqd_emits given_sp given_sp).bind fun _ => ?_
  exact (adjustStack_emits _).bind fun _ => storeArguments_emits hstores 0 arguments

theorem epilogue_emits (f : Frame) : Emits vars start known f.epilogue fun _ => [] := by
  have hload : Emits vars start known (Emit.instr (.ri .lqd .lr .sp 1)) fun _ => [] :=
    .settled rfl
      (by simp [Instr.ri, Instr.uses, Opcode.setsFirst, Opcode.readsFirst, Readable])
  have hreturn : Emits vars start known (Emit.instr returnBranch) fun _ => [] :=
    .settled rfl (by
      simp [returnBranch, Instr.uses, Opcode.setsFirst, Opcode.readsFirst, Register.lr])
  exact (adjustStack_emits _).bind fun _ => hload.bind fun _ => hreturn

end Frame

/-! ## Routines -/

@[simp] theorem opcode_resolveTarget (body : Array ObjectId) (i : Instr) :
    (resolveTarget body i).opcode = i.opcode := by
  unfold resolveTarget
  split
  · split <;> rfl
  · rfl

@[simp] theorem sets?_resolveTarget (body : Array ObjectId) (i : Instr) :
    (resolveTarget body i).sets? = i.sets? := by
  unfold resolveTarget
  split
  · split <;> rfl
  · rfl

@[simp] theorem uses_resolveTarget (body : Array ObjectId) (i : Instr) :
    (resolveTarget body i).uses = i.uses := by
  unfold resolveTarget
  split
  · split <;> rfl
  · rfl

/-- Targets of jumps make no difference to the registers of blocks. -/
theorem BlocksAssign.resolve {vars n n' : Nat} {codes : List (List Instr)}
    (h : BlocksAssign vars n codes n') (body : Array ObjectId) :
    BlocksAssign vars n (codes.map (List.map (resolveTarget body))) n' := by
  induction h with
  | nil n => exact .nil n
  | cons hcode _ ih => exact .cons (hcode.map (by simp) (by simp) (by simp)) ih

theorem map_code_eq {f : Instr → Instr} {codes : List (Array Instr)} {bs : List SelectedBlock}
    (h : List.Forall₂ (fun code b => b.code = code.map f) codes bs) :
    bs.map (·.code.toList) = (codes.map Array.toList).map (List.map f) := by
  induction h with
  | nil => rfl
  | cons hcode _ ih => simp [hcode, ih]

/-- The blocks of a body have the code of the blocks of trees, with targets resolved. -/
theorem map_code_bodyBlocks {r : Routine} {id : ObjectId} {a b : Arena} {objects : BlockObjects}
    {codes : List (Array Instr)} (halloc : Layout.Runs (allocateBlocks r id) a objects b)
    (hlength : codes.length = r.blocks.toList.length) :
    (bodyBlocks objects.body 0 objects.body.toList codes).map (·.code.toList) =
      (codes.map Array.toList).map (List.map (resolveTarget objects.body)) := by
  obtain ⟨-, hbody, -, -⟩ := allocateBlocks_ok halloc
  have hcount : objects.body.toList.length = codes.length := by
    rw [hbody, List.length_range', hlength, Array.length_toList]
  exact map_code_eq (bodyBlocks_eq objects.body 0 hcount).2

/-- Code that is emitted behind an empty stream. -/
theorem Emits.assigns {vars start n : Nat} {α : Type} {e : Emit α} {results : α → List Register}
    (h : Emits vars start [] e results) (hstart : start ≤ n) :
    Assigns vars start n (e.run { next := n }).2.code.toList (e.run { next := n }).2.next := by
  obtain ⟨code, hcode, hassigns⟩ := (h { next := n } hstart (by simp)).code
  have hall : (e.run { next := n }).2.code.toList = code := by simpa using hcode
  rw [hall]
  exact hassigns

/-- The nodes of a routine that is built from a body are sound, if the methods they call are
declared as the machine runs them. -/
theorem allSound_of_build {m : Method} {body : Body} {resolver : Resolver} {r : Routine}
    (hbuild : build m body resolver = .ok r) (htruthful : r.CallsTruthful) :
    r.vars.WellTyped False ∧
      ∀ b ∈ r.blocks, ∀ root ∈ b.roots, AllSound r.vars r.blocks.size root := by
  obtain ⟨hvars, htyped⟩ := typedRoots_of_build hbuild
  refine ⟨hvars, ?_⟩
  intro b hb root hroot n hn
  refine ⟨(build_wellFormed hbuild).roots b hb root hroot n hn, ?_, htruthful b hb root hroot n hn⟩
  exact fun c hc => (((htyped b hb root hroot).tree n hn).children c hc).pushes

/-- The blocks of a selected routine set fresh registers one after the other, behind those of the
variables. -/
theorem select_assign {r : Routine} {o : Options} {a a' : Arena} {id : ObjectId}
    {s : SelectedRoutine} {Free : Prop} (hvars : r.vars.WellTyped Free)
    (hsound : ∀ b ∈ r.blocks, ∀ root ∈ b.roots, AllSound r.vars r.blocks.size root)
    (h : select o a r id = .ok (s, a')) :
    s.frame = Frame.of o r.vars ∧
      BlocksAssign s.frame.registers s.frame.registers (s.allBlocks.map (·.code.toList))
        s.registerCount := by
  obtain ⟨objects, a₁, codes, p, q, e, halloc, hp, hlow, he, -, herrors, -, rfl⟩ := select_run h
  have hstores : Stores (Frame.of o r.vars).registers (Frame.of o r.vars).vars := Frame.stores hvars
  obtain ⟨hlength, hempty, hassign⟩ := Lowering.lowerBlocks_assign (Frame.places o r.vars) hstores
    (fun b hb => hsound b (by simpa using hb)) hlow rfl (by simp [herrors])
  have hprologue : Assigns (Frame.of o r.vars).registers (Frame.of o r.vars).registers
      (Frame.of o r.vars).registers p.code.toList p.next := by
    rw [hp]
    exact (Frame.prologue_emits hstores).assigns le_rfl
  have hepilogue : Assigns (Frame.of o r.vars).registers q.stream.next q.stream.next
      e.code.toList e.next := by
    have hstream : q.stream = { next := q.stream.next } := by rw [← hempty]
    rw [he, hstream]
    exact (Frame.epilogue_emits _).assigns le_rfl
  refine ⟨rfl, ?_⟩
  rw [SelectedRoutine.allBlocks, List.map_append, List.map_cons, map_code_bodyBlocks halloc hlength]
  exact .append (.cons hprologue (hassign.resolve _)) (.cons hepilogue (.nil _))

/-- A selected routine assigns each register that is no variable once. Its registers are below the
number of registers, and no two variables share one. Every other register is defined in one block,
before all of its uses, and appears in no other block. -/
theorem select_singleAssignment {m : Method} {body : Body} {resolver : Resolver} {r : Routine}
    (hbuild : build m body resolver = .ok r) (htruthful : r.CallsTruthful) {o : Options}
    {a a' : Arena} {id : ObjectId} {s : SelectedRoutine} (hselect : select o a r id = .ok (s, a')) :
    (∀ i ∈ s.instructions, ∀ k, .virtual k ∈ i.registers → k < s.registerCount) ∧
    (∀ x y v w k, s.frame.vars.get? x = some v → s.frame.vars.get? y = some w →
      v.storage = .register k → w.storage = .register k → x = y) ∧
    ∀ k < s.registerCount, (∀ x v, s.frame.vars.get? x = some v → v.storage ≠ .register k) →
      ∃ (j : Nat) (b : SelectedBlock), s.allBlocks[j]? = some b ∧ Defined b.code.toList k ∧
        ∀ (j' : Nat) (b' : SelectedBlock), s.allBlocks[j']? = some b' →
          ∀ i ∈ b'.code, .virtual k ∈ i.registers → j' = j := by
  obtain ⟨hvars, hsound⟩ := allSound_of_build hbuild htruthful
  obtain ⟨hframe, hassign⟩ := select_assign hvars hsound hselect
  refine ⟨?_, ?_, ?_⟩
  · intro i hi k hk
    obtain ⟨b, hb, hi⟩ := List.mem_flatMap.mp hi
    have hle := hassign.le
    rcases hassign.available _ (List.mem_map_of_mem hb) i hi _ hk with hvar | ⟨-, hlt⟩
    · omega
    · exact hlt
  · rw [hframe]
    exact fun x y v w k hv hw hk hk' => Frame.register_injective hv hw hk hk'
  · intro k hk hfree
    have hge : s.frame.registers ≤ k := by
      rw [hframe] at hfree ⊢
      by_contra hlt
      obtain ⟨x, v, hv, hstorage⟩ := Frame.lt_registers_iff.mp (not_le.mp hlt)
      exact hfree x v hv hstorage
    obtain ⟨j, code, hj, hdefined, honly⟩ := hassign.exists_defined le_rfl hge hk
    rw [List.getElem?_map] at hj
    obtain ⟨b, hb, rfl⟩ := Option.map_eq_some_iff.mp hj
    refine ⟨j, b, hb, hdefined, ?_⟩
    intro j' b' hb' i hi hmem
    exact honly j' b'.code.toList (by rw [List.getElem?_map, hb']; rfl) i (by simpa using hi) hmem

/-- Sends numbers that it reads from a channel on to another, each with something added, until the
sum is zero. -/
def forward : Method := { name := "forward", returnType := .i4 }

def forwardBody : Body :=
  { code := [0x28, 1, 0, 0, 6, 0x20, 0x45, 0x23, 1, 0, 0x58, 0x0A, 0x06, 0x28, 2, 0, 0, 6,
      0x06, 0x2D, 0xEB, 0x06, 0x2A]
    locals := [.i4] }

def forwardNames : TokenTable :=
  .of [.method { name := "read", returnType := .i4, intrinsic := some (.readChannel 29) },
    .method { name := "write", parameters := [.i4], intrinsic := some (.writeChannel 30) }]

def forwardOnly : Arena := ({} : Arena).push { name := "forward", kind := .routine none }

/-- The sum is a variable in register 0. The three other registers have a definition each, the
constant one by halves. -/
theorem forward_singleAssignment :
    ∃ r s a', build forward forwardBody forwardNames.resolver = .ok r ∧ r.CallsTruthful ∧
      select {} forwardOnly r 0 = .ok (s, a') ∧ s.registerCount = 4 ∧
      (∀ i ∈ s.instructions, ∀ k, .virtual k ∈ i.registers → k < 4) ∧
      ∀ k, 0 < k → k < 4 →
        ∃ (j : Nat) (b : SelectedBlock), s.allBlocks[j]? = some b ∧ Defined b.code.toList k := by
  have hrun : ((build forward forwardBody forwardNames.resolver).toOption.bind fun r =>
      (select {} forwardOnly r 0).toOption.map fun x =>
        (decide r.CallsTruthful, x.1.registerCount, x.1.frame.vars.entries.map (·.storage))) =
      some (true, 4, #[.register 0]) := by decide +kernel
  obtain ⟨r, hr, hrun⟩ := Option.bind_eq_some_iff.mp hrun
  obtain ⟨⟨s, a'⟩, hs, hrun⟩ := Option.map_eq_some_iff.mp hrun
  simp only [Prod.mk.injEq, decide_eq_true_eq] at hrun
  obtain ⟨htruthful, hcount, hstorage⟩ := hrun
  have hbuild := toOption_eq_some.mp hr
  have hselect := toOption_eq_some.mp hs
  obtain ⟨hbelow, -, hdefined⟩ := select_singleAssignment hbuild htruthful hselect
  rw [hcount] at hbelow hdefined
  refine ⟨r, s, a', hbuild, htruthful, hselect, hcount, hbelow, fun k hpos hk => ?_⟩
  obtain ⟨j, b, hj, hd, -⟩ := hdefined k hk fun x v hv hregister => by
    have hmem : Storage.register k ∈ s.frame.vars.entries.map (·.storage) :=
      Array.mem_map.mpr ⟨v, Array.mem_of_getElem? hv, hregister⟩
    simp only [hstorage, List.mem_toArray, List.mem_singleton, Storage.register.injEq] at hmem
    omega
  exact ⟨j, b, hj, hd⟩

end SpuCompiler.Selection
