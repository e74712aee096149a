import SpuCompiler.Proofs.Selection.RoutineCode
import SpuCompiler.Metadata.Token
import SpuCompiler.Trees.Builder

/-!
Registers of arguments. Options that are valid give each slot a register of its own, which is none
of the reserved ones. A call moves its arguments to the registers of their slots, and the prologue
of a routine takes them from there. The register of the result is the first of them, also where
there are none.
-/

namespace SpuCompiler

theorem Options.firstArgument_le {o : Options} {u : Unit} (h : o.validate = .ok u) :
    3 ≤ o.firstArgumentRegister := by
  unfold Options.validate at h
  by_contra hfirst
  have hreserved : o.firstArgumentRegister < Options.firstAllocatableRegister := by
    unfold Options.firstAllocatableRegister
    omega
  simp only [hreserved, if_true] at h
  split at h <;> cases h

end SpuCompiler

namespace SpuCompiler.Selection

open Machine Metadata Bytecode Trees Objects

/-! ## Callers -/

/-- The code moves values to the registers of their slots, in order, and then jumps. -/
def Passes (o : Options) (regs : List Register) (object : ObjectId) (code : List Instr) : Prop :=
  ∃ moves rest, code = moves ++ .withTarget .brsl (some .lr) (.object object) :: rest ∧
    moves.length = regs.length ∧
    ∀ slot r, regs[slot]? = some r → ∃ k, o.argumentRegister slot = some k ∧
      moves[slot]? = some (.ri .ori (.hardware k) r 0)

namespace Code

theorem passArguments_writes (register : Nat) (regs : List Register) :
    Writes (passArguments register regs)
      (· = regs.mapIdx fun slot r => .ri .ori (.hardware (register + slot)) r 0) fun _ => True := by
  induction regs generalizing register with
  | nil => exact fun s => ⟨[], (List.append_nil _).symm, rfl, trivial⟩
  | cons r regs ih =>
    refine Writes.bind (Writes.instr _) (fun _ _ => ih (register + 1)) ?_
    rintro _ - _ _ rfl rfl
    simp [List.mapIdx_cons, Nat.add_assoc, Nat.add_comm 1]

theorem passes_writes (o : Options) (object : ObjectId) {regs : List Register}
    (hcount : regs.length ≤ o.argumentRegisterCount) :
    Writes (do
        passArguments o.firstArgumentRegister regs
        Emit.instr (.withTarget .brsl (some .lr) (.object object)))
      (Passes o regs object) fun _ => True := by
  refine Writes.bind (passArguments_writes o.firstArgumentRegister regs)
    (fun _ _ => Writes.instr _) ?_
  rintro _ - _ _ rfl rfl
  refine ⟨_, [], rfl, List.length_mapIdx, ?_⟩
  intro slot r hr
  have hslot : slot < o.argumentRegisterCount := by
    have hlt := (List.getElem?_eq_some_iff.mp hr).1
    omega
  exact ⟨o.firstArgumentRegister + slot, if_pos hslot, by rw [List.getElem?_mapIdx, hr]; rfl⟩

theorem callObject_passes (o : Options) (kind : ValueKind) (object : ObjectId)
    (regs : List Register) :
    WritesCode (Passes o regs object) (callObject o kind object regs) := by
  unfold callObject
  split
  · rintro _ ⟨⟩
  rename_i hcount
  have hpasses := passes_writes o object (Nat.le_of_not_lt hcount)
  have hresult : Writes (do
      let result ← Emit.fresh
      Emit.move result (.hardware o.returnRegister)
      return result) (fun _ => True) Register.Valid :=
    fun s => ⟨_, Array.toList_push .., trivial, trivial⟩
  have hvalue := value_writes (Writes.bind (S := Passes o regs object) hpasses
    (fun _ _ => hresult) (by
      rintro _ - _ more ⟨moves, rest, rfl, hmoves⟩ -
      exact ⟨moves, rest ++ more, by simp, hmoves⟩))
  cases kind with
  | void => exact effect_writes hpasses
  | struct => rintro _ ⟨⟩
  | word => exact hvalue
  | long => exact hvalue
  | single => exact hvalue
  | double => exact hvalue

theorem call_passes {ctx : Context} {n : Node} {m : Method} (hcallee : n.callee? = some m)
    (hroutine : m.intrinsic = none) (kind : ValueKind) (regs : List Register) :
    WritesCode (fun code => ∃ object, ctx.arena.find? m.symbol = some object ∧
      Passes ctx.options regs object code) (call ctx n kind regs) := by
  unfold call
  simp only [hcallee, hroutine]
  split
  · rename_i object hobject
    intro e he s
    obtain ⟨code, hcode, hpasses, hvalid⟩ := callObject_passes ctx.options kind object regs e he s
    exact ⟨code, hcode, ⟨object, hobject, hpasses⟩, hvalid⟩
  · rintro _ ⟨⟩

theorem of_call {ctx : Context} {n : Node} (hop : n.op = .call ∨ n.op = .callvirt)
    (regs : List Register) : of ctx n regs = call ctx n (ValueKind.of n.type) regs := by
  rcases hop with hop | hop <;> simp only [of, ofOp, hop] <;> rfl

end Code

/-! ## Callees -/

/-- The code takes an argument from its register to the place of its variable: it moves it to
another register, or stores it in the frame. -/
structure Takes (k : Nat) (v : Variable) (code : List Instr) : Prop where
  register : ∀ n, v.storage = .register n → code = [.ri .ori (.virtual n) (.hardware k) 0]
  memory : ∀ offset ty, v.storage = .frame offset → storageType? v = some ty →
    ∃ s : Stream, ((Emit.storeMemory .sp (Emit.signed32 offset) (.hardware k) ty).run s).2.code.toList =
      s.code.toList ++ code

/-- The code takes the arguments from `slot` on in turn, each from the register of its slot. -/
def TakesEach (o : Options) (vars : Variables) (slot : Nat) (arguments : List Nat)
    (code : List Instr) : Prop :=
  ∃ parts : List (List Instr), code = parts.flatten ∧ parts.length = arguments.length ∧
    ∀ j id v part, arguments[j]? = some id → vars.get? id = some v → parts[j]? = some part →
      ∃ k, o.argumentRegister (slot + j) = some k ∧ Takes k v part

theorem TakesEach.cons {o : Options} {vars : Variables} {slot id k : Nat} {ids : List Nat}
    {code rest : List Instr} (hk : o.argumentRegister slot = some k)
    (hcode : ∀ v, vars.get? id = some v → Takes k v code)
    (hrest : TakesEach o vars (slot + 1) ids rest) :
    TakesEach o vars slot (id :: ids) (code ++ rest) := by
  obtain ⟨parts, rfl, hlength, hparts⟩ := hrest
  refine ⟨code :: parts, rfl, by simpa using hlength, ?_⟩
  rintro (_ | j) x v part hx hv hpart
  · cases hx
    cases hpart
    exact ⟨k, hk, hcode v hv⟩
  · obtain ⟨k', hk', htakes⟩ := hparts j x v part hx hv hpart
    exact ⟨k', by rw [← hk', Nat.add_right_comm, Nat.add_assoc], htakes⟩

namespace Frame

variable {o : Options} {vars : Variables} {slot : Nat}

theorem storeArgument_takes (v : Variable) (k : Nat) :
    Writes (storeArgument v (.hardware k)) (Takes k v) fun _ => True := by
  unfold storeArgument
  split
  · rename_i n hn
    refine fun s => ⟨[.ri .ori (.virtual n) (.hardware k) 0], Array.toList_push .., ⟨?_, ?_⟩, trivial⟩
    · intro m hm
      cases hn.symm.trans hm
      rfl
    · intro offset ty hoffset
      cases hn.symm.trans hoffset
  · rename_i offset ty hoffset hty
    intro s
    have hemits : Emits 0 0 [.hardware k] (Emit.storeMemory .sp (Emit.signed32 offset)
        (.hardware k) ty) fun _ => [] :=
      (Emit.storeMemory_composed _ fun h : False => h.elim).emits 0 0
    obtain ⟨code, hcode, -⟩ := (hemits s (Nat.zero_le _) (by simp [Available])).code
    refine ⟨code, hcode, ⟨?_, ?_⟩, trivial⟩
    · intro n hn
      cases hoffset.symm.trans hn
    · intro offset' ty' hoffset' hty'
      cases hoffset.symm.trans hoffset'
      cases hty.symm.trans hty'
      exact ⟨s, hcode⟩
  · rename_i hregister hframe
    refine fun s => ⟨[], (List.append_nil _).symm, ⟨?_, ?_⟩, trivial⟩
    · exact fun n hn => absurd hn (hregister n)
    · exact fun offset ty hoffset hty => absurd hty (hframe offset ty hoffset)

theorem storeArguments_takes {ids : List Nat} (hfaults : argumentFaults o vars slot ids = []) :
    Writes (storeArguments o vars slot ids) (TakesEach o vars slot ids) fun _ => True := by
  induction ids generalizing slot with
  | nil => exact fun _ => ⟨[], (List.append_nil _).symm, ⟨[], rfl, rfl, by simp⟩, trivial⟩
  | cons id ids ih =>
    unfold argumentFaults at hfaults
    split at hfaults
    · rename_i k hk
      unfold storeArguments
      rw [hk]
      cases hv : vars.get? id with
      | none =>
        intro s
        obtain ⟨rest, hrest, htakes, -⟩ := ih hfaults s
        have hnone : ∀ v, vars.get? id = some v → Takes k v [] := by simp [hv]
        exact ⟨rest, hrest, TakesEach.cons hk hnone htakes, trivial⟩
      | some v =>
        refine Writes.bind (storeArgument_takes v k) (fun _ _ => ih hfaults) ?_
        rintro _ - code rest hcode hrest
        refine .cons hk ?_ hrest
        rintro w hw
        cases hv.symm.trans hw
        exact hcode
    · cases hfaults

end Frame

theorem select_takes {o : Options} {a a' : Arena} {r : Trees.Routine} {id : ObjectId}
    {s : SelectedRoutine} (h : select o a r id = .ok (s, a')) :
    ∃ head rest, s.prologue.code.toList = head ++ rest ∧
      TakesEach o s.frame.vars 0 r.arguments rest := by
  obtain ⟨objects, a₁, codes, p, q, e, -, hp, -, -, hfaults, -, -, rfl⟩ := select_run h
  have hfaults' : Frame.argumentFaults o (Frame.of o r.vars).vars 0 r.arguments = [] := by
    unfold Frame.faults at hfaults
    split at hfaults
    · cases hfaults
    · exact hfaults
  -- the arguments are stored last
  obtain ⟨t, ht⟩ : ∃ t, p = ((Frame.storeArguments o (Frame.of o r.vars).vars 0 r.arguments).run t).2 :=
    ⟨_, hp⟩
  obtain ⟨rest, hrest, htakes, -⟩ := Frame.storeArguments_takes hfaults' t
  exact ⟨t.code.toList, rest, by rw [ht]; exact hrest, htakes⟩

/-! ## Options -/

/-- Valid options give each slot up to their count a register, above the reserved ones and in the
machine, and different slots different registers. Calls put arguments there, and prologues take
them from there. The register of results is above the reserved ones as well; it is in the machine
unless arguments have no registers and would start behind the last one. -/
theorem validate_registers {o : Options} (h : o.validate = .ok ()) :
    (∀ slot k, o.argumentRegister slot = some k ↔ slot < o.argumentRegisterCount ∧
      k = o.firstArgumentRegister + slot ∧ 3 ≤ k ∧ k ≤ 127) ∧
    (∀ slot slot' k, o.argumentRegister slot = some k → o.argumentRegister slot' = some k →
      slot = slot') ∧
    (∀ (ctx : Context) (n : Node) (m : Method) (regs : List Register), ctx.options = o →
      (n.op = .call ∨ n.op = .callvirt) → n.callee? = some m → m.intrinsic = none →
      WritesCode (fun code => ∃ object, ctx.arena.find? m.symbol = some object ∧
        Passes o regs object code) (Code.of ctx n regs)) ∧
    (∀ a r id s a', select o a r id = .ok (s, a') →
      ∃ head rest, s.prologue.code.toList = head ++ rest ∧
        TakesEach o s.frame.vars 0 r.arguments rest) ∧
    3 ≤ o.returnRegister ∧ (o.returnRegister ≤ 127 ↔
      ¬ (o.firstArgumentRegister = 128 ∧ o.argumentRegisterCount = 0)) := by
  have hfirst := Options.firstArgument_le h
  have hend := Options.arguments_le h
  have hregister : ∀ slot k, o.argumentRegister slot = some k ↔
      slot < o.argumentRegisterCount ∧ k = o.firstArgumentRegister + slot := by
    intro slot k
    simp [Options.argumentRegister, eq_comm]
  refine ⟨?_, ?_, ?_, fun _ _ _ _ _ hselect => select_takes hselect, hfirst, ?_⟩
  · intro slot k
    rw [hregister]
    omega
  · intro slot slot' k hslot hslot'
    have hk := ((hregister slot k).mp hslot).2
    have hk' := ((hregister slot' k).mp hslot').2
    omega
  · rintro ctx n m regs rfl hop hcallee hroutine
    rw [Code.of_call hop]
    exact Code.call_passes hcallee hroutine _ regs
  · unfold Options.returnRegister
    omega

def lastTwo : Options := { firstArgumentRegister := 126, argumentRegisterCount := 2 }

/-- Calls itself with its arguments in the other order. -/
def turn : Method := { name := "turn", parameters := [.i4, .i4], returnType := .i4 }

def turnBody : Body := { code := [0x03, 0x02, 0x28, 1, 0, 0, 6, 0x2A] }

def turnOnly : Arena := ({} : Arena).push { name := "turn", kind := .routine none }

def turnCall : Node := .call { op := .call, offset := 2, type := .int32 } turn
  [.leaf { op := .ldarg, operand := .ref (.variable 1), offset := 0, type := .int32 },
    .leaf { op := .ldarg, operand := .ref (.variable 0), offset := 1, type := .int32 }]

theorem turn_registers :
    lastTwo.validate = .ok () ∧ lastTwo.argumentRegister 1 = some 127 ∧
      (∃ r s a', build turn turnBody (TokenTable.of [.method turn]).resolver = .ok r ∧
        r.arguments = [0, 1] ∧ select lastTwo turnOnly r 0 = .ok (s, a') ∧
        ∃ head rest, s.prologue.code.toList = head ++ rest ∧
          TakesEach lastTwo s.frame.vars 0 [0, 1] rest) ∧
      (∃ e, Code.of ⟨lastTwo, {}, turnOnly⟩ turnCall [.virtual 1, .virtual 0] = .ok e ∧
        Writes e (Passes lastTwo [.virtual 1, .virtual 0] 0) ValidResult) := by
  have hvalid : lastTwo.validate = .ok () := by decide
  obtain ⟨hregister, -, hpasses, htakes, -⟩ := validate_registers hvalid
  refine ⟨hvalid, (hregister 1 127).mpr (by decide), ?_, ?_⟩
  · have hrun : ((build turn turnBody (TokenTable.of [.method turn]).resolver).toOption.bind fun r =>
        (select lastTwo turnOnly r 0).toOption.map fun _ => r.arguments) = some [0, 1] := by
      decide +kernel
    obtain ⟨r, hr, hrun⟩ := Option.bind_eq_some_iff.mp hrun
    obtain ⟨⟨s, a'⟩, hs, harguments⟩ := Option.map_eq_some_iff.mp hrun
    have hselect := toOption_eq_some.mp hs
    exact ⟨r, s, a', toOption_eq_some.mp hr, harguments, hselect,
      harguments ▸ htakes _ _ _ _ _ hselect⟩
  · refine ⟨_, rfl, fun s => ?_⟩
    obtain ⟨code, hcode, ⟨object, hobject, hcall⟩, hresult⟩ :=
      hpasses ⟨lastTwo, {}, turnOnly⟩ turnCall turn [.virtual 1, .virtual 0] rfl (.inl rfl) rfl rfl
        _ rfl s
    have hzero : turnOnly.find? turn.symbol = some 0 := by decide
    cases hobject.symm.trans hzero
    exact ⟨code, hcode, hcall, hresult⟩

/-- Arguments without registers may start behind the last register, and results are there. -/
theorem noArguments_resultPastEnd :
    ({ firstArgumentRegister := 128, argumentRegisterCount := 0 } : Options).validate = .ok () ∧
      ({ firstArgumentRegister := 128, argumentRegisterCount := 0 } : Options).returnRegister =
        128 := by
  decide

end SpuCompiler.Selection
