import SpuCompiler.Proofs.Bytecode.Operands
import SpuCompiler.Proofs.Outcome

/-!
Assembly and reading are inverse. What assembly appends for an instruction is read as the record
of that instruction, whatever stands behind it; and what is read is appended again when the records
are assembled by name. So both carry over to whole programs.
-/

namespace SpuCompiler.Bytecode

open Metadata

variable {labels : List (String × Nat)} {cs : List Chunk} {parts : List (List UInt8)}

/-! ## Calls -/

inductive Step where
  | label (name : String)
  | emit (name : String) (arg : Arg)

namespace Assembly

def apply (a : Assembly) : Step → Except AssemblyError Assembly
  | .label name => a.label name
  | .emit name arg =>
    match a.emit name arg with
    | (a, .ok _) => .ok a
    | (_, .error e) => .error e

def applyAll (a : Assembly) (steps : List Step) : Except AssemblyError Assembly :=
  steps.foldlM apply a

end Assembly

namespace Scope

/-- The instruction that a call appends between two states of an assembly. -/
def instruction? (s : Scope) (labels : List (String × Nat)) (before after : Assembly)
    (name : String) (arg : Arg) : Option Record := do
  let o ← Opcode.ofName? name
  let op ← o.op
  let operand ← s.denote? labels o op after.position arg
  return ⟨op, operand, before.position, after.position - before.position, o.name⟩

def instructions? (s : Scope) (labels : List (String × Nat)) (a : Assembly) :
    List Step → Option (List Record)
  | [] => some []
  | step :: steps => do
    let next ← (a.apply step).toOption
    let rs ← s.instructions? labels next steps
    match step with
    | .label _ => return rs
    | .emit name arg =>
      let r ← s.instruction? labels a next name arg
      return r :: rs

end Scope

/-! ## Chunks -/

/-- Chunks are resolved one by one. -/
theorem mapM_resolve_cons {c : Chunk} :
    (c :: cs).mapM (Chunk.resolve labels) = .ok parts ↔
      ∃ bytes rest, c.resolve labels = .ok bytes ∧ cs.mapM (Chunk.resolve labels) = .ok rest ∧
        parts = bytes :: rest := by
  rw [List.mapM_cons]
  constructor
  · intro h
    obtain ⟨bytes, hbytes, h⟩ := bind_eq_ok.mp h
    obtain ⟨rest, hrest, h⟩ := bind_eq_ok.mp h
    cases h
    exact ⟨bytes, rest, hbytes, hrest, rfl⟩
  · rintro ⟨bytes, rest, hbytes, hrest, rfl⟩
    rw [hbytes]
    simp [hrest, bind, Except.bind, pure, Except.pure]

theorem length_of_mapM_resolve (h : cs.mapM (Chunk.resolve labels) = .ok parts) :
    parts.flatten.length = (cs.map Chunk.length).sum := by
  induction cs generalizing parts with
  | nil =>
    cases h
    rfl
  | cons c cs ih =>
    obtain ⟨bytes, rest, hbytes, hrest, rfl⟩ := mapM_resolve_cons.mp h
    rw [List.flatten_cons, List.length_append, ih hrest, Chunk.length_of_resolve hbytes,
      List.map_cons, List.sum_cons]

namespace Assembly

variable {a f a' : Assembly} {name : String} {steps : List Step}

theorem finish_ok {code : List UInt8} :
    a.finish = .ok code ↔ ∃ parts,
      a.chunks.toList.mapM (Chunk.resolve a.labels) = .ok parts ∧ code = parts.flatten := by
  unfold finish
  constructor
  · intro h
    obtain ⟨parts, hparts, h⟩ := bind_eq_ok.mp h
    cases h
    exact ⟨parts, hparts, rfl⟩
  · rintro ⟨parts, hparts, rfl⟩
    rw [hparts]
    rfl

theorem emit_ok {arg : Arg} :
    a.apply (.emit name arg) = .ok a' ↔ ∃ o c, Opcode.ofName? name = some o ∧
      o.operandChunk (a.position + o.selectorLength) arg = .ok c ∧
      a' = (a.append (.bytes o.selector)).append c := by
  have hposition : ∀ o : Opcode, (a.append (.bytes o.selector)).position =
      a.position + o.selectorLength := fun o => congrArg (a.position + ·) o.length_selector
  cases ho : Opcode.ofName? name with
  | none => simp [apply, emit, ho]
  | some o =>
    cases hc : o.operandChunk (a.position + o.selectorLength) arg with
    | error e => simp [apply, emit, ho, hposition, hc]
    | ok c => simp [apply, emit, ho, hposition, hc, eq_comm]

theorem label_ok (h : a.apply (.label name) = .ok a') :
    a'.chunks = a.chunks ∧ a'.position = a.position := by
  simp only [apply, label] at h
  split at h
  · cases h
  · cases h
    exact ⟨rfl, rfl⟩

/-- The position counts the bytes of the chunks. -/
def Measured (a : Assembly) : Prop := a.position = (a.chunks.toList.map Chunk.length).sum

theorem Measured.append (h : a.Measured) (c : Chunk) : (a.append c).Measured := by
  unfold Measured at h ⊢
  simp [Assembly.append, h]

theorem Measured.apply {step : Step} (h : a.Measured) (hstep : a.apply step = .ok a') :
    a'.Measured := by
  cases step with
  | label name =>
    obtain ⟨hchunks, hposition⟩ := label_ok hstep
    unfold Measured at h ⊢
    rw [hchunks, hposition, h]
  | emit name arg =>
    obtain ⟨o, c, -, -, rfl⟩ := emit_ok.mp hstep
    exact (h.append _).append c

theorem Measured.applyAll (h : a.Measured) (hrun : a.applyAll steps = .ok f) : f.Measured :=
  foldlM_invariant (fun _ _ _ _ => Measured.apply) h hrun

theorem position_le (hrun : a.applyAll steps = .ok f) : a.position ≤ f.position := by
  induction steps generalizing a with
  | nil =>
    cases hrun
    exact le_refl _
  | cons step steps ih =>
    obtain ⟨a', hstep, hrun⟩ := foldlM_cons_eq_ok.mp hrun
    refine le_trans ?_ (ih hrun)
    cases step with
    | label name => exact (label_ok hstep).2.ge
    | emit name arg =>
      obtain ⟨o, c, -, -, rfl⟩ := emit_ok.mp hstep
      simp only [append]
      omega

end Assembly

/-! ## Reading what was assembled -/

namespace Scope

variable {s : Scope}
variable {name : String} {arg : Arg} {r : Record} {a : Assembly}

theorem instruction?_eq_some {before after : Assembly}
    (h : s.instruction? labels before after name arg = some r) :
    ∃ o op x, Opcode.ofName? name = some o ∧ o.op = some op ∧
      s.denote? labels o op after.position arg = some x ∧
      r = ⟨op, x, before.position, after.position - before.position, o.name⟩ := by
  unfold instruction? at h
  obtain ⟨o, ho, h⟩ := Option.bind_eq_some_iff.mp h
  obtain ⟨op, hop, h⟩ := Option.bind_eq_some_iff.mp h
  obtain ⟨x, hx, h⟩ := Option.bind_eq_some_iff.mp h
  cases h
  exact ⟨o, op, x, ho, hop, hx, rfl⟩

/-- What a call appends is decoded as its instruction. -/
theorem decode_emitted {a' : Assembly} (hstep : a.apply (.emit name arg) = .ok a')
    (hranged : arg.Ranged) (hr : s.instruction? labels a a' name arg = some r)
    (hlength : s.length < 2 ^ 31) (hend : a'.position < 2 ^ 31) :
    ∃ cs, a'.chunks.toList = a.chunks.toList ++ cs ∧
      ∀ parts, cs.mapM (Chunk.resolve labels) = .ok parts →
        a.position + parts.flatten.length = a'.position ∧
        ∀ rest, s.decode a.position (parts.flatten ++ rest) = (.ok r, parts.flatten.length) := by
  obtain ⟨o, c, ho, hc, rfl⟩ := Assembly.emit_ok.mp hstep
  obtain ⟨o', op, x, ho', hop, hx, rfl⟩ := instruction?_eq_some hr
  obtain rfl : o = o' := Option.some.inj (ho.symm.trans ho')
  have hposition : ((a.append (.bytes o.selector)).append c).position =
      a.position + o.selectorLength + c.length := by
    simp only [Assembly.append, Chunk.length, Opcode.length_selector]
  refine ⟨[.bytes o.selector, c], by simp [Assembly.append], ?_⟩
  intro parts hparts
  obtain ⟨_, tail, hfirst, htail, rfl⟩ := mapM_resolve_cons.mp hparts
  obtain ⟨bytes, last, hbytes, hnil, rfl⟩ := mapM_resolve_cons.mp htail
  cases hfirst
  rw [List.mapM_nil] at hnil
  cases hnil
  have hread := readAs_of_writes (Opcode.operandChunk_ok.mp hc) hbytes hranged hposition hlength
    hend hx
  have hflat : [o.selector, bytes].flatten = o.selector ++ bytes := by simp
  have hsum : (o.selector ++ bytes).length = o.selectorLength + bytes.length := by
    rw [List.length_append, Opcode.length_selector]
  have hstop : ((a.append (.bytes o.selector)).append c).position =
      a.position + (o.selectorLength + bytes.length) := by
    rw [hposition, Chunk.length_of_resolve hbytes, Nat.add_assoc]
  rw [hflat, hsum]
  refine ⟨hstop.symm, fun rest => ?_⟩
  rw [hstop] at hread
  rw [List.append_assoc, decode_selector s a.position (Opcode.mem_of_ofName? ho),
    decodeOperand_append rest hop hread, hstop, Nat.add_sub_cancel_left]

/-- What calls append is decoded as their instructions. -/
theorem decodes_assembled {f : Assembly} {steps : List Step} {rs : List Record}
    (hrun : a.applyAll steps = .ok f)
    (hranged : ∀ name arg, Step.emit name arg ∈ steps → arg.Ranged)
    (hrs : s.instructions? f.labels a steps = some rs) (hlength : s.length < 2 ^ 31)
    (hend : f.position < 2 ^ 31) :
    ∃ cs, f.chunks.toList = a.chunks.toList ++ cs ∧
      ∀ parts, cs.mapM (Chunk.resolve f.labels) = .ok parts →
        s.Decodes a.position parts.flatten rs := by
  induction steps generalizing a rs with
  | nil =>
    cases hrun
    cases hrs
    refine ⟨[], by simp, ?_⟩
    rintro _ ⟨⟩
    exact .nil _
  | cons step steps ih =>
    obtain ⟨a', hstep, hrun⟩ := foldlM_cons_eq_ok.mp hrun
    have hle := Assembly.position_le hrun
    have hranged' : ∀ name arg, Step.emit name arg ∈ steps → arg.Ranged :=
      fun name arg h => hranged name arg (List.mem_cons_of_mem _ h)
    simp only [instructions?, hstep, Except.toOption, Option.bind_eq_bind, Option.bind_some] at hrs
    obtain ⟨tail, htail, hrs⟩ := Option.bind_eq_some_iff.mp hrs
    obtain ⟨cs, hcs, hdecodes⟩ := ih hrun hranged' htail
    cases step with
    | label name =>
      cases hrs
      obtain ⟨hchunks, hposition⟩ := Assembly.label_ok hstep
      rw [hchunks] at hcs
      rw [hposition] at hdecodes
      exact ⟨cs, hcs, hdecodes⟩
    | emit name arg =>
      obtain ⟨r, hr, hrs⟩ := Option.bind_eq_some_iff.mp hrs
      cases hrs
      obtain ⟨own, hown, hdecode⟩ := decode_emitted hstep
        (hranged name arg List.mem_cons_self) hr hlength (lt_of_le_of_lt hle hend)
      refine ⟨own ++ cs, by rw [hcs, hown, List.append_assoc], ?_⟩
      intro parts hparts
      rw [List.mapM_append] at hparts
      obtain ⟨front, hfront, hparts⟩ := bind_eq_ok.mp hparts
      obtain ⟨back, hback, hparts⟩ := bind_eq_ok.mp hparts
      cases hparts
      obtain ⟨hstop, hd⟩ := hdecode front hfront
      rw [List.flatten_append]
      refine .cons (hd back.flatten) ?_
      rw [hstop, List.drop_left]
      exact hdecodes back hback

end Scope

/-! ## Assembling what was read -/

/-- The call that assembles a record again. The three records of a duplication are one call. -/
def Record.step? (r : Record) : Option Step :=
  match r.operand with
  | .ref (.temporary _) => if r.op = .stloc then some (.emit r.name .none) else none
  | _ => some (.emit r.name r.arg)

def reassembly (records : List Record) : List Step := records.filterMap Record.step?

/-- A duplication has no operand. -/
theorem Opcode.dup_of_mem {o : Opcode} (h : o ∈ table) (hop : o.op = some .dup) :
    o.operand = .none ∧ o.implied = .none := by
  have hall : table.all (fun o => !(o.op = some .dup) || (o.operand = .none ∧ o.implied = .none)) =
      true := by decide
  have := List.all_eq_true.mp hall o h
  simpa [hop] using this

namespace Scope

variable {s : Scope}
variable {n start : Nat} {bytes : List UInt8} {r : Record} {is : List Record}

/-- The bytes of a decoded instruction, and the row of the table that they select. -/
theorem exists_row (h : s.decode start bytes = (.ok r, n)) :
    ∃ o ∈ Opcode.table, ∃ operandBytes, bytes = o.selector ++ operandBytes ++ bytes.drop n ∧
      o.op = some r.op ∧ r.name = o.name ∧
      s.ReadAs o r.op r.stop operandBytes r.operand := by
  obtain ⟨o, ho, tail, rfl, hdecode⟩ := exists_selector h
  obtain ⟨operandBytes, rest, rfl, hop, rfl, hoffset, hsize, hname, hread⟩ :=
    exists_operandBytes hdecode
  have hdrop : (o.selector ++ (operandBytes ++ rest)).drop
      (o.selectorLength + operandBytes.length) = rest := by
    rw [← List.append_assoc, ← Opcode.length_selector, ← List.length_append, List.drop_left]
  refine ⟨o, ho, operandBytes, ?_, hop, hname, ?_⟩
  · rw [hdrop, List.append_assoc]
  · rw [Record.stop, hoffset, hsize]
    exact hread

theorem dup_of_decode (h : s.decode start bytes = (.ok r, n)) (hdup : r.op = .dup) :
    r.arg = .none ∧ r.isBare = true := by
  obtain ⟨o, ho, operandBytes, -, hop, hname, -, hoperand⟩ := exists_row h
  obtain ⟨hkind, himplied⟩ := Opcode.dup_of_mem ho (hdup ▸ hop)
  simp only [operand, hkind, himplied, Except.ok.injEq] at hoperand
  refine ⟨?_, ?_⟩
  · simp [Record.arg, hname, Opcode.ofName?_name ho, hkind]
  · simp [Record.isBare, ← hoperand]

/-- Every instruction is one call. -/
theorem reassembly_openAll (h : s.Decodes start bytes is) (t : Nat) :
    reassembly (openAll t is) = is.map fun r => .emit r.name r.arg := by
  induction h generalizing t with
  | nil => rfl
  | @cons start n bytes r rs hd _ ih =>
    have ih' := ih (r.nextTemporary t)
    unfold reassembly at ih' ⊢
    rw [openAll, List.filterMap_append, ih', List.map_cons]
    have hown : (r.opened t).filterMap Record.step? = [.emit r.name r.arg] := by
      unfold Record.opened
      split
      · rename_i hdup
        rw [(dup_of_decode hd hdup).1]
        rfl
      · have hno := (decode_ok hd).2.2.2.no_temporary
        have hstep : r.step? = some (.emit r.name r.arg) := by
          unfold Record.step?
          split
          · rename_i t' ht'
            exact absurd ht' (hno t')
          · rfl
        simp [hstep]
    rw [hown]
    rfl

theorem bare_of_openAll (h : s.Decodes start bytes is) {t : Nat}
    (hbare : ∀ r ∈ openAll t is, r.isBare = true) : ∀ r ∈ is, r.isBare = true := by
  induction h generalizing t with
  | nil => exact fun r hr => absurd hr List.not_mem_nil
  | @cons start n bytes r rs hd _ ih =>
    intro q hq
    rcases List.mem_cons.mp hq with rfl | hq
    · by_cases hdup : q.op = .dup
      · exact (dup_of_decode hd hdup).2
      · refine hbare q (List.mem_append_left _ ?_)
        simp [Record.opened, hdup]
    · exact ih (fun q hq => hbare q (List.mem_append_right _ hq)) q hq

/-- The calls of decoded instructions append the bytes that these were decoded from. -/
theorem applyAll_decoded (h : s.Decodes start bytes is) (hbare : ∀ r ∈ is, r.isBare = true)
    (a : Assembly) :
    ∃ f cs parts, a.applyAll (is.map fun r => .emit r.name r.arg) = .ok f ∧
      f.chunks.toList = a.chunks.toList ++ cs ∧
      (∀ labels, cs.mapM (Chunk.resolve labels) = .ok parts) ∧ parts.flatten = bytes := by
  induction h generalizing a with
  | nil => exact ⟨a, [], [], rfl, by simp, fun _ => rfl, rfl⟩
  | @cons start n bytes r rs hd _ ih =>
    obtain ⟨o, ho, operandBytes, hbytes, -, hname, hread⟩ := exists_row hd
    have hchunk := operandChunk_arg ho hname hread (hbare r List.mem_cons_self)
      (a.position + o.selectorLength)
    have hstep : a.apply (.emit r.name r.arg) =
        .ok ((a.append (.bytes o.selector)).append (.bytes operandBytes)) :=
      Assembly.emit_ok.mpr ⟨o, _, hname ▸ Opcode.ofName?_name ho, hchunk, rfl⟩
    obtain ⟨f, cs, parts, hrun, hcs, hresolve, hflat⟩ :=
      ih (fun q hq => hbare q (List.mem_cons_of_mem _ hq))
        ((a.append (.bytes o.selector)).append (.bytes operandBytes))
    refine ⟨f, .bytes o.selector :: .bytes operandBytes :: cs, o.selector :: operandBytes :: parts,
      foldlM_cons_eq_ok.mpr ⟨_, hstep, hrun⟩, ?_, ?_, ?_⟩
    · rw [hcs]
      simp [Assembly.append]
    · intro labels
      have hlast : (.bytes operandBytes :: cs).mapM (Chunk.resolve labels) =
          .ok (operandBytes :: parts) := mapM_resolve_cons.mpr ⟨_, _, rfl, hresolve labels, rfl⟩
      exact mapM_resolve_cons.mpr ⟨_, _, rfl, hlast, rfl⟩
    · rw [List.flatten_cons, List.flatten_cons, hflat, ← List.append_assoc]
      exact hbytes.symm

end Scope

/-! ## Both directions -/

theorem nextTemporaryAll_eq (t : Nat) (rs : List Record) :
    nextTemporaryAll t rs = t + rs.countP (·.op = .dup) := by
  induction rs generalizing t with
  | nil => rfl
  | cons r rs ih =>
    rw [nextTemporaryAll, ih, List.countP_cons]
    unfold Record.nextTemporary
    split
    · simp [*]
      omega
    · simp [*]

/-- Assembly and reading are inverse. Calls that all succeed, and whose operands mean something in
the method, are read as their instructions, with every duplication opened. And bytes that are read,
if no operand is a float or an entity behind a token, are assembled again from the records. -/
theorem assembly_reading_inverse (m : Method) (body : Body) (resolver : Resolver) :
    (∀ (steps : List Step) (f : Assembly) (rs : List Record),
      ({} : Assembly).applyAll steps = .ok f → f.finish = .ok body.instructions →
      body.instructions.length < 2 ^ 31 →
      (∀ name arg, Step.emit name arg ∈ steps → arg.Ranged) →
      (Scope.of m body resolver).instructions? f.labels {} steps = some rs →
      rs.countP (·.op = .dup) ≤ 65535 →
      (Reader.of m body resolver).readAll = .ok (openAll 0 rs)) ∧
    ∀ records, (Reader.of m body resolver).readAll = .ok records →
      (∀ r ∈ records, r.isBare = true) →
      ∃ f, ({} : Assembly).applyAll (reassembly records) = .ok f ∧
        f.finish = .ok body.instructions := by
  constructor
  · intro steps f rs hrun hfinish hlength hranged hrs hdups
    obtain ⟨parts, hparts, hcode⟩ := Assembly.finish_ok.mp hfinish
    have hempty : Assembly.Measured {} := rfl
    have hmeasured : f.Measured := hempty.applyAll hrun
    have hend : f.position < 2 ^ 31 := by
      rw [hmeasured, ← length_of_mapM_resolve hparts, ← hcode]
      exact hlength
    obtain ⟨cs, hcs, hdecodes⟩ := Scope.decodes_assembled hrun hranged hrs hlength hend
    have hall := hdecodes parts (by simpa [hcs] using hparts)
    rw [← hcode] at hall
    refine (Reader.readAll_eq_ok_iff m body resolver _).mpr ⟨rs, hall, ?_, rfl⟩
    rw [nextTemporaryAll_eq, Nat.zero_add]
    exact hdups
  · intro records hread hbare
    obtain ⟨is, hdecodes, -, rfl⟩ := (Reader.readAll_eq_ok_iff m body resolver records).mp hread
    obtain ⟨f, cs, parts, hrun, hcs, hresolve, hflat⟩ :=
      Scope.applyAll_decoded hdecodes (Scope.bare_of_openAll hdecodes hbare) {}
    refine ⟨f, ?_, Assembly.finish_ok.mpr ⟨parts, ?_, hflat.symm⟩⟩
    · rw [Scope.reassembly_openAll hdecodes]
      exact hrun
    · rw [hcs]
      exact hresolve f.labels

/-- Counts an argument down to zero. -/
def countdownSteps : List Step :=
  [.emit "ldarg.0" .none, .label "again", .emit "ldc.i4.s" (.int (-1)), .emit "add" .none,
    .emit "dup" .none, .emit "brtrue.s" (.label "again"), .emit "ret" .none]

def countdownAssembly : Assembly where
  chunks := #[.bytes [0x02], .bytes [], .bytes [0x1F], .bytes [0xFF], .bytes [0x58], .bytes [],
    .bytes [0x25], .bytes [], .bytes [0x2D], .branch true "again" 7 "brtrue.s", .bytes [0x2A],
    .bytes []]
  position := 8
  labels := [("again", 1)]

def countdownBody : Body := { code := [0x02, 0x1F, 0xFF, 0x58, 0x25, 0x2D, 0xFA, 0x2A] }

def countdownMethod : Method := { name := "Countdown", parameters := [.i4] }

def countdownInstructions : List Record :=
  [⟨.ldarg, .ref (.argument 0), 0, 1, "ldarg.0"⟩, ⟨.ldc .i4, .int32 (-1), 1, 2, "ldc.i4.s"⟩,
    ⟨.arith .add, .none, 3, 1, "add"⟩, ⟨.dup, .none, 4, 1, "dup"⟩,
    ⟨.brtrue, .ref (.target 1), 5, 2, "brtrue.s"⟩, ⟨.ret, .none, 7, 1, "ret"⟩]

/-- The assembly of the calls is read as the instructions, and these assemble to the same bytes. -/
theorem countdown_inverse :
    (Reader.of countdownMethod countdownBody ({} : TokenTable).resolver).readAll =
        .ok (openAll 0 countdownInstructions) ∧
      ∃ f, ({} : Assembly).applyAll (reassembly (openAll 0 countdownInstructions)) = .ok f ∧
        f.finish = .ok countdownBody.instructions := by
  have hinverse :=
    assembly_reading_inverse countdownMethod countdownBody ({} : TokenTable).resolver
  have hrun : ({} : Assembly).applyAll countdownSteps = .ok countdownAssembly := by decide +kernel
  have hfinish : countdownAssembly.finish = .ok countdownBody.instructions := by decide +kernel
  have hinstructions : (Scope.of countdownMethod countdownBody
      ({} : TokenTable).resolver).instructions? countdownAssembly.labels {} countdownSteps =
        some countdownInstructions := by decide +kernel
  have hranged : ∀ name arg, Step.emit name arg ∈ countdownSteps → arg.Ranged := by
    intro name arg harg
    simp only [countdownSteps, List.mem_cons, Step.emit.injEq, reduceCtorEq, List.not_mem_nil,
      false_or, or_false] at harg
    rcases harg with ⟨-, rfl⟩ | ⟨-, rfl⟩ | ⟨-, rfl⟩ | ⟨-, rfl⟩ | ⟨-, rfl⟩ | ⟨-, rfl⟩ <;> trivial
  have hread := hinverse.1 countdownSteps _ countdownInstructions hrun hfinish (by decide) hranged
    hinstructions (by decide)
  exact ⟨hread, hinverse.2 _ hread (by decide)⟩

end SpuCompiler.Bytecode
