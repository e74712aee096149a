import SpuCompiler.Proofs.Bytecode.RoundTrip
import SpuCompiler.Proofs.Bytecode.SourceLines

/-!
The calls that an assembly text stands for. A line is no call or one call, a text is accepted when
all of its calls succeed, and it fails at the first line that is refused. The position behind some
lines is the sum of their sizes, which only depend on their words.
-/

namespace SpuCompiler.Bytecode

/-! ## Lines as calls -/

def Statement.step? (s : Statement) : Option Step :=
  if s.word = ".label" then s.argument.map .label
  else do
    let o ← Opcode.ofName? s.word
    match s.argument with
    | none => some (.emit s.word .none)
    | some token => (o.readArg? token).map (.emit s.word)

namespace Step

def size : Step → Nat
  | .label _ => 0
  | .emit name _ =>
    match Opcode.ofName? name with
    | none => 0
    | some o => o.selectorLength + o.operand.width?.getD 0

def ofLine? (line : List Char) : Option (List Step) :=
  if Text.trim (Statement.dropComment line) = [] then some []
  else (Statement.ofLine? line).bind fun s => s.step?.map ([·])

def ofLines? : List (List Char) → Option (List Step)
  | [] => some []
  | line :: ls => do return (← ofLine? line) ++ (← ofLines? ls)

theorem ofLine?_eq_some {line : List Char} {steps : List Step} :
    ofLine? line = some steps ↔ Text.trim (Statement.dropComment line) = [] ∧ steps = [] ∨
      ∃ s step, Statement.ofLine? line = some s ∧ s.step? = some step ∧ steps = [step] := by
  unfold ofLine?
  by_cases hblank : Text.trim (Statement.dropComment line) = []
  · have hnone : Statement.ofLine? line = none := by
      rw [Statement.ofLine?, hblank]
      rfl
    simp [hblank, hnone, eq_comm]
  · simp [hblank, Option.bind_eq_some_iff, @eq_comm _ _ steps]

theorem ofLines?_cons {line : List Char} {ls : List (List Char)} {steps : List Step} :
    ofLines? (line :: ls) = some steps ↔
      ∃ first rest, ofLine? line = some first ∧ ofLines? ls = some rest ∧ steps = first ++ rest := by
  simp [ofLines?, Option.bind_eq_some_iff, @eq_comm _ _ steps]

end Step

def lineSize (line : List Char) : Nat := (((Step.ofLine? line).getD []).map Step.size).sum

/-- Bytes that lines append. -/
def textSize (ls : List (List Char)) : Nat := (ls.map lineSize).sum

theorem lineSize_of_ofLine? {line : List Char} {steps : List Step}
    (h : Step.ofLine? line = some steps) : lineSize line = (steps.map Step.size).sum := by
  rw [lineSize, h]
  rfl

theorem textSize_of_ofLines? {ls : List (List Char)} {steps : List Step}
    (h : Step.ofLines? ls = some steps) : textSize ls = (steps.map Step.size).sum := by
  induction ls generalizing steps with
  | nil =>
    cases h
    rfl
  | cons line ls ih =>
    obtain ⟨first, rest, hfirst, hrest, rfl⟩ := Step.ofLines?_cons.mp h
    rw [List.map_append, List.sum_append, ← ih hrest, ← lineSize_of_ofLine? hfirst]
    rfl

theorem Opcode.Writes.width {o : Opcode} {position : Nat} {arg : Arg} {c : Chunk}
    (h : o.Writes position arg c) : o.operand.width? = some c.length := by
  cases h with
  | token hk =>
    simp only [List.mem_cons, List.not_mem_nil, or_false] at hk
    rcases hk with hk | hk | hk | hk <;> rw [hk] <;> rfl
  | none hk | shortVar hk | var hk | shortI hk | i hk | i8 hk | r4 hk | r hk | shortTarget hk
  | target hk | shortLabel hk | label hk => rw [hk]; rfl

namespace Assembly

variable {a a' f : Assembly} {step : Step} {steps : List Step} {line : List Char}
  {ls : List (List Char)} {n : Nat}

/-! ## Accepted lines -/

theorem statement_ok {s : Statement} :
    a.statement s = .ok a' ↔ ∃ step, s.step? = some step ∧ a.apply step = .ok a' := by
  unfold statement Statement.step?
  by_cases hlabel : s.word = ".label"
  · cases s.argument with
    | none => simp [hlabel]
    | some name => simp [hlabel, mapError_eq_ok, apply]
  · cases ho : Opcode.ofName? s.word with
    | none => simp [hlabel]
    | some o =>
      cases hargument : s.argument with
      | none =>
        rcases hemit : a.emit s.word .none with ⟨next, e | _⟩ <;>
          simp [hlabel, bind, Except.bind, apply, hemit]
      | some token =>
        cases harg : o.readArg? token with
        | none => simp [hlabel, harg, bind, Except.bind]
        | some arg =>
          rcases hemit : a.emit s.word arg with ⟨next, e | _⟩ <;>
            simp [hlabel, bind, Except.bind, apply, hemit, harg]

theorem line_ok : a.line line = .ok a' ↔
    ∃ steps, Step.ofLine? line = some steps ∧ a.applyAll steps = .ok a' := by
  unfold Assembly.line Step.ofLine? Statement.ofLine?
  cases Text.trim (Statement.dropComment line) with
  | nil => simp [applyAll, pure, Except.pure]
  | cons c cs =>
    cases hread : Statement.read? (c :: cs) with
    | none => simp [hread]
    | some s =>
      have hone : ∀ step, a.applyAll [step] = .ok a' ↔ a.apply step = .ok a' := fun step => by
        simp [applyAll]
      simp [hread, statement_ok, hone]

theorem lines_ok : a.lines n ls = .ok f ↔
    ∃ steps, Step.ofLines? ls = some steps ∧ a.applyAll steps = .ok f := by
  induction ls generalizing a n with
  | nil => simp [lines, Step.ofLines?, applyAll, pure, Except.pure]
  | cons line ls ih =>
    have hcons : a.lines n (line :: ls) = .ok f ↔
        ∃ a', a.line line = .ok a' ∧ a'.lines (n + 1) ls = .ok f := by
      rw [lines]
      cases a.line line <;> simp
    rw [hcons]
    constructor
    · rintro ⟨a', hline, hrest⟩
      obtain ⟨first, hfirst, happly⟩ := line_ok.mp hline
      obtain ⟨rest, hrest, hrun⟩ := ih.mp hrest
      exact ⟨first ++ rest, Step.ofLines?_cons.mpr ⟨first, rest, hfirst, hrest, rfl⟩,
        foldlM_append_eq_ok.mpr ⟨a', happly, hrun⟩⟩
    · rintro ⟨steps, hsteps, hrun⟩
      obtain ⟨first, rest, hfirst, hrest, rfl⟩ := Step.ofLines?_cons.mp hsteps
      obtain ⟨a', happly, hrun⟩ := foldlM_append_eq_ok.mp hrun
      exact ⟨a', line_ok.mpr ⟨first, hfirst, happly⟩, ih.mpr ⟨rest, hrest, hrun⟩⟩

/-- A text fails at one of its lines. -/
theorem lines_error {e : SourceError} (h : a.lines n ls = .error e) :
    n ≤ e.line ∧ e.line < n + ls.length := by
  induction ls generalizing a n with
  | nil => cases h
  | cons line ls ih =>
    rw [lines] at h
    split at h
    · cases h
      simp
    · have := ih h
      rw [List.length_cons]
      omega

theorem lines_append (ls' : List (List Char)) :
    a.lines n (ls ++ ls') = a.lines n ls >>= fun a' => a'.lines (n + ls.length) ls' := by
  induction ls generalizing a n with
  | nil => rfl
  | cons line ls ih =>
    rw [List.cons_append, lines, lines]
    cases a.line line with
    | error fault => rfl
    | ok a' =>
      simp only [ih, List.length_cons, Nat.add_assoc, Nat.add_comm 1]

/-! ## Positions -/

theorem position_apply (h : a.apply step = .ok a') : a'.position = a.position + step.size := by
  cases step with
  | label name => exact (label_ok h).2
  | emit name arg =>
    obtain ⟨o, c, ho, hc, rfl⟩ := emit_ok.mp h
    simp only [append, Chunk.length, Opcode.length_selector, Step.size, ho,
      (Opcode.operandChunk_ok.mp hc).width, Option.getD_some, Nat.add_assoc]

theorem position_applyAll (h : a.applyAll steps = .ok f) :
    f.position = a.position + (steps.map Step.size).sum := by
  induction steps generalizing a with
  | nil =>
    cases h
    rfl
  | cons step steps ih =>
    obtain ⟨a', hstep, hrun⟩ := foldlM_cons_eq_ok.mp h
    rw [ih hrun, position_apply hstep, List.map_cons, List.sum_cons, Nat.add_assoc]

theorem measured_of_applyAll (h : Assembly.applyAll {} steps = .ok f) :
    f.Measured ∧ f.position = (steps.map Step.size).sum := by
  have hempty : Measured {} := rfl
  exact ⟨hempty.applyAll h, (position_applyAll h).trans (Nat.zero_add _)⟩

/-- Chunks are only appended. -/
theorem exists_chunks (h : a.applyAll steps = .ok f) :
    ∃ cs, f.chunks.toList = a.chunks.toList ++ cs := by
  induction steps generalizing a with
  | nil =>
    cases h
    exact ⟨[], (List.append_nil _).symm⟩
  | cons step steps ih =>
    obtain ⟨a', hstep, hrun⟩ := foldlM_cons_eq_ok.mp h
    obtain ⟨cs, hcs⟩ := ih hrun
    cases step with
    | label name => exact ⟨cs, (label_ok hstep).1 ▸ hcs⟩
    | emit name arg =>
      obtain ⟨o, c, -, -, rfl⟩ := emit_ok.mp hstep
      exact ⟨.bytes o.selector :: c :: cs, by simpa [append] using hcs⟩

end Assembly

theorem assemble_ok {source : String} {code : List UInt8} :
    assemble source = .ok code ↔ ∃ steps f, Step.ofLines? (Text.lines source.toList) = some steps ∧
      Assembly.applyAll {} steps = .ok f ∧ f.finish = .ok code := by
  simp only [assemble, bind_eq_ok, mapError_eq_ok, Assembly.lines_ok]
  tauto

end SpuCompiler.Bytecode
