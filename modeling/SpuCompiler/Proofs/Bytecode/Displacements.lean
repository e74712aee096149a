import SpuCompiler.Proofs.Bytecode.Literals
import SpuCompiler.Proofs.Bytecode.SourceRuns

/-!
Labels are notation for displacements. A text without its labels has no lines that name a position,
and the branches to labels have the distances to them instead. It is accepted with the same bytes.
-/

namespace SpuCompiler.Text

variable {v : Int}

/-! ## Decimal text -/

def signedDecimal (v : Int) : List Char :=
  (if v < 0 then '-' else '+') :: Nat.toDigits 10 v.natAbs

theorem signed?_signedDecimal {bits : Nat} (h : fitsSigned bits v = true) :
    signed? 10 bits (signedDecimal v) = some v := by
  have hdigits : natural? 10 (Nat.toDigits 10 v.natAbs) = some v.natAbs :=
    natural?_toDigits (by decide) (by decide) _
  have hinteger : integer? 10 (signedDecimal v) = some v := by
    unfold signedDecimal
    split
    all_goals
      simp only [integer?, hdigits, Option.bind_eq_bind, Option.bind_some, Option.pure_def,
        Option.map_some, Option.some.injEq]
      omega
  rw [signed?, hinteger]
  simp [h]

theorem mem_signedDecimal {c : Char} (h : c ∈ signedDecimal v) :
    c = '-' ∨ c = '+' ∨ c.isDigit = true := by
  rcases List.mem_cons.mp h with rfl | h
  · split <;> simp
  · exact .inr (.inr (Nat.isDigit_of_mem_toDigits (by decide) (by decide) h))

end SpuCompiler.Text

namespace SpuCompiler.Bytecode

variable {labels : List (String × Nat)} {position : Nat}
variable {o : Opcode} {c : Chunk} {bytes : List UInt8} {name word : String} {line : List Char}
  {steps : List Step} {ls : List (List Char)}

/-! ## Calls without labels -/

/-- The distance from the end of a branch to a label. -/
def distance (labels : List (String × Nat)) (stop : Nat) (name : String) : Int :=
  (labels.lookup name).getD 0 - stop

def Arg.displaced (labels : List (String × Nat)) (stop : Nat) : Arg → Arg
  | .label name => .displacement (distance labels stop name)
  | arg => arg

namespace Step

def displaced (labels : List (String × Nat)) (position : Nat) : Step → List Step
  | .label _ => []
  | .emit name arg => [.emit name (arg.displaced labels (position + size (.emit name arg)))]

def displacedAll (labels : List (String × Nat)) : Nat → List Step → List Step
  | _, [] => []
  | position, step :: steps =>
    step.displaced labels position ++ displacedAll labels (position + step.size) steps

/-- The labels of calls, the last one first. -/
def labelsFrom (labels : List (String × Nat)) (position : Nat) : List Step → List (String × Nat)
  | [] => labels
  | .label name :: steps => labelsFrom ((name, position) :: labels) position steps
  | step :: steps => labelsFrom labels (position + step.size) steps

/-- Whether the call names a position or branches to a name. -/
def usesLabel : Step → Bool
  | .label _ | .emit _ (.label _) => true
  | _ => false

theorem usesLabel_displacedAll :
    ∀ step ∈ displacedAll labels position steps, step.usesLabel = false := by
  induction steps generalizing position with
  | nil => simp [displacedAll]
  | cons step steps ih =>
    intro other hother
    rcases List.mem_append.mp hother with hother | hother
    · cases step with
      | label name => cases hother
      | emit name arg =>
        rw [displaced, List.mem_singleton] at hother
        subst hother
        cases arg <;> rfl
    · exact ih other hother

end Step

/-! ## Assembly without labels -/

/-- What writes a branch to a label writes the distance to it in the same way. -/
theorem Opcode.Writes.displaced {arg : Arg} (h : o.Writes position arg c)
    (hbytes : c.resolve labels = .ok bytes) :
    o.Writes position (arg.displaced labels (position + c.length)) (.bytes bytes) := by
  have hsame := h
  cases h with
  | shortLabel hk =>
    simp only [Chunk.resolve] at hbytes
    split at hbytes
    · cases hbytes
    · rename_i target htarget
      simp only [if_true] at hbytes
      split at hbytes
      · rename_i hfits
        cases hbytes
        simp only [Arg.displaced, distance, htarget, Option.getD_some, Chunk.length, if_true]
        exact .shortTarget hk hfits
      · cases hbytes
  | label hk =>
    simp only [Chunk.resolve] at hbytes
    split at hbytes
    · cases hbytes
    · rename_i target htarget
      cases hbytes
      simp only [Arg.displaced, distance, htarget, Option.getD_some, Chunk.length]
      exact .target hk
  | _ =>
    cases hbytes
    exact hsame

def Chunk.settled (labels : List (String × Nat)) (c : Chunk) : Chunk :=
  .bytes ((c.resolve labels).toOption.getD [])

theorem Chunk.settled_eq (h : c.resolve labels = .ok bytes) : c.settled labels = .bytes bytes := by
  rw [Chunk.settled, h]
  rfl

theorem mapM_settled {cs : List Chunk} {parts : List (List UInt8)}
    (h : cs.mapM (Chunk.resolve labels) = .ok parts) :
    (∀ c ∈ cs, ∃ bytes, c.resolve labels = .ok bytes) ∧
      (cs.map (Chunk.settled labels)).mapM (Chunk.resolve []) = .ok parts := by
  induction cs generalizing parts with
  | nil => exact ⟨by simp, h⟩
  | cons c cs ih =>
    obtain ⟨bytes, rest, hbytes, hrest, rfl⟩ := mapM_resolve_cons.mp h
    obtain ⟨hresolves, hsettled⟩ := ih hrest
    refine ⟨List.forall_mem_cons.mpr ⟨⟨bytes, hbytes⟩, hresolves⟩, ?_⟩
    refine mapM_resolve_cons.mpr ⟨bytes, rest, ?_, hsettled, rfl⟩
    rw [Chunk.settled_eq hbytes]
    rfl

namespace Assembly

variable {a a' f : Assembly} {step : Step} {steps : List Step}

def settled (labels : List (String × Nat)) (a : Assembly) : Assembly :=
  ⟨a.chunks.map (Chunk.settled labels), a.position, []⟩

theorem settled_append (h : c.resolve labels = .ok bytes) :
    (a.append c).settled labels = (a.settled labels).append (.bytes bytes) := by
  have hlength : c.length = (Chunk.bytes bytes).length := (Chunk.length_of_resolve h).symm
  simp [settled, append, Chunk.settled_eq h, hlength]

def Resolves (labels : List (String × Nat)) (a : Assembly) : Prop :=
  ∀ c ∈ a.chunks, ∃ bytes, c.resolve labels = .ok bytes

theorem settled_apply (h : a.apply step = .ok a') (hresolves : a'.Resolves labels) :
    (a.settled labels).applyAll (step.displaced labels a.position) = .ok (a'.settled labels) := by
  cases step with
  | label name =>
    obtain ⟨hchunks, hposition⟩ := label_ok h
    simp [Step.displaced, applyAll, settled, hchunks, hposition, pure, Except.pure]
  | emit name arg =>
    have hsize := position_apply h
    obtain ⟨o, c, ho, hc, rfl⟩ := emit_ok.mp h
    obtain ⟨bytes, hbytes⟩ := hresolves c (by simp [append])
    have hstop : a.position + Step.size (.emit name arg) =
        a.position + o.selectorLength + c.length := by
      rw [← hsize]
      simp [append, Chunk.length, Opcode.length_selector]
    have hwrites := (Opcode.operandChunk_ok.mp hc).displaced hbytes
    have hselector : (Chunk.bytes o.selector).resolve labels = .ok o.selector := rfl
    have hone : (a.settled labels).apply (.emit name (arg.displaced labels (a.position +
        Step.size (.emit name arg)))) = .ok
          (((a.append (.bytes o.selector)).append c).settled labels) := by
      rw [settled_append hbytes, settled_append hselector, hstop]
      exact emit_ok.mpr ⟨o, _, ho, Opcode.operandChunk_ok.mpr hwrites, rfl⟩
    simpa [Step.displaced, applyAll] using hone

theorem settled_applyAll (h : a.applyAll steps = .ok f) (hresolves : f.Resolves labels) :
    (a.settled labels).applyAll (Step.displacedAll labels a.position steps) =
      .ok (f.settled labels) := by
  induction steps generalizing a with
  | nil =>
    cases h
    rfl
  | cons step steps ih =>
    obtain ⟨a', hstep, hrun⟩ := foldlM_cons_eq_ok.mp h
    obtain ⟨cs, hcs⟩ := exists_chunks hrun
    have hresolves' : a'.Resolves labels := by
      intro c hc
      refine hresolves c (Array.mem_toList_iff.mp ?_)
      rw [hcs]
      exact List.mem_append_left _ (Array.mem_toList_iff.mpr hc)
    refine foldlM_append_eq_ok.mpr ⟨a'.settled labels, settled_apply hstep hresolves', ?_⟩
    rw [← position_apply hstep]
    exact ih hrun

theorem settled_finish {code : List UInt8} (h : f.finish = .ok code) :
    f.Resolves f.labels ∧ (f.settled f.labels).finish = .ok code := by
  obtain ⟨parts, hparts, rfl⟩ := finish_ok.mp h
  obtain ⟨hresolves, hsettled⟩ := mapM_settled hparts
  refine ⟨fun c hc => hresolves c (Array.mem_toList_iff.mpr hc), finish_ok.mpr ⟨parts, ?_, rfl⟩⟩
  rw [settled, Array.toList_map]
  exact hsettled

theorem labels_applyAll (h : a.applyAll steps = .ok f) :
    f.labels = Step.labelsFrom a.labels a.position steps := by
  induction steps generalizing a with
  | nil =>
    cases h
    rfl
  | cons step steps ih =>
    obtain ⟨a', hstep, hrun⟩ := foldlM_cons_eq_ok.mp h
    rw [ih hrun, position_apply hstep]
    cases step with
    | label name =>
      simp only [apply, label] at hstep
      split at hstep
      · cases hstep
      · cases hstep
        rfl
    | emit name arg =>
      obtain ⟨o, c, -, -, rfl⟩ := emit_ok.mp hstep
      rfl

end Assembly

/-! ## Text without labels -/

/-- The line without labels: nothing for the name of a position, a distance for a label. -/
def displacedLine (labels : List (String × Nat)) (position : Nat) (line : List Char) :
    List (List Char) :=
  match Step.ofLine? line with
  | some [.label _] => []
  | some [.emit _ (.label name)] =>
    let v := distance labels (position + lineSize line) name
    [Statement.replaceArgument (Text.signedDecimal v) line]
  | _ => [line]

def displacedLines (labels : List (String × Nat)) : Nat → List (List Char) → List (List Char)
  | _, [] => []
  | position, line :: ls =>
    displacedLine labels position line ++ displacedLines labels (position + lineSize line) ls

def withoutLabels (source : String) : String :=
  let ls := Text.lines source.toList
  let labels := Step.labelsFrom [] 0 ((Step.ofLines? ls).getD [])
  String.ofList (List.intercalate ['\n'] (displacedLines labels 0 ls))

theorem Opcode.readArg?_label {token : String} (h : o.readArg? token = some (.label name)) :
    token = name ∧
      ∀ v, Text.fitsSigned 32 v = true →
        o.readArg? (String.ofList (Text.signedDecimal v)) = some (.displacement v) := by
  have hsign : ∀ v, (Text.signedDecimal v).head? = some '+' ∨
      (Text.signedDecimal v).head? = some '-' := by
    intro v
    unfold Text.signedDecimal
    split <;> simp
  cases hk : o.operand <;> simp [readArg?, hk] at h
  all_goals
    have htoken : token = name := by split at h <;> simp_all
    exact ⟨htoken, fun v hv => by simp [readArg?, hk, hsign, Text.signed?_signedDecimal hv]⟩

theorem Statement.step?_label {s : Statement} (h : s.step? = some (.emit word (.label name))) :
    s = ⟨word, some name⟩ ∧
      ∀ v, Text.fitsSigned 32 v = true →
        step? ⟨word, some (String.ofList (Text.signedDecimal v))⟩ =
          some (.emit word (.displacement v)) := by
  obtain ⟨w, argument⟩ := s
  unfold step? at h
  split at h
  · simp at h
  · rename_i hlabel
    obtain ⟨o, ho, h⟩ := Option.bind_eq_some_iff.mp h
    cases argument with
    | none => cases h
    | some token =>
      obtain ⟨arg, harg, h⟩ := Option.map_eq_some_iff.mp h
      cases h
      obtain ⟨rfl, hread⟩ := Opcode.readArg?_label harg
      refine ⟨rfl, fun v hv => ?_⟩
      simp_all [step?]

theorem fitsSigned_distance {stop : Nat} (hlabels : ∀ p ∈ labels, p.2 < 2 ^ 31)
    (hstop : stop < 2 ^ 31) (name : String) :
    Text.fitsSigned 32 (distance labels stop name) = true := by
  have htarget : (labels.lookup name).getD 0 < 2 ^ 31 := by
    cases h : labels.lookup name with
    | none => simp
    | some target =>
      obtain ⟨front, back, rfl, -⟩ := List.lookup_eq_some_iff.mp h
      exact hlabels (name, target) (by simp)
  simp only [Text.fitsSigned, distance]
  norm_num
  omega

theorem Statement.ofLine?_signedDecimal {argument : String}
    (h : ofLine? line = some ⟨word, some argument⟩) (v : Int) :
    ofLine? (replaceArgument (Text.signedDecimal v) line) =
      some ⟨word, some (String.ofList (Text.signedDecimal v))⟩ := by
  refine ofLine?_replaceArgument h (List.cons_ne_nil _ _) ?_ ?_
  · intro c hc
    rcases Text.mem_signedDecimal hc with rfl | rfl | hdigit
    · decide
    · decide
    · exact isBlank_of_isWordChar (by simp [isWordChar, Char.isAlphanum, hdigit])
  · intro c hc
    rcases Text.mem_signedDecimal hc with rfl | rfl | hdigit
    · decide
    · decide
    · exact isQuiet_of_isWordChar (by simp [isWordChar, Char.isAlphanum, hdigit])

/-- A line without labels is the call of the line without labels. -/
theorem ofLines?_displacedLine (h : Step.ofLine? line = some steps)
    (hlabels : ∀ p ∈ labels, p.2 < 2 ^ 31) (hstop : position + lineSize line < 2 ^ 31) :
    Step.ofLines? (displacedLine labels position line) =
      some (Step.displacedAll labels position steps) := by
  rcases Step.ofLine?_eq_some.mp h with ⟨-, rfl⟩ | ⟨s, step, hs, hstep, rfl⟩
  · simp [displacedLine, h, Step.ofLines?, Step.displacedAll]
  · cases step with
    | label name => simp [displacedLine, h, Step.ofLines?, Step.displacedAll, Step.displaced]
    | emit word arg =>
      cases arg with
      | label name =>
        obtain ⟨rfl, hnumber⟩ := Statement.step?_label hstep
        have hsize : lineSize line = Step.size (.emit word (.label name)) := by
          simp [lineSize_of_ofLine? h]
        have hnew := Step.ofLine?_eq_some.mpr (.inr ⟨_, _, Statement.ofLine?_signedDecimal hs _,
          hnumber _ (fitsSigned_distance hlabels hstop name), rfl⟩)
        simp [displacedLine, h, Step.ofLines?, hnew, Step.displacedAll, Step.displaced,
          Arg.displaced, ← hsize]
      | _ =>
        simp [displacedLine, h, Step.ofLines?, Step.displacedAll, Step.displaced, Arg.displaced]

theorem Step.ofLines?_append {ls' : List (List Char)} {steps' : List Step}
    (h : ofLines? ls = some steps) (h' : ofLines? ls' = some steps') :
    ofLines? (ls ++ ls') = some (steps ++ steps') := by
  induction ls generalizing steps with
  | nil =>
    cases h
    exact h'
  | cons line ls ih =>
    obtain ⟨first, rest, hfirst, hrest, rfl⟩ := ofLines?_cons.mp h
    exact ofLines?_cons.mpr ⟨first, _, hfirst, ih hrest, List.append_assoc ..⟩

theorem Step.displacedAll_append (labels : List (String × Nat)) (position : Nat)
    (steps steps' : List Step) : displacedAll labels position (steps ++ steps') =
      displacedAll labels position steps ++
        displacedAll labels (position + (steps.map size).sum) steps' := by
  induction steps generalizing position with
  | nil => rfl
  | cons step steps ih => simp [displacedAll, ih, Nat.add_assoc]

/-- Lines without labels are the calls of the lines without labels. -/
theorem ofLines?_displacedLines (h : Step.ofLines? ls = some steps)
    (hlabels : ∀ p ∈ labels, p.2 < 2 ^ 31) (hstop : position + textSize ls < 2 ^ 31) :
    Step.ofLines? (displacedLines labels position ls) =
      some (Step.displacedAll labels position steps) := by
  induction ls generalizing position steps with
  | nil =>
    cases h
    rfl
  | cons line ls ih =>
    obtain ⟨first, rest, hfirst, hrest, rfl⟩ := Step.ofLines?_cons.mp h
    have hsize : textSize (line :: ls) = lineSize line + textSize ls := rfl
    rw [Step.displacedAll_append, ← lineSize_of_ofLine? hfirst]
    exact Step.ofLines?_append (ofLines?_displacedLine hfirst hlabels (by omega))
      (ih hrest (by omega))

theorem newline_not_mem_displacedLines (h : ∀ line ∈ ls, '\n' ∉ line) :
    ∀ line ∈ displacedLines labels position ls, '\n' ∉ line := by
  induction ls generalizing position with
  | nil => simp [displacedLines]
  | cons line ls ih =>
    obtain ⟨hline, hls⟩ := List.forall_mem_cons.mp h
    refine List.forall_mem_append.mpr ⟨?_, ih hls⟩
    unfold displacedLine
    split
    · simp
    · rw [List.forall_mem_singleton]
      refine Statement.newline_not_mem_replaceArgument hline fun hmem => ?_
      rcases Text.mem_signedDecimal hmem with hc | hc | hc <;> exact absurd hc (by decide)
    · rw [List.forall_mem_singleton]
      exact hline

/-- The calls of the text without labels. -/
theorem ofLines?_withoutLabels {source : String}
    (h : Step.ofLines? (Text.lines source.toList) = some steps)
    (hlabels : ∀ p ∈ Step.labelsFrom [] 0 steps, p.2 < 2 ^ 31)
    (hsize : textSize (Text.lines source.toList) < 2 ^ 31) :
    Step.ofLines? (Text.lines (withoutLabels source).toList) =
      some (Step.displacedAll (Step.labelsFrom [] 0 steps) 0 steps) := by
  have hlines := ofLines?_displacedLines h hlabels (by rwa [Nat.zero_add])
  rw [withoutLabels, String.toList_ofList, h, Option.getD_some, ← hlines]
  -- no line is left of a text of labels, and the empty text has one line
  by_cases hne : displacedLines (Step.labelsFrom [] 0 steps) 0 (Text.lines source.toList) = []
  · rw [hne]
    rfl
  · rw [Text.lines_intercalate hne
      (newline_not_mem_displacedLines (Text.newline_not_mem_lines source.toList))]

theorem Step.labelsFrom_le :
    ∀ p ∈ labelsFrom labels position steps, p ∈ labels ∨ p.2 ≤ position + (steps.map size).sum := by
  induction steps generalizing labels position with
  | nil => exact fun p hp => .inl hp
  | cons step steps ih =>
    intro p hp
    rw [List.map_cons, List.sum_cons]
    cases step with
    | label name =>
      rcases ih p hp with hp | hp
      · rcases List.mem_cons.mp hp with rfl | hp
        · exact .inr (Nat.le_add_right _ _)
        · exact .inl hp
      · exact .inr (by simp only [size]; omega)
    | emit name arg =>
      rcases ih p hp with hp | hp
      · exact .inl hp
      · exact .inr (by omega)

/-- A text that is accepted is accepted without its labels, with the same bytes. -/
theorem assemble_withoutLabels {source : String} {code : List UInt8}
    (h : assemble source = .ok code) (hlength : code.length < 2 ^ 31) :
    assemble (withoutLabels source) = .ok code ∧
      ∃ steps, Step.ofLines? (Text.lines (withoutLabels source).toList) = some steps ∧
        ∀ step ∈ steps, step.usesLabel = false := by
  obtain ⟨steps, f, hsteps, hrun, hfinish⟩ := assemble_ok.mp h
  have hlabels : f.labels = Step.labelsFrom [] 0 steps := Assembly.labels_applyAll hrun
  have hposition : (steps.map Step.size).sum = code.length := by
    obtain ⟨hmeasured, hposition⟩ := Assembly.measured_of_applyAll hrun
    obtain ⟨parts, hparts, rfl⟩ := Assembly.finish_ok.mp hfinish
    rw [length_of_mapM_resolve hparts, ← hmeasured, hposition]
  have hbound : ∀ p ∈ Step.labelsFrom [] 0 steps, p.2 < 2 ^ 31 := by
    intro p hp
    have := (Step.labelsFrom_le p hp).resolve_left List.not_mem_nil
    omega
  have htext := ofLines?_withoutLabels hsteps hbound
    (by rw [textSize_of_ofLines? hsteps, hposition]; exact hlength)
  obtain ⟨hresolves, hsettled⟩ := Assembly.settled_finish hfinish
  have hrun' := Assembly.settled_applyAll hrun hresolves
  have hempty : Assembly.settled f.labels {} = {} := by simp [Assembly.settled]
  rw [hempty, hlabels] at hrun'
  rw [hlabels] at hsettled
  exact ⟨assemble_ok.mpr ⟨_, _, htext, hrun', hsettled⟩, _, htext, Step.usesLabel_displacedAll⟩

/-- Branches forward and back, short and long, between comments. -/
theorem assemble_loop :
    withoutLabels ".label top\nldc.i4.s 5 // five\n  br.s done # out\n brtrue top\n.label done\nret" =
        "ldc.i4.s 5 // five\n  br.s +5 # out\n brtrue -9\nret" ∧
      assemble "ldc.i4.s 5 // five\n  br.s +5 # out\n brtrue -9\nret" =
        .ok [0x1F, 0x05, 0x2B, 0x05, 0x3A, 0xF7, 0xFF, 0xFF, 0xFF, 0x2A] := by
  have hcode : assemble
      ".label top\nldc.i4.s 5 // five\n  br.s done # out\n brtrue top\n.label done\nret" =
        .ok [0x1F, 0x05, 0x2B, 0x05, 0x3A, 0xF7, 0xFF, 0xFF, 0xFF, 0x2A] := by decide +kernel
  have htext : withoutLabels
      ".label top\nldc.i4.s 5 // five\n  br.s done # out\n brtrue top\n.label done\nret" =
        "ldc.i4.s 5 // five\n  br.s +5 # out\n brtrue -9\nret" := by decide +kernel
  refine ⟨htext, ?_⟩
  rw [← htext]
  exact (assemble_withoutLabels hcode (by decide)).1

end SpuCompiler.Bytecode
