import SpuCompiler.Proofs.Bytecode.SourceRuns

/-!
Integer operands of an assembly text. The literal of an instruction is written to a field behind
the opcode. Where the field cannot hold the literal, the line is refused, unless the operand is a
token: of a token the field keeps the low bytes. So a field that is checked is read as its literal,
and a token as its literal modulo 2 ^ 32.
-/

namespace SpuCompiler.Bytecode

/-! ## Fields -/

/-- A field for an integer: its bytes, and whether they are read as a signed word. -/
structure IntegerField where
  width : Nat
  isSigned : Bool

def OperandKind.field? : OperandKind → Option IntegerField
  | .shortVar => some ⟨1, false⟩
  | .var => some ⟨2, false⟩
  | .shortI => some ⟨1, true⟩
  | .i => some ⟨4, true⟩
  | .i8 => some ⟨8, true⟩
  | .field | .method | .type | .string => some ⟨4, false⟩
  | _ => Option.none

def OperandKind.isToken : OperandKind → Bool
  | .field | .method | .type | .string => true
  | _ => false

theorem OperandKind.width_of_field? {k : OperandKind} {f : IntegerField} (h : k.field? = some f) :
    0 < f.width ∧ (k.isToken = true → f = ⟨4, false⟩) := by
  cases k <;> cases h <;> simp [isToken]

namespace IntegerField

variable {f : IntegerField} {v : Int}

def holds (f : IntegerField) (v : Int) : Bool :=
  if f.isSigned then Text.fitsSigned (8 * f.width) v else Text.fitsUnsigned (8 * f.width) v

def read (f : IntegerField) (bytes : List UInt8) : Int :=
  let word := BitVec.ofNat (8 * f.width) (Binary.ofLittleEndian bytes)
  if f.isSigned then word.toInt else word.toNat

def low (f : IntegerField) (v : Int) : List UInt8 :=
  Binary.littleEndian f.width (BitVec.ofInt (8 * f.width) v).toNat

theorem read_low (f : IntegerField) (v : Int) :
    f.read (f.low v) = if f.isSigned then (BitVec.ofInt (8 * f.width) v).toInt
      else (BitVec.ofInt (8 * f.width) v).toNat := by
  simp only [read, low, Binary.ofLittleEndian_toNat, BitVec.ofNat_toNat, BitVec.setWidth_eq]

theorem read_low_unsigned (h : f.isSigned = false) : f.read (f.low v) = v % 2 ^ (8 * f.width) := by
  have hpos : (0 : Int) < 2 ^ (8 * f.width) := by positivity
  rw [read_low, h, if_neg (by simp), BitVec.toNat_ofInt, Int.toNat_of_nonneg]
  · simp
  · exact_mod_cast Int.emod_nonneg v hpos.ne'

/-- The low bytes of a value are read as the value exactly when the field can hold it. -/
theorem read_low_eq_iff (hwidth : 0 < f.width) : f.read (f.low v) = v ↔ f.holds v = true := by
  cases hsigned : f.isSigned with
  | true =>
    simp only [read_low, holds, hsigned, if_true]
    constructor
    · intro h
      rw [← h]
      exact Text.fitsSigned_toInt _
    · exact Text.toInt_ofInt (by omega)
  | false =>
    have hpos : (0 : Int) < 2 ^ (8 * f.width) := by positivity
    rw [read_low_unsigned hsigned]
    simp only [holds, hsigned, Bool.false_eq_true, if_false, Text.fitsUnsigned, decide_eq_true_eq,
      Nat.pow_eq, Nat.cast_pow, Nat.cast_ofNat]
    constructor
    · intro h
      rw [← h]
      exact ⟨Int.emod_nonneg v hpos.ne', Int.emod_lt_of_pos v hpos⟩
    · rintro ⟨hlow, hhigh⟩
      exact Int.emod_eq_of_lt hlow hhigh

end IntegerField

/-! ## Literals -/

section Literals

variable {o : Opcode} {f : IntegerField} {word literal : String} {v : Int} {line : List Char}

/-- The chunk of a literal. A value of 64 bits fits the field of eight bytes in any case. -/
theorem Opcode.operandChunk_literal (hf : o.operand.field? = some f)
    (hliteral : Text.literal? literal.toList = some v) (hv : Text.fitsSigned 64 v = true) :
    ∃ arg, o.readArg? literal = some arg ∧ ∀ position, o.operandChunk position arg =
      if o.operand.isToken = true ∨ f.holds v = true then .ok (.bytes (f.low v))
      else .error (.operandOutOfRange o.name v) := by
  cases hk : o.operand <;> rw [hk] at hf <;> cases hf <;>
    simp [readArg?, hk, hliteral, operandChunk, integerBytes, OperandKind.isToken,
      IntegerField.holds, IntegerField.low, hv]

theorem Assembly.line_literal (a : Assembly)
    (hline : Statement.ofLine? line = some ⟨word, some literal⟩) (ho : Opcode.ofName? word = some o)
    (hf : o.operand.field? = some f) (hliteral : Text.literal? literal.toList = some v)
    (hv : Text.fitsSigned 64 v = true) :
    a.line line = if o.operand.isToken = true ∨ f.holds v = true then
        .ok ((a.append (.bytes o.selector)).append (.bytes (f.low v)))
      else .error (.assembly (.operandOutOfRange o.name v)) := by
  obtain ⟨arg, harg, hchunk⟩ := Opcode.operandChunk_literal hf hliteral hv
  have hlabel : word ≠ ".label" := by
    rintro rfl
    have hnone : Opcode.ofName? ".label" = none := by decide +kernel
    cases hnone.symm.trans ho
  have hstatement : a.line line = a.statement ⟨word, some literal⟩ := by
    unfold Statement.ofLine? at hline
    unfold Assembly.line
    cases htrim : Text.trim (Statement.dropComment line) with
    | nil => simp [htrim, Statement.read?, Statement.splitWord] at hline
    | cons c cs =>
      rw [htrim] at hline
      simp [hline]
  rw [hstatement]
  by_cases hholds : o.operand.isToken = true ∨ f.holds v = true
  all_goals simp [statement, hlabel, ho, harg, bind, Except.bind, emit, hchunk, hholds]

end Literals

/-- Bytes that were appended are found at their position. -/
theorem Assembly.drop_finish {a f : Assembly} {bs bs' : List UInt8} {steps : List Step}
    {code : List UInt8} (ha : a.Measured)
    (hrun : ((a.append (.bytes bs)).append (.bytes bs')).applyAll steps = .ok f)
    (hcode : f.finish = .ok code) : ∃ rest, code.drop a.position = bs ++ (bs' ++ rest) := by
  obtain ⟨cs, hcs⟩ := exists_chunks hrun
  obtain ⟨parts, hparts, rfl⟩ := finish_ok.mp hcode
  have hchunks : f.chunks.toList = a.chunks.toList ++ .bytes bs :: .bytes bs' :: cs := by
    simpa [append] using hcs
  rw [hchunks, List.mapM_append] at hparts
  obtain ⟨front, hfront, hparts⟩ := bind_eq_ok.mp hparts
  obtain ⟨back, hback, hparts⟩ := bind_eq_ok.mp hparts
  cases hparts
  obtain ⟨_, tail, hfirst, htail, rfl⟩ := mapM_resolve_cons.mp hback
  obtain ⟨_, rest, hsecond, -, rfl⟩ := mapM_resolve_cons.mp htail
  cases hfirst
  cases hsecond
  have hposition : a.position = front.flatten.length := by rw [ha, length_of_mapM_resolve hfront]
  exact ⟨rest.flatten, by simp [hposition]⟩

/-- An accepted text has the opcode and the low bytes of the literal at the place of the line. A
literal that its field cannot hold makes the line the first one that is refused when those before
it are accepted, unless the operand is a token. -/
theorem assemble_literal {source : String} {before after : List (List Char)} {line : List Char}
    {word literal : String} {o : Opcode} {f : IntegerField} {v : Int}
    (hlines : Text.lines source.toList = before ++ line :: after)
    (hline : Statement.ofLine? line = some ⟨word, some literal⟩) (ho : Opcode.ofName? word = some o)
    (hf : o.operand.field? = some f) (hliteral : Text.literal? literal.toList = some v)
    (hv : Text.fitsSigned 64 v = true) :
    (∀ code, assemble source = .ok code → ∃ bytes rest,
      code.drop (textSize before) = o.selector ++ (bytes ++ rest) ∧ bytes.length = f.width ∧
      (f.read bytes = v ↔ f.holds v = true) ∧
      (o.operand.isToken = false → f.read bytes = v) ∧
      (o.operand.isToken = true → f.read bytes = v % 2 ^ 32)) ∧
    (∀ a, Assembly.lines {} 1 before = .ok a →
      (o.operand.isToken = false → f.holds v = false → assemble source =
        .error ⟨before.length + 1, .assembly (.operandOutOfRange o.name v)⟩) ∧
      (o.operand.isToken = true ∨ f.holds v = true →
        ∀ e, assemble source = .error e → e.line ≠ before.length + 1)) ∧
    ∀ e, Assembly.lines {} 1 before = .error e →
      assemble source = .error e ∧ e.line ≤ before.length := by
  have hassemble : assemble source = Assembly.lines {} 1 before >>= fun a =>
      a.lines (before.length + 1) (line :: after) >>= fun f =>
        f.finish.mapError fun e => ⟨0, .assembly e⟩ := by
    rw [assemble, hlines, Assembly.lines_append, Nat.add_comm 1]
    cases Assembly.lines {} 1 before <;> rfl
  obtain ⟨hwidth, htokens⟩ := OperandKind.width_of_field? hf
  have hstep := fun a : Assembly => a.line_literal hline ho hf hliteral hv
  refine ⟨?_, ?_, ?_⟩
  · intro code hcode
    rw [hassemble] at hcode
    obtain ⟨a, ha, hcode⟩ := bind_eq_ok.mp hcode
    obtain ⟨g, hg, hcode⟩ := bind_eq_ok.mp hcode
    obtain ⟨front, hfront, hrun⟩ := Assembly.lines_ok.mp ha
    obtain ⟨hmeasured, hposition⟩ := Assembly.measured_of_applyAll hrun
    rw [Assembly.lines, hstep] at hg
    by_cases hholds : o.operand.isToken = true ∨ f.holds v = true
    · rw [if_pos hholds] at hg
      obtain ⟨steps, -, hrun⟩ := Assembly.lines_ok.mp hg
      obtain ⟨rest, hrest⟩ := Assembly.drop_finish hmeasured hrun (mapError_eq_ok.mp hcode)
      rw [hposition, ← textSize_of_ofLines? hfront] at hrest
      refine ⟨f.low v, rest, hrest, Binary.length_littleEndian _ _, f.read_low_eq_iff hwidth, ?_, ?_⟩
      · intro htoken
        exact (f.read_low_eq_iff hwidth).mpr (hholds.resolve_left (by simp [htoken]))
      · intro htoken
        rw [htokens htoken]
        exact IntegerField.read_low_unsigned rfl
    · rw [if_neg hholds] at hg
      cases hg
  · intro a ha
    rw [hassemble, ha]
    refine ⟨?_, ?_⟩
    · intro htoken hholds
      change (a.lines _ _ >>= _) = _
      rw [Assembly.lines, hstep, if_neg (by simp [htoken, hholds])]
      rfl
    · intro hholds e he hsame
      change (a.lines _ _ >>= _) = _ at he
      rw [Assembly.lines, hstep, if_pos hholds] at he
      rcases bind_eq_error.mp he with he | ⟨g, -, he⟩
      · have := (Assembly.lines_error he).1
        omega
      · cases hfinish : g.finish <;> rw [hfinish] at he <;> cases he
        cases hsame
  · intro e he
    have hbound := Assembly.lines_error he
    rw [hassemble, he]
    exact ⟨rfl, by omega⟩

/-- An index at the end of its range, between other lines. -/
theorem assemble_lastIndex :
    assemble "nop\n  ldloc 65535 # last\ncall 0x6000001" =
        .ok [0x00, 0xFE, 0x0C, 0xFF, 0xFF, 0x28, 0x01, 0x00, 0x00, 0x06] ∧
      ∃ bytes rest, [0xFE, 0x0C, 0xFF, 0xFF, 0x28, 0x01, 0x00, 0x00, 0x06] =
        [0xFE, 0x0C] ++ (bytes ++ rest) ∧ bytes.length = 2 ∧
        IntegerField.read ⟨2, false⟩ bytes = 65535 := by
  have hcode : assemble "nop\n  ldloc 65535 # last\ncall 0x6000001" =
      .ok [0x00, 0xFE, 0x0C, 0xFF, 0xFF, 0x28, 0x01, 0x00, 0x00, 0x06] := by decide +kernel
  have hlines : Text.lines "nop\n  ldloc 65535 # last\ncall 0x6000001".toList =
      ["nop".toList] ++ "  ldloc 65535 # last".toList :: ["call 0x6000001".toList] := by
    decide +kernel
  have hline : Statement.ofLine? "  ldloc 65535 # last".toList = some ⟨"ldloc", some "65535"⟩ := by
    rfl
  have ho : Opcode.ofName? "ldloc" = some ⟨"ldloc", 0xFE0C, .var, some .ldloc, .none⟩ := by
    decide +kernel
  have hliteral : Text.literal? "65535".toList = some 65535 := by decide +kernel
  have hsize : textSize ["nop".toList] = 1 := by decide +kernel
  obtain ⟨bytes, rest, hdrop, hlength, -, hread, -⟩ :=
    (assemble_literal hlines hline ho rfl hliteral (by decide)).1 _ hcode
  rw [hsize] at hdrop
  exact ⟨hcode, bytes, rest, hdrop, hlength, hread rfl⟩

/-- A token loses its high bytes, where an index that is too great is refused. -/
theorem assemble_cutToken :
    Text.literal? "0x106000001".toList = some 0x106000001 ∧
      assemble "call 0x106000001" = .ok [0x28, 0x01, 0x00, 0x00, 0x06] ∧
      assemble "call 0x6000001" = .ok [0x28, 0x01, 0x00, 0x00, 0x06] ∧
      assemble "ldloc 65536" = .error ⟨1, .assembly (.operandOutOfRange "ldloc" 65536)⟩ := by
  decide +kernel

end SpuCompiler.Bytecode
