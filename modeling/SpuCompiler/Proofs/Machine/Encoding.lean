import Mathlib.Tactic
import SpuCompiler.Machine.Instr
import SpuCompiler.Proofs.Outcome

/-!
When an instruction has a word, and what its immediate is. Encoding fails for a register above
127, for an immediate outside the range of the opcode and for the opcode without a word; the two
wide immediates are read back from every word that has one.
-/

namespace SpuCompiler.Machine

variable {op : Opcode} {map : RegisterMap}

/-- Words of the opcode have room for the immediate. -/
def Opcode.Admits (op : Opcode) (value : Int) : Prop :=
  ∀ low high, op.immediateRange = some (low, high) → low ≤ value ∧ value ≤ high

instance (op : Opcode) (value : Int) : Decidable (op.Admits value) :=
  match h : op.immediateRange with
  | none => isTrue (by simp [Opcode.Admits, h])
  | some (low, high) =>
    decidable_of_iff (low ≤ value ∧ value ≤ high) (by simp [Opcode.Admits, h])

theorem checkImmediate_eq_ok_iff {value : Int} {u : Unit} :
    checkImmediate op value = .ok u ↔ op.Admits value := by
  unfold checkImmediate Opcode.Admits
  cases h : op.immediateRange with
  | none => simp
  | some range =>
    obtain ⟨low, high⟩ := range
    by_cases hout : value < low ∨ high < value
    · simp only [hout, if_true]
      constructor
      · rintro ⟨⟩
      · intro hin
        have := hin low high rfl
        omega
    · simp only [hout, if_false, Option.some.injEq, Prod.mk.injEq, true_iff]
      rintro _ _ ⟨rfl, rfl⟩
      omega

theorem encode_eq_ok_iff {f : Fields} {w : Word} :
    encode op f = .ok w ↔ (∀ r ∈ f.registers, r ≤ 127) ∧ op.Admits f.immediate ∧
      f.word? op.bits op.format = some w := by
  unfold encode
  cases hfind : f.registers.find? (127 < ·) with
  | some r =>
    have hmem := List.mem_of_find?_eq_some hfind
    have hlarge : 127 < r := by simpa using List.find?_some hfind
    constructor
    · rintro ⟨⟩
    · rintro ⟨hall, -⟩
      exact absurd (hall r hmem) (Nat.not_le.mpr hlarge)
  | none =>
    have hall : ∀ r ∈ f.registers, r ≤ 127 := by simpa using hfind
    simp only [bind_eq_ok, checkImmediate_eq_ok_iff, exists_const]
    refine ⟨fun ⟨himm, hword⟩ => ⟨hall, himm, ?_⟩, fun ⟨_, himm, hword⟩ => ⟨himm, by rw [hword]⟩⟩
    split at hword
    · rename_i hw
      exact hw.trans (congrArg some (Except.ok.inj hword))
    · cases hword

/-- The field between two others. -/
theorem extractLsb'_middle {m n k : Nat} (high : BitVec m) (field : BitVec n) (low : BitVec k) :
    (high ++ field ++ low).extractLsb' k n = field := by
  ext j hj
  rw [BitVec.getElem_extractLsb', BitVec.getLsbD_append, BitVec.getLsbD_append]
  simp [hj, BitVec.getLsbD_eq_getElem]

namespace Instr

variable {i : Instr} {map : RegisterMap} {w : Word}

/-- The fields of an encoded instruction: its registers under the map, and its constant. -/
theorem encode_fields (h : i.encode map = .ok w) :
    ∃ f : Fields, f.immediate = i.constant ∧ Machine.encode i.opcode f = .ok w := by
  obtain ⟨rt, -, h⟩ := bind_eq_ok.mp h
  obtain ⟨ra, -, h⟩ := bind_eq_ok.mp h
  obtain ⟨rb, -, h⟩ := bind_eq_ok.mp h
  obtain ⟨rc, -, h⟩ := bind_eq_ok.mp h
  exact ⟨_, rfl, h⟩

theorem immediate16_of_encode (h : i.encode map = .ok w) (hformat : i.opcode.format = .ri16)
    (hsigned : i.opcode.hasUnsignedImmediate = false) : immediate16 w = i.constant := by
  obtain ⟨f, himm, hf⟩ := encode_fields h
  obtain ⟨-, hadmits, hword⟩ := encode_eq_ok_iff.mp hf
  have hrange := hadmits (-0x8000) 0x7FFF (by simp [Opcode.immediateRange, hformat, hsigned])
  simp only [hformat, Fields.word?, Option.some.injEq] at hword
  rw [← himm, ← hword, immediate16]
  rw [extractLsb'_middle, BitVec.toInt_ofInt]
  exact Int.bmod_eq_of_le (by omega) (by omega)

theorem immediate18_of_encode (h : i.encode map = .ok w) (hformat : i.opcode.format = .ri18) :
    (immediate18 w : Int) = i.constant := by
  obtain ⟨f, himm, hf⟩ := encode_fields h
  obtain ⟨-, hadmits, hword⟩ := encode_eq_ok_iff.mp hf
  have hrange := hadmits 0 0x3FFFF (by simp [Opcode.immediateRange, hformat])
  simp only [hformat, Fields.word?, Option.some.injEq] at hword
  rw [← himm, ← hword, immediate18]
  rw [extractLsb'_middle, BitVec.toNat_ofInt]
  omega

/-- An immediate in range is never the reason why an instruction has no word. -/
theorem encode_ne_immediateOutOfRange (h : i.opcode.Admits i.constant) (mnemonic : String)
    (value : Int) : i.encode map ≠ .error (.immediateOutOfRange mnemonic value) := by
  have hresolve : ∀ r, resolve i.opcode map r ≠ .error (.immediateOutOfRange mnemonic value) := by
    rintro (_ | _ | n)
    · simp [resolve]
    · simp [resolve]
    · simp only [resolve]
      split <;> simp
  intro herr
  unfold encode at herr
  simp only [bind_eq_error, hresolve, false_or] at herr
  obtain ⟨rt, -, ra, -, rb, -, rc, -, herr⟩ := herr
  unfold Machine.encode at herr
  split at herr
  · simp at herr
  · rcases bind_eq_error.mp herr with hcheck | ⟨_, -, hword⟩
    · have hok : checkImmediate i.opcode i.constant = .ok () := checkImmediate_eq_ok_iff.mpr h
      rw [hok] at hcheck
      cases hcheck
    · split at hword <;> simp at hword

end Instr

/-! ## Instructions that have words -/

/-- A virtual register, or one that the machine has. -/
def Register.Valid : Register → Prop
  | .hardware n => n ≤ 127
  | .virtual _ => True

/-- The instruction has a word wherever its virtual registers have hardware registers. -/
structure Instr.Fits (i : Instr) : Prop where
  admits : i.opcode.Admits i.constant
  registers : ∀ r ∈ i.registers, r.Valid
  real : i.opcode ≠ .ret

theorem Fields.exists_word? (f : Fields) (h : op ≠ .ret) :
    ∃ w, f.word? op.bits op.format = some w := by
  have hformat : op.format ≠ .pseudo := by
    cases op <;> simp_all [Opcode.format, Opcode.row]
  cases hf : op.format with
  | pseudo => exact absurd hf hformat
  | _ => exact ⟨_, rfl⟩

theorem Instr.resolve_ok (op : Opcode) (hmap : ∀ n, ∃ k ≤ 127, map n = some k) {r : Option Register}
    (hr : ∀ x, r = some x → x.Valid) : ∃ k ≤ 127, Instr.resolve op map r = .ok k := by
  cases r with
  | none => exact ⟨0, by decide, rfl⟩
  | some x =>
    cases x with
    | hardware n => exact ⟨n, hr _ rfl, rfl⟩
    | virtual n =>
      obtain ⟨k, hk, hn⟩ := hmap n
      exact ⟨k, hk, by simp [Instr.resolve, hn]⟩

theorem Instr.Fits.encode_ok {i : Instr} (h : i.Fits) (hmap : ∀ n, ∃ k ≤ 127, map n = some k) :
    ∃ w, i.encode map = .ok w := by
  have hvalid : ∀ r : Option Register, r ∈ [i.rt, i.ra, i.rb, i.rc] → ∀ x, r = some x → x.Valid := by
    rintro _ hr x rfl
    exact h.registers x (List.mem_filterMap.mpr ⟨some x, hr, rfl⟩)
  obtain ⟨rt, hrt, ht⟩ := Instr.resolve_ok i.opcode hmap (hvalid i.rt (by simp))
  obtain ⟨ra, hra, ha⟩ := Instr.resolve_ok i.opcode hmap (hvalid i.ra (by simp))
  obtain ⟨rb, hrb, hb⟩ := Instr.resolve_ok i.opcode hmap (hvalid i.rb (by simp))
  obtain ⟨rc, hrc, hc⟩ := Instr.resolve_ok i.opcode hmap (hvalid i.rc (by simp))
  obtain ⟨w, hw⟩ := Fields.exists_word? ⟨rt, ra, rb, rc, i.constant⟩ h.real
  have hword : Machine.encode i.opcode ⟨rt, ra, rb, rc, i.constant⟩ = .ok w := by
    refine encode_eq_ok_iff.mpr ⟨?_, h.admits, hw⟩
    simp [Fields.registers, hrt, hra, hrb, hrc]
  exact ⟨w, by simp [Instr.encode, ht, ha, hb, hc, hword, bind, Except.bind]⟩

/-! ## Opcodes that placement patches -/

theorem Opcode.format_of_relativeWord (h : op.patchKind = some .relativeWord) :
    op.format = .ri16 ∧ op.hasUnsignedImmediate = false := by
  cases op <;> simp_all [Opcode.patchKind, Opcode.format, Opcode.row, Opcode.hasUnsignedImmediate]

theorem Opcode.patchKind_eq_absoluteByte_iff : op.patchKind = some .absoluteByte ↔ op = .ila := by
  cases op <;> simp [Opcode.patchKind]

end SpuCompiler.Machine
