import SpuCompiler.Bytecode.Reader
import SpuCompiler.Proofs.Outcome

/-!
The instructions of a body and its records. `Decodes` says which instructions stand in the code,
duplications included; reading a body gives those instructions with every duplication opened
(`readAll_eq_ok_iff`). Instructions tile the code, and the operand of each passed the check of
its opcode.
-/

namespace SpuCompiler.Bytecode

open Metadata

variable {is : List Record} {t start : Nat}

namespace Scope

variable {n stop value : Nat} {o : Opcode} {bytes : List UInt8} {s : Scope} {r : Record}
  {rs : List Record} {op : Op} {name : String} {x : Operand Place}

/-- The operand of a record is one that an opcode of the table gives for its operation. -/
structure Accepts (s : Scope) (r : Record) : Prop where
  row : ∃ o ∈ Opcode.table, o.op = some r.op ∧ ∃ value, s.operand o r.op r.stop value = .ok r.operand
  size_pos : 0 < r.size

/-- The instructions in `bytes`, which start at offset `start`. -/
inductive Decodes (s : Scope) : Nat → List UInt8 → List Record → Prop
  | nil (start : Nat) : Decodes s start [] []
  | cons {start taken : Nat} {bytes : List UInt8} {r : Record} {rs : List Record} :
      s.decode start bytes = (.ok r, taken) →
      Decodes s (start + taken) (bytes.drop taken) rs → Decodes s start bytes (r :: rs)

theorem ofValue?_some (h : Opcode.ofValue? value = some o) :
    o ∈ Opcode.table ∧ o.value = value := by
  refine ⟨List.mem_of_find?_eq_some h, ?_⟩
  simpa using List.find?_some h

theorem isExtended_of_extended? {low : UInt8} (h : Opcode.extended? low = some o) :
    o.isExtended = true := by
  simp only [Opcode.isExtended, (ofValue?_some h).2, leadByte, decide_eq_true_eq]
  omega

theorem isExtended_of_single? {lead : UInt8} (h : Opcode.single? lead = some o) :
    o.isExtended = false := by
  have := lead.toNat_lt
  simp only [Opcode.isExtended, (ofValue?_some h).2, decide_eq_false_iff_not]
  omega

theorem decodeOperand_taken (s : Scope) (start : Nat) (o : Opcode) (bytes : List UInt8) :
    o.selectorLength ≤ (s.decodeOperand start o bytes).2 ∧
      (s.decodeOperand start o bytes).2 ≤ o.selectorLength + bytes.length := by
  unfold decodeOperand
  split
  · exact ⟨le_refl _, Nat.le_add_right _ _⟩
  · split
    · exact ⟨le_refl _, Nat.le_add_right _ _⟩
    · dsimp only
      split
      · exact ⟨le_refl _, Nat.le_add_right _ _⟩
      · rename_i hlength
        rw [List.length_take] at hlength
        exact ⟨Nat.le_add_right _ _, by omega⟩

/-- Decoding takes at least one byte and no more than there are, also where it fails. -/
theorem decode_taken (s : Scope) (start : Nat) (h : bytes ≠ []) :
    0 < (s.decode start bytes).2 ∧ (s.decode start bytes).2 ≤ bytes.length := by
  unfold decode
  split
  · exact absurd rfl h
  · rename_i lead bytes
    split
    · split
      · exact ⟨Nat.one_pos, le_refl _⟩
      · rename_i low bytes
        split
        · exact ⟨Nat.two_pos, by simp⟩
        · rename_i o ho
          have htaken := s.decodeOperand_taken start o bytes
          rw [Opcode.selectorLength, if_pos (isExtended_of_extended? ho)] at htaken
          simp only [List.length_cons]
          omega
    · split
      · exact ⟨Nat.one_pos, by simp⟩
      · rename_i o ho
        have htaken := s.decodeOperand_taken start o bytes
        rw [Opcode.selectorLength, if_neg (by simp [isExtended_of_single? ho])] at htaken
        simp only [List.length_cons]
        omega

theorem decodeOperand_ok (h : s.decodeOperand start o bytes = (.ok r, n)) :
    o.op = some r.op ∧ r.offset = start ∧ r.size = n ∧
      ∃ value, s.operand o r.op (start + n) value = .ok r.operand := by
  unfold decodeOperand at h
  split at h
  · simp at h
  · rename_i op hop
    split at h
    · simp at h
    · dsimp only at h
      split at h
      · simp at h
      · obtain ⟨hr, rfl⟩ := Prod.mk.inj h
        obtain ⟨operand, hv, rfl⟩ := map_eq_ok.mp hr
        exact ⟨hop, rfl, rfl, _, hv⟩

/-- A decoded instruction starts where it was read, and takes at least one byte of what is left. -/
theorem decode_ok (h : s.decode start bytes = (.ok r, n)) :
    r.offset = start ∧ r.size = n ∧ n ≤ bytes.length ∧ s.Accepts r := by
  have hne : bytes ≠ [] := by
    rintro rfl
    simp [decode] at h
  obtain ⟨hpos, hle⟩ := s.decode_taken start hne
  rw [h] at hpos hle
  unfold decode at h
  split at h
  · simp at h
  · split at h
    · split at h
      · simp at h
      · split at h
        · simp at h
        · rename_i o ho
          obtain ⟨hop, rfl, rfl, value, hv⟩ := decodeOperand_ok h
          exact ⟨rfl, rfl, hle, ⟨o, (ofValue?_some ho).1, hop, value, hv⟩, hpos⟩
    · split at h
      · simp at h
      · rename_i o ho
        obtain ⟨hop, rfl, rfl, value, hv⟩ := decodeOperand_ok h
        exact ⟨rfl, rfl, hle, ⟨o, (ofValue?_some ho).1, hop, value, hv⟩, hpos⟩

theorem Decodes.cons_inv (h : s.Decodes start bytes (r :: rs)) :
    r.offset = start ∧ s.Accepts r ∧ s.Decodes r.stop (bytes.drop r.size) rs := by
  cases h with
  | cons hd ht =>
    obtain ⟨rfl, rfl, _, ha⟩ := decode_ok hd
    exact ⟨rfl, ha, ht⟩

/-- Code has one sequence of instructions. -/
theorem Decodes.unique {rs' : List Record} (h : s.Decodes start bytes rs)
    (h' : s.Decodes start bytes rs') : rs = rs' := by
  induction h generalizing rs' with
  | nil start =>
    cases h' with
    | nil => rfl
    | cons hd _ => simp [decode] at hd
  | cons hd _ ih =>
    cases h' with
    | nil => simp [decode] at hd
    | cons hd' ht' =>
      rw [hd] at hd'
      cases hd'
      rw [ih ht']

/-- The code from the start of an instruction on. -/
theorem Decodes.split {pre post : List Record} (h : s.Decodes start bytes (pre ++ post)) :
    ∃ start' bytes', s.Decodes start' bytes' post ∧ start ≤ start' ∧
      start' + bytes'.length = start + bytes.length ∧ ∀ r ∈ pre, r.stop ≤ start' := by
  induction pre generalizing start bytes with
  | nil => exact ⟨start, bytes, h, le_refl _, rfl, by simp⟩
  | cons r pre ih =>
    cases h with
    | cons hd ht =>
      obtain ⟨rfl, rfl, hlen, ha⟩ := decode_ok hd
      obtain ⟨start', bytes', hpost, hle, hsum, hall⟩ := ih ht
      refine ⟨start', bytes', hpost, by omega, ?_, ?_⟩
      · rw [hsum, List.length_drop]
        omega
      · intro q hq
        rcases List.mem_cons.mp hq with rfl | hq
        · exact hle
        · exact hall q hq

theorem Decodes.accepts (h : s.Decodes start bytes rs) : ∀ r ∈ rs, s.Accepts r := by
  intro r hr
  obtain ⟨pre, post, rfl⟩ := List.append_of_mem hr
  obtain ⟨_, _, hpost, -⟩ := h.split
  exact hpost.cons_inv.2.1

/-! ## Operands by operation -/

theorem table_isTarget (hmem : o ∈ Opcode.table) (hop : o.op = some op) :
    o.operand.isTarget = true ∨ o.operand = .switch ↔ op.isBranch = true := by
  have hall : Opcode.table.all (fun o => o.op.all fun op =>
      (o.operand.isTarget || o.operand = .switch) == op.isBranch) = true := by decide
  have := List.all_eq_true.mp hall o hmem
  simp only [hop, Option.all_some, beq_iff_eq] at this
  simp [← this]

theorem table_elementType (hmem : o ∈ Opcode.table) (hop : o.op = some op)
    (he : op = .ldelemAny ∨ op = .stelemAny) : o.operand = .type := by
  have hall : Opcode.table.all (fun o => o.op.all fun op =>
      !(op = .ldelemAny ∨ op = .stelemAny) || o.operand = .type) = true := by decide
  have := List.all_eq_true.mp hall o hmem
  rcases he with rfl | rfl <;> simpa [hop] using this

theorem target_ok {displacement : Int} (h : s.target name stop displacement = .ok x) :
    ∃ t < s.length, x = .ref (.target t) := by
  unfold target at h
  dsimp only at h
  split at h
  · cases h
    exact ⟨_, by omega, rfl⟩
  · simp at h

theorem variableAt_ok {index : Nat} (h : s.variableAt name op index = .ok x) :
    (x = .ref (.argument index) ∧ index < s.arguments) ∨
      (x = .ref (.localVar index) ∧ index < s.locals) := by
  unfold variableAt at h
  split at h <;> split at h <;> simp_all

theorem resolve_ok {α : Type} {token : Nat} {wrap : α → Operand Place} {found : Option α}
    (h : resolve name token wrap found = .ok x) : ∃ a, x = wrap a := by
  cases found with
  | none => simp [resolve] at h
  | some a => exact ⟨a, by simpa [resolve] using h.symm⟩

/-- Where the operand of a decoded instruction refers to something, it is a variable, or the
target of an opcode that has one. -/
theorem operand_ref {p : Place} (h : s.operand o op stop value = .ok (.ref p)) :
    (∃ t < s.length, p = .target t ∧ o.operand.isTarget = true) ∨
      (o.operand.isTarget = false ∧
        ∃ i, (p = .argument i ∧ i < s.arguments) ∨ (p = .localVar i ∧ i < s.locals)) := by
  unfold operand at h
  split at h
  all_goals rename_i hk
  · split at h
    · simp at h
    · simp at h
    · exact .inr ⟨by rw [hk]; rfl, _, by simpa using variableAt_ok h⟩
  · exact .inr ⟨by rw [hk]; rfl, _, by simpa using variableAt_ok h⟩
  · exact .inr ⟨by rw [hk]; rfl, _, by simpa using variableAt_ok h⟩
  · simp at h
  · simp at h
  · simp at h
  · simp at h
  · simp at h
  · obtain ⟨t, ht, he⟩ := target_ok h
    exact .inl ⟨t, ht, by simpa using he, by rw [hk]; rfl⟩
  · obtain ⟨t, ht, he⟩ := target_ok h
    exact .inl ⟨t, ht, by simpa using he, by rw [hk]; rfl⟩
  · obtain ⟨_, he⟩ := resolve_ok h
    simp at he
  · obtain ⟨_, he⟩ := resolve_ok h
    simp at he
  · obtain ⟨_, he⟩ := resolve_ok h
    simp at he
  · obtain ⟨_, he⟩ := resolve_ok h
    simp at he
  · simp at h

namespace Accepts

variable {s : Scope} {r : Record}
variable {i : Nat}

theorem no_temporary (h : s.Accepts r) (t : Nat) : r.operand ≠ .ref (.temporary t) := by
  obtain ⟨o, -, -, value, hv⟩ := h.row
  intro he
  rw [he] at hv
  rcases operand_ref hv with ⟨_, _, hp, _⟩ | ⟨_, _, ⟨hp, _⟩ | ⟨hp, _⟩⟩ <;> simp at hp

/-- A branch goes to an offset inside the code. -/
theorem exists_target (h : s.Accepts r) (hb : r.op.isBranch = true) :
    ∃ t < s.length, r.target? = some t := by
  obtain ⟨o, hmem, hop, value, hv⟩ := h.row
  rcases (table_isTarget hmem hop).mpr hb with hk | hk
  · have : ∃ t < s.length, r.operand = .ref (.target t) := by
      unfold operand at hv
      cases hkind : o.operand <;> simp [hkind, OperandKind.isTarget] at hk hv
      · exact target_ok hv
      · exact target_ok hv
    obtain ⟨t, ht, he⟩ := this
    exact ⟨t, ht, by simp [Record.target?, he]⟩
  · simp [operand, hk] at hv

theorem argument_lt (h : s.Accepts r) (hi : r.operand = .ref (.argument i)) : i < s.arguments := by
  obtain ⟨o, -, -, value, hv⟩ := h.row
  rw [hi] at hv
  rcases operand_ref hv with ⟨_, _, hp, _⟩ | ⟨_, _, ⟨hp, hlt⟩ | ⟨hp, _⟩⟩ <;> cases hp
  exact hlt

theorem local_lt (h : s.Accepts r) (hi : r.operand = .ref (.localVar i)) : i < s.locals := by
  obtain ⟨o, -, -, value, hv⟩ := h.row
  rw [hi] at hv
  rcases operand_ref hv with ⟨_, _, hp, _⟩ | ⟨_, _, ⟨hp, _⟩ | ⟨hp, hlt⟩⟩ <;> cases hp
  exact hlt

theorem isBranch_of_target (h : s.Accepts r) (ht : r.target? = some t) : r.op.isBranch = true := by
  obtain ⟨o, hmem, hop, value, hv⟩ := h.row
  unfold Record.target? at ht
  split at ht
  · rename_i hr
    rw [hr] at hv
    rcases operand_ref hv with ⟨_, _, _, hk⟩ | ⟨_, _, ⟨hp, _⟩ | ⟨hp, _⟩⟩
    · exact (table_isTarget hmem hop).mp (.inl hk)
    · simp at hp
    · simp at hp
  · simp at ht

theorem element_type (h : s.Accepts r) (he : r.op = .ldelemAny ∨ r.op = .stelemAny) :
    ∃ ty, r.operand = .type ty := by
  obtain ⟨o, hmem, hop, value, hv⟩ := h.row
  simp only [operand, table_elementType hmem hop he] at hv
  exact resolve_ok hv

end Accepts

end Scope

/-! ## Opened duplications -/

namespace Record

def openDup (t : Nat) (r : Record) : List Record :=
  [⟨.stloc, .ref (.temporary t), r.offset, 0, r.name⟩,
   ⟨.ldloc, .ref (.temporary t), r.offset, 0, r.name⟩,
   ⟨.ldloc, .ref (.temporary t), r.offset, r.size, r.name⟩]

def opened (t : Nat) (r : Record) : List Record := if r.op = .dup then r.openDup t else [r]

def nextTemporary (t : Nat) (r : Record) : Nat := if r.op = .dup then t + 1 else t

end Record

/-- The records of instructions, with temporaries from `t` on. -/
def openAll (t : Nat) : List Record → List Record
  | [] => []
  | r :: rs => r.opened t ++ openAll (r.nextTemporary t) rs

def nextTemporaryAll (t : Nat) : List Record → Nat
  | [] => t
  | r :: rs => nextTemporaryAll (r.nextTemporary t) rs

theorem openAll_append (t : Nat) (pre post : List Record) :
    openAll t (pre ++ post) = openAll t pre ++ openAll (nextTemporaryAll t pre) post := by
  induction pre generalizing t with
  | nil => rfl
  | cons r pre ih => simp [openAll, nextTemporaryAll, ih]

theorem nextTemporaryAll_append (t : Nat) (pre post : List Record) :
    nextTemporaryAll t (pre ++ post) = nextTemporaryAll (nextTemporaryAll t pre) post := by
  induction pre generalizing t with
  | nil => rfl
  | cons r pre ih => simp [nextTemporaryAll, ih]

/-- A record is an instruction or one of the records of a duplication. -/
theorem mem_openAll {r : Record} (h : r ∈ openAll t is) :
    (r ∈ is ∧ r.op ≠ .dup) ∨ ∃ q ∈ is, ∃ i, r ∈ q.openDup i := by
  induction is generalizing t with
  | nil => cases h
  | cons q is ih =>
    rcases List.mem_append.mp h with h | h
    · unfold Record.opened at h
      split at h
      · exact .inr ⟨q, List.mem_cons_self, t, h⟩
      · rename_i hdup
        obtain rfl := List.mem_singleton.mp h
        exact .inl ⟨List.mem_cons_self, hdup⟩
    · rcases ih h with ⟨hr, hdup⟩ | ⟨p, hp, hr⟩
      · exact .inl ⟨List.mem_cons_of_mem _ hr, hdup⟩
      · exact .inr ⟨p, List.mem_cons_of_mem _ hp, hr⟩

theorem mem_openAll_iff_of_isBranch {r : Record} (h : r.op.isBranch = true) :
    r ∈ openAll t is ↔ r ∈ is := by
  induction is generalizing t with
  | nil => rfl
  | cons q is ih =>
    have hq : r ∈ q.opened t ↔ r = q := by
      unfold Record.opened
      split
      · rename_i hdup
        constructor
        · intro hr
          simp only [Record.openDup, List.mem_cons, List.not_mem_nil, or_false] at hr
          rcases hr with rfl | rfl | rfl <;> simp [Op.isBranch, Op.flow] at h
        · rintro rfl
          rw [hdup] at h
          simp [Op.isBranch, Op.flow] at h
      · simp
    simp only [openAll, List.mem_append, List.mem_cons, hq, ih]

theorem exists_offset_openAll_iff {x : Nat} :
    (∃ q ∈ openAll t is, q.offset = x) ↔ ∃ q ∈ is, q.offset = x := by
  induction is generalizing t with
  | nil => rfl
  | cons q is ih =>
    have hq : (∃ p ∈ q.opened t, p.offset = x) ↔ q.offset = x := by
      unfold Record.opened
      split
      · simp [Record.openDup]
      · simp
    simp only [openAll, List.mem_append, List.mem_cons, or_and_right, exists_or, hq, ih,
      exists_eq_left]

theorem le_nextTemporaryAll (t : Nat) (rs : List Record) : t ≤ nextTemporaryAll t rs := by
  induction rs generalizing t with
  | nil => exact le_refl _
  | cons r rs ih =>
    have hstep : t ≤ r.nextTemporary t := by
      unfold Record.nextTemporary
      split <;> omega
    exact hstep.trans (ih _)

/-! ## Records tile the code -/

/-- Records one after the other, from offset `start` to offset `stop`. -/
def Tiles (start stop : Nat) : List Record → Prop
  | [] => start = stop
  | r :: rs => r.offset = start ∧ Tiles r.stop stop rs

namespace Tiles

variable {start stop : Nat} {rs : List Record}
variable {r : Record}

theorem start_le (h : Tiles start stop rs) : start ≤ stop := by
  induction rs generalizing start with
  | nil => exact le_of_eq h
  | cons r rs ih =>
    have := ih h.2
    have := h.1
    unfold Record.stop at *
    omega

theorem append_iff {pre post : List Record} :
    Tiles start stop (pre ++ post) ↔ ∃ middle, Tiles start middle pre ∧ Tiles middle stop post := by
  induction pre generalizing start with
  | nil => simp [Tiles]
  | cons r pre ih =>
    simp only [List.cons_append, Tiles, ih]
    constructor
    · rintro ⟨h, middle, hpre, hpost⟩
      exact ⟨middle, ⟨h, hpre⟩, hpost⟩
    · rintro ⟨middle, ⟨h, hpre⟩, hpost⟩
      exact ⟨h, middle, hpre, hpost⟩

theorem bounds (h : Tiles start stop rs) (hr : r ∈ rs) : start ≤ r.offset ∧ r.stop ≤ stop := by
  obtain ⟨pre, post, rfl⟩ := List.append_of_mem hr
  obtain ⟨middle, hpre, hoff, hpost⟩ := append_iff.mp h
  exact ⟨hoff ▸ hpre.start_le, hpost.start_le⟩

/-- No record starts inside another one. -/
theorem separate (h : Tiles start stop rs) {q : Record} (hq : q ∈ rs) (hr : r ∈ rs) :
    q.offset ≤ r.offset ∨ r.stop ≤ q.offset := by
  obtain ⟨pre, post, rfl⟩ := List.append_of_mem hr
  obtain ⟨middle, hpre, hoff, hpost⟩ := append_iff.mp h
  rcases List.mem_append.mp hq with hq | hq
  · have := (hpre.bounds hq).2
    unfold Record.stop at this
    omega
  · rcases List.mem_cons.mp hq with rfl | hq
    · exact .inl (le_refl _)
    · exact .inr (hpost.bounds hq).1

/-- A record that does not end the code has a next one. -/
theorem exists_next (h : Tiles start stop rs) (hr : r ∈ rs) (hlt : r.stop < stop) :
    ∃ q ∈ rs, q.offset = r.stop := by
  obtain ⟨pre, post, rfl⟩ := List.append_of_mem hr
  obtain ⟨middle, -, -, hpost⟩ := append_iff.mp h
  cases post with
  | nil => exact absurd hpost (Nat.ne_of_lt hlt)
  | cons q post => exact ⟨q, by simp, hpost.1⟩

end Tiles

theorem Scope.Decodes.tiles {s : Scope} {bytes : List UInt8} (h : s.Decodes start bytes is) :
    Tiles start (start + bytes.length) is := by
  induction h with
  | nil start => rfl
  | @cons start taken bytes r rs hd _ ih =>
    obtain ⟨rfl, rfl, hlen, -⟩ := Scope.decode_ok hd
    rw [List.length_drop, show r.offset + r.size + (bytes.length - r.size) =
      r.offset + bytes.length by omega] at ih
    exact ⟨rfl, ih⟩

theorem Tiles.openAll {stop : Nat} (h : Tiles start stop is) : Tiles start stop (openAll t is) := by
  induction is generalizing start t with
  | nil => exact h
  | cons r is ih =>
    have ht := ih (t := r.nextTemporary t) h.2
    by_cases hdup : r.op = .dup
    · simpa [Bytecode.openAll, Record.opened, hdup, Record.openDup, Tiles, Record.stop, h.1] using ht
    · simpa [Bytecode.openAll, Record.opened, hdup, Tiles, h.1] using ht

namespace Reader

variable {r : Reader} {acc : Array Record} {fuel taken : Nat} {record : Record} {s : Scope}
  {bytes : List UInt8}

/-- A reader that has read everything queued reads one instruction. -/
theorem collect_decode (hq : r.queued = [])
    (hd : r.scope.decode r.position r.rest = (.ok record, taken)) :
    r.collect acc (fuel + 1) =
      if record.op = .dup ∧ temporaryLimit ≤ r.temporaries then
        .error ⟨record.offset, .tooManyTemporaries⟩
      else
        { r with
          position := r.position + taken
          rest := r.rest.drop taken
          queued := (record.opened r.temporaries).tail
          temporaries := record.nextTemporary r.temporaries }.collect
            (acc ++ ((record.opened r.temporaries).take 1).toArray) fuel := by
  have hne : r.rest.isEmpty = false := by
    cases hr : r.rest with
    | nil => simp [hr, Scope.decode] at hd
    | cons _ _ => rfl
  by_cases hdup : record.op = .dup
  · by_cases hlim : r.temporaries < temporaryLimit
    · simp [collect, next, hq, hne, hd, hdup, openDup, hlim, Record.opened, Record.openDup,
        Record.nextTemporary, Nat.not_le.mpr hlim]
    · simp [collect, next, hq, hne, hd, hdup, openDup, hlim, Nat.le_of_not_lt hlim]
  · have : r = { r with queued := [] } := by rw [← hq]
    rw [this]
    simp [collect, next, hne, hd, hdup, Record.opened, Record.nextTemporary]

/-- Queued records come first. -/
theorem collect_queued :
    r.collect acc (r.queued.length + fuel) =
      { r with queued := [] }.collect (acc ++ r.queued.toArray) fuel := by
  generalize hq : r.queued = q
  induction q generalizing r acc with
  | nil =>
    have : r = { r with queued := [] } := by rw [← hq]
    rw [← this]
    simp
  | cons record q ih =>
    have hstep : r.collect acc ((record :: q).length + fuel) =
        { r with queued := q }.collect (acc.push record) (q.length + fuel) := by
      rw [List.length_cons, show q.length + 1 + fuel = q.length + fuel + 1 by omega]
      simp [collect, next, hq]
    rw [hstep, ih rfl]
    congr 1
    simp

/-- Enough fuel for one instruction and for what it queues. -/
theorem collect_instruction (r : Reader) (acc : Array Record) (hq : r.queued = [])
    (hd : r.scope.decode r.position r.rest = (.ok record, taken))
    (hfuel : 3 * r.rest.length + 1 ≤ fuel) :
    ∃ fuel', 3 * (r.rest.drop taken).length + 1 ≤ fuel' ∧
      r.collect acc fuel =
        if record.op = .dup ∧ temporaryLimit ≤ r.temporaries then
          .error ⟨record.offset, .tooManyTemporaries⟩
        else
          { r with
            position := r.position + taken
            rest := r.rest.drop taken
            temporaries := record.nextTemporary r.temporaries }.collect
              (acc ++ (record.opened r.temporaries).toArray) fuel' := by
  obtain ⟨_, hsize, hlen, ha⟩ := Scope.decode_ok hd
  have hpos := ha.size_pos
  obtain ⟨fuel, rfl⟩ : ∃ n, fuel = n + 1 := ⟨fuel - 1, by omega⟩
  have htail : (record.opened r.temporaries).tail.length ≤ 2 := by
    unfold Record.opened
    split <;> simp [Record.openDup]
  refine ⟨fuel - (record.opened r.temporaries).tail.length, ?_, ?_⟩
  · rw [List.length_drop]
    omega
  · rw [collect_decode hq hd]
    split
    · rfl
    · nth_rewrite 1 [show fuel = (record.opened r.temporaries).tail.length +
        (fuel - (record.opened r.temporaries).tail.length) by omega]
      rw [collect_queued]
      simp only [hq]
      congr 1
      have hopen : ((record.opened r.temporaries).take 1).toArray ++
          (record.opened r.temporaries).tail.toArray = (record.opened r.temporaries).toArray := by
        rw [List.append_toArray, ← List.drop_one, List.take_append_drop]
      rw [Array.append_assoc, hopen]

theorem collect_of_decodes (h : s.Decodes start bytes is) (t : Nat)
    (ht : nextTemporaryAll t is ≤ temporaryLimit) (acc : Array Record) (fuel : Nat)
    (hfuel : 3 * bytes.length + 1 ≤ fuel) :
    (⟨s, start, bytes, [], t⟩ : Reader).collect acc fuel = .ok (acc ++ (openAll t is).toArray) := by
  induction h generalizing t acc fuel with
  | nil start =>
    obtain ⟨fuel, rfl⟩ : ∃ n, fuel = n + 1 := ⟨fuel - 1, by omega⟩
    simp [collect, next, openAll]
  | @cons start taken bytes record rs hd _ ih =>
    obtain ⟨fuel', hfuel', he⟩ := collect_instruction ⟨s, start, bytes, [], t⟩ acc rfl hd hfuel
    have hle := le_nextTemporaryAll (record.nextTemporary t) rs
    rw [he, if_neg]
    · rw [ih (record.nextTemporary t) ht _ fuel' hfuel', openAll]
      simp
    · rintro ⟨hdup, hlim⟩
      dsimp only at hlim
      simp only [nextTemporaryAll, Record.nextTemporary, hdup, if_true] at ht hle
      omega

theorem decodes_of_collect {out : Array Record} (hfuel : 3 * bytes.length + 1 ≤ fuel)
    (ht : t ≤ temporaryLimit) (h : (⟨s, start, bytes, [], t⟩ : Reader).collect acc fuel = .ok out) :
    ∃ is, s.Decodes start bytes is ∧ nextTemporaryAll t is ≤ temporaryLimit ∧
      out = acc ++ (openAll t is).toArray := by
  induction hn : bytes.length using Nat.strong_induction_on generalizing bytes start t acc fuel with
  | _ n ih =>
    cases bytes with
    | nil =>
      obtain ⟨fuel, rfl⟩ : ∃ n, fuel = n + 1 := ⟨fuel - 1, by omega⟩
      refine ⟨[], .nil start, ht, ?_⟩
      simpa [collect, next, openAll] using h.symm
    | cons b bytes =>
      cases hd : s.decode start (b :: bytes) with
      | mk result taken =>
        cases result with
        | error e =>
          obtain ⟨fuel, rfl⟩ : ∃ n, fuel = n + 1 := ⟨fuel - 1, by omega⟩
          simp [collect, next, hd] at h
        | ok record =>
          obtain ⟨fuel', hfuel', he⟩ := collect_instruction ⟨s, start, b :: bytes, [], t⟩ acc
            rfl hd hfuel
          obtain ⟨_, hsize, hlen, ha⟩ := Scope.decode_ok hd
          have hpos := ha.size_pos
          rw [he] at h
          split at h
          · simp at h
          · rename_i hlim
            have ht' : record.nextTemporary t ≤ temporaryLimit := by
              simp only [not_and, not_le] at hlim
              unfold Record.nextTemporary
              split
              · rename_i hdup
                exact hlim hdup
              · exact ht
            obtain ⟨rs, hrs, hts, rfl⟩ := ih ((b :: bytes).drop taken).length
              (by rw [List.length_drop]; omega) hfuel' ht' h rfl
            exact ⟨record :: rs, .cons hd hrs, hts, by simp [openAll]⟩

/-- Reading a body gives its instructions with every duplication opened. -/
theorem readAll_eq_ok_iff (m : Method) (b : Body) (resolver : Resolver) (records : List Record) :
    (Reader.of m b resolver).readAll = .ok records ↔
      ∃ is, (Scope.of m b resolver).Decodes 0 b.instructions is ∧
        nextTemporaryAll 0 is ≤ temporaryLimit ∧ records = openAll 0 is := by
  have hfuel : 3 * b.instructions.length + 1 ≤ 3 * b.instructions.length + 0 + 1 := by omega
  constructor
  · intro h
    simp only [readAll, Reader.of, List.length_nil] at h
    obtain ⟨out, hc, rfl⟩ := map_eq_ok.mp h
    obtain ⟨is, hd, ht, rfl⟩ := decodes_of_collect hfuel (by simp) hc
    exact ⟨is, hd, ht, by simp⟩
  · rintro ⟨is, hd, ht, rfl⟩
    simp only [readAll, Reader.of, List.length_nil]
    rw [collect_of_decodes hd 0 ht #[] _ hfuel]
    simp [Except.map]

end Reader

end SpuCompiler.Bytecode
