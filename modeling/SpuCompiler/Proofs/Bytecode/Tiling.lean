import SpuCompiler.Proofs.Bytecode.RoundTrip
import SpuCompiler.Proofs.Bytecode.Shapes

/-!
The records of a body that is read to its end. They tile the code without a gap; only the first two
records of a duplication have no size; duplications use the temporaries 0, 1, 2 and so on, one each;
and what an operand refers to exists.
-/

namespace SpuCompiler.Bytecode

open Metadata

variable {k n t : Nat} {is : List Record} {p r : Record} {s : Scope}

/-- The records of a duplication with temporary `t` stand from place `k` on: a store and two loads at
one offset, of which only the last has a size. -/
def DupAt (records : List Record) (k t : Nat) : Prop :=
  ∃ offset size name, 0 < size ∧
    records[k]? = some ⟨.stloc, .ref (.temporary t), offset, 0, name⟩ ∧
    records[k + 1]? = some ⟨.ldloc, .ref (.temporary t), offset, 0, name⟩ ∧
    records[k + 2]? = some ⟨.ldloc, .ref (.temporary t), offset, size, name⟩

/-! ## Places of duplications -/

/-- Where the records of duplications start, if those of the first instruction start at `n`. -/
def dupStarts (n : Nat) : List Record → List Nat
  | [] => []
  | r :: rs => if r.op = .dup then n :: dupStarts (n + 3) rs else dupStarts (n + 1) rs

theorem length_dupStarts (n : Nat) (is : List Record) :
    (dupStarts n is).length = is.countP (·.op = .dup) := by
  induction is generalizing n with
  | nil => rfl
  | cons r is ih =>
    rw [dupStarts, List.countP_cons]
    split
    · rename_i hdup
      simp [ih, hdup]
    · rename_i hdup
      simp [ih, hdup]

theorem le_of_mem_dupStarts (h : k ∈ dupStarts n is) : n ≤ k := by
  induction is generalizing n with
  | nil => simp [dupStarts] at h
  | cons r is ih =>
    rw [dupStarts] at h
    split at h
    · rcases List.mem_cons.mp h with rfl | h
      · exact le_refl k
      · exact le_trans (Nat.le_add_right n 3) (ih h)
    · exact le_trans (Nat.le_add_right n 1) (ih h)

theorem dupStarts_ordered (n : Nat) (is : List Record) :
    (dupStarts n is).Pairwise fun j k => j + 3 ≤ k := by
  induction is generalizing n with
  | nil => exact .nil
  | cons r is ih =>
    rw [dupStarts]
    split
    · exact .cons (fun k hk => le_of_mem_dupStarts hk) (ih (n + 3))
    · exact ih (n + 1)

theorem openAll_dup (h : p.op = .dup) (t : Nat) (is : List Record) :
    openAll t (p :: is) = p.openDup t ++ openAll (t + 1) is := by
  rw [openAll, Record.opened, Record.nextTemporary, if_pos h, if_pos h]

theorem openAll_plain (h : p.op ≠ .dup) (t : Nat) (is : List Record) :
    openAll t (p :: is) = p :: openAll t is := by
  rw [openAll, Record.opened, Record.nextTemporary, if_neg h, if_neg h, List.singleton_append]

/-- The records of the duplication that uses temporary `t + j`. -/
theorem getElem?_of_dupStarts {j : Nat} (h : (dupStarts n is)[j]? = some k) :
    ∃ q ∈ is, ∀ d r, (q.openDup (t + j))[d]? = some r → (openAll t is)[k - n + d]? = some r := by
  induction is generalizing n t j with
  | nil => simp [dupStarts] at h
  | cons p is ih =>
    rw [dupStarts] at h
    split at h
    · rename_i hdup
      rw [openAll_dup hdup]
      cases j with
      | zero =>
        obtain rfl : n = k := by simpa using h
        refine ⟨p, List.mem_cons_self, ?_⟩
        intro d r hr
        rw [Nat.add_zero] at hr
        rw [Nat.sub_self, Nat.zero_add,
          List.getElem?_append_left (List.getElem?_eq_some_iff.mp hr).1, hr]
      | succ j =>
        rw [List.getElem?_cons_succ] at h
        have hle := le_of_mem_dupStarts (List.mem_of_getElem? h)
        obtain ⟨q, hq, hrecords⟩ := ih (t := t + 1) h
        refine ⟨q, List.mem_cons_of_mem _ hq, ?_⟩
        intro d r hr
        rw [show t + (j + 1) = t + 1 + j by omega] at hr
        have hlength : (p.openDup t).length = 3 := rfl
        rw [List.getElem?_append_right (by omega), hlength,
          show k - n + d - 3 = k - (n + 3) + d by omega]
        exact hrecords d r hr
    · rename_i hdup
      have hle := le_of_mem_dupStarts (List.mem_of_getElem? h)
      obtain ⟨q, hq, hrecords⟩ := ih (t := t) h
      refine ⟨q, List.mem_cons_of_mem _ hq, ?_⟩
      intro d r hr
      rw [openAll_plain hdup, show k - n + d = k - (n + 1) + d + 1 by omega,
        List.getElem?_cons_succ]
      exact hrecords d r hr

/-- A record is an instruction, or belongs to the duplication of its temporary. -/
theorem getElem?_openAll (n : Nat) {i : Nat} (h : (openAll t is)[i]? = some r) :
    (r ∈ is ∧ r.op ≠ .dup) ∨ ∃ q ∈ is, q.op = .dup ∧ ∃ j k d, (dupStarts n is)[j]? = some k ∧
      n + i = k + d ∧ (q.openDup (t + j))[d]? = some r := by
  induction is generalizing n t i with
  | nil => simp [openAll] at h
  | cons p is ih =>
    rw [dupStarts]
    split
    · rename_i hdup
      rw [openAll_dup hdup] at h
      have hlength : (p.openDup t).length = 3 := rfl
      by_cases hi : i < 3
      · rw [List.getElem?_append_left (by omega)] at h
        exact .inr ⟨p, List.mem_cons_self, hdup, 0, n, i, rfl, rfl, h⟩
      · rw [List.getElem?_append_right (by omega), hlength] at h
        rcases ih (n + 3) h with ⟨hr, hne⟩ | ⟨q, hq, hqdup, j, k, d, hk, hplace, hd⟩
        · exact .inl ⟨List.mem_cons_of_mem _ hr, hne⟩
        · refine .inr ⟨q, List.mem_cons_of_mem _ hq, hqdup, j + 1, k, d, hk, by omega, ?_⟩
          rw [show t + (j + 1) = t + 1 + j by omega]
          exact hd
    · rename_i hdup
      rw [openAll_plain hdup] at h
      cases i with
      | zero =>
        obtain rfl : p = r := by simpa using h
        exact .inl ⟨List.mem_cons_self, hdup⟩
      | succ i =>
        rcases ih (n + 1) h with ⟨hr, hne⟩ | ⟨q, hq, hqdup, j, k, d, hk, hplace, hd⟩
        · exact .inl ⟨List.mem_cons_of_mem _ hr, hne⟩
        · exact .inr ⟨q, List.mem_cons_of_mem _ hq, hqdup, j, k, d, hk, by omega, hd⟩

/-- Duplications are found where they start. -/
theorem dupAt_openAll_iff (haccepts : ∀ r ∈ is, s.Accepts r) :
    DupAt (openAll 0 is) k t ↔ (dupStarts 0 is)[t]? = some k := by
  constructor
  · rintro ⟨offset, size, name, -, hstore, -⟩
    rcases getElem?_openAll 0 hstore with ⟨hr, -⟩ | ⟨q, -, -, j, k', d, hk, hplace, hd⟩
    · exact absurd rfl ((haccepts _ hr).no_temporary t)
    · -- Only the first record of a duplication is a store.
      obtain _ | _ | _ | d := d
      · obtain ⟨rfl, -⟩ : j = t ∧ _ := by simpa [Record.openDup] using hd
        rw [hk, show k = k' by omega]
      · simp [Record.openDup] at hd
      · simp [Record.openDup] at hd
      · simp [Record.openDup] at hd
  · intro hk
    obtain ⟨q, hq, hrecords⟩ := getElem?_of_dupStarts (t := 0) hk
    rw [Nat.zero_add] at hrecords
    exact ⟨q.offset, q.size, q.name, (haccepts q hq).size_pos, hrecords 0 _ rfl, hrecords 1 _ rfl,
      hrecords 2 _ rfl⟩

/-! ## Records in a row -/

namespace Tiles

variable {start stop : Nat} {rs : List Record}

theorem sum_sizes (h : Tiles start stop rs) : start + (rs.map Record.size).sum = stop := by
  induction rs generalizing start with
  | nil => exact h
  | cons r rs ih =>
    have hrest := ih h.2
    rw [Record.stop, h.1] at hrest
    rw [List.map_cons, List.sum_cons, ← hrest, Nat.add_assoc]

theorem head_offset (h : Tiles start stop rs) (hr : rs.head? = some r) : r.offset = start := by
  cases rs with
  | nil => cases hr
  | cons q rs =>
    cases hr
    exact h.1

theorem chain (h : Tiles start stop rs) : rs.IsChain fun r q => q.offset = r.stop := by
  induction rs generalizing start with
  | nil => exact .nil
  | cons r rs ih =>
    cases rs with
    | nil => exact .singleton r
    | cons q rs => exact .cons_cons h.2.1 (ih h.2)

end Tiles

/-! ## What the records are -/

/-- A record is an instruction, or a store or load of the temporary of a duplication. -/
theorem mem_openAll_cases (h : r ∈ openAll 0 is) :
    (r ∈ is ∧ r.op ≠ .dup) ∨ ∃ q ∈ is, ∃ t, (r.op = .stloc ∨ r.op = .ldloc) ∧
      r.operand = .ref (.temporary t) ∧ r.name = q.name := by
  rcases mem_openAll h with hr | ⟨q, hq, t, hmem⟩
  · exact .inl hr
  · refine .inr ⟨q, hq, t, ?_⟩
    simp only [Record.openDup, List.mem_cons, List.not_mem_nil, or_false] at hmem
    rcases hmem with rfl | rfl | rfl
    · exact ⟨.inl rfl, rfl, rfl⟩
    · exact ⟨.inr rfl, rfl, rfl⟩
    · exact ⟨.inr rfl, rfl, rfl⟩

/-- An instruction has the name of an opcode, and not of a modifier. -/
theorem Scope.Decodes.exists_opcode {start : Nat} {bytes : List UInt8}
    (h : s.Decodes start bytes is) (hr : r ∈ is) :
    ∃ o, Opcode.ofName? r.name = some o ∧ o.isModifier = false := by
  induction h with
  | nil => cases hr
  | cons hd _ ih =>
    rcases List.mem_cons.mp hr with rfl | hr
    · obtain ⟨o, ho, -, -, hop, hname, -⟩ := Scope.exists_row hd
      refine ⟨o, by rw [hname, Opcode.ofName?_name ho], ?_⟩
      simp [Opcode.isModifier, hop]
    · exact ih hr

theorem Scope.Accepts.ne_switch (h : s.Accepts r) : r.op ≠ .switch := by
  intro hop
  have hshape := h.shaped
  rw [Record.Shaped, hop] at hshape
  cases hshape

section Opened

variable {s : Scope} {is : List Record}
variable {i : Nat}

/-- Only the first two records of a duplication have no size. -/
theorem exists_dupAt_of_size (haccepts : ∀ r ∈ is, s.Accepts r) (hi : (openAll 0 is)[i]? = some r)
    (hzero : r.size = 0) : ∃ k t, DupAt (openAll 0 is) k t ∧ (i = k ∨ i = k + 1) := by
  rcases getElem?_openAll 0 hi with ⟨hr, -⟩ | ⟨q, hq, -, j, k, d, hk, hplace, hd⟩
  · have := (haccepts r hr).size_pos
    omega
  · refine ⟨k, j, (dupAt_openAll_iff haccepts).mpr hk, ?_⟩
    obtain _ | _ | _ | d := d
    · omega
    · omega
    · cases hd
      have := (haccepts q hq).size_pos
      simp only at hzero
      omega
    · simp [Record.openDup] at hd

/-- A temporary occurs in the records of its duplication only. -/
theorem start_of_temporary (haccepts : ∀ r ∈ is, s.Accepts r) (hi : (openAll 0 is)[i]? = some r)
    (ht : r.operand = .ref (.temporary t)) :
    ∃ k, (dupStarts 0 is)[t]? = some k ∧ k ≤ i ∧ i < k + 3 := by
  rcases getElem?_openAll 0 hi with ⟨hr, -⟩ | ⟨q, -, -, j, k, d, hk, hplace, hd⟩
  · exact absurd ht ((haccepts r hr).no_temporary t)
  · have hlt : d < 3 := (List.getElem?_eq_some_iff.mp hd).1
    have hmem := List.mem_of_getElem? hd
    have hj : r.operand = .ref (.temporary j) := by
      simp only [Record.openDup, List.mem_cons, List.not_mem_nil, or_false, Nat.zero_add] at hmem
      rcases hmem with rfl | rfl | rfl <;> rfl
    rw [ht] at hj
    cases hj
    exact ⟨k, hk, by omega, by omega⟩

end Opened

/-- What an operand of the record refers to is in the body, and its opcode is one that is executed. -/
structure Record.Valid (m : Method) (b : Body) (r : Record) : Prop where
  branch : r.op.isBranch = true ↔ ∃ t, r.target? = some t
  target : ∀ t, r.target? = some t → t < b.instructions.length
  argument : ∀ i, r.operand = .ref (.argument i) → i < m.argumentCount
  localVar : ∀ i, r.operand = .ref (.localVar i) → i < b.locals.length
  op : r.op ≠ .dup ∧ r.op ≠ .switch
  opcode : ∃ o, Opcode.ofName? r.name = some o ∧ o.isModifier = false

section Valid

variable {m : Method} {b : Body} {resolver : Resolver} {r : Record}

theorem valid_of_accepts (h : (Scope.of m b resolver).Accepts r) (hdup : r.op ≠ .dup)
    (hopcode : ∃ o, Opcode.ofName? r.name = some o ∧ o.isModifier = false) : r.Valid m b := by
  refine ⟨⟨?_, ?_⟩, ?_, fun i => h.argument_lt, fun i => h.local_lt, ⟨hdup, h.ne_switch⟩, hopcode⟩
  · intro hbranch
    obtain ⟨t, -, ht⟩ := h.exists_target hbranch
    exact ⟨t, ht⟩
  · rintro ⟨t, ht⟩
    exact h.isBranch_of_target ht
  · intro t ht
    obtain ⟨t', hlt, ht'⟩ := h.exists_target (h.isBranch_of_target ht)
    rw [ht] at ht'
    cases ht'
    exact hlt

theorem valid_of_temporary (hop : r.op = .stloc ∨ r.op = .ldloc)
    (hoperand : r.operand = .ref (.temporary t))
    (hopcode : ∃ o, Opcode.ofName? r.name = some o ∧ o.isModifier = false) : r.Valid m b := by
  refine ⟨?_, by simp [Record.target?, hoperand], by simp [hoperand], by simp [hoperand], ?_, hopcode⟩
  · rcases hop with hop | hop <;> simp [Record.target?, hoperand, hop, Op.isBranch, Op.flow]
  · rcases hop with hop | hop <;> simp [hop]

end Valid

structure Tiling (m : Method) (b : Body) (records : List Record) : Prop where
  sizes : (records.map Record.size).sum = b.instructions.length
  first : ∀ r, records.head? = some r → r.offset = 0
  next : records.IsChain fun r q => q.offset = r.stop
  empty : ∀ i r, records[i]? = some r → r.size = 0 →
    ∃ k t, DupAt records k t ∧ (i = k ∨ i = k + 1)
  /-- The duplication with temporary `t` starts at place `starts[t]`, and `t` occurs there only. -/
  temporaries : ∃ starts : List Nat, starts.length ≤ 65535 ∧
    starts.Pairwise (fun j k => j + 3 ≤ k) ∧
    (∀ k t, DupAt records k t ↔ starts[t]? = some k) ∧
    ∀ i r t, records[i]? = some r → r.operand = .ref (.temporary t) →
      ∃ k, starts[t]? = some k ∧ k ≤ i ∧ i < k + 3
  valid : ∀ r ∈ records, r.Valid m b

/-- Whatever is read from a body to its end tiles the code. -/
theorem readAll_tiling {m : Method} {b : Body} {resolver : Resolver} {records : List Record}
    (h : (Reader.of m b resolver).readAll = .ok records) : Tiling m b records := by
  obtain ⟨is, hdecodes, hlimit, rfl⟩ := (Reader.readAll_eq_ok_iff m b resolver records).mp h
  have haccepts := hdecodes.accepts
  have htiles : Tiles 0 b.instructions.length (openAll 0 is) := by
    simpa using hdecodes.tiles.openAll
  have hcount : (dupStarts 0 is).length ≤ 65535 := by
    rw [nextTemporaryAll_eq, Nat.zero_add] at hlimit
    rw [length_dupStarts]
    exact hlimit
  refine
    { sizes := by simpa using htiles.sum_sizes
      first := fun r hr => htiles.head_offset hr
      next := htiles.chain
      empty := fun i r hi hzero => exists_dupAt_of_size haccepts hi hzero
      temporaries := ⟨dupStarts 0 is, hcount, dupStarts_ordered 0 is,
        fun k t => dupAt_openAll_iff haccepts, fun i r t hi ht => start_of_temporary haccepts hi ht⟩
      valid := ?_ }
  intro r hr
  rcases mem_openAll_cases hr with ⟨hmem, hdup⟩ | ⟨q, hq, t, hop, hoperand, hname⟩
  · exact valid_of_accepts (haccepts r hmem) hdup (hdecodes.exists_opcode hmem)
  · refine valid_of_temporary hop hoperand ?_
    rw [hname]
    exact hdecodes.exists_opcode hq

/-- Two duplications and a branch, with padding behind the code. -/
def paddedBody : Body :=
  { code := [0x02, 0x25, 0x25, 0x58, 0x2D, 0x00, 0x2A, 0xFF, 0xFF], length := 7 }

def paddedMethod : Method := { name := "Padded", parameters := [.i4] }

def paddedInstructions : List Record :=
  [⟨.ldarg, .ref (.argument 0), 0, 1, "ldarg.0"⟩, ⟨.dup, .none, 1, 1, "dup"⟩,
    ⟨.dup, .none, 2, 1, "dup"⟩, ⟨.arith .add, .none, 3, 1, "add"⟩,
    ⟨.brtrue, .ref (.target 6), 4, 2, "brtrue.s"⟩, ⟨.ret, .none, 6, 1, "ret"⟩]

theorem padded_tiling :
    (Reader.of paddedMethod paddedBody ({} : TokenTable).resolver).readAll =
        .ok (openAll 0 paddedInstructions) ∧
      Tiling paddedMethod paddedBody (openAll 0 paddedInstructions) := by
  have hread : (Reader.of paddedMethod paddedBody ({} : TokenTable).resolver).readAll =
      .ok (openAll 0 paddedInstructions) := by decide +kernel
  exact ⟨hread, readAll_tiling hread⟩

end SpuCompiler.Bytecode
