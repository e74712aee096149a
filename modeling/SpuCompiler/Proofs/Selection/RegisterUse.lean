import SpuCompiler.Selection.Arithmetic

/-!
Which registers code sets and reads. Fresh registers are set in the order of their numbers, each
by the instruction behind its choice, and read only from then on; `ilhu` and the `iohl` behind it
set one register between them. All other registers that are set are those of variables and of the
machine. So each register that is no variable has one definition, before all of its uses.
-/

namespace SpuCompiler.Machine

/-- The first register of the opcode is a source: it is stored, sent to a channel or tested. -/
def Opcode.readsFirst : Opcode → Bool
  | .stqx | .stqd | .stqa | .stqr | .wrch | .brnz | .brz | .brhnz | .brhz => true
  | _ => false

def Opcode.setsFirst (op : Opcode) : Bool := !op.readsFirst && op ≠ .iohl

def Instr.sets? (i : Instr) : Option Register := if i.opcode.readsFirst then none else i.rt

/-- The registers that the instruction reads; `iohl` keeps one half of the register it sets. -/
def Instr.uses (i : Instr) : List Register :=
  (if i.opcode.setsFirst then none else i.rt).toList ++ [i.ra, i.rb, i.rc].filterMap id

/-- The instruction sets no virtual register, not even a half of it. -/
def Instr.setsNoVirtual (i : Instr) : Bool :=
  match i.sets? with
  | some (.virtual _) => false
  | _ => i.opcode != .iohl

theorem Instr.mem_registers_iff {i : Instr} {r : Register} :
    r ∈ i.registers ↔ i.sets? = some r ∨ r ∈ i.uses := by
  unfold registers uses sets? Opcode.setsFirst
  cases hop : i.opcode.readsFirst <;> cases i.rt <;> by_cases hiohl : i.opcode = .iohl <;>
    simp [hiohl, eq_comm]

end SpuCompiler.Machine

namespace SpuCompiler.Selection

open Machine Metadata Bytecode Trees

/-- The register holds a value where `next` is the next fresh one: it is one of the machine, of a
variable, or set since the block started. -/
def Available (vars start next : Nat) : Register → Prop
  | .hardware _ => True
  | .virtual n => n < vars ∨ (start ≤ n ∧ n < next)

/-- The code sets the registers from one number up to another in order, each once and before it
is read, and besides them only registers of variables and of the machine. -/
inductive Assigns (vars start : Nat) : Nat → List Instr → Nat → Prop
  | nil (n : Nat) : Assigns vars start n [] n
  | fresh {n n' : Nat} {i : Instr} {code : List Instr} : i.sets? = some (.virtual n) →
      i.opcode ≠ .iohl → (∀ r ∈ i.uses, Available vars start n r) →
      Assigns vars start (n + 1) code n' → Assigns vars start n (i :: code) n'
  | halves {n n' : Nat} {i j : Instr} {code : List Instr} : i.opcode = .ilhu →
      i.sets? = some (.virtual n) → i.uses = [] → j.opcode = .iohl →
      j.sets? = some (.virtual n) → j.uses = [.virtual n] →
      Assigns vars start (n + 1) code n' → Assigns vars start n (i :: j :: code) n'
  | other {n n' : Nat} {i : Instr} {code : List Instr} :
      (∀ k, i.sets? = some (.virtual k) → k < vars) → i.opcode ≠ .iohl →
      (∀ r ∈ i.uses, Available vars start n r) →
      Assigns vars start n code n' → Assigns vars start n (i :: code) n'

variable {vars start n n' n'' : Nat} {code code' : List Instr} {i : Instr}

theorem Available.mono {r : Register} (h : Available vars start n r) (hn : n ≤ n') :
    Available vars start n' r := by
  cases r with
  | hardware k => trivial
  | «virtual» k =>
    rcases h with hvar | ⟨hle, hlt⟩
    · exact .inl hvar
    · exact .inr ⟨hle, by omega⟩

namespace Assigns

theorem append (h : Assigns vars start n code n') (h' : Assigns vars start n' code' n'') :
    Assigns vars start n (code ++ code') n'' := by
  induction h with
  | nil n => exact h'
  | fresh hset hop huses _ ih => exact .fresh hset hop huses (ih h')
  | halves hi hset huses hj hset' huses' _ ih => exact .halves hi hset huses hj hset' huses' (ih h')
  | other hset hop huses _ ih => exact .other hset hop huses (ih h')

theorem le (h : Assigns vars start n code n') : n ≤ n' := by
  induction h with
  | nil n => exact Nat.le_refl n
  | fresh _ _ _ _ ih => omega
  | halves _ _ _ _ _ _ _ ih => omega
  | other _ _ _ _ ih => exact ih

/-- Where targets stand in instructions makes no difference. -/
theorem map {f : Instr → Instr} (hop : ∀ i, (f i).opcode = i.opcode)
    (hsets : ∀ i, (f i).sets? = i.sets?) (huses : ∀ i, (f i).uses = i.uses)
    (h : Assigns vars start n code n') : Assigns vars start n (code.map f) n' := by
  induction h with
  | nil n => exact .nil n
  | fresh hset hiohl hall _ ih =>
    exact .fresh (by rw [hsets, hset]) (by rw [hop]; exact hiohl) (by rw [huses]; exact hall) ih
  | halves hi hset hnone hj hset' hone _ ih =>
    exact .halves (by rw [hop, hi]) (by rw [hsets, hset]) (by rw [huses, hnone]) (by rw [hop, hj])
      (by rw [hsets, hset']) (by rw [huses, hone]) ih
  | other hset hiohl hall _ ih =>
    exact .other (by rw [hsets]; exact hset) (by rw [hop]; exact hiohl) (by rw [huses]; exact hall) ih

/-- Every register of the code is one of the machine, of a variable, or set by then. -/
theorem available (h : Assigns vars start n code n') (hstart : start ≤ n) :
    ∀ i ∈ code, ∀ r ∈ i.registers, Available vars start n' r := by
  induction h with
  | nil n => simp
  | @fresh n n' i code hset hop huses hrest ih =>
    have hle := hrest.le
    intro j hj r hr
    rcases List.mem_cons.mp hj with rfl | hj
    · rcases Instr.mem_registers_iff.mp hr with hsets | huse
      · rw [hset] at hsets
        cases hsets
        exact .inr ⟨hstart, by omega⟩
      · exact (huses r huse).mono (by omega)
    · exact ih (by omega) j hj r hr
  | @halves n n' i k code hi hset hnone hk hset' hone hrest ih =>
    have hle := hrest.le
    intro j hj r hr
    have hown : r = .virtual n → Available vars start n' r := by
      rintro rfl
      exact .inr ⟨hstart, by omega⟩
    rcases List.mem_cons.mp hj with rfl | hj
    · rcases Instr.mem_registers_iff.mp hr with hsets | huse
      · exact hown (Option.some.inj (hsets.symm.trans hset))
      · simp [hnone] at huse
    · rcases List.mem_cons.mp hj with rfl | hj
      · rcases Instr.mem_registers_iff.mp hr with hsets | huse
        · exact hown (Option.some.inj (hsets.symm.trans hset'))
        · exact hown (by simpa [hone] using huse)
      · exact ih (by omega) j hj r hr
  | @other n n' i code hset hop huses hrest ih =>
    intro j hj r hr
    rcases List.mem_cons.mp hj with rfl | hj
    · rcases Instr.mem_registers_iff.mp hr with hsets | huse
      · cases r with
        | hardware k => trivial
        | «virtual» k => exact .inl (hset k hsets)
      · exact (huses r huse).mono hrest.le
    · exact ih hstart j hj r hr

end Assigns

/-- The register has one definition in the code: one instruction sets it, or `ilhu` and the `iohl`
right behind it. Instructions that read it come later. -/
def Defined (code : List Instr) (k : Nat) : Prop :=
  ∃ p w, code[p]? = some w ∧ w.sets? = some (.virtual k) ∧
    (∀ q i, code[q]? = some i → i.sets? = some (.virtual k) →
      q = p ∨ (q = p + 1 ∧ w.opcode = .ilhu ∧ i.opcode = .iohl)) ∧
    ∀ q i, code[q]? = some i → .virtual k ∈ i.uses → p < q

/-- A definition stays one behind an instruction that has nothing to do with it. -/
theorem Defined.cons {k : Nat} (h : Defined code k) (hset : i.sets? ≠ some (.virtual k))
    (huse : .virtual k ∉ i.uses) : Defined (i :: code) k := by
  obtain ⟨p, w, hp, hw, honly, hlater⟩ := h
  refine ⟨p + 1, w, hp, hw, ?_, ?_⟩
  · intro q j hq hj
    cases q with
    | zero =>
      cases hq
      exact absurd hj hset
    | succ q =>
      rcases honly q j hq hj with rfl | ⟨rfl, hops⟩
      · exact .inl rfl
      · exact .inr ⟨rfl, hops⟩
  · intro q j hq hj
    cases q with
    | zero =>
      cases hq
      exact absurd hj huse
    | succ q =>
      have := hlater q j hq hj
      omega

namespace Assigns

/-- Code sets no register that was fresh before it. -/
theorem sets (h : Assigns vars start n code n') {k : Nat} (hi : i ∈ code)
    (hset : i.sets? = some (.virtual k)) : k < vars ∨ n ≤ k := by
  induction h with
  | nil n => simp at hi
  | @fresh n n' j code hj hop huses hrest ih =>
    rcases List.mem_cons.mp hi with rfl | hi
    · rw [hj] at hset
      cases hset
      exact .inr (Nat.le_refl _)
    · rcases ih hi with hvar | hle
      · exact .inl hvar
      · exact .inr (by omega)
  | @halves n n' j j' code hj hset₁ hnone hj' hset₂ hone hrest ih =>
    have hown : ∀ {x : Instr}, x.sets? = some (.virtual n) → x.sets? = some (.virtual k) → n ≤ k := by
      intro x hx hset
      rw [hx] at hset
      cases hset
      exact Nat.le_refl _
    rcases List.mem_cons.mp hi with rfl | hi
    · exact .inr (hown hset₁ hset)
    · rcases List.mem_cons.mp hi with rfl | hi
      · exact .inr (hown hset₂ hset)
      · rcases ih hi with hvar | hle
        · exact .inl hvar
        · exact .inr (by omega)
  | other hj hop huses hrest ih =>
    rcases List.mem_cons.mp hi with rfl | hi
    · exact .inl (hj k hset)
    · exact ih hi

theorem defined (h : Assigns vars start n code n') (hvars : vars ≤ start) (hstart : start ≤ n)
    {k : Nat} (hk : n ≤ k) (hk' : k < n') : Defined code k := by
  induction h with
  | nil n => omega
  | @fresh n n' i code hset hop huses hrest ih =>
    have hunused : ∀ m, n ≤ m → Register.virtual m ∉ i.uses := by
      intro m hm hmem
      rcases huses _ hmem with hvar | ⟨-, hlt⟩ <;> omega
    by_cases hnk : n = k
    · subst hnk
      refine ⟨0, i, rfl, hset, ?_, ?_⟩
      · intro q j hq hj
        cases q with
        | zero => exact .inl rfl
        | succ q => rcases hrest.sets (List.mem_of_getElem? hq) hj with hvar | hle <;> omega
      · intro q j hq hj
        cases q with
        | zero =>
          cases hq
          exact absurd hj (hunused n (Nat.le_refl n))
        | succ q => omega
    · refine (ih (by omega) (by omega) hk').cons ?_ (hunused k hk)
      rw [hset]
      simpa using hnk
  | @halves n n' i j code hi hset hnone hj hset' hone hrest ih =>
    by_cases hnk : n = k
    · subst hnk
      refine ⟨0, i, rfl, hset, ?_, ?_⟩
      · intro q x hq hx
        match q with
        | 0 => exact .inl rfl
        | 1 =>
          cases hq
          exact .inr ⟨rfl, hi, hj⟩
        | q + 2 => rcases hrest.sets (List.mem_of_getElem? hq) hx with hvar | hle <;> omega
      · intro q x hq hx
        match q with
        | 0 =>
          cases hq
          simp [hnone] at hx
        | q + 1 => omega
    · refine ((ih (by omega) (by omega) hk').cons ?_ ?_).cons ?_ ?_
      · rw [hset']
        simpa using hnk
      · simpa [hone] using Ne.symm hnk
      · rw [hset]
        simpa using hnk
      · simp [hnone]
  | @other n n' i code hset hop huses hrest ih =>
    refine (ih hstart hk hk').cons ?_ ?_
    · intro h
      have := hset k h
      omega
    · intro hmem
      rcases huses _ hmem with hvar | ⟨-, hlt⟩ <;> omega

end Assigns

/-! ## Fragments -/

def Given (known : List Register) (r : Register) : Prop := r = .sp ∨ r ∈ known

/-- Registers of the machine can be read anywhere. -/
def Readable (known : List Register) (r : Register) : Prop := r.virtual? = none ∨ Given known r

variable {known : List Register} {r : Register}

@[simp] theorem given_sp : Given known .sp := .inl rfl

@[simp] theorem given_cons {a : Register} : Given (a :: known) r ↔ r = a ∨ Given known r := by
  simp only [Given, List.mem_cons]
  exact or_left_comm

@[simp] theorem given_append {rs : List Register} :
    Given (rs ++ known) r ↔ r ∈ rs ∨ Given known r := by
  simp only [Given, List.mem_append]
  exact or_left_comm

@[simp] theorem readable_hardware (k : Nat) : Readable known (.hardware k) := .inl rfl

theorem Given.readable (h : Given known r) : Readable known r := .inr h

theorem Given.available (h : Given known r) (hknown : ∀ r ∈ known, Available vars start n r) :
    Available vars start n r := by
  rcases h with rfl | hmem
  · trivial
  · exact hknown r hmem

theorem Readable.available (h : Readable known r) (hknown : ∀ r ∈ known, Available vars start n r) :
    Available vars start n r := by
  rcases h with hnone | h
  · cases r with
    | hardware k => trivial
    | «virtual» k => cases hnone
  · exact h.available hknown

/-- The register is a given one, that of a variable, or one of the fresh ones between two
numbers. -/
def Obtained (vars : Nat) (known : List Register) (n n' : Nat) (r : Register) : Prop :=
  Given known r ∨ ∃ k, r = .virtual k ∧ (k < vars ∨ (n ≤ k ∧ k < n'))

theorem Obtained.available (h : Obtained vars known n n' r)
    (hknown : ∀ r ∈ known, Available vars start n r) (hstart : start ≤ n) (hle : n ≤ n') :
    Available vars start n' r := by
  rcases h with h | ⟨k, rfl, hvar | ⟨hk, hk'⟩⟩
  · exact (h.available hknown).mono hle
  · exact .inl hvar
  · exact .inr ⟨by omega, hk'⟩

theorem Obtained.mono {m m' : Nat} (h : Obtained vars known n n' r) (hm : m ≤ n) (hm' : n' ≤ m') :
    Obtained vars known m m' r := by
  rcases h with h | ⟨k, rfl, hvar | ⟨hk, hk'⟩⟩
  · exact .inl h
  · exact .inr ⟨k, rfl, .inl hvar⟩
  · exact .inr ⟨k, rfl, .inr ⟨by omega, by omega⟩⟩

/-- The second stream has more code than the first, which sets fresh registers, and the registers
of the result are given, fresh or those of variables. -/
structure Extends (vars start : Nat) (known : List Register) (s t : Stream) (rs : List Register) :
    Prop where
  results : ∀ r ∈ rs, Obtained vars known s.next t.next r
  code : ∃ code, t.code.toList = s.code.toList ++ code ∧ Assigns vars start s.next code t.next

namespace Extends

variable {s t u : Stream} {rs rs' : List Register}

theorem le (h : Extends vars start known s t rs) : s.next ≤ t.next := by
  obtain ⟨code, -, hassigns⟩ := h.code
  exact hassigns.le

theorem available (h : Extends vars start known s t rs) (hstart : start ≤ s.next)
    (hknown : ∀ r ∈ known, Available vars start s.next r) :
    ∀ r ∈ rs ++ known, Available vars start t.next r := by
  intro r hr
  rcases List.mem_append.mp hr with hr | hr
  · exact (h.results r hr).available hknown hstart h.le
  · exact (hknown r hr).mono h.le

theorem refl (h : ∀ r ∈ rs, Given known r) : Extends vars start known s s rs :=
  ⟨fun r hr => .inl (h r hr), [], (List.append_nil _).symm, .nil _⟩

theorem trans (h : Extends vars start known s t rs) (h' : Extends vars start (rs ++ known) t u rs') :
    Extends vars start known s u rs' := by
  obtain ⟨code, hcode, hassigns⟩ := h.code
  obtain ⟨code', hcode', hassigns'⟩ := h'.code
  refine ⟨?_, code ++ code', by rw [hcode', hcode, List.append_assoc], hassigns.append hassigns'⟩
  intro r hr
  rcases h'.results r hr with (rfl | hmem) | hnew
  · exact .inl given_sp
  · rcases List.mem_append.mp hmem with hmem | hmem
    · exact (h.results r hmem).mono (Nat.le_refl _) h'.le
    · exact .inl (.inr hmem)
  · exact Obtained.mono (.inr hnew) h.le (Nat.le_refl _)

end Extends

/-- Where the given registers are available, the fragment sets fresh registers only. -/
def Emits {α : Type} (vars start : Nat) (known : List Register) (e : Emit α)
    (results : α → List Register) : Prop :=
  ∀ s : Stream, start ≤ s.next → (∀ r ∈ known, Available vars start s.next r) →
    Extends vars start known s (e.run s).2 (results (e.run s).1)

namespace Emits

variable {α β : Type}

theorem pure {x : α} {results : α → List Register} (h : ∀ r ∈ results x, Given known r) :
    Emits vars start known (pure x) results := fun _ _ _ => .refl h

theorem bind {e : Emit α} {f : α → Emit β} {results : α → List Register}
    {results' : β → List Register} (he : Emits vars start known e results)
    (hf : ∀ x, Emits vars start (results x ++ known) (f x) results') :
    Emits vars start known (e >>= f) results' := by
  intro s hstart hknown
  have hfirst := he s hstart hknown
  exact hfirst.trans (hf _ _ (Nat.le_trans hstart hfirst.le) (hfirst.available hstart hknown))

/-- The register of a variable. -/
theorem ofVariable {k : Nat} (h : k < vars) :
    Emits vars start known (Pure.pure (.virtual k)) ([·]) := by
  intro s _ _
  refine ⟨?_, [], (List.append_nil _).symm, .nil _⟩
  exact fun r hr => .inr ⟨k, List.mem_singleton.mp hr, .inl h⟩

/-- Code without a result may be given a register of the machine. -/
theorem hardware {e : Emit α} {k : Nat}
    (h : Emits vars start (.hardware k :: known) e fun _ => []) :
    Emits vars start known e fun _ => [] := by
  intro s hstart hknown
  exact ⟨by simp, (h s hstart (List.forall_mem_cons.mpr ⟨trivial, hknown⟩)).code⟩

/-- An instruction that sets a register of a variable or of the machine, or none at all. -/
theorem instr (hset : ∀ k, i.sets? = some (.virtual k) → k < vars) (hop : i.opcode ≠ .iohl)
    (huses : ∀ r ∈ i.uses, Readable known r) :
    Emits vars start known (Emit.instr i) fun _ => [] := by
  intro s _ hknown
  refine ⟨by simp, [i], Array.toList_push .., ?_⟩
  exact .other hset hop (fun r hr => (huses r hr).available hknown) (.nil _)

/-- An instruction that sets no virtual register. -/
theorem settled (h : i.setsNoVirtual = true) (huses : ∀ r ∈ i.uses, Readable known r) :
    Emits vars start known (Emit.instr i) fun _ => [] := by
  refine instr (fun k hk => ?_) (fun hop => ?_) huses
  · simp [Instr.setsNoVirtual, hk] at h
  · unfold Instr.setsNoVirtual at h
    split at h
    · cases h
    · simp [hop] at h

/-- An instruction with a fresh register for its result. -/
theorem fresh {op : Machine.Opcode} {i : Register → Instr} (hop : op.setsFirst = true)
    (hi : ∀ rt, (i rt).opcode = op ∧ (i rt).rt = some rt)
    (hsources : ∀ rt, ∀ r ∈ [(i rt).ra, (i rt).rb, (i rt).rc].filterMap id, Readable known r) :
    Emits vars start known (do let rt ← Emit.fresh; Emit.instr (i rt); return rt) ([·]) := by
  obtain ⟨hreads, hiohl⟩ : op.readsFirst = false ∧ op ≠ .iohl := by
    simpa [Opcode.setsFirst] using hop
  intro s hstart hknown
  obtain ⟨hopcode, hrt⟩ := hi (.virtual s.next)
  refine ⟨?_, [i (.virtual s.next)], Array.toList_push .., ?_⟩
  · intro r hr
    exact .inr ⟨s.next, List.mem_singleton.mp hr, .inr ⟨Nat.le_refl _, Nat.lt_succ_self _⟩⟩
  · refine .fresh ?_ (by rwa [hopcode]) ?_ (.nil _)
    · simp [Instr.sets?, hopcode, hreads, hrt]
    · intro r hr
      simp only [Instr.uses, hopcode, hop, if_true, Option.toList_none, List.nil_append] at hr
      exact (hsources _ r hr).available hknown

end Emits

namespace Emit

section Single

variable {op : Machine.Opcode} {c : Int} {ra rb rc : Register}

theorem rr_emits (hop : op.setsFirst = true) (ha : Given known ra) (hb : Given known rb) :
    Emits vars start known (rr op ra rb) ([·]) :=
  .fresh hop (fun _ => ⟨rfl, rfl⟩) (by simp [Instr.rr, ha.readable, hb.readable])

theorem rrr_emits (hop : op.setsFirst = true) (ha : Given known ra) (hb : Given known rb)
    (hc : Given known rc) : Emits vars start known (rrr op ra rb rc) ([·]) :=
  .fresh hop (fun _ => ⟨rfl, rfl⟩) (by simp [Instr.rrr, ha.readable, hb.readable, hc.readable])

theorem ri_emits (hop : op.setsFirst = true) (ha : Given known ra) :
    Emits vars start known (ri op ra c) ([·]) :=
  .fresh hop (fun _ => ⟨rfl, rfl⟩) (by simp [Instr.ri, ha.readable])

theorem imm_emits (hop : op.setsFirst = true) : Emits vars start known (imm op c) ([·]) :=
  .fresh hop (fun _ => ⟨rfl, rfl⟩) (by simp [Instr.imm])

theorem targeted_emits (hop : op.setsFirst = true) (target : Target) :
    Emits vars start known (targeted op target) ([·]) :=
  .fresh hop (fun _ => ⟨rfl, rfl⟩) (by simp [Instr.withTarget])

/-- A move to a register of the machine or of a variable. -/
theorem move_emits {dst src : Register} (hdst : ∀ k, dst = .virtual k → k < vars)
    (hsrc : Readable known src) : Emits vars start known (move dst src) fun _ => [] := by
  refine .instr (fun k hk => hdst k ?_) nofun ?_
  · simpa [Instr.ri, Instr.sets?, Opcode.readsFirst] using hk
  · simpa [Instr.ri, Instr.uses, Opcode.setsFirst, Opcode.readsFirst] using hsrc

/-- A store at a short distance from an address. -/
theorem stqd_emits {value address : Register} (hvalue : Given known value)
    (haddress : Given known address) :
    Emits vars start known (instr (.ri .stqd value address c)) fun _ => [] := by
  refine .settled rfl ?_
  simp [Instr.ri, Instr.uses, Opcode.setsFirst, Opcode.readsFirst, hvalue.readable,
    haddress.readable]

/-- `ilhu` and the `iohl` behind it set one register. -/
theorem halves_emits (high low : Int) :
    Emits vars start known (do let rt ← imm .ilhu high; instr (.imm .iohl rt low); return rt) ([·]) := by
  intro s hstart hknown
  refine ⟨?_, [.imm .ilhu (.virtual s.next) high, .imm .iohl (.virtual s.next) low], ?_, ?_⟩
  · intro r hr
    exact .inr ⟨s.next, List.mem_singleton.mp hr, .inr ⟨Nat.le_refl _, Nat.lt_succ_self _⟩⟩
  · exact (Array.toList_push ..).trans (by simp [Array.toList_push])
  · exact .halves rfl rfl rfl rfl rfl rfl (.nil _)

end Single

end Emit

end SpuCompiler.Selection
