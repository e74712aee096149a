import SpuCompiler.Proofs.Bytecode.Instructions

/-!
Reading on after errors. A call that takes nothing from the queue and does not report the end moves
the reader by at least one byte, whatever is wrong with the code there, and an error leaves nothing in
the queue. So a reader that is called again and again comes to the end.
-/

namespace SpuCompiler.Bytecode

open Metadata

namespace Reader

variable {r : Reader} {code : List UInt8}

/-! ## One call -/

/-- What a call gives and leaves: the next record of the queue, or the end, or what was decoded from at
least one byte. -/
inductive Call (r : Reader) : Except DecodeError (Option Record) → Reader → Prop
  | queued {record : Record} {queue : List Record} : r.queued = record :: queue →
      Call r (.ok (some record)) { r with queued := queue }
  | ended : r.queued = [] → r.rest = [] → Call r (.ok none) r
  | decoded {result : Except DecodeError (Option Record)} {r' : Reader} {taken : Nat} :
      r.queued = [] → 0 < taken → taken ≤ r.rest.length → r'.position = r.position + taken →
      r'.rest = r.rest.drop taken → r'.queued.length ≤ 2 → result ≠ .ok none →
      (∀ e, result = .error e → r'.queued = [] ∧ e.offset = r.position) → Call r result r'

theorem next_call (r : Reader) : r.Call r.next.1 r.next.2 := by
  unfold next
  split
  · rename_i hq
    exact .queued hq
  · rename_i hq
    split
    · rename_i hrest
      exact .ended hq (List.isEmpty_iff.mp hrest)
    · rename_i hrest
      obtain ⟨hpos, hle⟩ := r.scope.decode_taken r.position (by simpa using hrest)
      cases hd : r.scope.decode r.position r.rest with
      | mk result taken =>
        rw [hd] at hpos hle
        cases result with
        | error fault =>
          refine .decoded hq hpos hle rfl rfl (by simp [hq]) (by simp) ?_
          rintro _ ⟨⟩
          exact ⟨hq, rfl⟩
        | ok record =>
          obtain ⟨hoffset, -⟩ := Scope.decode_ok hd
          dsimp only
          split
          · unfold openDup
            split
            · exact .decoded hq hpos hle rfl rfl (by simp) (by simp) (by simp)
            · refine .decoded hq hpos hle rfl rfl (by simp [hq]) (by simp) ?_
              rintro _ ⟨⟩
              exact ⟨hq, hoffset⟩
          · exact .decoded hq hpos hle rfl rfl (by simp [hq]) (by simp) (by simp)

/-! ## Calls in a row -/

/-- The reader after `n` calls, whatever these gave. -/
def after (r : Reader) : Nat → Reader
  | 0 => r
  | n + 1 => (r.after n).next.2

theorem after_succ (r : Reader) (n : Nat) : r.after (n + 1) = r.next.2.after n := by
  induction n with
  | zero => rfl
  | succ n ih => rw [after, ih, after]

/-- An upper bound for the calls that are left: every byte may give three records. -/
def rank (r : Reader) : Nat := 3 * r.rest.length + r.queued.length

theorem rank_next (h : r.next.1 ≠ .ok none) : r.next.2.rank < r.rank := by
  have hcall := r.next_call
  generalize r.next.1 = result at h hcall
  generalize r.next.2 = r' at hcall
  unfold rank
  cases hcall with
  | queued hq =>
    simp only [hq, List.length_cons]
    omega
  | ended => exact absurd rfl h
  | decoded hq hpos hle _ hrest hqueued =>
    rw [hrest, hq, List.length_drop, List.length_nil]
    omega

theorem next_of_ended (h : r.next.1 = .ok none) : r.next.2 = r := by
  have hcall := r.next_call
  generalize r.next.1 = result at h hcall
  generalize r.next.2 = r' at hcall
  cases hcall with
  | queued => cases h
  | ended => rfl
  | decoded _ _ _ _ _ _ hsome => exact absurd h hsome

/-- The end is reported at last, and from then on. -/
theorem exists_ended (r : Reader) :
    ∃ n ≤ r.rank, ∀ k, (r.after k).next.1 = .ok none ↔ n ≤ k := by
  induction hrank : r.rank using Nat.strong_induction_on generalizing r with
  | _ rank ih =>
    by_cases hend : r.next.1 = .ok none
    · have hstay : ∀ k, r.after k = r := by
        intro k
        induction k with
        | zero => rfl
        | succ k ihk => rw [after_succ, next_of_ended hend, ihk]
      exact ⟨0, Nat.zero_le _, fun k => by simp [hstay k, hend]⟩
    · obtain ⟨n, hn, hiff⟩ := ih r.next.2.rank (hrank ▸ rank_next hend) r.next.2 rfl
      refine ⟨n + 1, ?_, ?_⟩
      · have := rank_next hend
        omega
      · intro k
        cases k with
        | zero => simpa [after] using hend
        | succ k => rw [after_succ, hiff k, Nat.add_le_add_iff_right]

/-- The reader stands in the code, and what is left is the code from there on. -/
structure Stands (code : List UInt8) (r : Reader) : Prop where
  position_le : r.position ≤ code.length
  rest : r.rest = code.drop r.position

theorem Stands.next (h : r.Stands code) : r.next.2.Stands code := by
  have hcall := r.next_call
  generalize r.next.1 = result at hcall
  generalize r.next.2 = r' at hcall
  cases hcall with
  | queued => exact ⟨h.position_le, h.rest⟩
  | ended => exact h
  | decoded _ _ hle hposition hrest =>
    rw [h.rest] at hle hrest
    rw [List.length_drop] at hle
    refine ⟨?_, ?_⟩
    · have := h.position_le
      omega
    · rw [hrest, List.drop_drop, hposition]

theorem Stands.after (h : r.Stands code) (n : Nat) : (r.after n).Stands code := by
  induction n with
  | zero => exact h
  | succ n ih => exact ih.next

/-- Where a reader of the code stands, and what a call does to its position and to the queue. -/
structure Progress (code : List UInt8) (r : Reader) : Prop where
  position_le : r.position ≤ code.length
  ended_iff : r.next.1 = .ok none ↔ r.queued = [] ∧ r.position = code.length
  moves : r.queued = [] → r.next.1 ≠ .ok none → r.position < r.next.2.position
  error : ∀ e, r.next.1 = .error e →
    r.position < r.next.2.position ∧ r.next.2.queued = [] ∧ e.offset = r.position

theorem Stands.rest_eq_nil_iff (h : r.Stands code) : r.rest = [] ↔ r.position = code.length := by
  rw [h.rest, List.drop_eq_nil_iff]
  have := h.position_le
  omega

theorem Stands.progress (h : r.Stands code) : r.Progress code := by
  have hcall := r.next_call
  generalize hresult : r.next.1 = result at hcall
  generalize hnext : r.next.2 = r' at hcall
  cases hcall with
  | queued hq => constructor <;> simp [hresult, hq, h.position_le]
  | ended hq hrest => constructor <;> simp [hresult, hq, h.rest_eq_nil_iff.mp hrest]
  | decoded hq hpos hle hposition _ _ hsome herror =>
    have hmoves : r.position < r.next.2.position := by
      rw [hnext]
      omega
    have hrest : r.rest ≠ [] := List.ne_nil_of_length_pos (by omega)
    refine ⟨h.position_le, ?_, fun _ _ => hmoves, ?_⟩
    · rw [hresult]
      exact ⟨fun hnone => absurd hnone hsome, fun hend => absurd (h.rest_eq_nil_iff.mpr hend.2) hrest⟩
    · intro e he
      rw [hnext] at hmoves ⊢
      exact ⟨hmoves, herror e (hresult ▸ he)⟩

/-- A reader that is called again and again, also after errors, stays in the code and makes progress
on every call; and after at most three calls for every byte the end is reported, and from then on. -/
theorem reading_ends (m : Method) (b : Body) (resolver : Resolver) :
    (∀ n, ((Reader.of m b resolver).after n).Progress b.instructions) ∧
    ∃ n ≤ 3 * b.instructions.length,
      ∀ k, ((Reader.of m b resolver).after k).next.1 = .ok none ↔ n ≤ k := by
  have hstands : (Reader.of m b resolver).Stands b.instructions := ⟨Nat.zero_le _, rfl⟩
  exact ⟨fun n => (hstands.after n).progress, exists_ended (Reader.of m b resolver)⟩

end Reader

end SpuCompiler.Bytecode
