import Mathlib.Tactic

/-!
Deterministic machines and what it takes for one of them to stand for another: every step of the
first is matched by steps of the second, and where the second does not move, a rank falls, so
that neither runs for ever while the other stands still.
-/

namespace SpuCompiler

/-- What a machine does next: it goes on, it ends with a result, or nothing is defined. -/
inductive Transition (C O : Type) where
  | next (c : C)
  | halt (o : O)
  | stuck

variable {C D O : Type}

inductive Halts (step : C → Transition C O) : C → O → Prop
  | halt {c : C} {o : O} : step c = .halt o → Halts step c o
  | next {c c' : C} {o : O} : step c = .next c' → Halts step c' o → Halts step c o

inductive Steps (step : C → Transition C O) : Nat → C → C → Prop
  | refl (c : C) : Steps step 0 c c
  | cons {n : Nat} {c c' c'' : C} : step c = .next c' → Steps step n c' c'' →
      Steps step (n + 1) c c''

namespace Steps

variable {step : C → Transition C O}

theorem single {c c' : C} (h : step c = .next c') : Steps step 1 c c' := .cons h (.refl c')

theorem trans {n k : Nat} {c c' c'' : C} (h : Steps step n c c') (h' : Steps step k c' c'') :
    Steps step (n + k) c c'' := by
  induction h with
  | refl _ =>
    rw [Nat.zero_add]
    exact h'
  | cons hs _ ih =>
    rw [Nat.add_right_comm]
    exact .cons hs (ih h')

theorem halts {n : Nat} {c c' : C} {o : O} (h : Steps step n c c') (ho : Halts step c' o) :
    Halts step c o := by
  induction h with
  | refl _ => exact ho
  | cons hs _ ih => exact .next hs (ih ho)

end Steps

/-- A run that ends has a length, and is the only one. -/
theorem Halts.exists_steps {step : C → Transition C O} {c : C} {o : O} (h : Halts step c o) :
    ∃ n c', Steps step n c c' ∧ step c' = .halt o := by
  induction h with
  | halt h => exact ⟨0, _, .refl _, h⟩
  | next hs _ ih =>
    obtain ⟨n, c', hm, ho⟩ := ih
    exact ⟨n + 1, c', .cons hs hm, ho⟩

theorem Steps.rest {step : C → Transition C O} {n k : Nat} {c c' e : C} {o : O}
    (h : Steps step n c c') (he : Steps step k c e) (ho : step e = .halt o) :
    ∃ j, k = n + j ∧ Steps step j c' e := by
  induction h generalizing k with
  | refl _ => exact ⟨k, (Nat.zero_add k).symm, he⟩
  | cons hs _ ih =>
    cases he with
    | refl _ =>
      rw [hs] at ho
      cases ho
    | cons hs' he =>
      rw [hs] at hs'
      cases hs'
      obtain ⟨j, rfl, hj⟩ := ih he
      exact ⟨j, by omega, hj⟩

/-- Each step of the first machine is matched by the second one. -/
structure Simulates (step : C → Transition C O) (step' : D → Transition D O) (R : C → D → Prop)
    (rank : C → Nat) : Prop where
  next : ∀ c d c', R c d → step c = .next c' →
    ∃ n d', Steps step' n d d' ∧ R c' d' ∧ (0 < n ∨ rank c' < rank c)
  halt : ∀ c d o, R c d → step c = .halt o → Halts step' d o
  stuck : ∀ c d, R c d → step c = .stuck → ∀ o, ¬ Halts step' d o

namespace Simulates

variable {step : C → Transition C O} {step' : D → Transition D O} {R : C → D → Prop}
  {rank : C → Nat}

theorem halts (h : Simulates step step' R rank) {c : C} {d : D} {o : O} (hR : R c d)
    (hc : Halts step c o) : Halts step' d o := by
  induction hc generalizing d with
  | halt ho => exact h.halt _ d _ hR ho
  | next hs _ ih =>
    obtain ⟨n, d', hm, hR', -⟩ := h.next _ d _ hR hs
    exact hm.halts (ih hR')

theorem steps (h : Simulates step step' R rank) {n : Nat} {c c' : C} {d : D} (hR : R c d)
    (hc : Steps step n c c') : ∃ d', R c' d' := by
  induction hc generalizing d with
  | refl c => exact ⟨d, hR⟩
  | cons hs _ ih =>
    obtain ⟨_, d', -, hR', -⟩ := h.next _ d _ hR hs
    exact ih hR'

/-- The steps left to the second machine fall, or the rank does. -/
theorem halts_of_steps (h : Simulates step step' R rank) {k : Nat} {c : C} {d e : D} {o : O}
    (hR : R c d) (hd : Steps step' k d e) (he : step' e = .halt o) : Halts step c o := by
  induction k using Nat.strongRecOn generalizing c d with
  | ind k ihk =>
    induction hr : rank c using Nat.strongRecOn generalizing c d with
    | ind x ihr =>
      cases hs : step c with
      | stuck => exact absurd (hd.halts (.halt he)) (h.stuck c d hR hs o)
      | halt o' =>
        obtain ⟨n, e', hm, ho'⟩ := (h.halt c d o' hR hs).exists_steps
        obtain ⟨j, -, hj⟩ := hm.rest hd he
        cases hj with
        | refl _ =>
          rw [he] at ho'
          cases ho'
          exact .halt hs
        | cons hs' _ =>
          rw [ho'] at hs'
          cases hs'
      | next c' =>
        obtain ⟨n, d', hm, hR', hrank⟩ := h.next c d c' hR hs
        obtain ⟨j, rfl, hj⟩ := hm.rest hd he
        refine .next hs ?_
        rcases Nat.eq_zero_or_pos n with rfl | hn
        · rw [Nat.zero_add] at ihr
          exact ihr (rank c') (by omega) hR' hj rfl
        · exact ihk j (by omega) hR' hj

/-- Related configurations end with the same results. -/
theorem halts_iff (h : Simulates step step' R rank) {c : C} {d : D} {o : O} (hR : R c d) :
    Halts step c o ↔ Halts step' d o := by
  refine ⟨h.halts hR, ?_⟩
  intro hd
  obtain ⟨k, e, hm, he⟩ := hd.exists_steps
  exact h.halts_of_steps hR hm he

end Simulates

end SpuCompiler
