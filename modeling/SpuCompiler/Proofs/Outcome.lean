import Mathlib.Tactic

/-! Computations that may fail: what a sequence of them gives, where it fails, how two of them agree,
and what they ensure. -/

namespace SpuCompiler

variable {ε α β γ δ : Type} {x : Except ε α} {y : Except ε β}

section Sequences

variable {a : α} {b c : β} {e : ε} {as : List α}

theorem bind_eq_ok {f : α → Except ε β} : (x >>= f) = .ok b ↔ ∃ a, x = .ok a ∧ f a = .ok b := by
  cases x with
  | error e => simp [bind, Except.bind]
  | ok a => simp [bind, Except.bind]

theorem bind_eq_error {f : α → Except ε β} :
    (x >>= f) = .error e ↔ x = .error e ∨ ∃ a, x = .ok a ∧ f a = .error e := by
  cases x with
  | error e' => simp [bind, Except.bind]
  | ok a => simp [bind, Except.bind]

theorem ite_eq_ok {p : Prop} [Decidable p] {a' : α} :
    (if p then pure a else .error e : Except ε α) = .ok a' ↔ p ∧ a = a' := by
  split <;> simp_all [pure, Except.pure]

theorem mapError_eq_ok {f : ε → δ} : x.mapError f = .ok a ↔ x = .ok a := by
  cases x <;> simp [Except.mapError]

theorem map_eq_ok {f : α → β} : x.map f = .ok b ↔ ∃ a, x = .ok a ∧ f a = b := by
  cases x <;> simp [Except.map]

theorem toOption_eq_some : x.toOption = some a ↔ x = .ok a := by
  cases x <;> simp [Except.toOption]

theorem toOption_eq_none : x.toOption = none ↔ ∃ e, x = .error e := by
  cases x <;> simp [Except.toOption]

theorem exists_of_isOk (h : x.isOk = true) : ∃ a, x = .ok a := by
  cases x with
  | error e => cases h
  | ok a => exact ⟨a, rfl⟩

theorem exists_of_not_isOk (h : x.isOk = false) : ∃ e, x = .error e := by
  cases x with
  | error e => exact ⟨e, rfl⟩
  | ok a => cases h

variable {f : β → α → Except ε β}

theorem foldlM_cons_eq_ok :
    (a :: as).foldlM f b = .ok c ↔ ∃ d, f b a = .ok d ∧ as.foldlM f d = .ok c := by
  rw [List.foldlM_cons, bind_eq_ok]

theorem foldlM_append_eq_ok {as' : List α} :
    (as ++ as').foldlM f b = .ok c ↔ ∃ d, as.foldlM f b = .ok d ∧ as'.foldlM f d = .ok c := by
  rw [List.foldlM_append, bind_eq_ok]

/-- What every step keeps, the sequence keeps. -/
theorem foldlM_invariant {P : β → Prop}
    (hstep : ∀ b c, ∀ a ∈ as, P b → f b a = .ok c → P c) (hb : P b)
    (h : as.foldlM f b = .ok c) : P c := by
  induction as generalizing b with
  | nil =>
    cases h
    exact hb
  | cons a as ih =>
    obtain ⟨d, hd, h⟩ := foldlM_cons_eq_ok.mp h
    have hrest : ∀ b c, ∀ a ∈ as, P b → f b a = .ok c → P c :=
      fun b c a ha => hstep b c a (List.mem_cons_of_mem _ ha)
    exact ih hrest (hstep b d a List.mem_cons_self hb hd) h

/-- Where a sequence of steps fails, a step after some that succeed fails. -/
theorem exists_of_foldlM_error (h : as.foldlM f b = .error e) :
    ∃ pre a post d, as = pre ++ a :: post ∧ pre.foldlM f b = .ok d ∧ f d a = .error e := by
  induction as generalizing b with
  | nil => simp [List.foldlM_nil, pure, Except.pure] at h
  | cons a as ih =>
    rw [List.foldlM_cons, bind_eq_error] at h
    rcases h with h | ⟨d, hd, h⟩
    · exact ⟨[], a, as, b, rfl, rfl, h⟩
    · obtain ⟨pre, a', post, d', rfl, hpre, he⟩ := ih h
      exact ⟨a :: pre, a', post, d', rfl, foldlM_cons_eq_ok.mpr ⟨d, hd, hpre⟩, he⟩

end Sequences

/-- Both computations fail, or the second has the result of the first under a function. -/
inductive Agree (f : α → β) : Except ε α → Except ε β → Prop
  | ok (a : α) : Agree f (.ok a) (.ok (f a))
  | error (e e' : ε) : Agree f (.error e) (.error e')

namespace Agree

variable {f : α → β} {g : γ → δ}

theorem bind {k : α → Except ε γ} {k' : β → Except ε δ} (h : Agree f x y)
    (hk : ∀ a, Agree g (k a) (k' (f a))) : Agree g (x >>= k) (y >>= k') := by
  cases h with
  | ok a => exact hk a
  | error e e' => exact .error e e'

/-- The continuation takes a pair apart. -/
theorem bindPair {α' β' : Type} {f' : α' → β'} {x : Except ε (α × α')} {y : Except ε (β × β')}
    {k : α × α' → Except ε γ} {k' : β × β' → Except ε δ} (h : Agree (Prod.map f f') x y)
    (hk : ∀ a a', Agree g (k (a, a')) (k' (f a, f' a'))) : Agree g (x >>= k) (y >>= k') :=
  h.bind fun (a, a') => hk a a'

theorem self (x : Except ε α) : Agree id x x := by
  cases x with
  | ok a => exact .ok a
  | error e => exact .error e e

theorem foldlM {σ τ ρ ρ' : Type} {R : ρ → ρ' → Prop} {f : σ → τ} {step : σ → ρ → Except ε σ}
    {step' : τ → ρ' → Except ε τ} (hstep : ∀ s r r', R r r' → Agree f (step s r) (step' (f s) r'))
    {rs : List ρ} {rs' : List ρ'} (h : List.Forall₂ R rs rs') (s : σ) :
    Agree f (rs.foldlM step s) (rs'.foldlM step' (f s)) := by
  induction h generalizing s with
  | nil => exact .ok s
  | cons hr _ ih =>
    rw [List.foldlM_cons, List.foldlM_cons]
    exact (hstep s _ _ hr).bind ih

theorem eq_ok {a : α} (h : Agree f x y) (hx : x = .ok a) : y = .ok (f a) := by
  subst hx
  cases h
  rfl

theorem exists_eq_ok {b : β} (h : Agree f x y) (hy : y = .ok b) : ∃ a, x = .ok a ∧ f a = b := by
  subst hy
  cases h
  exact ⟨_, rfl, rfl⟩

theorem toOption_eq (h : Agree f x y) : y.toOption = x.toOption.map f := by
  cases h <;> rfl

end Agree

/-- Both computations fail, or both succeed with results in relation. -/
inductive Both (R : α → β → Prop) : Except ε α → Except ε β → Prop
  | ok {a : α} {b : β} (h : R a b) : Both R (.ok a) (.ok b)
  | error (e e' : ε) : Both R (.error e) (.error e')

namespace Both

variable {R : α → β → Prop} {S : γ → δ → Prop}

theorem bind {k : α → Except ε γ} {k' : β → Except ε δ} (h : Both R x y)
    (hk : ∀ a b, R a b → Both S (k a) (k' b)) : Both S (x >>= k) (y >>= k') := by
  cases h with
  | ok h => exact hk _ _ h
  | error e e' => exact .error e e'

theorem of_agree {f : γ → α} {z : Except ε γ} (hf : Agree f z x) (h : Both R x y) :
    Both (fun c b => R (f c) b) z y := by
  cases hf with
  | ok a =>
    cases h with
    | ok h => exact .ok h
  | error e e' =>
    cases h with
    | error => exact .error _ _

theorem exists_ok_iff (h : Both R x y) : (∃ a, x = .ok a) ↔ ∃ b, y = .ok b := by
  cases h <;> simp

end Both

/-- The computation does not fail with an error of that kind, and its result has the property. -/
structure Ensures (Bad : ε → Prop) (x : Except ε α) (Q : α → Prop) : Prop where
  result : ∀ a, x = .ok a → Q a
  failure : ∀ e, x = .error e → ¬ Bad e

namespace Ensures

variable {Bad : ε → Prop} {Q R : α → Prop}

theorem ok {a : α} (h : Q a) : Ensures Bad (.ok a) Q := by
  refine ⟨?_, nofun⟩
  rintro _ ⟨⟩
  exact h

theorem error {e : ε} (h : ¬ Bad e) : Ensures Bad (.error e) Q := by
  refine ⟨nofun, ?_⟩
  rintro _ ⟨⟩
  exact h

theorem bind {f : α → Except ε β} {S : β → Prop} (hx : Ensures Bad x Q)
    (hf : ∀ a, x = .ok a → Q a → Ensures Bad (f a) S) : Ensures Bad (x >>= f) S := by
  cases x with
  | ok a => exact hf a rfl (hx.result a rfl)
  | error e => exact .error (hx.failure e rfl)

theorem imp (h : Ensures Bad x Q) (hQ : ∀ a, x = .ok a → Q a → R a) : Ensures Bad x R :=
  ⟨fun a ha => hQ a ha (h.result a ha), h.failure⟩

end Ensures

end SpuCompiler
