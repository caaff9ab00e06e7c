import Mathlib.Tactic

/-!
# Deterministic machines run under a step limit

A machine is a function `step : σ → Next σ ρ`: a state either goes on in another state or stops
with a result. `iterate step limit n s` runs at most `n` steps from `s` and answers `limit t`
when the limit is reached in `t`. `Steps step n s t` says that exactly `n` steps lead from `s`
to `t`.

* `iterate_of_steps` runs a prefix of known length, `Steps.trans` composes prefixes.
* `Steps.invariant` and `iterate_post` are the two invariant rules: what one step preserves holds
  in every state reached, and what every stopping step establishes holds of the answer.
* `Steps.invariant_while` is the same rule for a run whose steps all meet a side condition.
* `iterate_eq_of_sim` is the simulation rule: machines that go on and stop together answer the same.
* `iterate_stops` is the termination rule: a decreasing measure below the limit makes the limit
  irrelevant.
-/

namespace SoftPlc.Lib

/-- What one step of a machine does: go on in a new state, or stop with a result. -/
inductive Next (σ ρ : Type*) where
  /-- Go on in this state. -/
  | go (s : σ)
  /-- Stop with this result. -/
  | stop (r : ρ)

variable {σ ρ : Type*} (step : σ → Next σ ρ)

/-- Run at most `n` steps; `limit` is the answer in the state where the limit is reached. -/
def iterate (limit : σ → ρ) : ℕ → σ → ρ
  | 0, s => limit s
  | n + 1, s =>
      match step s with
      | .go s' => iterate limit n s'
      | .stop r => r

/-- `Steps step n s t`: exactly `n` steps lead from `s` to `t`. -/
inductive Steps : ℕ → σ → σ → Prop
  /-- No step. -/
  | zero (s : σ) : Steps 0 s s
  /-- A first step, then the rest. -/
  | succ {n : ℕ} {s s' t : σ} (h : step s = .go s') (rest : Steps n s' t) : Steps (n + 1) s t

variable {step} {limit : σ → ρ}

/-- A stopping step answers, whatever limit is left. -/
theorem iterate_stop {s : σ} {r : ρ} (h : step s = .stop r) (n : ℕ) :
    iterate step limit (n + 1) s = r := by
  simp only [iterate, h]

/-- One step that goes on. -/
theorem iterate_go {s s' : σ} (h : step s = .go s') (n : ℕ) :
    iterate step limit (n + 1) s = iterate step limit n s' := by
  simp only [iterate, h]

/-- A single step as a run of length one. -/
theorem Steps.one {s t : σ} (h : step s = .go t) : Steps step 1 s t :=
  .succ h (.zero t)

/-- Two runs compose. -/
theorem Steps.trans {m n : ℕ} {s t u : σ} (h₁ : Steps step m s t) (h₂ : Steps step n t u) :
    Steps step (m + n) s u := by
  induction h₁ with
  | zero s => rwa [Nat.zero_add]
  | succ h _ ih =>
      rw [Nat.succ_add_eq_add_succ, Nat.add_succ]
      exact .succ h (ih h₂)

/-- A run extended by one step at its end. -/
theorem Steps.snoc {n : ℕ} {s t u : σ} (h₁ : Steps step n s t) (h₂ : step t = .go u) :
    Steps step (n + 1) s u :=
  h₁.trans (.one h₂)

/-- Running past a known prefix. -/
theorem iterate_of_steps {m : ℕ} {s t : σ} (h : Steps step m s t) (n : ℕ) :
    iterate step limit (m + n) s = iterate step limit n t := by
  induction h with
  | zero s => rw [Nat.zero_add]
  | succ h _ ih => rw [Nat.succ_add, iterate_go h, ih]

/-- A run that reaches a stopping state answers that state's result under every limit that is
long enough. -/
theorem iterate_of_steps_stop {m n : ℕ} {s t : σ} {r : ρ} (h : Steps step m s t)
    (hstop : step t = .stop r) (hn : m < n) : iterate step limit n s = r := by
  obtain ⟨k, rfl⟩ := Nat.exists_eq_add_of_lt hn
  rw [Nat.add_assoc, iterate_of_steps h, iterate_stop hstop]

/-- The state after `n` steps is unique. -/
theorem Steps.unique {n : ℕ} {s t u : σ} (h₁ : Steps step n s t) (h₂ : Steps step n s u) :
    t = u := by
  induction h₁ with
  | zero s => cases h₂; rfl
  | succ h _ ih =>
      cases h₂ with
      | succ h' rest =>
          rw [h] at h'
          cases h'
          exact ih rest

/-- **The invariant rule over runs.** What every step preserves holds in every state reached. -/
theorem Steps.invariant {Inv : σ → Prop} {n : ℕ} {s t : σ} (h : Steps step n s t)
    (hpres : ∀ s s', Inv s → step s = .go s' → Inv s') (hs : Inv s) : Inv t := by
  induction h with
  | zero _ => exact hs
  | succ h _ ih => exact ih (hpres _ _ hs h)

/-- **The conditional invariant rule.** If every step taken from a state that meets `Cond`
preserves `Inv`, then `Inv` holds after `n` steps as soon as the states before step `n` meet
`Cond`. -/
theorem Steps.invariant_while {Inv Cond : σ → Prop} {n : ℕ} {s t : σ} (h : Steps step n s t)
    (hpres : ∀ s s', Inv s → Cond s → step s = .go s' → Inv s') (hs : Inv s)
    (hcond : ∀ k u, k < n → Steps step k s u → Cond u) : Inv t := by
  induction h with
  | zero _ => exact hs
  | succ h _ ih =>
      refine ih (hpres _ _ hs (hcond 0 _ (Nat.succ_pos _) (.zero _)) h) ?_
      intro k u hk hu
      exact hcond (k + 1) u (Nat.succ_lt_succ hk) (.succ h hu)

/-- **The invariant rule over answers.** A property of the answer follows from an invariant of
the states, when every stopping step and the limit itself establish it. -/
theorem iterate_post {Inv : σ → Prop} {Q : ρ → Prop}
    (hpres : ∀ s s', Inv s → step s = .go s' → Inv s')
    (hstop : ∀ s r, Inv s → step s = .stop r → Q r) (hlimit : ∀ s, Inv s → Q (limit s)) :
    ∀ n s, Inv s → Q (iterate step limit n s)
  | 0, s, hs => hlimit s hs
  | n + 1, s, hs => by
      rcases h : step s with s' | r
      · rw [iterate_go h]
        exact iterate_post hpres hstop hlimit n s' (hpres s s' hs h)
      · rw [iterate_stop h]
        exact hstop s r hs h

/-- **The simulation rule.** Machines whose related states go on in related states, or stop with the
same result, answer the same from related states. -/
theorem iterate_eq_of_sim {τ : Type*} {step' : τ → Next τ ρ} {limit' : τ → ρ} {R : σ → τ → Prop}
    (hgo : ∀ s t t', R s t → step' t = .go t' → ∃ s', step s = .go s' ∧ R s' t')
    (hstop : ∀ s t r, R s t → step' t = .stop r → step s = .stop r)
    (hlimit : ∀ s t, R s t → limit s = limit' t) :
    ∀ n s t, R s t → iterate step limit n s = iterate step' limit' n t
  | 0, s, t, h => hlimit s t h
  | n + 1, s, t, h => by
      rcases ht : step' t with t' | r
      · obtain ⟨s', hs, h'⟩ := hgo s t t' h ht
        rw [iterate_go hs, iterate_go ht]
        exact iterate_eq_of_sim hgo hstop hlimit n s' t' h'
      · rw [iterate_stop (hstop s t r h ht), iterate_stop ht]

/-- The answer of a run is the limit's, or comes from a state that the run reaches. -/
theorem iterate_cases (n : ℕ) (s : σ) :
    (∃ t, Steps step n s t ∧ iterate step limit n s = limit t) ∨
      ∃ k t r, k < n ∧ Steps step k s t ∧ step t = .stop r ∧ iterate step limit n s = r := by
  induction n generalizing s with
  | zero => exact .inl ⟨s, .zero s, rfl⟩
  | succ n ih =>
      rcases h : step s with s' | r
      · rw [iterate_go h]
        rcases ih s' with ⟨t, ht, he⟩ | ⟨k, t, r, hk, ht, hr, he⟩
        · exact .inl ⟨t, .succ h ht, he⟩
        · exact .inr ⟨k + 1, t, r, Nat.succ_lt_succ hk, .succ h ht, hr, he⟩
      · exact .inr ⟨0, s, r, Nat.succ_pos n, .zero s, h, iterate_stop h n⟩

/-- **The termination rule.** When every step that goes on lowers a measure, a run whose limit
exceeds the measure stops by itself: its answer does not come from the limit. -/
theorem iterate_stops (μ : σ → ℕ) (hdec : ∀ s s', step s = .go s' → μ s' < μ s) :
    ∀ n s, μ s < n →
      ∃ k t r, k < n ∧ Steps step k s t ∧ step t = .stop r ∧ iterate step limit n s = r
  | 0, _, h => absurd h (Nat.not_lt_zero _)
  | n + 1, s, h => by
      rcases hs : step s with s' | r
      · have hlt := hdec s s' hs
        obtain ⟨k, t, r, hk, ht, hr, he⟩ := iterate_stops μ hdec n s' (by omega)
        exact ⟨k + 1, t, r, Nat.succ_lt_succ hk, .succ hs ht, hr, by rw [iterate_go hs, he]⟩
      · exact ⟨0, s, r, Nat.succ_pos n, .zero s, hs, iterate_stop hs n⟩

end SoftPlc.Lib
