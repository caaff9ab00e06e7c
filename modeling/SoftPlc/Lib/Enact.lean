import SoftPlc.Lib.Machine

/-!
# Machines that enact a computation

`Lands step I Q E s`: from `s` the machine reaches a state with `Q`, or stops with a result in `E`,
and every state that it takes a step from has `I`. `Enacts step I ends slack m post s` compares the
machine with the outcome `m` of a computation that has a store and can end early: the machine reaches
a state that `post` relates to the value and the store, or it stops with a result that `ends` relates
to the early end, or with one that `slack` excuses.

* `Lands.bind` composes runs; `Enacts.bind` composes them along `>>=`, so that a proof about a
  compiled term follows the term.
* `Enacts.go`, `Enacts.exit` and `Enacts.excuse` take one step of the machine.
* `Enacts.answers` turns a run that is known to its end into an answer of `iterate`. An invariant of
  the steps from states with `I` may show there that nothing needs to be excused.
-/

namespace SoftPlc.Lib

universe u

variable {σ ρ : Type*}

/-! ## Landing -/

/-- From `s` the machine reaches a state with `Q`, or stops with a result in `E`, and every state that
it takes a step from has `I`. -/
inductive Lands (step : σ → Next σ ρ) (I Q : σ → Prop) (E : ρ → Prop) : σ → Prop
  /-- Nothing to do. -/
  | now {s : σ} (h : Q s) : Lands step I Q E s
  /-- A step that stops. -/
  | stop {s : σ} {r : ρ} (hI : I s) (h : step s = .stop r) (hr : E r) : Lands step I Q E s
  /-- A step that goes on. -/
  | go {s s' : σ} (hI : I s) (h : step s = .go s') (hs : Lands step I Q E s') : Lands step I Q E s

variable {step : σ → Next σ ρ} {I Q Q' : σ → Prop} {E E' : ρ → Prop} {s s' : σ}

/-- Runs compose. -/
theorem Lands.bind (h : Lands step I Q E s) (hQ : ∀ t, Q t → Lands step I Q' E' t)
    (hE : ∀ r, E r → E' r) : Lands step I Q' E' s := by
  induction h with
  | now h => exact hQ _ h
  | stop hI h hr => exact .stop hI h (hE _ hr)
  | go hI h _ ih => exact .go hI h ih

/-- What the steps from states with `I` preserve holds where the machine lands. -/
theorem Lands.run {J : σ → Prop} (h : Lands step I Q E s)
    (hgo : ∀ s s', J s → I s → step s = .go s' → J s') (hs : J s) :
    ∃ n t, Steps step n s t ∧ J t ∧ (Q t ∨ I t ∧ ∃ r, step t = .stop r ∧ E r) := by
  induction h with
  | now h => exact ⟨0, _, .zero _, hs, .inl h⟩
  | stop hI h hr => exact ⟨0, _, .zero _, hs, .inr ⟨hI, _, h, hr⟩⟩
  | go hI h _ ih =>
      obtain ⟨n, t, hsteps, hend⟩ := ih (hgo _ _ hs hI h)
      exact ⟨n + 1, t, .succ h hsteps, hend⟩

/-! ## Enacting -/

variable {ε τ α β : Type u}

/-- The machine does what the outcome of a computation says. -/
def Enacts (step : σ → Next σ ρ) (I : σ → Prop) (ends : ε → τ → ρ → Prop) (slack : ρ → Prop)
    (m : EStateM.Result ε τ α) (post : α → τ → σ → Prop) : σ → Prop :=
  Lands step I (fun t => ∃ a x, m = .ok a x ∧ post a x t)
    fun r => slack r ∨ ∃ e x, m = .error e x ∧ ends e x r

variable {ends : ε → τ → ρ → Prop} {slack : ρ → Prop} {m : EStateM.Result ε τ α}
  {post post' : α → τ → σ → Prop}

/-- The computation is done, and the machine is where it should be. -/
theorem Enacts.ok {a : α} {x : τ} (hm : m = .ok a x) (h : post a x s) :
    Enacts step I ends slack m post s :=
  .now ⟨a, x, hm, h⟩

/-- The computation ends early, and the machine stops. -/
theorem Enacts.exit {e : ε} {x : τ} {r : ρ} (hI : I s) (hm : m = .error e x)
    (hstep : step s = .stop r) (h : ends e x r) : Enacts step I ends slack m post s :=
  .stop hI hstep (.inr ⟨e, x, hm, h⟩)

/-- The machine stops, and is excused. -/
theorem Enacts.excuse {r : ρ} (hI : I s) (hstep : step s = .stop r) (h : slack r) :
    Enacts step I ends slack m post s :=
  .stop hI hstep (.inl h)

/-- A step that goes on. -/
theorem Enacts.go (hI : I s) (hstep : step s = .go s') (h : Enacts step I ends slack m post s') :
    Enacts step I ends slack m post s :=
  Lands.go hI hstep h

/-- The machine goes on after it enacted a computation. -/
theorem Enacts.andThen (h : Enacts step I ends slack m post s)
    (hk : ∀ a x t, m = .ok a x → post a x t → Enacts step I ends slack m post' t) :
    Enacts step I ends slack m post' s := by
  refine Lands.bind h ?_ fun r hr => hr
  rintro t ⟨a, x, hm, ht⟩
  exact hk a x t hm ht

/-- A weaker end. -/
theorem Enacts.mono (h : Enacts step I ends slack m post s)
    (hpost : ∀ a x t, m = .ok a x → post a x t → post' a x t) :
    Enacts step I ends slack m post' s :=
  h.andThen fun a x t hm ht => .ok hm (hpost a x t hm ht)

/-- **The rule of composition.** A machine that enacts a computation and then, from every end of
it, the rest, enacts both. -/
theorem Enacts.bind {c : EStateM ε τ α} {k : α → EStateM ε τ β} {x : τ}
    {after : β → τ → σ → Prop} (h : Enacts step I ends slack (c x) post s)
    (hk : ∀ a y t, c x = .ok a y → post a y t → Enacts step I ends slack (k a y) after t) :
    Enacts step I ends slack ((c >>= k) x) after s := by
  have hbind : (c >>= k) x = EStateM.bind c k x := rfl
  refine Lands.bind h ?_ ?_
  · rintro t ⟨a, y, hy, ht⟩
    have hvalue : (c >>= k) x = k a y := by rw [hbind, EStateM.bind, hy]
    rw [hvalue]
    exact hk a y t hy ht
  · rintro r (hr | ⟨e, y, he, hx⟩)
    · exact .inl hr
    · have herror : (c >>= k) x = .error e y := by rw [hbind, EStateM.bind, he]
      exact .inr ⟨e, y, herror, hx⟩

/-- **The rule of answers.** If the machine enacts a computation, an invariant of its steps excludes
what would have to be excused, and from every state that `post` allows the next step stops with a
result in `P`, then under every limit that is long enough the answer belongs to the outcome. -/
theorem Enacts.answers {J : σ → Prop} {P : α → τ → ρ → Prop}
    (h : Enacts step I ends slack m post s) (hgo : ∀ s s', J s → I s → step s = .go s' → J s')
    (hslack : ∀ s r, J s → I s → step s = .stop r → ¬slack r) (hs : J s)
    (hstop : ∀ a x t, m = .ok a x → post a x t → ∃ r, step t = .stop r ∧ P a x r) :
    ∃ n, ∀ (limit : σ → ρ) k, n < k → (∃ a x, m = .ok a x ∧ P a x (iterate step limit k s)) ∨
      ∃ e x, m = .error e x ∧ ends e x (iterate step limit k s) := by
  obtain ⟨n, t, hsteps, hJ, ⟨a, x, hm, ht⟩ | ⟨hI, r, hr, hE⟩⟩ := Lands.run h hgo hs
  · obtain ⟨r, hr, hP⟩ := hstop a x t hm ht
    refine ⟨n, fun limit k hk => .inl ⟨a, x, hm, ?_⟩⟩
    rwa [iterate_of_steps_stop hsteps hr hk]
  · refine ⟨n, fun limit k hk => .inr ?_⟩
    rw [iterate_of_steps_stop hsteps hr hk]
    exact hE.resolve_left (hslack t r hJ hI hr)

end SoftPlc.Lib
