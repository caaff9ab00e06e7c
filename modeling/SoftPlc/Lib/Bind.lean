import Mathlib.Tactic

/-!
# Inversion of monadic programs

Rules that take a successful or failing `do` block apart, for `Except` and for `EStateM`. With them
a proof about a program peels one action after the other and never unfolds the monad.
-/

namespace SoftPlc.Lib

universe u

section Except

variable {ε α β : Type u}

/-- A sequence succeeds exactly when both parts do. -/
theorem except_bind_ok {x : Except ε α} {f : α → Except ε β} {b : β} :
    (x >>= f) = .ok b ↔ ∃ a, x = .ok a ∧ f a = .ok b := by
  cases x with
  | error e =>
      constructor
      · intro h
        cases h
      · rintro ⟨a, h, -⟩
        cases h
  | ok a =>
      refine ⟨fun h => ⟨a, rfl, h⟩, ?_⟩
      rintro ⟨a', h, h'⟩
      cases h
      exact h'

/-- Programs that go on alike with what a program gives. -/
theorem except_bind_congr {x : Except ε α} {f g : α → Except ε β}
    (h : ∀ a, x = .ok a → f a = g a) : x >>= f = x >>= g := by
  rcases x with e | a
  · rfl
  · exact h a rfl

/-- A loop whose rounds all succeed. -/
theorem except_mapM_eq {f : α → Except ε β} {g : α → β} {xs : List α}
    (h : ∀ a ∈ xs, f a = .ok (g a)) : xs.mapM f = .ok (xs.map g) := by
  induction xs with
  | nil => rfl
  | cons a xs ih =>
      rw [List.mapM_cons, h a List.mem_cons_self, ih fun b hb => h b (List.mem_cons_of_mem _ hb)]
      rfl

/-- The result of a program that succeeds. -/
theorem except_of_toOption {x : Except ε α} {a : α} (h : x.toOption = some a) : x = .ok a := by
  rcases x with e | b
  · cases h
  · exact congrArg Except.ok (Option.some.inj h)

/-- A result that was evaluated. -/
theorem except_of_decide {x : Except ε α} {P : α → Prop} [DecidablePred P]
    (h : (x.toOption.map fun a => decide (P a)) = some true) : ∃ a, x = .ok a ∧ P a := by
  rcases x with e | a
  · cases h
  · exact ⟨a, rfl, of_decide_eq_true (Option.some.inj h)⟩

/-- An optional value that was evaluated. -/
theorem option_of_decide {x : Option α} {P : α → Prop} [DecidablePred P]
    (h : (x.map fun a => decide (P a)) = some true) : ∃ a, x = some a ∧ P a := by
  obtain ⟨a, rfl, ha⟩ := Option.map_eq_some_iff.mp h
  exact ⟨a, rfl, of_decide_eq_true ha⟩

/-- What every round of a loop keeps. -/
theorem except_foldlM_invariant {f : β → α → Except ε β} {xs : List α} {b b' : β}
    (h : xs.foldlM f b = .ok b') (P : β → Prop)
    (step : ∀ b x b', x ∈ xs → P b → f b x = .ok b' → P b') (start : P b) : P b' := by
  induction xs generalizing b with
  | nil =>
      cases h
      exact start
  | cons x xs ih =>
      rw [List.foldlM_cons, except_bind_ok] at h
      obtain ⟨b₁, hx, h⟩ := h
      refine ih h (fun b y b' hy => step b y b' (List.mem_cons_of_mem _ hy)) ?_
      exact step b x b₁ List.mem_cons_self start hx

/-- What the rounds of a loop say about the elements so far. -/
theorem except_foldlM_append {γ : Type*} {f : β → α → Except ε β} {g : α → List γ} {xs : List α}
    {b b' : β} (h : xs.foldlM f b = .ok b') (P : List γ → β → Prop)
    (step : ∀ done b x b', P done b → f b x = .ok b' → P (done ++ g x) b') (done : List γ)
    (start : P done b) : P (done ++ xs.flatMap g) b' := by
  induction xs generalizing b done with
  | nil =>
      cases h
      simpa using start
  | cons x xs ih =>
      rw [List.foldlM_cons, except_bind_ok] at h
      obtain ⟨b₁, hx, h⟩ := h
      have hrest := ih h (done ++ g x) (step done b x b₁ start hx)
      simpa using hrest

/-- A loop over a list that only checks succeeds when every check does. -/
theorem except_forM_ok_iff {f : α → Except ε PUnit.{u + 1}} {xs : List α} :
    xs.forM f = .ok ⟨⟩ ↔ ∀ x ∈ xs, f x = .ok ⟨⟩ := by
  induction xs with
  | nil => simp only [List.not_mem_nil, false_implies, implies_true, iff_true]; rfl
  | cons y ys ih =>
      rw [List.forM_eq_forM, List.forM_cons, except_bind_ok, List.forall_mem_cons, ← ih]
      constructor
      · rintro ⟨⟨⟩, hy, hys⟩
        exact ⟨hy, hys⟩
      · rintro ⟨hy, hys⟩
        exact ⟨⟨⟩, hy, hys⟩

/-- A loop over a list that only checks succeeds on every element. -/
theorem except_forM_ok {f : α → Except ε PUnit.{u + 1}} {xs : List α} (h : xs.forM f = .ok ⟨⟩) :
    ∀ x ∈ xs, f x = .ok ⟨⟩ :=
  except_forM_ok_iff.mp h

end Except

section EStateM

variable {ε σ α β : Type u}

/-- A sequence whose first part succeeds continues with its value and state. -/
theorem estate_bind_of_ok {x : EStateM ε σ α} {f : α → EStateM ε σ β} {s t : σ} {a : α}
    (h : x s = .ok a t) : (x >>= f) s = f a t := by
  simp only [bind, EStateM.bind, h]

/-- A sequence whose first part fails, fails. -/
theorem estate_bind_of_error {x : EStateM ε σ α} {f : α → EStateM ε σ β} {s t : σ} {e : ε}
    (h : x s = .error e t) : (x >>= f) s = .error e t := by
  simp only [bind, EStateM.bind, h]

/-- A sequence succeeds exactly when both parts do. -/
theorem estate_bind_ok {x : EStateM ε σ α} {f : α → EStateM ε σ β} {s u : σ} {b : β} :
    (x >>= f) s = .ok b u ↔ ∃ a t, x s = .ok a t ∧ f a t = .ok b u := by
  rcases h : x s with ⟨a, t⟩ | ⟨e, t⟩
  · rw [estate_bind_of_ok h]
    refine ⟨fun h' => ⟨a, t, rfl, h'⟩, ?_⟩
    rintro ⟨a', t', h', h''⟩
    cases h'
    exact h''
  · rw [estate_bind_of_error h]
    constructor
    · intro h'
      cases h'
    · rintro ⟨a', t', h', -⟩
      cases h'

/-- A sequence fails exactly when its first part fails, or its second part does. -/
theorem estate_bind_error {x : EStateM ε σ α} {f : α → EStateM ε σ β} {s u : σ} {e : ε} :
    (x >>= f) s = .error e u ↔
      x s = .error e u ∨ ∃ a t, x s = .ok a t ∧ f a t = .error e u := by
  rcases h : x s with ⟨a, t⟩ | ⟨e', t⟩
  · rw [estate_bind_of_ok h]
    refine ⟨fun h' => .inr ⟨a, t, rfl, h'⟩, ?_⟩
    rintro (h' | ⟨a', t', h', h''⟩)
    · cases h'
    · cases h'
      exact h''
  · rw [estate_bind_of_error h]
    constructor
    · intro h'
      cases h'
      exact .inl rfl
    · rintro (h' | ⟨a', t', h', -⟩)
      · cases h'
        rfl
      · cases h'

/-- `pure` succeeds and keeps the state. -/
@[simp] theorem estate_pure (a : α) (s : σ) : (pure a : EStateM ε σ α) s = .ok a s := rfl

/-- `get` returns the state and keeps it. -/
@[simp] theorem estate_get (s : σ) : (get : EStateM ε σ σ) s = .ok s s := rfl

/-- `set` replaces the state. -/
@[simp] theorem estate_set (s t : σ) : (set t : EStateM ε σ PUnit) s = .ok ⟨⟩ t := rfl

end EStateM

/-- What is found in an association list is in it. -/
theorem mem_of_lookup {α β : Type u} [BEq α] [LawfulBEq α] {xs : List (α × β)} {a : α} {b : β}
    (h : xs.lookup a = some b) : (a, b) ∈ xs := by
  obtain ⟨pre, post, rfl, -⟩ := List.lookup_eq_some_iff.mp h
  simp

/-- What is on the right of a relation between lists has a partner on the left. -/
theorem exists_of_forall₂_right {α β : Type*} {P : α → β → Prop} {as : List α} {bs : List β}
    (h : List.Forall₂ P as bs) {b : β} (hb : b ∈ bs) : ∃ a ∈ as, P a b := by
  induction h with
  | nil => cases hb
  | cons hhead _ ih =>
      rcases List.mem_cons.mp hb with rfl | hb
      · exact ⟨_, List.mem_cons_self, hhead⟩
      · obtain ⟨a, ha, hP⟩ := ih hb
        exact ⟨a, List.mem_cons_of_mem _ ha, hP⟩

end SoftPlc.Lib
