import SoftPlc.Lib.Total
import SoftPlc.St.Cursor

/-!
# Rules for the position

`Reads` says that a parser ends from a position in the list, with an error or with a value, at a
position in the list. The rules take a parser apart, one for each thing it does with a token: one
that is not `Eof` has another after it, so every token that is taken moves the position forward. A
loop that goes on only after it moved ends by `forward`.
-/

namespace SoftPlc.St.Units

open SoftPlc.Lib

/-- The list ends in its only `Eof`. -/
def EndsInEof (toks : List Lex.Token) : Prop :=
  ∃ front last, toks = front ++ [last] ∧ last.kind = .eof ∧ ∀ t ∈ front, t.kind ≠ .eof

/-- From `i` the parser ends in the list, with an error or with a value as in `post`. -/
def Reads {α : Type} (toks : List Lex.Token) (i : ℕ) (x : Parse α) (post : α → ℕ → Prop) : Prop :=
  Total (fun e j => e ≠ .panic ∧ j < toks.length) (fun a j => j < toks.length ∧ post a j) x i

/-- From `i` the parser ends in the list, and a value moves the position forward. -/
def Advances {α : Type} (toks : List Lex.Token) (i : ℕ) (x : Parse α) : Prop :=
  Reads toks i x fun _ j => i < j

/-- What holds of a position if it holds of those after it, holds of all. -/
theorem forward {n : ℕ} {P : ℕ → Prop} (step : ∀ i, i < n → (∀ j, i < j → j < n → P j) → P i) :
    ∀ i, i < n → P i := by
  intro i hi
  induction h : n - i using Nat.strong_induction_on generalizing i with
  | _ m ih =>
      apply step i hi
      intro j hij hj
      exact ih (n - j) (by omega) j hj rfl

/-! ## Rules -/

section Rules

variable {α β : Type} {toks : List Lex.Token} {i : ℕ} {x : Parse α} {f : α → Parse β}
  {post : β → ℕ → Prop}

theorem EndsInEof.eof_iff (h : EndsInEof toks) {t : Lex.Token} (ht : toks[i]? = some t) :
    t.kind = .eof ↔ i + 1 = toks.length := by
  obtain ⟨front, last, rfl, hlast, hfront⟩ := h
  rw [List.length_append, List.length_singleton]
  obtain ⟨hi, rfl⟩ := List.getElem?_eq_some_iff.mp ht
  rw [List.length_append, List.length_singleton] at hi
  by_cases hin : i < front.length
  · rw [List.getElem_append_left hin]
    constructor
    · intro hkind
      exact absurd hkind (hfront _ (List.getElem_mem hin))
    · intro heq
      omega
  · have heq : i = front.length := by omega
    subst heq
    rw [List.getElem_concat_length rfl]
    simp [hlast]

/-- There is a token after one that is not `Eof`. -/
theorem EndsInEof.more (h : EndsInEof toks) {t : Lex.Token} (ht : toks[i]? = some t)
    (hkind : t.kind ≠ .eof) : i + 1 < toks.length := by
  have hi := (List.getElem?_eq_some_iff.mp ht).1
  have hne := mt (h.eof_iff ht).mpr hkind
  omega

theorem Reads.pure {a : β} (hi : i < toks.length) (h : post a i) :
    Reads toks i (Pure.pure a) post := Total.pure ⟨hi, h⟩

theorem Reads.errAt (hi : i < toks.length) (code : ErrorCode) (message : String)
    (span : Lex.Span) : Reads toks i (errAt code message span) post := by
  apply Total.throw
  exact ⟨by simp, hi⟩

theorem Reads.mono {post' : β → ℕ → Prop} {y : Parse β} (h : Reads toks i y post)
    (himp : ∀ a j, post a j → post' a j) : Reads toks i y post' :=
  Total.mono h fun a j ⟨hj, hpost⟩ => ⟨hj, himp a j hpost⟩

/-- A sequence. -/
theorem Reads.bind {mid : α → ℕ → Prop} (hx : Reads toks i x mid)
    (hf : ∀ a j, mid a j → j < toks.length → Reads toks j (f a) post) :
    Reads toks i (x >>= f) post :=
  Total.bind (Total.mono hx fun a j ⟨hj, hmid⟩ => hf a j hmid hj)

/-- A sequence whose first part moves forward. -/
theorem Advances.bind (hx : Advances toks i x)
    (hf : ∀ a j, i < j → j < toks.length → Reads toks j (f a) post) :
    Reads toks i (x >>= f) post := Reads.bind hx hf

theorem position_bind {f : ℕ → Parse β} (hf : Reads toks i (f i) post) :
    Reads toks i (position >>= f) post := Total.bind (.value rfl hf)

theorem setPosition_bind {f : Unit → Parse β} {j : ℕ} (hf : Reads toks j (f ()) post) :
    Reads toks i (setPosition j >>= f) post := Total.bind (.value rfl hf)

theorem tokenAt_bind {f : Lex.Token → Parse β} {n : ℕ} (hn : n < toks.length)
    (hf : ∀ t, toks[n]? = some t → Reads toks i (f t) post) :
    Reads toks i (tokenAt toks n >>= f) post := by
  have hget : toks[n]? = some toks[n] := List.getElem?_eq_getElem hn
  have htok : tokenAt toks n i = some (.ok toks[n], i) := by
    unfold tokenAt
    rw [hget]
  exact Total.bind (.value htok (hf _ hget))

theorem peek_bind {f : Lex.Token → Parse β} (hi : i < toks.length)
    (hf : ∀ t, toks[i]? = some t → Reads toks i (f t) post) :
    Reads toks i (peek toks >>= f) post := by
  unfold peek
  rw [bind_assoc]
  apply position_bind
  exact tokenAt_bind hi hf

theorem peekIs_bind {f : Bool → Parse β} {kind : Lex.TokenKind} (hi : i < toks.length)
    (hyes : ∀ t, toks[i]? = some t → t.kind = kind → Reads toks i (f true) post)
    (hno : ∀ t, toks[i]? = some t → t.kind ≠ kind → Reads toks i (f false) post) :
    Reads toks i (peekIs toks kind >>= f) post := by
  unfold peekIs
  rw [bind_assoc]
  apply peek_bind hi
  intro t ht
  rw [pure_bind]
  by_cases hk : t.kind = kind
  · rw [beq_iff_eq.mpr hk]
    exact hyes t ht hk
  · rw [beq_false_of_ne hk]
    exact hno t ht hk

theorem bump_bind {f : Lex.Token → Parse β} (hi : i + 1 < toks.length)
    (hf : ∀ t, Reads toks (i + 1) (f t) post) : Reads toks i (bump toks >>= f) post := by
  unfold bump
  rw [bind_assoc]
  apply position_bind
  rw [bind_assoc]
  apply tokenAt_bind (Nat.lt_of_succ_lt hi)
  intro t _
  dsimp only
  rw [if_pos hi, bind_assoc]
  apply setPosition_bind
  rw [pure_bind]
  exact hf t

theorem err_reads (hi : i < toks.length) (code : ErrorCode) (message : String) :
    Reads toks i (err toks code message : Parse β) post := by
  unfold err
  apply peek_bind hi
  intro t _
  exact Reads.errAt hi _ _ _

theorem err_bind {f : α → Parse β} (hi : i < toks.length) (code : ErrorCode) (message : String) :
    Reads toks i (err toks code message >>= f) post :=
  Reads.bind (@err_reads α toks i (fun _ _ => False) hi code message) fun _ _ h => h.elim

theorem orErrAt_bind {f : α → Parse β} (hi : i < toks.length) {message : String} {span : Lex.Span}
    {value : Option α} (hf : ∀ v, Reads toks i (f v) post) :
    Reads toks i (orErrAt message span value >>= f) post := by
  rcases value with _ | v
  · exact Reads.bind (@Reads.errAt α toks i (fun _ _ => False) hi _ _ _) fun _ _ h => h.elim
  · unfold orErrAt
    rw [pure_bind]
    exact hf v

theorem expectKw_bind {f : Lex.Span → Parse β} (h : EndsInEof toks) (hi : i < toks.length)
    {kw : String} (hf : ∀ span, i + 1 < toks.length → Reads toks (i + 1) (f span) post) :
    Reads toks i (expectKw toks kw >>= f) post := by
  unfold expectKw
  rw [bind_assoc]
  apply peek_bind hi
  intro t ht
  by_cases hk : t.kind = .keyword kw
  · have hmore := h.more ht (by rw [hk]; simp)
    rw [if_pos hk, bind_assoc]
    apply bump_bind hmore
    intro _
    rw [pure_bind]
    exact hf t.span hmore
  · rw [if_neg hk]
    exact err_bind hi _ _

/-- Kinds that are told to be equal are. -/
theorem eq_of_kindsEq {a b : Lex.TokenKind} (h : kindsEq a b = true) : a = b := by
  unfold kindsEq at h
  split at h
  · exact congrArg _ (beq_iff_eq.mp h)
  · exact beq_iff_eq.mp h

theorem expect_bind {f : Lex.Token → Parse β} (h : EndsInEof toks) (hi : i < toks.length)
    {kind : Lex.TokenKind} (hkind : kind ≠ .eof)
    (hf : ∀ t, i + 1 < toks.length → Reads toks (i + 1) (f t) post) :
    Reads toks i (expect toks kind >>= f) post := by
  unfold expect
  rw [bind_assoc]
  apply peek_bind hi
  intro t ht
  by_cases hk : kindsEq t.kind kind = true
  · have hmore := h.more ht (by rw [eq_of_kindsEq hk]; exact hkind)
    rw [if_pos hk, bind_assoc]
    apply bump_bind hmore
    intro _
    rw [pure_bind]
    exact hf t hmore
  · rw [if_neg hk]
    exact err_bind hi _ _

theorem expectIdent_bind {f : String × Lex.Span → Parse β} (h : EndsInEof toks)
    (hi : i < toks.length)
    (hf : ∀ name, i + 1 < toks.length → Reads toks (i + 1) (f name) post) :
    Reads toks i (expectIdent toks >>= f) post := by
  unfold expectIdent
  rw [bind_assoc]
  apply peek_bind hi
  intro t ht
  by_cases hk : t.kind = .ident
  · have hmore := h.more ht (by rw [hk]; simp)
    rw [if_pos hk, bind_assoc]
    apply bump_bind hmore
    intro _
    rw [pure_bind]
    exact hf _ hmore
  · rw [if_neg hk]
    exact err_bind hi _ _

theorem checkExcludedKeyword_bind {f : Unit → Parse β} (hi : i < toks.length)
    (hf : Reads toks i (f ()) post) : Reads toks i (checkExcludedKeyword toks >>= f) post := by
  unfold checkExcludedKeyword
  rw [bind_assoc]
  apply peek_bind hi
  intro t _
  split
  · split
    · exact err_bind hi _ _
    · rw [pure_bind]
      exact hf
  · rw [pure_bind]
    exact hf

end Rules

end SoftPlc.St.Units
