import SoftPlc.St.CursorRules
import SoftPlc.St.UnitParser

/-!
# Expressions are parsed in the end

Every call of `Parser::parse_expr` ends and moves forward, by induction on the tokens that are left:
a nested expression starts after a token that its parser has taken (`Nested`).
-/

namespace SoftPlc.St.Units

open SoftPlc.Lib

variable {parseReal : List UInt8 → Option F32} {toks : List Lex.Token} {i : ℕ}

theorem literalAt_advances (hi : i + 1 < toks.length) (t : Lex.Token) (message : String)
    (value : Option Literal) : Advances toks i (literalAt toks t message value) := by
  unfold literalAt
  apply bump_bind hi
  intro _
  apply orErrAt_bind hi
  intro v
  exact Reads.pure hi (Nat.lt_succ_self i)

theorem fieldName_advances (h : EndsInEof toks) (hi : i < toks.length) :
    Advances toks i (fieldName toks) := by
  unfold fieldName
  apply peek_bind hi
  intro t ht
  split
  · next hk =>
    have hmore := h.more ht (by rw [hk]; simp)
    apply bump_bind hmore
    intro _
    exact Reads.pure hmore (Nat.lt_succ_self i)
  · next kw hk =>
    have hmore := h.more ht (by rw [hk]; simp)
    apply bump_bind hmore
    intro _
    exact Reads.pure hmore (Nat.lt_succ_self i)
  · exact err_reads hi _ _

theorem extendPath_bind {β : Type} {f : Located → Parse β} {post : β → ℕ → Prop}
    (hi : i < toks.length) {e : Located} {seg : PathSeg} {stop : ℕ} {message : String}
    {span : Lex.Span} (hf : ∀ e', Reads toks i (f e') post) :
    Reads toks i (extendPath e seg stop message span >>= f) post := by
  unfold extendPath
  split
  · rw [pure_bind]
    exact hf _
  · exact Reads.bind (@Reads.errAt _ toks i (fun _ _ => False) hi _ _ _) fun _ _ h => h.elim

/-- No level has an operator that is spelled by the end. -/
theorem Level.op_eof (level : Level) : level.op .eof = none := by
  cases level <;> rfl

/-- Nested expressions are read from every later position. -/
def Nested (parseReal : List UInt8 → Option F32) (toks : List Lex.Token) (i : ℕ) : Prop :=
  ∀ j, i < j → j < toks.length → Advances toks j (parseExpr parseReal toks)

/-- A parser and a use of its value. -/
theorem Advances.map_pure {α β : Type} {x : Parse α} {g : α → β} (hx : Advances toks i x) :
    Advances toks i (x >>= fun a => Pure.pure (g a)) := by
  apply Advances.bind hx
  intro _ j hij hj
  exact Reads.pure hj hij

/-- A parser that is reached later. -/
theorem Advances.later {α : Type} {x : Parse α} {j : ℕ} (hx : Advances toks j x) (hij : i ≤ j) :
    Reads toks j x fun _ k => i < k := Reads.mono hx fun _ _ hk => Nat.lt_of_le_of_lt hij hk

theorem parseArg_advances (h : EndsInEof toks) (hexpr : Nested parseReal toks i) {j : ℕ}
    (hij : i < j) (hj : j < toks.length) (args : Assocs) :
    Advances toks j (parseArg parseReal toks args) := by
  rw [parseArg_eq]
  apply peek_bind hj
  intro t _
  apply position_bind
  by_cases hident : t.kind = .ident ∧ j + 1 < toks.length
  · rw [if_pos hident]
    apply tokenAt_bind hident.2
    intro next hnext
    -- A name and its sign are read, and then the value from two tokens on.
    have hnamed : ∀ g : Lex.Token → Located → Assocs, next.kind ≠ .eof →
        Advances toks j (bump toks >>= fun name => bump toks >>= fun _ =>
          parseExpr parseReal toks >>= fun value => Pure.pure (g name value)) := by
      intro g hkind
      have hmore := h.more hnext hkind
      apply bump_bind hident.2
      intro name
      apply bump_bind hmore
      intro _
      apply Advances.later _ (Nat.le_add_right j 2)
      exact (hexpr (j + 2) (by omega) hmore).map_pure
    by_cases hassign : next.kind = .assign
    · rw [if_pos hassign]
      exact hnamed _ (by rw [hassign]; simp)
    · rw [if_neg hassign]
      by_cases harrow : next.kind = .arrow
      · rw [if_pos harrow]
        exact hnamed _ (by rw [harrow]; simp)
      · rw [if_neg harrow]
        exact (hexpr j hij hj).map_pure
  · rw [if_neg hident]
    exact (hexpr j hij hj).map_pure

theorem argLoop_advances (h : EndsInEof toks) (hexpr : Nested parseReal toks i) :
    ∀ j, j < toks.length → i < j → ∀ args, Advances toks j (argLoop parseReal toks args) := by
  apply forward
  intro j hj ih hij args
  rw [argLoop_eq]
  apply (parseArg_advances h hexpr hij hj args).bind
  intro args' k hjk hk
  apply peekIs_bind hk
  · intro t ht hcomma
    have hmore := h.more ht (by rw [hcomma]; simp)
    rw [if_pos rfl]
    apply bump_bind hmore
    intro _
    exact (ih (k + 1) (by omega) hmore (by omega) args').later (by omega)
  · intro t ht _
    rw [if_neg Bool.false_ne_true]
    exact Reads.pure hk hjk

theorem finishFbCall_advances_of (h : EndsInEof toks) (hexpr : Nested parseReal toks i) {j : ℕ}
    (hij : i ≤ j) (hj : j < toks.length) (callee : Located) :
    Advances toks j (finishFbCall parseReal toks callee) := by
  rw [finishFbCall_eq]
  split
  · next path _ =>
    apply expect_bind h hj (by simp)
    intro _ hmore
    apply peekIs_bind hmore
    · intro _ _ _
      rw [if_pos rfl, pure_bind]
      apply expect_bind h hmore (by simp)
      intro _ hmore'
      exact Reads.pure hmore' (by omega)
    · intro _ _ _
      rw [if_neg Bool.false_ne_true]
      apply (argLoop_advances h hexpr (j + 1) hmore (by omega) _).bind
      intro args k hjk hk
      apply expect_bind h hk (by simp)
      intro _ hmore'
      exact Reads.pure hmore' (by omega)
  · exact Reads.errAt hj _ _ _

/-- Where `Q_GOOD(` follows, there is a token after its parenthesis. -/
theorem qGoodCall_reads (h : EndsInEof toks) (hi : i < toks.length) (t : Lex.Token) :
    Reads toks i (qGoodCall toks t) fun b j => j = i ∧ (b = true → i + 1 < toks.length) := by
  unfold qGoodCall
  split_ifs
  · unfold peekIs
    apply peek_bind hi
    intro u hu
    apply Reads.pure hi
    refine ⟨rfl, fun hparen => h.more hu ?_⟩
    rw [beq_iff_eq.mp hparen]
    simp
  · exact Reads.pure hi ⟨rfl, fun hfalse => absurd hfalse Bool.false_ne_true⟩

theorem parsePrimary_advances (h : EndsInEof toks) (hexpr : Nested parseReal toks i)
    (hi : i < toks.length) : Advances toks i (parsePrimary parseReal toks) := by
  rw [parsePrimary_eq]
  apply checkExcludedKeyword_bind hi
  apply peek_bind hi
  intro t ht
  have hmore : t.kind ≠ .eof → i + 1 < toks.length := h.more ht
  split
  · next kw hk =>
    have hmore := hmore (by rw [hk]; simp)
    split_ifs
    · exact literalAt_advances hmore _ _ _
    · exact literalAt_advances hmore _ _ _
    · apply bump_bind hmore
      intro _
      exact Reads.pure hmore (Nat.lt_succ_self i)
    · exact err_reads hi _ _
  · next hk => exact literalAt_advances (hmore (by rw [hk]; simp)) _ _ _
  · next hk => exact literalAt_advances (hmore (by rw [hk]; simp)) _ _ _
  · next hk => exact literalAt_advances (hmore (by rw [hk]; simp)) _ _ _
  · next hk =>
    have hmore := hmore (by rw [hk]; simp)
    apply bump_bind hmore
    intro _
    apply Reads.bind (qGoodCall_reads h hmore t)
    rintro qGood j ⟨rfl, hparen⟩ hj
    by_cases hq : qGood = true
    · rw [if_pos hq]
      apply bump_bind (hparen hq)
      intro _
      apply (hexpr (i + 1 + 1) (by omega) (hparen hq)).bind
      intro inner k hik hk
      apply expect_bind h hk (by simp)
      intro _ hmore'
      exact Reads.pure hmore' (by omega)
    · rw [if_neg hq]
      exact Reads.pure hmore (Nat.lt_succ_self i)
  · next hk =>
    have hmore := hmore (by rw [hk]; simp)
    apply bump_bind hmore
    intro _
    apply (hexpr (i + 1) (Nat.lt_succ_self i) hmore).bind
    intro e j hij hj
    apply expect_bind h hj (by simp)
    intro _ hmore'
    exact Reads.pure hmore' (by omega)
  · exact err_reads hi _ _

theorem postfixLoop_reads (h : EndsInEof toks) (hexpr : Nested parseReal toks i) :
    ∀ j, j < toks.length → i < j → ∀ e, Reads toks j (postfixLoop parseReal toks e) fun _ k =>
      j ≤ k := by
  apply forward
  intro j hj ih hij e
  -- Every round of the loop starts after the last one.
  have hagain : ∀ k e', j < k → k < toks.length →
      Reads toks k (postfixLoop parseReal toks e') fun _ l => j ≤ l := by
    intro k e' hjk hk
    exact (ih k hjk hk (by omega) e').mono fun _ _ hl => hjk.le.trans hl
  rw [postfixLoop_eq]
  apply peek_bind hj
  intro t ht
  by_cases hdot : t.kind = .dot
  · rw [if_pos hdot]
    have hmore := h.more ht (by rw [hdot]; simp)
    apply bump_bind hmore
    intro _
    apply (fieldName_advances h hmore).bind
    rintro ⟨name, span⟩ k hjk hk
    apply extendPath_bind hk
    intro e'
    exact hagain k e' (by omega) hk
  · rw [if_neg hdot]
    by_cases hbracket : t.kind = .lBracket
    · rw [if_pos hbracket]
      have hmore := h.more ht (by rw [hbracket]; simp)
      apply bump_bind hmore
      intro _
      apply (hexpr (j + 1) (by omega) hmore).bind
      intro idx k hjk hk
      apply expect_bind h hk (by simp)
      intro close hmore'
      apply extendPath_bind hmore'
      intro e'
      exact hagain (k + 1) e' (by omega) hmore'
    · rw [if_neg hbracket]
      by_cases hparen : t.kind = .lParen
      · rw [if_pos hparen]
        apply (finishFbCall_advances_of h hexpr hij.le hj e).bind
        intro call k hjk hk
        exact hagain k _ hjk hk
      · rw [if_neg hparen]
        exact Reads.pure hj le_rfl

theorem parsePostfix_advances (h : EndsInEof toks) (hexpr : Nested parseReal toks i)
    (hi : i < toks.length) : Advances toks i (parsePostfix parseReal toks) := by
  rw [parsePostfix_eq]
  apply (parsePrimary_advances h hexpr hi).bind
  intro e j hij hj
  exact (postfixLoop_reads h hexpr j hj hij e).mono fun _ _ hjk => Nat.lt_of_lt_of_le hij hjk

theorem Nested.later (hexpr : Nested parseReal toks i) {j : ℕ} (hij : i ≤ j) :
    Nested parseReal toks j := fun k hjk hk => hexpr k (Nat.lt_of_le_of_lt hij hjk) hk

theorem parseUnary_advances (h : EndsInEof toks) :
    ∀ i, i < toks.length → Nested parseReal toks i →
      Advances toks i (parseUnary parseReal toks) := by
  apply forward
  intro i hi ih hexpr
  have hnested : ∀ g : Located → Located, i + 1 < toks.length →
      Advances toks i (bump toks >>= fun _ => parseUnary parseReal toks >>= fun e =>
        Pure.pure (g e)) := by
    intro g hmore
    apply bump_bind hmore
    intro _
    have hunary := ih (i + 1) (Nat.lt_succ_self i) hmore (hexpr.later (Nat.le_succ i))
    exact hunary.map_pure.later (Nat.le_succ i)
  rw [parseUnary_eq]
  apply peek_bind hi
  intro t ht
  by_cases hnot : t.kind = .keyword "NOT"
  · rw [if_pos hnot]
    exact hnested _ (h.more ht (by rw [hnot]; simp))
  · rw [if_neg hnot]
    by_cases hminus : t.kind = .minus
    · rw [if_pos hminus]
      exact hnested _ (h.more ht (by rw [hminus]; simp))
    · rw [if_neg hminus]
      exact parsePostfix_advances h hexpr hi

/-- A level, where its operands are read. -/
theorem levelLoop_reads (h : EndsInEof toks) {level : Level}
    (hoperand : ∀ j, i ≤ j → j < toks.length → Advances toks j (operand parseReal toks level)) :
    ∀ j, j < toks.length → i ≤ j → ∀ left, Reads toks j (levelLoop parseReal toks level left)
      fun _ k => j ≤ k := by
  apply forward
  intro j hj ih hij left
  rw [levelLoop_eq]
  apply peek_bind hj
  intro t ht
  rcases hop : level.op t.kind with _ | op
  · exact Reads.pure hj le_rfl
  · have hmore : j + 1 < toks.length := by
      apply h.more ht
      intro heof
      rw [heof, Level.op_eof] at hop
      cases hop
    apply bump_bind hmore
    intro _
    apply (hoperand (j + 1) (by omega) hmore).bind
    intro right k hjk hk
    exact (ih k (by omega) hk (by omega) _).mono fun _ _ hl => by omega

theorem level_advances (h : EndsInEof toks) (level : Level)
    (hoperand : ∀ j, i ≤ j → j < toks.length → Advances toks j (operand parseReal toks level)) :
    ∀ j, i ≤ j → j < toks.length → Advances toks j (operand parseReal toks level >>= fun left =>
      levelLoop parseReal toks level left) := by
  intro j hij hj
  apply (hoperand j hij hj).bind
  intro left k hjk hk
  exact (levelLoop_reads h hoperand k hk (by omega) left).mono fun _ _ hl =>
    Nat.lt_of_lt_of_le hjk hl

/-- The operands of a level are what the next one reads. -/
theorem operand_advances {level tighter : Level}
    (heq : operand parseReal toks level = operand parseReal toks tighter >>= fun left =>
      levelLoop parseReal toks tighter left) (h : EndsInEof toks)
    (hoperand : ∀ j, i ≤ j → j < toks.length → Advances toks j (operand parseReal toks tighter)) :
    ∀ j, i ≤ j → j < toks.length → Advances toks j (operand parseReal toks level) := by
  rw [heq]
  exact level_advances h tighter hoperand

theorem parseExpr_of_nested (h : EndsInEof toks) (hexpr : Nested parseReal toks i)
    (hi : i < toks.length) : Advances toks i (parseExpr parseReal toks) := by
  have hmul : ∀ j, i ≤ j → j < toks.length → Advances toks j (operand parseReal toks .mul) := by
    intro j hij hj
    rw [operand_mul]
    exact parseUnary_advances h j hj (hexpr.later hij)
  have hadd := @operand_advances parseReal toks i .add .mul
    (by rw [operand_add, parseMul_eq, operand_mul]) h hmul
  have hcompare := @operand_advances parseReal toks i .compare .add
    (by rw [operand_compare, parseAdd_eq, operand_add]) h hadd
  have hxor := @operand_advances parseReal toks i .xor .compare
    (by rw [operand_xor, parseCompare_eq, operand_compare]) h hcompare
  have hand := @operand_advances parseReal toks i .and .xor
    (by rw [operand_and, parseXor_eq, operand_xor]) h hxor
  have hor := @operand_advances parseReal toks i .or .and
    (by rw [operand_or, parseAnd_eq, operand_and]) h hand
  have hexpr := level_advances h .or hor i le_rfl hi
  rw [operand_or] at hexpr
  rw [parseExpr_eq, parseOr_eq]
  exact hexpr

/-- **Expressions**: every call moves forward, by induction on the tokens that are left. -/
theorem parseExpr_advances (parseReal : List UInt8 → Option F32) (h : EndsInEof toks)
    (hi : i < toks.length) : Advances toks i (parseExpr parseReal toks) := by
  have hall : ∀ i, i < toks.length → Advances toks i (parseExpr parseReal toks) := by
    apply forward
    intro i hi ih
    exact parseExpr_of_nested h ih hi
  exact hall i hi

theorem finishFbCall_advances (parseReal : List UInt8 → Option F32) (h : EndsInEof toks)
    (hi : i < toks.length) (callee : Located) :
    Advances toks i (finishFbCall parseReal toks callee) :=
  finishFbCall_advances_of h (fun _ _ hj => parseExpr_advances parseReal h hj) le_rfl hi callee

end SoftPlc.St.Units
