import SoftPlc.St.ExprProgress

/-!
# The parser ends and consumes everything

On tokens that end in their only `Eof`, statements and declarations are parsed in the end, as
expressions are, and a unit is returned at `Eof` only (`parseUnit_total`).
-/

namespace SoftPlc.St.Units

open SoftPlc.Lib

variable {parseReal : List UInt8 → Option F32} {toks : List Lex.Token} {i : ℕ}

/-! ## Statements -/

theorem expr_bind {β : Type} {f : Located → Parse β} {post : β → ℕ → Prop} (h : EndsInEof toks)
    (hi : i < toks.length)
    (hf : ∀ e j, i < j → j < toks.length → Reads toks j (f e) post) :
    Reads toks i (parseExpr parseReal toks >>= f) post :=
  (parseExpr_advances parseReal h hi).bind hf

theorem parseMaxIterAttr_advances (h : EndsInEof toks) (hi : i < toks.length) :
    Advances toks i (parseMaxIterAttr toks) := by
  unfold parseMaxIterAttr
  apply expect_bind h hi (by simp)
  intro _ h₁
  apply expectIdent_bind h h₁
  rintro ⟨id, span⟩ h₂
  dsimp only
  split_ifs
  · apply expect_bind h h₂ (by simp)
    intro _ h₃
    apply expect_bind h h₃ (by simp)
    intro n h₄
    apply orErrAt_bind h₄
    intro v
    apply expect_bind h h₄ (by simp)
    intro _ h₅
    exact Reads.pure h₅ (by omega)
  · exact err_reads h₂ _ _

theorem maxIterAttr_reads (h : EndsInEof toks) (hi : i < toks.length) :
    Reads toks i (maxIterAttr toks) fun _ j => i ≤ j := by
  unfold maxIterAttr
  apply peekIs_bind hi
  · intro _ _ _
    rw [if_pos rfl]
    apply (parseMaxIterAttr_advances h hi).bind
    intro _ j hij hj
    exact Reads.pure hj hij.le
  · intro _ _ _
    rw [if_neg Bool.false_ne_true]
    exact Reads.pure hi le_rfl

theorem optionalSemi_reads (h : EndsInEof toks) (hi : i < toks.length) :
    Reads toks i (optionalSemi toks) fun _ j => i ≤ j := by
  unfold optionalSemi
  apply peekIs_bind hi
  · intro t ht hsemi
    have hmore := h.more ht (by rw [hsemi]; simp)
    rw [if_pos rfl]
    apply bump_bind hmore
    intro _
    exact Reads.pure hmore (Nat.le_succ i)
  · intro _ _ _
    rw [if_neg Bool.false_ne_true]
    exact Reads.pure hi le_rfl

/-- A closing keyword with its semicolon, and what is built then. -/
theorem closing_reads {β : Type} (h : EndsInEof toks) (hi : i < toks.length) (kw : String) (b : β) :
    Advances toks i (expectKw toks kw >>= fun _ => optionalSemi toks >>= fun _ => Pure.pure b) := by
  apply expectKw_bind h hi
  intro _ hmore
  apply Reads.bind (optionalSemi_reads h hmore)
  intro _ j hij hj
  exact Reads.pure hj (by omega)

theorem labelValue_advances (h : EndsInEof toks) (hi : i < toks.length) (message : String) :
    Advances toks i (labelValue toks message) := by
  unfold labelValue
  apply expect_bind h hi (by simp)
  intro lit hmore
  unfold orErrAt
  split
  · exact Reads.pure hmore (Nat.lt_succ_self i)
  · exact Reads.errAt hmore _ _ _

theorem parseLabel_advances (h : EndsInEof toks) (hi : i < toks.length) :
    Advances toks i (parseLabel toks) := by
  unfold parseLabel
  apply (labelValue_advances h hi _).bind
  intro v j hij hj
  apply peekIs_bind hj
  · intro t ht hrange
    have hmore := h.more ht (by rw [hrange]; simp)
    rw [if_pos rfl]
    apply bump_bind hmore
    intro _
    apply (labelValue_advances h hmore _).bind
    intro hv k hjk hk
    split_ifs
    · exact err_reads hk _ _
    · exact Reads.pure hk (by omega)
  · intro _ _ _
    rw [if_neg Bool.false_ne_true]
    exact Reads.pure hj hij

theorem labelLoop_advances (h : EndsInEof toks) :
    ∀ i, i < toks.length → ∀ labels, Advances toks i (labelLoop toks labels) := by
  apply forward
  intro i hi ih labels
  rw [labelLoop]
  apply (parseLabel_advances h hi).bind
  intro more j hij hj
  apply peekIs_bind hj
  · intro t ht hcomma
    have hmore := h.more ht (by rw [hcomma]; simp)
    rw [if_pos rfl]
    apply bump_bind hmore
    intro _
    exact (ih (j + 1) (by omega) hmore _).later (by omega)
  · intro _ _ _
    rw [if_neg Bool.false_ne_true]
    exact Reads.pure hj hij

/-- The look ahead comes back. -/
theorem atLabel_reads (h : EndsInEof toks) (hi : i < toks.length) (stop : List Lex.TokenKind) :
    Reads toks i (atLabel toks stop) fun _ j => j = i := by
  unfold atLabel
  apply peek_bind hi
  intro t ht
  by_cases hint : (stop.any (fun s => s == .intLit) && t.kind == .intLit) = true
  · rw [if_pos hint]
    have hkind : t.kind = .intLit := beq_iff_eq.mp (Bool.and_eq_true_iff.mp hint).2
    have hmore := h.more ht (by rw [hkind]; simp)
    apply position_bind
    apply bump_bind hmore
    intro _
    apply peek_bind hmore
    intro next _
    apply setPosition_bind
    exact Reads.pure hi rfl
  · rw [if_neg hint]
    exact Reads.pure hi rfl

theorem parseStep_reads (h : EndsInEof toks) (hi : i < toks.length) :
    Reads toks i (parseStep parseReal toks) fun _ j => i ≤ j := by
  unfold parseStep
  apply peekIs_bind hi
  · intro t ht hby
    have hmore := h.more ht (by rw [hby]; simp)
    rw [if_pos rfl]
    apply bump_bind hmore
    intro _
    apply expr_bind h hmore
    intro e j hij hj
    exact Reads.pure hj (by omega)
  · intro _ _ _
    rw [if_neg Bool.false_ne_true]
    exact Reads.pure hi le_rfl

/-- Nested statements are read from every later position. -/
def StmtNested (parseReal : List UInt8 → Option F32) (toks : List Lex.Token) (i : ℕ) : Prop :=
  ∀ j, i < j → j < toks.length → Advances toks j (parseStmt parseReal toks)

theorem StmtNested.later (hstmt : StmtNested parseReal toks i) {j : ℕ} (hij : i ≤ j) :
    StmtNested parseReal toks j := fun k hjk hk => hstmt k (Nat.lt_of_le_of_lt hij hjk) hk

theorem parseStmtList_reads (h : EndsInEof toks) (hstmt : StmtNested parseReal toks i) :
    ∀ j, j < toks.length → i < j → ∀ stop body,
      Reads toks j (parseStmtList parseReal toks stop body) fun _ k => j ≤ k := by
  apply forward
  intro j hj ih hij stop body
  rw [parseStmtList_eq]
  apply peek_bind hj
  intro t _
  by_cases hstop : t.kind = .eof ∨ stop.any (kindsEq t.kind) = true
  · rw [if_pos hstop]
    exact Reads.pure hj le_rfl
  · rw [if_neg hstop]
    apply Reads.bind (atLabel_reads h hj stop)
    rintro label _ rfl _
    split_ifs
    · exact Reads.pure hj le_rfl
    · apply (hstmt _ hij hj).bind
      intro s k hjk hk
      exact (ih k hjk hk (by omega) _ _).mono fun _ _ hl => hjk.le.trans hl

/-- A list of statements after a token at `i` or later. -/
theorem stmts_bind {β : Type} {f : List Stmt → Parse β} {post : β → ℕ → Prop} (h : EndsInEof toks)
    (hstmt : StmtNested parseReal toks i) {j : ℕ} (hij : i < j) (hj : j < toks.length)
    {stop : List Lex.TokenKind}
    (hf : ∀ body k, j ≤ k → k < toks.length → Reads toks k (f body) post) :
    Reads toks j (parseStmtList parseReal toks stop [] >>= f) post :=
  Reads.bind (parseStmtList_reads h hstmt j hj hij stop []) hf

theorem parseBranch_advances (h : EndsInEof toks) (hstmt : StmtNested parseReal toks i)
    (hi : i < toks.length) : Advances toks i (parseBranch parseReal toks) := by
  rw [parseBranch_eq]
  apply expr_bind h hi
  intro cond j hij hj
  apply expectKw_bind h hj
  intro _ hmore
  apply stmts_bind h hstmt (by omega) hmore
  intro body k hjk hk
  exact Reads.pure hk (by omega)

theorem elsifLoop_reads (h : EndsInEof toks) (hstmt : StmtNested parseReal toks i) :
    ∀ j, j < toks.length → i ≤ j → ∀ branches,
      Reads toks j (elsifLoop parseReal toks branches) fun _ k => j ≤ k := by
  apply forward
  intro j hj ih hij branches
  rw [elsifLoop_eq]
  apply peekIs_bind hj
  · intro t ht helsif
    have hmore := h.more ht (by rw [helsif]; simp)
    rw [if_pos rfl]
    apply bump_bind hmore
    intro _
    apply (parseBranch_advances h (hstmt.later (by omega)) hmore).bind
    intro branch k hjk hk
    exact (ih k (by omega) hk (by omega) _).mono fun _ _ hl => by omega
  · intro _ _ _
    rw [if_neg Bool.false_ne_true]
    exact Reads.pure hj le_rfl

theorem parseIf_advances (h : EndsInEof toks) (hstmt : StmtNested parseReal toks i)
    (hi : i < toks.length) : Advances toks i (parseIf parseReal toks) := by
  rw [parseIf_eq]
  apply expectKw_bind h hi
  intro _ h₁
  apply (parseBranch_advances h (hstmt.later (Nat.le_succ i)) h₁).bind
  intro branch j hij hj
  apply Reads.bind (elsifLoop_reads h hstmt j hj (by omega) _)
  intro branches k hjk hk
  apply peekIs_bind hk
  · intro t ht helse
    have hmore := h.more ht (by rw [helse]; simp)
    rw [if_pos rfl]
    apply bump_bind hmore
    intro _
    apply stmts_bind h hstmt (by omega) hmore
    intro body l hkl hl
    exact (closing_reads h hl _ _).later (by omega)
  · intro _ _ _
    rw [if_neg Bool.false_ne_true]
    exact (closing_reads h hk _ _).later (by omega)

theorem caseLoop_reads (h : EndsInEof toks) (hstmt : StmtNested parseReal toks i) :
    ∀ j, j < toks.length → i ≤ j → ∀ arms,
      Reads toks j (caseLoop parseReal toks arms) fun _ k => j ≤ k := by
  apply forward
  intro j hj ih hij arms
  rw [caseLoop_eq]
  apply peek_bind hj
  intro t ht
  by_cases hend : t.kind = .keyword "END_CASE"
  · rw [if_pos hend]
    exact Reads.pure hj le_rfl
  · rw [if_neg hend]
    by_cases helse : t.kind = .keyword "ELSE"
    · rw [if_pos helse]
      have hmore := h.more ht (by rw [helse]; simp)
      apply bump_bind hmore
      intro _
      apply stmts_bind h hstmt (by omega) hmore
      intro body k hjk hk
      exact Reads.pure hk (by omega)
    · rw [if_neg helse]
      apply (labelLoop_advances h j hj _).bind
      intro labels k hjk hk
      apply expect_bind h hk (by simp)
      intro _ hmore
      apply stmts_bind h hstmt (by omega) hmore
      intro body l hkl hl
      exact (ih l (by omega) hl (by omega) _).mono fun _ _ hm => by omega

theorem parseCase_advances (h : EndsInEof toks) (hstmt : StmtNested parseReal toks i)
    (hi : i < toks.length) : Advances toks i (parseCase parseReal toks) := by
  rw [parseCase_eq]
  apply expectKw_bind h hi
  intro _ h₁
  apply expr_bind h h₁
  intro selector j hij hj
  apply expectKw_bind h hj
  intro _ h₂
  apply Reads.bind (caseLoop_reads h hstmt (j + 1) h₂ (by omega) _)
  rintro ⟨arms, elseBody⟩ k hjk hk
  exact (closing_reads h hk _ _).later (by omega)

theorem parseWhile_advances (h : EndsInEof toks) (hstmt : StmtNested parseReal toks i)
    (hi : i < toks.length) (maxIter : Option ℕ) :
    Advances toks i (parseWhile parseReal toks maxIter) := by
  rw [parseWhile_eq]
  apply expectKw_bind h hi
  intro _ h₁
  apply expr_bind h h₁
  intro cond j hij hj
  apply expectKw_bind h hj
  intro _ h₂
  apply stmts_bind h hstmt (by omega) h₂
  intro body k hjk hk
  exact (closing_reads h hk _ _).later (by omega)

theorem parseFor_advances (h : EndsInEof toks) (hstmt : StmtNested parseReal toks i)
    (hi : i < toks.length) (maxIter : Option ℕ) :
    Advances toks i (parseFor parseReal toks maxIter) := by
  rw [parseFor_eq]
  apply expectKw_bind h hi
  intro _ h₁
  apply expectIdent_bind h h₁
  rintro ⟨var, span⟩ h₂
  apply expect_bind h h₂ (by simp)
  intro _ h₃
  apply expr_bind h h₃
  intro first j hij hj
  apply expectKw_bind h hj
  intro _ h₄
  apply expr_bind h h₄
  intro last k hjk hk
  apply Reads.bind (parseStep_reads h hk)
  intro step l hkl hl
  apply expectKw_bind h hl
  intro _ h₅
  apply stmts_bind h hstmt (by omega) h₅
  intro body m hlm hm
  exact (closing_reads h hm _ _).later (by omega)

/-- A semicolon, and what is built then. -/
theorem semi_reads {β : Type} (h : EndsInEof toks) (hi : i < toks.length) (b : β) :
    Advances toks i (expect toks .semi >>= fun _ => Pure.pure b) := by
  apply expect_bind h hi (by simp)
  intro _ hmore
  exact Reads.pure hmore (Nat.lt_succ_self i)

theorem parseStmt_of_nested (h : EndsInEof toks) (hstmt : StmtNested parseReal toks i)
    (hi : i < toks.length) : Advances toks i (parseStmt parseReal toks) := by
  rw [parseStmt_eq]
  apply checkExcludedKeyword_bind hi
  apply Reads.bind (maxIterAttr_reads h hi)
  intro maxIter j hij hj
  have hlater := hstmt.later hij
  apply peek_bind hj
  intro t ht
  split_ifs with _ _ _ _ _ hsemi
  · exact (parseIf_advances h hlater hj).later hij
  · exact (parseCase_advances h hlater hj).later hij
  · exact (parseWhile_advances h hlater hj maxIter).later hij
  · exact (parseFor_advances h hlater hj maxIter).later hij
  · apply expectKw_bind h hj
    intro _ hmore
    exact (semi_reads h hmore _).later (by omega)
  · have hmore := h.more ht (by rw [hsemi]; simp)
    apply bump_bind hmore
    intro _
    exact Reads.pure hmore (by omega)
  · exact err_reads hj _ _
  · apply expr_bind h hj
    intro e k hjk hk
    apply peek_bind hk
    intro u hu
    by_cases hassign : u.kind = .assign
    · rw [if_pos hassign]
      have hmore := h.more hu (by rw [hassign]; simp)
      apply bump_bind hmore
      intro _
      apply expr_bind h hmore
      intro rhs l hkl hl
      exact (semi_reads h hl _).later (by omega)
    · rw [if_neg hassign]
      split
      · exact (semi_reads h hk _).later (by omega)
      · split_ifs
        · apply (finishFbCall_advances parseReal h hk e).bind
          intro call l hkl hl
          exact (semi_reads h hl _).later (by omega)
        · exact err_reads hk _ _

/-- **Statements**: every call moves forward, by induction on the tokens that are left. -/
theorem parseStmt_advances (parseReal : List UInt8 → Option F32) (h : EndsInEof toks)
    (hi : i < toks.length) : Advances toks i (parseStmt parseReal toks) := by
  have hall : ∀ i, i < toks.length → Advances toks i (parseStmt parseReal toks) := by
    apply forward
    intro i hi ih
    exact parseStmt_of_nested h ih hi
  exact hall i hi

/-! ## Declarations -/

theorem parseDirectAddr_reads (hi : i < toks.length) (t : Lex.Token) :
    Reads toks i (parseDirectAddr t) fun _ j => j = i := by
  unfold parseDirectAddr
  split
  · exact Reads.errAt hi _ _ _
  · split
    · exact Reads.errAt hi _ _ _
    · split
      · exact Reads.errAt hi _ _ _
      · exact Reads.pure hi rfl

theorem arrayUpper_advances (h : EndsInEof toks) (hi : i < toks.length) :
    Advances toks i (arrayUpper toks) := by
  unfold arrayUpper
  apply expectKw_bind h hi
  intro _ h₁
  apply expect_bind h h₁ (by simp)
  intro _ h₂
  apply expect_bind h h₂ (by simp)
  intro lo h₃
  split
  · exact err_reads h₃ _ _
  · split_ifs
    · exact err_reads h₃ _ _
    · apply expect_bind h h₃ (by simp)
      intro _ h₄
      apply expect_bind h h₄ (by simp)
      intro hi h₅
      apply orErrAt_bind h₅
      intro upper
      apply expect_bind h h₅ (by simp)
      intro _ h₆
      apply expectKw_bind h h₆
      intro _ h₇
      exact Reads.pure h₇ (by omega)

theorem namedType_advances (h : EndsInEof toks) (hi : i < toks.length) :
    Advances toks i (namedType toks) := by
  unfold namedType
  apply peek_bind hi
  intro t ht
  split
  · next hk =>
    have hmore := h.more ht (by rw [hk]; simp)
    apply bump_bind hmore
    intro _
    exact Reads.pure hmore (Nat.lt_succ_self i)
  · next kw hk =>
    have hmore := h.more ht (by rw [hk]; simp)
    split_ifs
    · apply bump_bind hmore
      intro _
      exact Reads.pure hmore (Nat.lt_succ_self i)
    · exact err_reads hi _ _
    · exact err_reads hi _ _
    · exact err_reads hi _ _
    · exact err_reads hi _ _
  · exact err_reads hi _ _

theorem parseType_advances (h : EndsInEof toks) :
    ∀ i, i < toks.length → Advances toks i (parseType toks) := by
  apply forward
  intro i hi ih
  rw [parseType_eq]
  apply checkExcludedKeyword_bind hi
  apply peekIs_bind hi
  · intro _ _ _
    rw [if_pos rfl]
    apply (arrayUpper_advances h hi).bind
    intro upper j hij hj
    exact (ih j hij hj).map_pure.later hij.le
  · intro _ _ _
    rw [if_neg Bool.false_ne_true]
    exact namedType_advances h hi

theorem parseAt_reads (h : EndsInEof toks) (hi : i < toks.length) :
    Reads toks i (parseAt toks) fun _ j => i ≤ j := by
  unfold parseAt
  apply peekIs_bind hi
  · intro t ht hat
    have hmore := h.more ht (by rw [hat]; simp)
    rw [if_pos rfl]
    apply bump_bind hmore
    intro _
    apply peek_bind hmore
    intro u hu
    by_cases haddr : u.kind = .directAddr
    · rw [if_neg (not_not.mpr haddr)]
      have hmore' := h.more hu (by rw [haddr]; simp)
      apply bump_bind hmore'
      intro _
      apply Reads.bind (parseDirectAddr_reads hmore' u)
      rintro addr _ rfl hj
      exact Reads.pure hj (by omega)
    · rw [if_pos haddr]
      exact err_reads hmore _ _
  · intro _ _ _
    rw [if_neg Bool.false_ne_true]
    exact Reads.pure hi le_rfl

theorem parseInit_reads (h : EndsInEof toks) (hi : i < toks.length) :
    Reads toks i (parseInit parseReal toks) fun _ j => i ≤ j := by
  unfold parseInit
  apply peekIs_bind hi
  · intro t ht hassign
    have hmore := h.more ht (by rw [hassign]; simp)
    rw [if_pos rfl]
    apply bump_bind hmore
    intro _
    apply expr_bind h hmore
    intro e j hij hj
    exact Reads.pure hj (by omega)
  · intro _ _ _
    rw [if_neg Bool.false_ne_true]
    exact Reads.pure hi le_rfl

theorem parseVarDecl_advances (parseReal : List UInt8 → Option F32) (h : EndsInEof toks)
    (hi : i < toks.length) : Advances toks i (parseVarDecl parseReal toks) := by
  unfold parseVarDecl
  apply expectIdent_bind h hi
  rintro ⟨name, span⟩ h₁
  apply Reads.bind (parseAt_reads h h₁)
  intro addr j hij hj
  apply expect_bind h hj (by simp)
  intro _ h₂
  apply (parseType_advances h (j + 1) h₂).bind
  intro ty k hjk hk
  apply Reads.bind (parseInit_reads h hk)
  intro init l hkl hl
  exact (semi_reads h hl _).later (by omega)

theorem plainSection_advances (hi : i + 1 < toks.length) (kind : VarKind) :
    Advances toks i (plainSection toks kind) := by
  unfold plainSection
  apply bump_bind hi
  intro _
  exact Reads.pure hi (Nat.lt_succ_self i)

theorem orConstant_advances (h : EndsInEof toks) (hi : i + 1 < toks.length) (kind : VarKind) :
    Advances toks i (orConstant toks kind) := by
  unfold orConstant
  apply bump_bind hi
  intro _
  apply peekIs_bind hi
  · intro t ht hconstant
    have hmore := h.more ht (by rw [hconstant]; simp)
    rw [if_pos rfl]
    apply bump_bind hmore
    intro _
    exact Reads.pure hmore (by omega)
  · intro _ _ _
    rw [if_neg Bool.false_ne_true]
    exact Reads.pure hi (Nat.lt_succ_self i)

theorem sectionKind_advances (h : EndsInEof toks) (hi : i < toks.length) :
    Advances toks i (sectionKind toks) := by
  unfold sectionKind
  apply peek_bind hi
  intro t ht
  have hmore : ∀ {kw : String}, t.kind = .keyword kw → i + 1 < toks.length := by
    intro kw hk
    exact h.more ht (by rw [hk]; simp)
  split_ifs with hinput houtput hretain hglobal hvar
  · exact plainSection_advances (hmore hinput) _
  · exact plainSection_advances (hmore houtput) _
  · exact plainSection_advances (hmore hretain) _
  · exact orConstant_advances h (hmore hglobal) _
  · exact orConstant_advances h (hmore hvar) _
  · exact err_reads hi _ _
  · exact err_reads hi _ _

theorem varLoop_reads (h : EndsInEof toks) :
    ∀ i, i < toks.length → ∀ vars, Reads toks i (varLoop parseReal toks vars) fun _ j => i ≤ j := by
  apply forward
  intro i hi ih vars
  rw [varLoop]
  apply peekIs_bind hi
  · intro _ _ _
    rw [if_pos rfl]
    exact Reads.pure hi le_rfl
  · intro _ _ _
    rw [if_neg Bool.false_ne_true]
    apply checkExcludedKeyword_bind hi
    apply (parseVarDecl_advances parseReal h hi).bind
    intro v j hij hj
    exact (ih j hij hj _).mono fun _ _ hk => hij.le.trans hk

theorem parseVarSection_advances (parseReal : List UInt8 → Option F32) (h : EndsInEof toks)
    (hi : i < toks.length) : Advances toks i (parseVarSection parseReal toks) := by
  unfold parseVarSection
  apply (sectionKind_advances h hi).bind
  intro kind j hij hj
  apply Reads.bind (varLoop_reads h j hj _)
  intro vars k hjk hk
  apply expectKw_bind h hk
  intro _ hmore
  exact Reads.pure hmore (by omega)

theorem blockLoop_advances (h : EndsInEof toks) (endKw nested name : String) :
    ∀ i, i < toks.length → ∀ vars body,
      Advances toks i (blockLoop parseReal toks endKw nested name vars body) := by
  apply forward
  intro i hi ih vars body
  rw [blockLoop_eq]
  apply checkExcludedKeyword_bind hi
  apply peek_bind hi
  intro t _
  split_ifs
  · apply (parseVarSection_advances parseReal h hi).bind
    intro v j hij hj
    exact (ih j hij hj _ _).later hij.le
  · apply expectKw_bind h hi
    intro _ hmore
    exact Reads.pure hmore (Nat.lt_succ_self i)
  · exact err_reads hi _ _
  · apply (parseStmt_advances parseReal h hi).bind
    intro s j hij hj
    exact (ih j hij hj _ _).later hij.le

theorem parseBlock_advances (parseReal : List UInt8 → Option F32) (h : EndsInEof toks)
    (hi : i < toks.length) (startKw endKw nested : String) :
    Advances toks i (parseBlock parseReal toks startKw endKw nested) := by
  unfold parseBlock
  apply expectKw_bind h hi
  intro _ h₁
  apply expectIdent_bind h h₁
  rintro ⟨name, span⟩ h₂
  exact (blockLoop_advances h endKw nested name _ h₂ _ _).later (by omega)

theorem parseProgram_advances (parseReal : List UInt8 → Option F32) (h : EndsInEof toks)
    (hi : i < toks.length) : Advances toks i (parseProgram parseReal toks) :=
  (parseBlock_advances parseReal h hi _ _ _).map_pure

theorem parseFb_advances (parseReal : List UInt8 → Option F32) (h : EndsInEof toks)
    (hi : i < toks.length) : Advances toks i (parseFb parseReal toks) :=
  (parseBlock_advances parseReal h hi _ _ _).map_pure

theorem parseDecl_advances (h : EndsInEof toks) (hi : i < toks.length) :
    Advances toks i (parseDecl parseReal toks) := by
  unfold parseDecl
  apply checkExcludedKeyword_bind hi
  apply peek_bind hi
  intro t _
  split_ifs
  · exact (parseProgram_advances parseReal h hi).map_pure
  · exact (parseFb_advances parseReal h hi).map_pure
  · exact err_reads hi _ _

/-- The loop over the declarations stops at the end only. -/
theorem unitLoop_reads (h : EndsInEof toks) :
    ∀ i, i < toks.length → ∀ decls,
      Reads toks i (unitLoop parseReal toks decls) fun _ j => j + 1 = toks.length := by
  apply forward
  intro i hi ih decls
  rw [unitLoop]
  apply peekIs_bind hi
  · intro t ht heof
    rw [if_pos rfl]
    exact Reads.pure hi ((h.eof_iff ht).mp heof)
  · intro _ _ _
    rw [if_neg Bool.false_ne_true]
    apply (parseDecl_advances h hi).bind
    intro d j hij hj
    exact ih j hij hj _

/-- The parser of a unit returns at `Eof` only. -/
theorem parseUnit_reads (parseReal : List UInt8 → Option F32) (h : EndsInEof toks) :
    Reads toks 0 (parseUnit parseReal toks) fun _ j =>
      toks[j]?.map Lex.Token.kind = some .eof := by
  have hpos : 0 < toks.length := by
    obtain ⟨front, last, rfl, -⟩ := h
    simp
  unfold parseUnit
  apply Reads.bind (unitLoop_reads h 0 hpos [])
  intro decls j hj hlt
  refine Reads.pure hlt ?_
  have hget : toks[j]? = some toks[j] := List.getElem?_eq_getElem hlt
  rw [hget, Option.map_some, (h.eof_iff hget).mpr hj]

/-- The tokens of `PROGRAM Main ; END_PROGRAM`. -/
def mainTokens : List Lex.Token :=
  [⟨.keyword "PROGRAM", ⟨0, 7⟩, utf8 "PROGRAM"⟩, ⟨.ident, ⟨8, 12⟩, utf8 "Main"⟩,
    ⟨.semi, ⟨13, 14⟩, utf8 ";"⟩, ⟨.keyword "END_PROGRAM", ⟨15, 26⟩, utf8 "END_PROGRAM"⟩,
    ⟨.eof, ⟨26, 26⟩, []⟩]

end SoftPlc.St.Units
