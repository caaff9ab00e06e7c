import SoftPlc.St.Lexemes

/-!
# The loop of the lexer

A round of the loop of `plc-compiler/src/lex.rs`, `lex`, passes a lexeme, reports an error, or panics
at a position that is blocked. `lex_total_iff` follows a whole run: which sources it panics on, and
what the tokens say about a source that it accepts.
-/

namespace SoftPlc.St.Lex

open SoftPlc.Lib

variable {floats : Floats}

/-! ## The cases of a round -/

theorem isDigit_iff {b : UInt8} : isDigit b = true ↔ 48 ≤ b.toNat ∧ b.toNat ≤ 57 := by
  unfold isDigit
  rw [Bool.and_eq_true, decide_eq_true_eq, decide_eq_true_eq]

theorem isAlpha_iff {b : UInt8} : isAlpha b = true ↔
    (65 ≤ b.toNat ∧ b.toNat ≤ 90) ∨ (97 ≤ b.toNat ∧ b.toNat ≤ 122) := by
  unfold isAlpha
  simp only [Bool.or_eq_true, Bool.and_eq_true, decide_eq_true_eq]

theorem byte_eq {b c : UInt8} : b = c ↔ b.toNat = c.toNat := UInt8.toNat_inj.symm

theorem isSpace_iff {b : UInt8} : isSpace b = true ↔
    b.toNat = 32 ∨ b.toNat = 9 ∨ b.toNat = 10 ∨ b.toNat = 12 ∨ b.toNat = 13 := by
  unfold isSpace
  simp only [Bool.or_eq_true, beq_iff_eq, byte_eq, or_assoc]
  rfl

theorem isWord_iff {b : UInt8} :
    isWord b = true ↔ isAlpha b = true ∨ isDigit b = true ∨ b.toNat = 95 := by
  unfold isWord
  simp only [Bool.or_eq_true, beq_iff_eq, byte_eq, or_assoc]
  rfl

theorem isTimeByte_iff {b : UInt8} : isTimeByte b = true ↔
    isAlpha b = true ∨ isDigit b = true ∨ b.toNat = 95 ∨ b.toNat = 46 ∨ b.toNat = 45 := by
  unfold isTimeByte
  simp only [Bool.or_eq_true, beq_iff_eq, byte_eq, or_assoc]
  rfl

/-- The start of a TIME literal. -/
def TimeStart (b : UInt8) (tail : List UInt8) : Prop :=
  (b = 84 ∨ b = 116) ∧ tail.head? = some 35

variable {checks : Bool} {i : ℕ} {b : UInt8} {tail : List UInt8}

theorem getElem?_one (b : UInt8) (tail : List UInt8) : (b :: tail)[1]? = tail.head? := by
  rw [List.getElem?_cons_succ, List.head?_eq_getElem?]

theorem round_space (h : isSpace b = true) :
    round floats checks i b (b :: tail) = .ok (1, none) := by
  unfold round
  rw [if_pos h]

theorem round_block (h : tail.head? = some 42) :
    round floats checks i 40 (40 :: tail) = blockComment i (40 :: tail) := by
  unfold round
  rw [if_neg (by decide), getElem?_one, h, if_pos (by decide)]

theorem round_line (h : tail.head? = some 47) :
    round floats checks i 47 (47 :: tail) = lineComment (47 :: tail) := by
  unfold round
  rw [if_neg (by decide), getElem?_one, h, if_neg (by decide), if_pos (by decide)]

theorem round_address :
    round floats checks i 37 (37 :: tail) = directAddress i (37 :: tail) := by
  unfold round
  rw [if_neg (by decide), if_neg (by simp), if_neg (by simp), if_pos rfl]

theorem round_time (h : TimeStart b tail) :
    round floats checks i b (b :: tail) = timeLiteral floats checks i (b :: tail) := by
  obtain ⟨rfl | rfl, htail⟩ := h
  · unfold round
    rw [if_neg (by decide), if_neg (by simp), if_neg (by simp), if_neg (by decide), getElem?_one,
      htail, if_pos (by decide)]
  · unfold round
    rw [if_neg (by decide), if_neg (by simp), if_neg (by simp), if_neg (by decide), getElem?_one,
      htail, if_pos (by decide)]

theorem round_number (h : isDigit b = true) :
    round floats checks i b (b :: tail) = number i (b :: tail) := by
  have hb := isDigit_iff.mp h
  have hne : ∀ c : UInt8, c.toNat < 48 ∨ 57 < c.toNat → b ≠ c := by
    rintro c hc rfl
    omega
  have hspace : ¬isSpace b = true := by
    rw [isSpace_iff]
    omega
  unfold round
  rw [if_neg hspace, if_neg (by simp [hne 40]), if_neg (by simp [hne 47]), if_neg (hne 37 (by decide)),
    if_neg (by simp [hne 84, hne 116]), if_pos h]

theorem round_word (h : isAlpha b = true ∨ b = 95) (hnot : ¬TimeStart b tail) :
    round floats checks i b (b :: tail) = word i (b :: tail) := by
  have hb : (65 ≤ b.toNat ∧ b.toNat ≤ 90) ∨ (97 ≤ b.toNat ∧ b.toNat ≤ 122) ∨ b.toNat = 95 := by
    rcases h with h | rfl
    · rcases isAlpha_iff.mp h with h | h
      · exact .inl h
      · exact .inr (.inl h)
    · exact .inr (.inr rfl)
  have hne : ∀ c : UInt8, c.toNat < 65 → b ≠ c := by
    rintro c hc rfl
    omega
  have hspace : ¬isSpace b = true := by
    rw [isSpace_iff]
    omega
  have hdigit : ¬isDigit b = true := by
    rw [isDigit_iff]
    omega
  have htime : ¬((b = 84 || b = 116) && (b :: tail)[1]? = some 35) = true := by
    rw [getElem?_one]
    simpa [TimeStart] using hnot
  unfold round
  rw [if_neg hspace, if_neg (by simp [hne 40]), if_neg (by simp [hne 47]), if_neg (hne 37 (by decide)),
    if_neg htime, if_neg hdigit, if_pos (by simpa using h)]

theorem round_symbol (h : Symbol b tail) :
    round floats checks i b (b :: tail) = operator i b (b :: tail) := by
  have hne : ∀ c : UInt8, isAlpha c = true → b ≠ c := by
    rintro c hc rfl
    rw [h.alpha] at hc
    cases hc
  have h84 := hne 84 (by decide)
  have h116 := hne 116 (by decide)
  unfold round
  rw [if_neg (by rw [h.space]; decide), getElem?_one, if_neg (by simpa using h.block),
    if_neg (by simpa using h.line), if_neg h.address, if_neg (by simp [h84, h116]),
    if_neg (by rw [h.digit]; decide), if_neg (by simp [h.alpha, h.underscore])]

/-- Every byte is in one of these cases. -/
theorem round_cases (b : UInt8) (tail : List UInt8) :
    isSpace b = true ∨ (b = 40 ∧ tail.head? = some 42) ∨ (b = 47 ∧ tail.head? = some 47) ∨ b = 37 ∨
      TimeStart b tail ∨ isDigit b = true ∨ ((isAlpha b = true ∨ b = 95) ∧ ¬TimeStart b tail) ∨
        Symbol b tail := by
  by_cases hspace : isSpace b = true
  · exact .inl hspace
  by_cases hblock : b = 40 ∧ tail.head? = some 42
  · exact .inr (.inl hblock)
  by_cases hline : b = 47 ∧ tail.head? = some 47
  · exact .inr (.inr (.inl hline))
  by_cases haddress : b = 37
  · exact .inr (.inr (.inr (.inl haddress)))
  by_cases htime : TimeStart b tail
  · exact .inr (.inr (.inr (.inr (.inl htime))))
  by_cases hdigit : isDigit b = true
  · exact .inr (.inr (.inr (.inr (.inr (.inl hdigit)))))
  by_cases hword : isAlpha b = true ∨ b = 95
  · exact .inr (.inr (.inr (.inr (.inr (.inr (.inl ⟨hword, htime⟩))))))
  · obtain ⟨halpha, hunderscore⟩ := not_or.mp hword
    exact .inr (.inr (.inr (.inr (.inr (.inr (.inr ⟨by simpa using hspace, hblock, hline, haddress,
      by simpa using hdigit, by simpa using halpha, hunderscore⟩))))))

/-! ## After a lexeme -/

theorem isDigit_ascii {b : UInt8} (h : isDigit b = true) : b.toNat < 128 := by
  have hb := isDigit_iff.mp h
  omega

theorem isWord_ascii {b : UInt8} (h : isWord b = true) : b.toNat < 128 := by
  have hb := isWord_iff.mp h
  rw [isAlpha_iff, isDigit_iff] at hb
  omega

theorem isTimeByte_ascii {b : UInt8} (h : isTimeByte b = true) : b.toNat < 128 := by
  have hb := isTimeByte_iff.mp h
  rw [isAlpha_iff, isDigit_iff] at hb
  omega

theorem oneByte_ascii {b : UInt8} {kind : TokenKind} (h : oneByte b = some kind) : b.toNat < 128 := by
  unfold oneByte at h
  split at h
  all_goals first
    | omega
    | cases h

/-- The operators of two bytes. -/
theorem twoByte_cases {b c : UInt8} {kind : TokenKind} (h : twoByte [b, c] = some kind) :
    (b = 58 ∧ c = 61) ∨ (b = 61 ∧ c = 62) ∨ (b = 60 ∧ c = 62) ∨ (b = 60 ∧ c = 61) ∨
      (b = 62 ∧ c = 61) ∨ (b = 46 ∧ c = 46) := by
  unfold twoByte at h
  split at h
  all_goals
    rename_i heq
    simp only [List.cons.injEq, and_true] at heq
  · exact .inl heq
  · exact .inr (.inl heq)
  · exact .inr (.inr (.inl heq))
  · exact .inr (.inr (.inr (.inl heq)))
  · exact .inr (.inr (.inr (.inr (.inl heq))))
  · exact .inr (.inr (.inr (.inr (.inr heq))))
  · cases h

theorem exponent_ascii {ex rest : List UInt8} (h : Exponent ex rest) : ∀ b ∈ ex, b.toNat < 128 := by
  cases h with
  | none => exact fun b hb => by cases hb
  | signed he hsign hds =>
      intro b hb
      rcases List.mem_cons.mp hb with rfl | hb
      · rcases he with rfl | rfl <;> decide
      · rcases List.mem_cons.mp hb with rfl | hb
        · rcases hsign with rfl | rfl <;> decide
        · exact isDigit_ascii (hds.all b hb)
  | unsigned he _ hds =>
      intro b hb
      rcases List.mem_cons.mp hb with rfl | hb
      · rcases he with rfl | rfl <;> decide
      · exact isDigit_ascii (hds.all b hb)

theorem number_ascii {isReal : Bool} {x rest : List UInt8} (h : Number isReal x rest) :
    ∀ b ∈ x, b.toNat < 128 := by
  cases h with
  | int _ hds => exact fun b hb => isDigit_ascii (hds.all b hb)
  | real _ hds _ hfs hex =>
      intro b hb
      rcases List.mem_append.mp hb with hb | hb
      · exact isDigit_ascii (hds b hb)
      · rcases List.mem_cons.mp hb with rfl | hb
        · decide
        · rcases List.mem_append.mp hb with hb | hb
          · exact isDigit_ascii (hfs.all b hb)
          · exact exponent_ascii hex b hb

theorem number_ne_nil {isReal : Bool} {x rest : List UInt8} (h : Number isReal x rest) : x ≠ [] := by
  cases h with
  | int hne => exact hne
  | real => simp

/-- A character starts after a TIME literal. -/
theorem timeBody_clean {t : UInt8} {body rest : List UInt8} (ht : t = 84 ∨ t = 116)
    (hbody : Stretch isTimeByte body rest) (hclean : Clean (t :: 35 :: body ++ rest)) :
    Clean rest := by
  apply hclean.after
  apply all_getLast?
  intro c hc
  rcases List.mem_cons.mp hc with rfl | hc
  · rcases ht with rfl | rfl <;> decide
  · rcases List.mem_cons.mp hc with rfl | hc
    · decide
    · exact isTimeByte_ascii (hbody.all c hc)

/-- **After a lexeme a character starts.** -/
theorem Lexeme.clean {x rest : List UInt8} (h : Lexeme floats x rest) (hclean : Clean (x ++ rest)) :
    Clean rest := by
  cases h with
  | gap h =>
      cases h with
      | @space b _ h =>
          apply hclean.after
          intro c hc
          obtain rfl : b = c := Option.some.inj hc
          have hb := isSpace_iff.mp h
          omega
      | block h =>
          apply hclean.after
          intro c hc
          rw [← List.append_assoc, List.getLast?_append] at hc
          cases hc
          decide
      | line h =>
          apply hclean.before
          intro c hc
          have hten := h.stop c hc
          have hc' : c = 10 := by simpa using hten
          rw [hc']
          decide
  | @address plane ds rest hplane hne hds =>
      apply hclean.after
      intro c hc
      rcases List.eq_nil_or_concat' ds with rfl | ⟨ds, d, rfl⟩
      · exact absurd rfl hne
      · rw [← List.cons_append, ← List.cons_append, List.getLast?_concat] at hc
        obtain rfl : d = c := Option.some.inj hc
        exact isDigit_ascii (hds.all d (by simp))
  | time ht hbody hms => exact timeBody_clean ht hbody hclean
  | number h => exact hclean.after (all_getLast? (number_ascii h))
  | word hb hws hnot =>
      apply hclean.after
      apply all_getLast?
      intro c hc
      rcases List.mem_cons.mp hc with rfl | hc
      · apply isWord_ascii
        rw [isWord_iff]
        rcases hb with hb | rfl
        · exact .inl hb
        · exact .inr (.inr rfl)
      · exact isWord_ascii (hws.all c hc)
  | two h =>
      apply hclean.after
      apply all_getLast?
      intro c hc
      rcases twoByte_cases h with ⟨rfl, rfl⟩ | ⟨rfl, rfl⟩ | ⟨rfl, rfl⟩ | ⟨rfl, rfl⟩ | ⟨rfl, rfl⟩ |
        ⟨rfl, rfl⟩
      all_goals
        simp only [List.mem_cons, List.not_mem_nil, or_false] at hc
        rcases hc with rfl | rfl <;> decide
  | one _ h =>
      apply hclean.after
      intro c hc
      cases hc
      exact oneByte_ascii h

/-! ## What one round does -/

/-- The token of a lexeme. -/
structure TokenOf (i : ℕ) (x : List UInt8) (t : Token) : Prop where
  span : t.span = ⟨i, i + x.length⟩
  kind : t.kind ≠ .eof
  text : t.kind ≠ .timeLit → t.kind ≠ .directAddr → t.text = x

/-- What a round passes. -/
inductive Passes (floats : Floats) (i : ℕ) : List UInt8 → ℕ × Option Token → Prop
  | gap {x rest : List UInt8} (h : GapPart x rest) (hne : x ≠ []) :
      Passes floats i (x ++ rest) (x.length, none)
  | token {x rest : List UInt8} {t : Token} (h : Lexeme floats x rest) (hne : x ≠ [])
      (ht : TokenOf i x t) : Passes floats i (x ++ rest) (x.length, some t)

/-- The two bytes from here on end inside of a character. -/
def Splits (bytes : List UInt8) : Prop :=
  ∃ b c d more, bytes = b :: c :: d :: more ∧ Symbol b (c :: d :: more) ∧ isContinuation d = true

/-- A TIME literal of which a partial sum is no `i64`. -/
def TimeOverflows (floats : Floats) (bytes : List UInt8) : Prop :=
  ∃ t body rest, bytes = t :: 35 :: (body ++ rest) ∧ (t = 84 ∨ t = 116) ∧
    Stretch isTimeByte body rest ∧ Overflows floats body

/-- Where the lexer panics. -/
def Blocked (floats : Floats) (checks : Bool) (bytes : List UInt8) : Prop :=
  Splits bytes ∨ (checks = true ∧ TimeOverflows floats bytes)

section Token

variable {x rest : List UInt8}

theorem token_append (hclean : Clean (x ++ rest)) (hrest : Clean rest) (kind : TokenKind) :
    token i (x ++ rest) x.length kind =
      .ok (x.length, some ⟨kind, ⟨i, i + x.length⟩, x⟩) := by
  unfold token
  rw [slice_front hclean hrest]
  rfl

theorem number_append {isReal : Bool} (h : Number isReal x rest) (hclean : Clean (x ++ rest))
    (hrest : Clean rest) : number i (x ++ rest) = .ok (x.length,
      some ⟨if isReal then .realLit else .intLit, ⟨i, i + x.length⟩, x⟩) := by
  unfold number
  rw [numberLen_append h]
  exact token_append hclean hrest _

theorem word_append {ws : List UInt8} (hws : Stretch isWord ws rest)
    (hclean : Clean (b :: ws ++ rest)) (hrest : Clean rest) :
    ∃ kind, kind ≠ .eof ∧ word i (b :: ws ++ rest) =
      .ok ((b :: ws).length, some ⟨kind, ⟨i, i + (b :: ws).length⟩, b :: ws⟩) := by
  have hlen : 1 + (((b :: ws ++ rest).drop 1).takeWhile isWord).length = (b :: ws).length := by
    show 1 + ((ws ++ rest).takeWhile isWord).length = _
    rw [stretch_takeWhile hws, List.length_cons, Nat.add_comm]
  unfold word
  dsimp only
  rw [hlen, show slice (b :: ws ++ rest) 0 (b :: ws).length = _ from slice_front hclean hrest]
  rcases hkw : keywordLookup (b :: ws) with _ | kw
  · refine ⟨.ident, by simp, ?_⟩
    simp only [bind, Except.bind, hkw]
  · refine ⟨.keyword kw, by simp, ?_⟩
    simp only [bind, Except.bind, hkw]

end Token

section Rounds

variable {x rest : List UInt8}

theorem directAddress_append {plane : UInt8} {ds : List UInt8}
    (hplane : toUpper plane ∈ [73, 81, 77, 82]) (hne : ds ≠ []) (hds : Stretch isDigit ds rest)
    (hclean : Clean (37 :: plane :: ds ++ rest)) (hrest : Clean rest) :
    directAddress i (37 :: plane :: ds ++ rest) = .ok ((37 :: plane :: ds).length,
      some ⟨.directAddr, ⟨i, i + (37 :: plane :: ds).length⟩, [toUpper plane, 58] ++ ds⟩) := by
  have hlen : (((37 :: plane :: ds ++ rest).drop 2).takeWhile isDigit).length = ds.length := by
    show ((ds ++ rest).takeWhile isDigit).length = _
    rw [stretch_takeWhile hds]
  have hstart : atBoundary (ds ++ rest) = true := by
    obtain ⟨d, ds', rfl⟩ := List.exists_cons_of_ne_nil hne
    have hd := isDigit_iff.mp (hds.all d List.mem_cons_self)
    have hnot : ¬128 ≤ d.toNat := by omega
    rw [List.cons_append, atBoundary_cons, isContinuation]
    simp [hnot]
  have hslice := slice_append (x := [37, plane]) hstart hrest.boundary
  have hpos : ds.length ≠ 0 := fun h => hne (List.length_eq_zero_iff.mp h)
  have hgood : ¬(!(toUpper plane == 73 || toUpper plane == 81 || toUpper plane == 77 ||
      toUpper plane == 82)) = true := by
    simp only [List.mem_cons, List.not_mem_nil, or_false] at hplane
    rcases hplane with h | h | h | h
    all_goals
      rw [h]
      decide
  unfold directAddress
  rw [show (37 :: plane :: ds ++ rest)[1]? = some plane from rfl]
  dsimp only
  rw [if_neg hgood, hlen, if_neg hpos, show slice (37 :: plane :: ds ++ rest) 2 (2 + ds.length) = _ from
    hslice]
  show Except.ok (2 + ds.length, _) = _
  rw [List.length_cons, List.length_cons, Nat.add_comm 2, Nat.add_assoc]

theorem blockComment_append {body : List UInt8} (h : Unclosed body) :
    blockComment i ([40, 42] ++ (body ++ [42, 41]) ++ rest) =
      .ok (([40, 42] ++ (body ++ [42, 41])).length, none) := by
  have hdrop : ([40, 42] ++ (body ++ [42, 41]) ++ rest).drop 2 = body ++ 42 :: 41 :: rest := by
    rw [List.append_assoc, List.append_assoc]
    rfl
  unfold blockComment
  have hlen : ([40, 42] ++ (body ++ [42, 41])).length = 2 + (body.length + 2) := by
    rw [List.length_append, List.length_append]
    rfl
  rw [hdrop, blockEnd_append h rest, hlen]

theorem lineComment_append {body : List UInt8} (h : Stretch (· != 10) body rest) :
    lineComment ([47, 47] ++ body ++ rest) = .ok (([47, 47] ++ body).length, none) := by
  have hwhole : Stretch (· != 10) ([47, 47] ++ body) rest := by
    refine ⟨?_, h.stop⟩
    intro c hc
    rcases List.mem_append.mp hc with hc | hc
    · simp only [List.mem_cons, List.not_mem_nil, or_false, or_self] at hc
      rw [hc]
      decide
    · exact h.all c hc
  unfold lineComment
  rw [stretch_takeWhile hwhole]

theorem timeLiteral_append {t : UInt8} {body : List UInt8} (hbody : Stretch isTimeByte body rest)
    (hclean : Clean (t :: 35 :: body ++ rest)) (hrest : Clean rest) :
    timeLiteral floats checks i (t :: 35 :: body ++ rest) =
      match parseTimeLiteral floats checks body with
      | .error none => .error .panic
      | .error (some m) => reject m ⟨i, i + (2 + body.length)⟩
      | .ok ms => .ok (2 + body.length,
          some ⟨.timeLit, ⟨i, i + (2 + body.length)⟩, decimal ms⟩) := by
  have hlen : (((t :: 35 :: body ++ rest).drop 2).takeWhile isTimeByte).length = body.length := by
    show ((body ++ rest).takeWhile isTimeByte).length = _
    rw [stretch_takeWhile hbody]
  have hafter : Clean (body ++ rest) :=
    Clean.after (x := [t, 35]) hclean fun b hb => by
      obtain rfl : 35 = b := Option.some.inj hb
      decide
  have hslice := slice_append (x := [t, 35]) hafter.boundary hrest.boundary
  unfold timeLiteral
  dsimp only
  rw [hlen, show slice (t :: 35 :: body ++ rest) 2 (2 + body.length) = _ from hslice]
  rfl

/-- Where two bytes end inside of a character. -/
theorem operator_panics {b c d : UInt8} {more : List UInt8} (h : isContinuation d = true) :
    operator i b (b :: c :: d :: more) = .error .panic := by
  have hslice : slice (b :: c :: d :: more) 0 2 = .error .panic := by
    apply slice_panics
    show (!isContinuation d) = false
    rw [h]
    rfl
  unfold operator
  rw [if_pos (by simp), hslice]
  rfl

/-- Where they do not. -/
theorem operator_two {b c : UInt8} (hclean : Clean ([b, c] ++ rest)) (hrest : atBoundary rest = true) :
    operator i b ([b, c] ++ rest) = match twoByte [b, c] with
      | some kind => token i ([b, c] ++ rest) 2 kind
      | none =>
          match oneByte b with
          | some kind => token i ([b, c] ++ rest) 1 kind
          | none => reject ("unexpected character " ++ debugChar b) (.at_ i) := by
  have hslice := slice_append (x := []) hclean.boundary hrest
  unfold operator
  rw [if_pos (by simp), show slice ([b, c] ++ rest) 0 2 = .ok [b, c] from hslice]
  rfl

theorem operator_last {b : UInt8} : operator i b [b] = match oneByte b with
    | some kind => token i [b] 1 kind
    | none => reject ("unexpected character " ++ debugChar b) (.at_ i) := rfl

theorem token_one {b : UInt8} {kind kind' : TokenKind} (h : oneByte b = some kind')
    (hclean : Clean ([b] ++ rest)) :
    token i ([b] ++ rest) 1 kind = .ok (1, some ⟨kind, ⟨i, i + 1⟩, [b]⟩) := by
  have hrest : Clean rest := hclean.after fun c hc => by
    obtain rfl : b = c := Option.some.inj hc
    exact oneByte_ascii h
  exact token_append hclean hrest kind

theorem oneByte_ne_eof {b : UInt8} {kind : TokenKind} (h : oneByte b = some kind) : kind ≠ .eof := by
  unfold oneByte at h
  split at h
  all_goals
    cases h
    try exact fun h => by cases h

theorem twoByte_ne_eof {l : List UInt8} {kind : TokenKind} (h : twoByte l = some kind) :
    kind ≠ .eof := by
  unfold twoByte at h
  split at h
  all_goals
    cases h
    try exact fun h => by cases h

/-- **A round passes a lexeme**, unless it panics there. -/
theorem round_lexeme {b : UInt8} {tail : List UInt8} (h : Lexeme floats x rest)
    (heq : x ++ rest = b :: tail) (hclean : Clean (x ++ rest))
    (hblocked : ¬Blocked floats checks (x ++ rest)) :
    ∃ t, round floats checks i b (x ++ rest) = .ok (x.length, t) := by
  have hrest := h.clean hclean
  cases h with
  | gap h =>
      cases h with
      | space h =>
          cases heq
          exact ⟨none, round_space h⟩
      | block h =>
          obtain ⟨rfl, htail⟩ := List.cons.inj heq
          rw [heq]
          refine ⟨none, (round_block (by rw [← htail]; rfl)).trans ?_⟩
          rw [← heq]
          exact blockComment_append h
      | line h =>
          obtain ⟨rfl, htail⟩ := List.cons.inj heq
          rw [heq]
          refine ⟨none, (round_line (by rw [← htail]; rfl)).trans ?_⟩
          rw [← heq]
          exact lineComment_append h
  | address hplane hne hds =>
      cases heq
      exact ⟨_, round_address.trans (directAddress_append hplane hne hds hclean hrest)⟩
  | @time t body rest ms ht hbody hms =>
      cases heq
      have hvalue : parseTimeLiteral floats checks body = .ok ms := by
        rcases @parseTimeLiteral_cases floats checks body with ⟨hchecks, hover, -⟩ | hsame
        · exact absurd (.inr ⟨hchecks, _, body, rest, rfl, ht, hbody, hover⟩) hblocked
        · rw [hsame]
          exact timeText_iff.mp hms
      have hrun : timeLiteral floats checks i (b :: 35 :: body ++ rest) = _ :=
        timeLiteral_append hbody hclean hrest
      rw [hvalue] at hrun
      have hlen : (b :: 35 :: body).length = 2 + body.length := by
        rw [List.length_cons, List.length_cons, Nat.add_comm 2]
      rw [hlen]
      exact ⟨_, (round_time ⟨ht, rfl⟩).trans hrun⟩
  | number h =>
      have hdigit : isDigit b = true := by
        cases h with
        | int hne hds =>
            obtain ⟨d, ds, rfl⟩ := List.exists_cons_of_ne_nil hne
            cases heq
            exact hds.all b List.mem_cons_self
        | real hne hds =>
            obtain ⟨d, ds, rfl⟩ := List.exists_cons_of_ne_nil hne
            cases heq
            exact hds b List.mem_cons_self
      have hrun := number_append (i := i) h hclean hrest
      rw [heq] at hrun ⊢
      exact ⟨_, (round_number hdigit).trans hrun⟩
  | word hb hws hnot =>
      cases heq
      obtain ⟨kind, -, hrun⟩ := word_append (i := i) hws hclean hrest
      exact ⟨_, (round_word hb hnot).trans hrun⟩
  | @two b' c kind rest h =>
      cases heq
      have hsymbol : Symbol b (c :: rest) := by
        rcases twoByte_cases h with ⟨rfl, rfl⟩ | ⟨rfl, rfl⟩ | ⟨rfl, rfl⟩ | ⟨rfl, rfl⟩ | ⟨rfl, rfl⟩ |
          ⟨rfl, rfl⟩
        all_goals exact ⟨by decide, by simp, by simp, by decide, by decide, by decide, by decide⟩
      have hrun := token_append (i := i) hclean hrest kind
      refine ⟨_, (round_symbol hsymbol).trans (Eq.trans ?_ hrun)⟩
      refine (operator_two hclean hrest.boundary).trans ?_
      rw [h]
      rfl
  | @one b' kind rest hb h hnot =>
      cases heq
      refine ⟨some ⟨kind, ⟨i, i + 1⟩, [b]⟩, (round_symbol hb).trans ?_⟩
      rcases rest with _ | ⟨c, rest⟩
      · rw [operator_last, h]
        exact token_one h hclean
      · have hboundary : atBoundary rest = true := by
          rcases rest with _ | ⟨d, rest⟩
          · rfl
          · by_contra hd
            apply hblocked
            refine .inl ⟨b, c, d, rest, rfl, hb, ?_⟩
            rw [atBoundary_cons] at hd
            simpa using hd
        refine (@operator_two i rest b c hclean hboundary).trans ?_
        rw [hnot c rfl, h]
        exact @token_one i (c :: rest) b kind kind h hclean

/-- Where it panics. -/
theorem round_blocked {b : UInt8} {tail : List UInt8} (hclean : Clean (b :: tail))
    (h : Blocked floats checks (b :: tail)) :
    round floats checks i b (b :: tail) = .error .panic := by
  rcases h with ⟨b', c, d, more, heq, hsymbol, hd⟩ | ⟨hchecks, t, body, rest, heq, ht, hbody, hover⟩
  · cases heq
    exact (round_symbol hsymbol).trans (operator_panics hd)
  · obtain ⟨rfl, rfl⟩ := List.cons.inj heq
    have hrun : timeLiteral floats checks i (b :: 35 :: body ++ rest) = _ :=
      timeLiteral_append hbody hclean (timeBody_clean ht hbody hclean)
    rcases @parseTimeLiteral_checks floats body with ⟨-, hpanic⟩ | ⟨hnot, -⟩
    · rw [hchecks] at hrun ⊢
      rw [hpanic] at hrun
      exact (round_time ⟨ht, rfl⟩).trans hrun
    · exact absurd hover hnot

/-- What a round may do. -/
def Allowed (floats : Floats) (checks : Bool) (i : ℕ) (bytes : List UInt8) : Passed → Prop
  | .ok r => Passes floats i bytes r
  | .error .panic => Blocked floats checks bytes
  | .error (.err _) => True
  | .error .outOfRounds => False

theorem allowed_token {t : Token} (hlexeme : Lexeme floats x rest) (hne : x ≠ [])
    (hspan : t.span = ⟨i, i + x.length⟩) (hkind : t.kind ≠ .eof)
    (htext : t.kind ≠ .timeLit → t.kind ≠ .directAddr → t.text = x) :
    Allowed floats checks i (x ++ rest) (.ok (x.length, some t)) :=
  .token hlexeme hne ⟨hspan, hkind, htext⟩

theorem allowed_block {tail : List UInt8} :
    Allowed floats checks i (40 :: 42 :: tail) (blockComment i (40 :: 42 :: tail)) := by
  rcases hend : blockEnd tail with _ | n
  · unfold blockComment
    rw [show (40 :: 42 :: tail).drop 2 = tail from rfl, hend]
    exact trivial
  · obtain ⟨body, rest, rfl, hbody, -⟩ := blockEnd_some hend
    have hshape : 40 :: 42 :: (body ++ 42 :: 41 :: rest) = [40, 42] ++ (body ++ [42, 41]) ++ rest := by
      simp
    rw [hshape, blockComment_append hbody]
    exact .gap (.block hbody) (by simp)

theorem allowed_line {tail : List UInt8} :
    Allowed floats checks i (47 :: 47 :: tail) (lineComment (47 :: 47 :: tail)) := by
  obtain ⟨body, rest, rfl, hbody, -⟩ := stretch_split (· != 10) tail
  have hrun := lineComment_append hbody
  rw [show 47 :: 47 :: (body ++ rest) = [47, 47] ++ body ++ rest from rfl, hrun]
  exact .gap (.line hbody) (by simp)

theorem allowed_address {tail : List UInt8} (hclean : Clean (37 :: tail)) :
    Allowed floats checks i (37 :: tail) (directAddress i (37 :: tail)) := by
  rcases tail with _ | ⟨plane, tail⟩
  · exact trivial
  · by_cases hplane : toUpper plane ∈ [73, 81, 77, 82]
    · obtain ⟨ds, rest, rfl, hds, hwhile⟩ := stretch_split isDigit tail
      by_cases hne : ds = []
      · have hzero : (((37 :: plane :: (ds ++ rest)).drop 2).takeWhile isDigit).length = 0 := by
          rw [show (37 :: plane :: (ds ++ rest)).drop 2 = ds ++ rest from rfl, hwhile, hne]
          rfl
        unfold directAddress
        rw [show (37 :: plane :: (ds ++ rest))[1]? = some plane from rfl]
        dsimp only
        rw [hzero, if_pos rfl]
        split_ifs
        · exact trivial
        · exact trivial
      · have hlexeme : Lexeme floats (37 :: plane :: ds) rest := .address hplane hne hds
        have hrun := directAddress_append (i := i) hplane hne hds hclean (hlexeme.clean hclean)
        rw [show 37 :: plane :: (ds ++ rest) = 37 :: plane :: ds ++ rest from rfl, hrun]
        exact allowed_token hlexeme (by simp) rfl (by simp) fun _ h => absurd rfl h
    · have hbad : (!(toUpper plane == 73 || toUpper plane == 81 || toUpper plane == 77 ||
          toUpper plane == 82)) = true := by
        simpa [and_assoc] using hplane
      unfold directAddress
      rw [show (37 :: plane :: tail)[1]? = some plane from rfl]
      dsimp only
      rw [if_pos hbad]
      exact trivial

theorem allowed_time {t : UInt8} {tail : List UInt8} (ht : t = 84 ∨ t = 116)
    (hclean : Clean (t :: 35 :: tail)) :
    Allowed floats checks i (t :: 35 :: tail) (timeLiteral floats checks i (t :: 35 :: tail)) := by
  obtain ⟨body, rest, rfl, hbody, -⟩ := stretch_split isTimeByte tail
  have hrun : timeLiteral floats checks i (t :: 35 :: body ++ rest) = _ :=
    timeLiteral_append hbody hclean (timeBody_clean ht hbody hclean)
  have hok : ∀ ms, parseTimeLiteral floats false body = .ok ms → Allowed floats checks i
      (t :: 35 :: body ++ rest) (.ok (2 + body.length,
        some ⟨.timeLit, ⟨i, i + (2 + body.length)⟩, decimal ms⟩)) := by
    intro ms hms
    have hlen : 2 + body.length = (t :: 35 :: body).length := by
      rw [List.length_cons, List.length_cons, Nat.add_comm 2]
    rw [hlen]
    exact allowed_token (.time ht hbody (timeText_iff.mpr hms)) (by simp) rfl (by simp) fun h _ => absurd rfl h
  show Allowed floats checks i (t :: 35 :: body ++ rest)
    (timeLiteral floats checks i (t :: 35 :: body ++ rest))
  rw [hrun]
  rcases @parseTimeLiteral_cases floats checks body with ⟨hchecks, hover, hpanic⟩ | hvalue
  · rw [hpanic]
    exact .inr ⟨hchecks, t, body, rest, rfl, ht, hbody, hover⟩
  · rw [hvalue]
    rcases hms : parseTimeLiteral floats false body with (_ | m) | ms
    · exact absurd hms (parseTimeLiteral_unchecked body)
    · exact trivial
    · exact hok ms hms

theorem allowed_symbol {b : UInt8} {tail : List UInt8} (h : Symbol b tail)
    (hclean : Clean (b :: tail)) :
    Allowed floats checks i (b :: tail) (operator i b (b :: tail)) := by
  rcases tail with _ | ⟨c, tail⟩
  · rw [operator_last]
    rcases hone : oneByte b with _ | kind
    · exact trivial
    · have hlexeme : Lexeme floats [b] [] := .one h hone fun c hc => by cases hc
      show Allowed floats checks i [b] (token i [b] 1 kind)
      rw [show token i [b] 1 kind = _ from token_one hone hclean]
      exact allowed_token hlexeme (by simp) rfl (oneByte_ne_eof hone) fun _ _ => rfl
  · by_cases hboundary : atBoundary tail = true
    · rw [show operator i b (b :: c :: tail) = _ from operator_two hclean hboundary]
      rcases htwo : twoByte [b, c] with _ | kind
      · rcases hone : oneByte b with _ | kind
        · exact trivial
        · have hlexeme : Lexeme floats [b] (c :: tail) := by
            apply Lexeme.one h hone
            intro d hd
            cases hd
            exact htwo
          have hrun := @token_one i (c :: tail) b kind kind hone hclean
          show Allowed floats checks i ([b] ++ c :: tail) (token i ([b] ++ c :: tail) 1 kind)
          rw [hrun]
          exact allowed_token hlexeme (by simp) rfl (oneByte_ne_eof hone) fun _ _ => rfl
      · have hlexeme : Lexeme floats [b, c] tail := .two htwo
        have hrun := @token_append i [b, c] tail hclean (hlexeme.clean hclean) kind
        show Allowed floats checks i ([b, c] ++ tail) (token i ([b, c] ++ tail) 2 kind)
        rw [show token i ([b, c] ++ tail) 2 kind = _ from hrun]
        exact allowed_token hlexeme (by simp) rfl (twoByte_ne_eof htwo) fun _ _ => rfl
    · rcases tail with _ | ⟨d, tail⟩
      · exact absurd rfl hboundary
      · have hd : isContinuation d = true := by
          rw [atBoundary_cons] at hboundary
          simpa using hboundary
        rw [operator_panics hd]
        exact .inl ⟨b, c, d, tail, rfl, h, hd⟩

/-- **What a round does**: it passes a lexeme, or reports an error, or panics where it is blocked. -/
theorem round_allowed {b : UInt8} {tail : List UInt8} (hclean : Clean (b :: tail)) :
    Allowed floats checks i (b :: tail) (round floats checks i b (b :: tail)) := by
  rcases round_cases b tail with hspace | ⟨rfl, hblock⟩ | ⟨rfl, hline⟩ | rfl | htime | hdigit |
    ⟨hword, hnot⟩ | hsymbol
  · rw [round_space hspace]
    exact @Passes.gap floats i [b] tail (.space hspace) (by simp)
  · rw [round_block hblock]
    obtain ⟨tail, rfl⟩ := List.head?_eq_some_iff.mp hblock
    exact allowed_block
  · rw [round_line hline]
    obtain ⟨tail, rfl⟩ := List.head?_eq_some_iff.mp hline
    exact allowed_line
  · rw [round_address]
    exact allowed_address hclean
  · rw [round_time htime]
    obtain ⟨ht, hhash⟩ := htime
    obtain ⟨tail, rfl⟩ := List.head?_eq_some_iff.mp hhash
    exact allowed_time ht hclean
  · rw [round_number hdigit]
    obtain ⟨isReal, x, rest, heq, hnumber⟩ := number_split hdigit tail
    rw [heq] at hclean ⊢
    have hlexeme : Lexeme floats x rest := .number hnumber
    rw [number_append hnumber hclean (hlexeme.clean hclean)]
    refine allowed_token hlexeme (number_ne_nil hnumber) rfl ?_ fun _ _ => rfl
    cases isReal
    · exact fun h => by cases h
    · exact fun h => by cases h
  · rw [round_word hword hnot]
    obtain ⟨ws, rest, rfl, hws, -⟩ := stretch_split isWord tail
    have hlexeme : Lexeme floats (b :: ws) rest := .word hword hws hnot
    obtain ⟨kind, hkind, hrun⟩ := word_append (i := i) hws hclean (hlexeme.clean hclean)
    rw [show word i (b :: (ws ++ rest)) = _ from hrun]
    exact allowed_token hlexeme (by simp) rfl hkind fun _ _ => rfl
  · rw [round_symbol hsymbol]
    exact allowed_symbol hsymbol hclean

end Rounds

/-! ## What tokens say about a source -/

/-- White space and comments one after the other, with the bytes after them. -/
inductive Gap : List UInt8 → List UInt8 → Prop
  | nil {rest : List UInt8} : Gap [] rest
  | cons {x y rest : List UInt8} (h : GapPart x (y ++ rest)) (hy : Gap y rest) : Gap (x ++ y) rest

/-- The bytes of a source in front of each token, from position `i` or the token before it on, are
white space and comments. -/
def GapsBetween (source : List UInt8) : ℕ → List Token → Prop
  | _, [] => True
  | i, t :: ts =>
      Gap ((source.drop i).take (t.span.start - i)) (source.drop t.span.start) ∧
        GapsBetween source t.span.stop ts

/-- Tokens that a source has: their spans are disjoint and in order, only white space and comments
are between them, the end of the source is the last of them, and each but the literals with a text
of their own has its slice of the source. -/
structure Faithful (source : List UInt8) (ts : List Token) : Prop where
  order : ts.Pairwise fun s t => s.span.start < t.span.start ∧ s.span.stop ≤ t.span.start
  inside : ∀ t ∈ ts, t.span.start ≤ t.span.stop ∧ t.span.stop ≤ source.length
  gaps : GapsBetween source 0 ts
  last : ts.getLast? = some ⟨.eof, .at_ source.length, []⟩
  text : ∀ t ∈ ts, t.kind ≠ .timeLit → t.kind ≠ .directAddr → t.kind ≠ .eof →
    t.text = (source.drop t.span.start).take (t.span.stop - t.span.start)

/-- Tokens of bytes from position `i` on, one after the other. -/
inductive Covered : ℕ → List UInt8 → List Token → Prop
  | eof {i : ℕ} {g : List UInt8} (hg : Gap g []) :
      Covered i g [⟨.eof, .at_ (i + g.length), []⟩]
  | token {i : ℕ} {g x rest : List UInt8} {t : Token} {ts : List Token} (hg : Gap g (x ++ rest))
      (hne : x ≠ []) (ht : TokenOf (i + g.length) x t)
      (hts : Covered (i + g.length + x.length) rest ts) : Covered i (g ++ (x ++ rest)) (t :: ts)

section Covered

variable {bytes : List UInt8} {ts : List Token}

/-- A gap in front. -/
theorem Covered.after_gap {x rest : List UInt8} (hx : GapPart x rest)
    (h : Covered (i + x.length) rest ts) : Covered i (x ++ rest) ts := by
  cases h with
  | @eof _ g hg =>
      have hgap : Gap (x ++ rest) [] := .cons (by rwa [List.append_nil]) hg
      have hcovered := @Covered.eof i _ hgap
      rwa [List.length_append, ← Nat.add_assoc] at hcovered
  | @token _ g y rest t ts hg hne ht hts =>
      have hlen : i + x.length + g.length = i + (x ++ g).length := by
        rw [List.length_append, Nat.add_assoc]
      rw [hlen] at ht hts
      rw [← List.append_assoc]
      exact .token (.cons hx hg) hne ht hts

theorem Covered.after_token {x rest : List UInt8} {t : Token} (hne : x ≠ []) (ht : TokenOf i x t)
    (h : Covered (i + x.length) rest ts) : Covered i (x ++ rest) (t :: ts) :=
  .token (g := []) .nil hne ht h

theorem Covered.inside (h : Covered i bytes ts) :
    ∀ t ∈ ts, i ≤ t.span.start ∧ t.span.start ≤ t.span.stop ∧ t.span.stop ≤ i + bytes.length := by
  induction h with
  | @eof i g hg =>
      intro t ht
      rw [List.mem_singleton.mp ht]
      exact ⟨Nat.le_add_right _ _, le_refl _, le_refl _⟩
  | @token i g x rest t ts hg hne ht hts ih =>
      intro t' ht'
      rw [List.length_append, List.length_append]
      rcases List.mem_cons.mp ht' with rfl | ht'
      · rw [ht.span]
        dsimp only
        omega
      · have hinside := ih t' ht'
        omega

theorem Covered.order (h : Covered i bytes ts) :
    ts.Pairwise fun s t => s.span.start < t.span.start ∧ s.span.stop ≤ t.span.start := by
  induction h with
  | eof hg => exact List.pairwise_singleton _ _
  | @token i g x rest t ts hg hne ht hts ih =>
      rw [List.pairwise_cons]
      refine ⟨?_, ih⟩
      intro t' ht'
      have hinside := hts.inside t' ht'
      have hpos := List.length_pos_iff.mpr hne
      rw [ht.span]
      dsimp only
      omega

theorem Covered.last (h : Covered i bytes ts) :
    ts.getLast? = some ⟨.eof, .at_ (i + bytes.length), []⟩ := by
  induction h with
  | eof hg => rfl
  | @token i g x rest t ts hg hne ht hts ih =>
      have hts' : ts ≠ [] := by
        rintro rfl
        cases ih
      rw [List.getLast?_cons_of_ne_nil hts', ih, List.length_append, List.length_append]
      simp only [Nat.add_assoc]

theorem Covered.gaps (h : Covered i bytes ts) {pre : List UInt8} (hpre : pre.length = i) :
    GapsBetween (pre ++ bytes) i ts := by
  induction h generalizing pre with
  | @eof i g hg =>
      refine ⟨?_, trivial⟩
      subst hpre
      show Gap (((pre ++ g).drop pre.length).take (pre.length + g.length - pre.length))
        ((pre ++ g).drop (pre.length + g.length))
      rw [List.drop_left, Nat.add_sub_cancel_left, List.take_length, ← List.length_append,
        List.drop_length]
      exact hg
  | @token i g x rest t ts hg hne ht hts ih =>
      subst hpre
      refine ⟨?_, ?_⟩
      · rw [ht.span]
        dsimp only
        rw [List.drop_left, Nat.add_sub_cancel_left, List.take_left, ← List.drop_drop,
          List.drop_left, List.drop_left]
        exact hg
      · have hrest := @ih (pre ++ g ++ x) (by simp only [List.length_append])
        rw [ht.span]
        simpa only [List.append_assoc] using hrest

theorem Covered.text (h : Covered i bytes ts) {pre : List UInt8} (hpre : pre.length = i) :
    ∀ t ∈ ts, t.kind ≠ .timeLit → t.kind ≠ .directAddr → t.kind ≠ .eof →
      t.text = ((pre ++ bytes).drop t.span.start).take (t.span.stop - t.span.start) := by
  induction h generalizing pre with
  | @eof i g hg =>
      intro t ht _ _ hne
      rw [List.mem_singleton.mp ht] at hne
      exact absurd rfl hne
  | @token i g x rest t ts hg hne ht hts ih =>
      intro t' ht' htime haddr heof
      subst hpre
      rcases List.mem_cons.mp ht' with rfl | ht'
      · rw [ht.text htime haddr, ht.span]
        dsimp only
        rw [Nat.add_sub_cancel_left, ← List.drop_drop, List.drop_left, List.drop_left,
          List.take_left]
      · have hrest := @ih (pre ++ g ++ x) (by simp only [List.length_append]) t' ht' htime haddr heof
        simpa only [List.append_assoc] using hrest

/-- Tokens that cover a source. -/
theorem Covered.faithful (h : Covered 0 bytes ts) : Faithful bytes ts where
  order := h.order
  inside := fun t ht => by
    have hinside := h.inside t ht
    rw [Nat.zero_add] at hinside
    exact hinside.2
  gaps := @Covered.gaps _ _ _ h [] rfl
  last := by
    have hlast := h.last
    rwa [Nat.zero_add] at hlast
  text := @Covered.text _ _ _ h [] rfl

end Covered

/-! ## Whole runs -/

section Runs

variable {bytes rest : List UInt8} {n : ℕ}

theorem lexeme_ne_nil {x : List UInt8} (h : Lexeme floats x rest) : x ≠ [] := by
  cases h with
  | gap h =>
      cases h with
      | space => simp
      | block => simp
      | line => simp
  | number h => exact number_ne_nil h
  | address => simp
  | time => simp
  | word => simp
  | two => simp
  | one => simp

theorem lexFrom_cons {b : UInt8} {tail : List UInt8} :
    lexFrom floats checks (n + 1) i (b :: tail) = (do
      let (k, t) ← round floats checks i b (b :: tail)
      let ts ← lexFrom floats checks n (i + k) ((b :: tail).drop k)
      .ok (t.toList ++ ts)) := rfl

/-- What a run may do. -/
def RunAllowed (floats : Floats) (checks : Bool) (i : ℕ) (bytes : List UInt8) :
    Except LexFault (List Token) → Prop
  | .ok ts => Covered i bytes ts
  | .error .panic => ∃ rest, Reaches floats bytes rest ∧ Blocked floats checks rest
  | .error (.err _) => True
  | .error .outOfRounds => False

theorem runAllowed_append {x : List UInt8} {t : Option Token} (hlexeme : Lexeme floats x rest)
    (hcovered : ∀ ts, Covered (i + x.length) rest ts → Covered i (x ++ rest) (t.toList ++ ts))
    {run : Except LexFault (List Token)} (h : RunAllowed floats checks (i + x.length) rest run) :
    RunAllowed floats checks i (x ++ rest) (run >>= fun ts => .ok (t.toList ++ ts)) := by
  rcases run with (e | _ | _) | ts
  · exact trivial
  · obtain ⟨last, hreaches, hblocked⟩ := h
    exact ⟨last, .step hlexeme hreaches, hblocked⟩
  · exact h
  · exact hcovered ts h

/-- **What a run does.** -/
theorem lexFrom_allowed (hclean : Clean bytes) (hn : bytes.length < n) :
    RunAllowed floats checks i bytes (lexFrom floats checks n i bytes) := by
  induction n generalizing i bytes with
  | zero => omega
  | succ n ih =>
      rcases bytes with _ | ⟨b, tail⟩
      · exact .eof .nil
      · rw [lexFrom_cons]
        have hround := @round_allowed floats checks i b tail hclean
        rcases hr : round floats checks i b (b :: tail) with (e | _ | _) | r
        · exact trivial
        · rw [hr] at hround
          exact ⟨_, .refl _, hround⟩
        · rw [hr] at hround
          exact hround
        · rw [hr] at hround
          change Passes floats i (b :: tail) r at hround
          generalize b :: tail = bytes at *
          cases hround with
          | @gap x rest h hne =>
              have hlexeme : Lexeme floats x rest := .gap h
              have hpos := List.length_pos_iff.mpr hne
              rw [List.length_append] at hn
              have hrun := @ih (i + x.length) rest (hlexeme.clean hclean) (by omega)
              show RunAllowed floats checks i (x ++ rest) (lexFrom floats checks n (i + x.length)
                ((x ++ rest).drop x.length) >>= _)
              rw [List.drop_left]
              exact runAllowed_append (t := none) hlexeme (fun ts hts => hts.after_gap h) hrun
          | @token x rest t hlexeme hne ht =>
              have hpos := List.length_pos_iff.mpr hne
              rw [List.length_append] at hn
              have hrun := @ih (i + x.length) rest (hlexeme.clean hclean) (by omega)
              show RunAllowed floats checks i (x ++ rest) (lexFrom floats checks n (i + x.length)
                ((x ++ rest).drop x.length) >>= _)
              rw [List.drop_left]
              exact runAllowed_append (t := some t) hlexeme
                (fun ts hts => hts.after_token hne ht) hrun

theorem not_blocked_nil : ¬Blocked floats checks [] := by
  rintro (⟨b, c, d, more, heq, -⟩ | ⟨-, t, body, rest, heq, -⟩)
  · cases heq
  · cases heq

/-- **A run that reaches a blocked position panics.** -/
theorem lexFrom_blocked (hreaches : Reaches floats bytes rest) (hblocked : Blocked floats checks rest)
    (hclean : Clean bytes) (hn : bytes.length < n) :
    lexFrom floats checks n i bytes = .error .panic := by
  induction hreaches generalizing i n with
  | refl bytes =>
      rcases n with _ | n
      · omega
      · rcases bytes with _ | ⟨b, tail⟩
        · exact absurd hblocked not_blocked_nil
        · rw [lexFrom_cons, round_blocked hclean hblocked]
          rfl
  | @step x rest last hlexeme _ ih =>
      rcases n with _ | n
      · omega
      · have hne := lexeme_ne_nil hlexeme
        have hpos := List.length_pos_iff.mpr hne
        rw [List.length_append] at hn
        have hrun := @ih (i + x.length) n hblocked (hlexeme.clean hclean) (by omega)
        obtain ⟨b, x', rfl⟩ := List.exists_cons_of_ne_nil hne
        rw [show b :: x' ++ rest = b :: (x' ++ rest) from rfl, lexFrom_cons]
        by_cases hhere : Blocked floats checks (b :: (x' ++ rest))
        · rw [show round floats checks i b (b :: (x' ++ rest)) = _ from round_blocked hclean hhere]
          rfl
        · obtain ⟨t, ht⟩ := round_lexeme (i := i) hlexeme rfl hclean hhere
          rw [show round floats checks i b (b :: (x' ++ rest)) = _ from ht]
          show (lexFrom floats checks n (i + (b :: x').length) ((b :: x' ++ rest).drop _) >>= _) = _
          rw [List.drop_left, hrun]
          rfl

/-- The lexer gives tokens that the source has, or an error. -/
def TotalFaithful (source : List UInt8) (run : Except LexFault (List Token)) : Prop :=
  (∃ ts, run = .ok ts ∧ Faithful source ts) ∨ ∃ e, run = .error (.err e)

/-- **When the lexer is total and faithful**: when no position that its lexemes reach is blocked. -/
theorem lex_total_iff (floats : Floats) (checks : Bool) (source : String) :
    TotalFaithful (utf8 source) (lex floats checks (utf8 source)) ↔
      ∀ rest, Reaches floats (utf8 source) rest → ¬Blocked floats checks rest := by
  have hclean := utf8_clean source
  constructor
  · intro h rest hreaches hblocked
    have hpanic : lex floats checks (utf8 source) = .error .panic :=
      lexFrom_blocked hreaches hblocked hclean (Nat.lt_succ_self _)
    rcases h with ⟨ts, h, -⟩ | ⟨e, h⟩
    · rw [hpanic] at h
      cases h
    · rw [hpanic] at h
      cases h
  · intro h
    have hrun : RunAllowed floats checks 0 (utf8 source) (lex floats checks (utf8 source)) :=
      lexFrom_allowed hclean (Nat.lt_succ_self _)
    rcases hlex : lex floats checks (utf8 source) with (e | _ | _) | ts
    · exact .inr ⟨e, rfl⟩
    · rw [hlex] at hrun
      obtain ⟨rest, hreaches, hblocked⟩ := hrun
      exact absurd hblocked (h rest hreaches)
    · rw [hlex] at hrun
      exact hrun.elim
    · rw [hlex] at hrun
      exact .inl ⟨ts, rfl, Covered.faithful hrun⟩

/-- Exact decimals, with so many digits after the point. -/
def decimals : Floats where
  F64 := ℕ × ℕ
  parse := fun num =>
    let digits := num.filter isDigit
    if digits = [] || 1 < num.count 46 then none
    else some (digits.foldl (fun n d => 10 * n + (d.toNat - 48)) 0,
      ((num.dropWhile (· != 46)).drop 1).length)
  millis := fun (n, k) unit => BitVec.ofNat 64 (min (2 ^ 63 - 1) ((2 * n * unit + 10 ^ k) / (2 * 10 ^ k)))

/-- The second byte of this character is inside of it. -/
theorem lex_splits_character : ¬TotalFaithful (utf8 "€") (lex decimals false (utf8 "€")) := by
  have hpanic : lex decimals false (utf8 "€") = .error .panic := rfl
  rintro (⟨ts, h, -⟩ | ⟨e, h⟩)
  · rw [hpanic] at h
    cases h
  · rw [hpanic] at h
    cases h

end Runs

end SoftPlc.St.Lex
