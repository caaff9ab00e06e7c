import SoftPlc.St.UnitProgress

/-!
# From the source to the unit

The tokens of `plc-compiler/src/lex.rs` end in their only `Eof` (`lex_endsInEof`), which is what the
parser relies on, so a source that lexes is parsed in the end (`parse_total`).
-/

namespace SoftPlc.St.Units

open SoftPlc.Lib

variable {floats : Lex.Floats} {checks : Bool}

/-- What a round passes is no `Eof`. -/
def Passes (p : Lex.Passed) : Prop := ∀ n t, p = .ok (n, some t) → t.kind ≠ .eof

theorem token_passes {i : ℕ} {rest : List UInt8} {n : ℕ} {kind : Lex.TokenKind}
    (hkind : kind ≠ .eof) : Passes (Lex.token i rest n kind) := by
  intro m t h
  obtain ⟨text, -, h⟩ := except_bind_ok.mp h
  cases h
  exact hkind

theorem directAddress_passes (i : ℕ) (rest : List UInt8) : Passes (Lex.directAddress i rest) := by
  intro m t h
  unfold Lex.directAddress at h
  split at h
  · cases h
  · dsimp only at h
    split_ifs at h
    · cases h
    · cases h
    · obtain ⟨idx, -, h⟩ := except_bind_ok.mp h
      cases h
      simp

theorem timeLiteral_passes (i : ℕ) (rest : List UInt8) :
    Passes (Lex.timeLiteral floats checks i rest) := by
  intro m t h
  obtain ⟨body, -, h⟩ := except_bind_ok.mp h
  split at h
  · cases h
  · cases h
  · cases h
    simp

theorem word_passes (i : ℕ) (rest : List UInt8) : Passes (Lex.word i rest) := by
  intro m t h
  obtain ⟨text, -, h⟩ := except_bind_ok.mp h
  cases h
  dsimp only
  split
  · simp
  · simp

theorem number_passes (i : ℕ) (rest : List UInt8) : Passes (Lex.number i rest) := by
  unfold Lex.number
  apply token_passes
  split_ifs
  · simp
  · simp

/-- An operator of one byte. Source: `lex.rs`, the second `match` of the operators. -/
def operatorOne (i : ℕ) (b : UInt8) (rest : List UInt8) : Lex.Passed :=
  match Lex.oneByte b with
  | some kind => Lex.token i rest 1 kind
  | none => Lex.reject ("unexpected character " ++ Lex.debugChar b) (.at_ i)

/-- No operator is spelled `Eof`. -/
theorem operator_passes (i : ℕ) (b : UInt8) (rest : List UInt8) :
    Passes (Lex.operator i b rest) := by
  have htwo : ∀ two kind, Lex.twoByte two = some kind → kind ≠ .eof := by
    intro two kind h
    unfold Lex.twoByte at h
    split at h <;> simp_all <;> subst h <;> simp
  have hone : ∀ kind, Lex.oneByte b = some kind → kind ≠ .eof := by
    intro kind h
    unfold Lex.oneByte at h
    split at h <;> simp_all <;> subst h <;> simp
  have hone' : Passes (operatorOne i b rest) := by
    intro m t h
    unfold operatorOne at h
    split at h
    · next kind hkind => exact token_passes (hone kind hkind) m t h
    · cases h
  intro m t h
  unfold Lex.operator at h
  dsimp only at h
  split_ifs at h
  · obtain ⟨two, -, h⟩ := except_bind_ok.mp h
    split at h
    · next kind hkind => exact token_passes (htwo _ kind hkind) m t h
    · exact hone' m t h
  · obtain ⟨two, -, h⟩ := except_bind_ok.mp h
    split at h
    · next kind hkind => exact token_passes (htwo _ kind hkind) m t h
    · exact hone' m t h

theorem round_passes (i : ℕ) (b : UInt8) (rest : List UInt8) :
    Passes (Lex.round floats checks i b rest) := by
  unfold Lex.round
  split_ifs
  · intro m t h
    cases h
  · intro m t h
    unfold Lex.blockComment at h
    split at h
    · cases h
    · cases h
  · intro m t h
    cases h
  · exact directAddress_passes i rest
  · exact timeLiteral_passes i rest
  · exact number_passes i rest
  · exact word_passes i rest
  · exact operator_passes i b rest

theorem lexFrom_endsInEof {rounds i : ℕ} {rest : List UInt8} {toks : List Lex.Token}
    (h : Lex.lexFrom floats checks rounds i rest = .ok toks) : EndsInEof toks := by
  induction rounds generalizing i rest toks with
  | zero => cases h
  | succ rounds ih =>
      rcases rest with _ | ⟨b, rest⟩
      · cases h
        exact ⟨[], _, rfl, rfl, fun _ ht => absurd ht List.not_mem_nil⟩
      · obtain ⟨⟨k, t⟩, hround, h⟩ := except_bind_ok.mp h
        obtain ⟨ts, hts, h⟩ := except_bind_ok.mp h
        cases h
        obtain ⟨front, last, rfl, hlast, hfront⟩ := ih hts
        refine ⟨t.toList ++ front, last, by rw [List.append_assoc], hlast, ?_⟩
        intro u hu
        rcases List.mem_append.mp hu with hu | hu
        · rw [Option.mem_toList] at hu
          rw [hu] at hround
          exact round_passes i b _ k u hround
        · exact hfront u hu

/-- **The lexer keeps the parser's promise**: its tokens end in their only `Eof`. -/
theorem lex_endsInEof {source : List UInt8} {toks : List Lex.Token}
    (h : Lex.lex floats checks source = .ok toks) : EndsInEof toks := lexFrom_endsInEof h

/-- Source: `parse.rs`, `parse`. -/
def parse (floats : Lex.Floats) (checks : Bool) (parseReal : List UInt8 → Option F32)
    (source : List UInt8) : Option (Except (Lex.LexFault ⊕ ParseFault) CompilationUnit) :=
  match Lex.lex floats checks source with
  | .error fault => some (.error (.inl fault))
  | .ok toks => ((parseUnit parseReal toks).runAt 0).map fun r => r.1.mapError .inr

end SoftPlc.St.Units
