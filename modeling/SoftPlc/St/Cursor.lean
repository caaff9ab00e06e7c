import SoftPlc.St.Literals

/-!
# The position of the parser

`Parser` of `plc-compiler/src/parse.rs` is a token list and a position in it. A parser of the model
(`Parse`) is a program on the position that gives a value or an error, or runs forever (`none`): its
loops and recursions are written as they are in the source, and that they end is a theorem
(`parseUnit_total`). Reading past the list is a panic. Spans are kept where an error message needs
them.
-/

namespace SoftPlc.St.Units

open SoftPlc.Lib

/-! ## Errors -/

/-- The codes that the parser uses. Source: `error.rs`, `ErrorCode`. -/
inductive ErrorCode where
  | eLex
  | eParse
  | eExcluded
  | eExcludedVarInOut
  | eExcludedPointer
  | eExcludedString
  | eExcludedLoopCtrl
  | eExcludedNestedFbType
  | eExcludedOop
  | eExcludedConfig
  deriving DecidableEq, Repr

/-- Source: `error.rs`, `CompileError`; the parser sets the span and no path. -/
structure CompileError where
  code : ErrorCode
  message : String
  span : Lex.Span
  deriving DecidableEq, Repr

/-- How the parser can fail: with an error, or by reading past the tokens. -/
inductive ParseFault where
  | err (e : CompileError)
  | panic
  deriving DecidableEq, Repr

/-- A parser: from a position to a value or a fault, and the position after it. -/
abbrev Parse (α : Type) : Type := ExceptT ParseFault (StateT ℕ Option) α

/-- The result of a parser at a position, if there is one. -/
def Parse.runAt {α : Type} (x : Parse α) (i : ℕ) : Option (Except ParseFault α × ℕ) := x i

/-- Source: `CompileError::new(..).with_span(..)`. -/
def errAt {α : Type} (code : ErrorCode) (message : String) (span : Lex.Span) : Parse α :=
  throw (.err ⟨code, message, span⟩)

/-! ## Tokens -/

/-- Source: the derived `Debug` of `lex.rs`, `TokenKind`. -/
def debugKind : Lex.TokenKind → String
  | .eof => "Eof"
  | .ident => "Ident"
  | .intLit => "IntLit"
  | .realLit => "RealLit"
  | .timeLit => "TimeLit"
  | .keyword text => "Keyword(\"" ++ text ++ "\")"
  | .assign => "Assign"
  | .arrow => "Arrow"
  | .eq => "Eq"
  | .ne => "Ne"
  | .lt => "Lt"
  | .le => "Le"
  | .gt => "Gt"
  | .ge => "Ge"
  | .plus => "Plus"
  | .minus => "Minus"
  | .star => "Star"
  | .slash => "Slash"
  | .lParen => "LParen"
  | .rParen => "RParen"
  | .lBracket => "LBracket"
  | .rBracket => "RBracket"
  | .lBrace => "LBrace"
  | .rBrace => "RBrace"
  | .comma => "Comma"
  | .semi => "Semi"
  | .colon => "Colon"
  | .dot => "Dot"
  | .dotDot => "DotDot"
  | .directAddr => "DirectAddr"

/-- Source: `parse.rs`, `describe`. -/
def describe (t : Lex.Token) : String :=
  if t.text.isEmpty then debugKind t.kind
  else debugKind t.kind ++ " \x60" ++ Lex.chars t.text ++ "\x60"

/-- Two keywords are compared by their text, other kinds by their constructor. Source: `parse.rs`,
`kinds_eq`. -/
def kindsEq : Lex.TokenKind → Lex.TokenKind → Bool
  | .keyword x, .keyword y => x == y
  | a, b => a == b

/-- An integer of a type that holds `lo` to `hi`. Source: `str::parse` of an integer type; only a
signed one reads a minus sign. -/
def parseInt (lo hi : ℤ) (text : List UInt8) : Option ℤ :=
  let (minus, digits) := match text with
    | 43 :: rest => (false, rest)
    | 45 :: rest => if lo < 0 then (true, rest) else (false, text)
    | _ => (false, text)
  if digits.isEmpty || !digits.all Lex.isDigit then none
  else
    let n : ℤ := Lex.digitsNumber digits
    let v := if minus then -n else n
    if lo ≤ v ∧ v ≤ hi then some v else none

/-- Source: `str::parse::<i64>`. -/
def parseI64 (text : List UInt8) : Option ℤ := parseInt (-2 ^ 63) (2 ^ 63 - 1) text

/-- Source: `str::parse::<i32>`. -/
def parseI32 (text : List UInt8) : Option ℤ := parseInt (-2 ^ 31) (2 ^ 31 - 1) text

/-- Source: `str::parse::<u32>`. -/
def parseU32 (text : List UInt8) : Option ℕ := (parseInt 0 (2 ^ 32 - 1) text).map Int.toNat

/-- The value of a text, or an error at its token. Source: `map_err(|_| ..with_span(..))`. -/
def orErrAt {α : Type} (message : String) (span : Lex.Span) : Option α → Parse α
  | some v => pure v
  | none => errAt .eParse message span

/-! ## The position -/

/-- Source: `parse.rs`, the field `i`. -/
def position : Parse ℕ := fun i => some (.ok i, i)

/-- Source: `parse.rs`, `self.i = save`. -/
def setPosition (i : ℕ) : Parse Unit := fun _ => some (.ok (), i)

section

variable (toks : List Lex.Token)

/-- Source: `parse.rs`, `self.tokens[i]`. -/
def tokenAt (n : ℕ) : Parse Lex.Token := fun i =>
  match toks[n]? with
  | some t => some (.ok t, i)
  | none => some (.error .panic, i)

/-- Source: `parse.rs`, `Parser::peek`. -/
def peek : Parse Lex.Token := do
  let i ← position
  tokenAt toks i

/-- Source: `parse.rs`, the comparisons of `self.peek_kind()` with one kind. -/
def peekIs (kind : Lex.TokenKind) : Parse Bool := do
  let t ← peek toks
  pure (t.kind == kind)

/-- It stays on the last token. Source: `parse.rs`, `Parser::bump`. -/
def bump : Parse Lex.Token := do
  let i ← position
  let t ← tokenAt toks i
  if i + 1 < toks.length then
    setPosition (i + 1)
  pure t

/-- Source: `parse.rs`, `Parser::err`. -/
def err {α : Type} (code : ErrorCode) (message : String) : Parse α := do
  let t ← peek toks
  errAt code message t.span

/-- Source: `parse.rs`, `Parser::excluded_kw`. -/
def excludedKw {α : Type} (code : ErrorCode) (kw : String) : Parse α :=
  err toks code (kw ++ " is excluded by Appendix B ST-subset")

/-- Source: `parse.rs`, `Parser::expect_kw`. -/
def expectKw (kw : String) : Parse Lex.Span := do
  let t ← peek toks
  if t.kind = .keyword kw then
    let _ ← bump toks
    pure t.span
  else err toks .eParse ("expected keyword " ++ kw ++ ", got " ++ describe t)

/-- Source: `parse.rs`, `Parser::expect`. -/
def expect (kind : Lex.TokenKind) : Parse Lex.Token := do
  let t ← peek toks
  if kindsEq t.kind kind then
    let _ ← bump toks
    pure t
  else err toks .eParse ("expected " ++ debugKind kind ++ ", got " ++ describe t)

/-- Source: `parse.rs`, `Parser::expect_ident`. -/
def expectIdent : Parse (String × Lex.Span) := do
  let t ← peek toks
  if t.kind = .ident then
    let _ ← bump toks
    pure (Lex.chars t.text, t.span)
  else err toks .eParse ("expected identifier, got " ++ describe t)

/-- The code under which a keyword is excluded. Source: `parse.rs`, the `match` of
`Parser::check_excluded_keyword`. -/
def exclusion (kw : String) : Option ErrorCode :=
  if kw = "VAR_IN_OUT" then some .eExcludedVarInOut
  else if kw = "VAR_EXTERNAL" then some .eExcluded
  else if kw ∈ ["REF_TO", "ADR"] then some .eExcludedPointer
  else if kw ∈ ["STRING", "WSTRING"] then some .eExcludedString
  else if kw ∈ ["REPEAT", "UNTIL", "END_REPEAT", "EXIT", "CONTINUE"] then some .eExcludedLoopCtrl
  else if kw ∈ ["METHOD", "CLASS", "INTERFACE"] then some .eExcludedOop
  else if kw ∈ ["CONFIGURATION", "RESOURCE"] then some .eExcludedConfig
  else if kw ∈ ["LINT", "LREAL"] then some .eExcluded
  else none

/-- Source: `parse.rs`, `Parser::check_excluded_keyword`. -/
def checkExcludedKeyword : Parse Unit := do
  let t ← peek toks
  match t.kind with
  | .keyword kw =>
      match exclusion kw with
      | some code => excludedKw toks code kw
      | none => pure ()
  | _ => pure ()

end

end SoftPlc.St.Units
