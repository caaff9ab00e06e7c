import SoftPlc.Lib.Text

/-!
# The lexer

`plc-compiler/src/lex.rs`, `lex`. The source is its bytes; at each round of the loop the model has the
position and the bytes from it on. A string slice panics when one of its ends is inside of a
character. The `f64` arithmetic of TIME literals is a parameter, `Floats`, and `checks` says whether
an `i64` sum that overflows panics, as it does in a debug build, or wraps.
-/

namespace SoftPlc.St.Lex

open SoftPlc.Lib

/-! ## Tokens -/

/-- Source: `error.rs`, `Span`. -/
structure Span where
  start : ℕ
  /-- The field `end`. -/
  stop : ℕ
  deriving DecidableEq, Repr

/-- Source: `error.rs`, `Span::at`. -/
def Span.at_ (pos : ℕ) : Span := ⟨pos, pos⟩

/-- Source: `lex.rs`, `TokenKind`. -/
inductive TokenKind where
  | eof
  | ident
  | intLit
  | realLit
  | timeLit
  | keyword (text : String)
  | assign
  | arrow
  | eq
  | ne
  | lt
  | le
  | gt
  | ge
  | plus
  | minus
  | star
  | slash
  | lParen
  | rParen
  | lBracket
  | rBracket
  | lBrace
  | rBrace
  | comma
  | semi
  | colon
  | dot
  | dotDot
  | directAddr
  deriving DecidableEq, Repr

/-- Source: `lex.rs`, `Token`. -/
structure Token where
  kind : TokenKind
  span : Span
  /-- The bytes of the text. -/
  text : List UInt8
  deriving DecidableEq, Repr

/-- An error of code `ELex`, without path. Source: `error.rs`, `CompileError`. -/
structure LexError where
  message : String
  span : Span
  deriving DecidableEq, Repr

/-- How the lexer can fail: with an error, with a panic, or with the rounds of its loop used up. -/
inductive LexFault where
  | err (e : LexError)
  | panic
  | outOfRounds
  deriving DecidableEq, Repr

/-- Source: `lex.rs`, `CompileError::new(ErrorCode::ELex, ..).with_span(..)`. -/
def reject {α : Type} (message : String) (span : Span) : Except LexFault α :=
  .error (.err ⟨message, span⟩)

/-! ## Bytes -/

/-- Source: `u8::is_ascii_whitespace`. -/
def isSpace (b : UInt8) : Bool := b == 32 || b == 9 || b == 10 || b == 12 || b == 13

/-- Source: `u8::is_ascii_digit`. -/
def isDigit (b : UInt8) : Bool := 48 ≤ b.toNat && b.toNat ≤ 57

/-- Source: `u8::is_ascii_alphabetic`. -/
def isAlpha (b : UInt8) : Bool :=
  (65 ≤ b.toNat && b.toNat ≤ 90) || (97 ≤ b.toNat && b.toNat ≤ 122)

/-- Source: `u8::to_ascii_uppercase`. -/
def toUpper (b : UInt8) : UInt8 := if 97 ≤ b.toNat && b.toNat ≤ 122 then b - 32 else b

/-- Source: `u8::to_ascii_lowercase`. -/
def toLower (b : UInt8) : UInt8 := if 65 ≤ b.toNat && b.toNat ≤ 90 then b + 32 else b

/-- Bytes of an identifier after the first. -/
def isWord (b : UInt8) : Bool := isAlpha b || isDigit b || b == 95

/-- Bytes of a TIME literal after `T#`. -/
def isTimeByte (b : UInt8) : Bool := isAlpha b || isDigit b || b == 95 || b == 46 || b == 45

/-- A byte that continues a character. -/
def isContinuation (b : UInt8) : Bool := 128 ≤ b.toNat && b.toNat < 192

/-- Whether a character starts where these bytes start. Source: `str::is_char_boundary`. -/
def atBoundary (bytes : List UInt8) : Bool := !(bytes.head?.any isContinuation)

/-- The slice `&source[start + lo..start + hi]`, where `rest` are the bytes from `start` on. -/
def slice (rest : List UInt8) (lo hi : ℕ) : Except LexFault (List UInt8) :=
  if lo ≤ hi && hi ≤ rest.length && atBoundary (rest.drop lo) && atBoundary (rest.drop hi) then
    .ok ((rest.drop lo).take (hi - lo))
  else .error .panic

/-- Bytes as characters. Source: the cast `u8 as char`. -/
def chars (bytes : List UInt8) : String := String.ofList (bytes.map fun b => Char.ofNat b.toNat)

/-- Hexadecimal digits without leading zeros. -/
def hex (n : ℕ) : String := String.ofList (Nat.toDigits 16 n)

/-- A character up to `0xFF` between quotes. Source: `Debug` of `char`. -/
def debugChar (b : UInt8) : String :=
  let body :=
    if b = 0 then "\\0"
    else if b = 9 then "\\t"
    else if b = 10 then "\\n"
    else if b = 13 then "\\r"
    else if b = 39 then "\\'"
    else if b = 92 then "\\\\"
    else if b.toNat < 32 || (127 ≤ b.toNat && b.toNat ≤ 160) || b = 173 then
      "\\u\x7b" ++ hex b.toNat ++ "\x7d"
    else chars [b]
  "'" ++ body ++ "'"

/-! ## Keywords -/

/-- Source: `lex.rs`, `KEYWORDS`. -/
def keywords : List String :=
  ["PROGRAM", "END_PROGRAM", "FUNCTION_BLOCK", "END_FUNCTION_BLOCK", "VAR", "VAR_INPUT",
    "VAR_OUTPUT", "VAR_RETAIN", "VAR_GLOBAL", "VAR_IN_OUT", "VAR_EXTERNAL", "END_VAR", "CONSTANT",
    "AT", "IF", "THEN", "ELSIF", "ELSE", "END_IF", "CASE", "OF", "END_CASE", "WHILE", "DO",
    "END_WHILE", "FOR", "TO", "BY", "END_FOR", "REPEAT", "UNTIL", "END_REPEAT", "EXIT", "CONTINUE",
    "RETURN", "AND", "OR", "XOR", "NOT", "MOD", "TRUE", "FALSE", "BOOL", "INT", "DINT", "REAL",
    "TIME", "LINT", "LREAL", "STRING", "WSTRING", "ARRAY", "CONFIGURATION", "RESOURCE", "METHOD",
    "CLASS", "INTERFACE", "REF_TO", "ADR", "EN", "ENO"]

/-- Source: `lex.rs`, `keyword_lookup`. -/
def keywordLookup (s : List UInt8) : Option String :=
  let upper := s.map toUpper
  keywords.find? fun k => (utf8 k).map toLower == upper.map toLower

/-! ## TIME literals -/

/-- The `f64` arithmetic of TIME literals. -/
structure Floats where
  F64 : Type
  /-- Source: `str::parse::<f64>`. -/
  parse : List UInt8 → Option F64
  /-- Source: `(value * unit).round() as i64`, for a unit of so many milliseconds. -/
  millis : F64 → ℕ → BitVec 64

variable (floats : Floats) (checks : Bool)

/-- The unit that a character starts, in milliseconds, and the characters after it. Source: `lex.rs`,
the `match c` of `parse_time_literal`. -/
def timeUnit (c : UInt8) (rest : List UInt8) : Option (ℕ × List UInt8) :=
  if c = 104 then some (3600000, rest)
  else if c = 109 then
    if rest.head? = some 115 then some (1, rest.tail) else some (60000, rest)
  else if c = 115 then some (1000, rest)
  else none

theorem timeUnit_rest {c : UInt8} {rest rest' : List UInt8} {unit : ℕ}
    (h : timeUnit c rest = some (unit, rest')) : rest'.length ≤ rest.length := by
  unfold timeUnit at h
  split_ifs at h
  all_goals
    cases h
    first
      | exact le_refl _
      | exact List.length_tail ▸ Nat.sub_le _ _

/-- Source: `lex.rs`, the `while let` of `parse_time_literal`; an error carries its message, and
`none` is a panic. -/
def timeLoop (chars_ num : List UInt8) (total : BitVec 64) :
    Except (Option String) (List UInt8 × BitVec 64) :=
  match chars_ with
  | [] => .ok (num, total)
  | c :: rest =>
      if isDigit c || c == 46 then timeLoop rest (num ++ [c]) total
      else if num = [] then .error (some ("TIME literal expected number before " ++ chars [c]))
      else
        match floats.parse num with
        | none => .error (some ("bad TIME number " ++ chars num))
        | some value =>
            match _h : timeUnit c rest with
            | none => .error (some ("unknown TIME unit " ++ chars [c]))
            | some (unit, rest') =>
                let add := floats.millis value unit
                if checks && total.saddOverflow add then .error none
                else timeLoop rest' [] (total + add)
termination_by chars_.length
decreasing_by
  · exact Nat.lt_succ_self _
  · exact Nat.lt_succ_of_le (timeUnit_rest _h)

/-- Source: `lex.rs`, `parse_time_literal`. -/
def parseTimeLiteral (body : List UInt8) : Except (Option String) ℤ :=
  let b := body.map toLower
  if b = [] then .error (some "empty TIME literal")
  else do
    let (num, total) ← timeLoop floats checks b [] 0
    if num ≠ [] then .error (some "TIME literal missing unit")
    else if -2 ^ 31 ≤ total.toInt && total.toInt < 2 ^ 31 then .ok total.toInt
    else .error (some "TIME literal out of i32 ms range")

/-! ## The loop -/

/-- What one round does: it passes bytes, perhaps with a token. -/
abbrev Passed := Except LexFault (ℕ × Option Token)

/-- The bytes of a block comment after its `(*`, up to and with its `*)`. Source: `lex.rs`, the inner
`while` of the first comment. -/
def blockEnd : List UInt8 → Option ℕ
  | a :: b :: rest => if a = 42 && b = 41 then some 2 else (blockEnd (b :: rest)).map (· + 1)
  | _ => none

/-- Source: `lex.rs`, `(* comment *)`. -/
def blockComment (i : ℕ) (rest : List UInt8) : Passed :=
  match blockEnd (rest.drop 2) with
  | some n => .ok (2 + n, none)
  | none => reject "unclosed (* comment *)" (.at_ (i + max 2 (rest.length - 1)))

/-- Source: `lex.rs`, the line comment. -/
def lineComment (rest : List UInt8) : Passed :=
  .ok ((rest.takeWhile (· != 10)).length, none)

/-- Source: `lex.rs`, the direct address. -/
def directAddress (i : ℕ) (rest : List UInt8) : Passed :=
  match rest[1]? with
  | none => reject "lone '%'" (.at_ i)
  | some b =>
      let plane := toUpper b
      if !(plane == 73 || plane == 81 || plane == 77 || plane == 82) then
        reject ("unknown direct address plane %" ++ chars [plane]) ⟨i, i + 2⟩
      else
        let n := ((rest.drop 2).takeWhile isDigit).length
        if n = 0 then reject "direct address missing index" ⟨i, i + 2⟩
        else do
          let idx ← slice rest 2 (2 + n)
          .ok (2 + n, some ⟨.directAddr, ⟨i, i + (2 + n)⟩, [plane, 58] ++ idx⟩)

/-- Source: `lex.rs`, the TIME literal. -/
def timeLiteral (i : ℕ) (rest : List UInt8) : Passed := do
  let n := ((rest.drop 2).takeWhile isTimeByte).length
  let body ← slice rest 2 (2 + n)
  match parseTimeLiteral floats checks body with
  | .error none => .error .panic
  | .error (some m) => reject m ⟨i, i + (2 + n)⟩
  | .ok ms => .ok (2 + n, some ⟨.timeLit, ⟨i, i + (2 + n)⟩, decimal ms⟩)

/-- A token whose text is its slice. -/
def token (i : ℕ) (rest : List UInt8) (n : ℕ) (kind : TokenKind) : Passed := do
  let text ← slice rest 0 n
  .ok (n, some ⟨kind, ⟨i, i + n⟩, text⟩)

/-- The bytes of an exponent. Source: `lex.rs`, the `if is_real` of the number. -/
def exponentLen : List UInt8 → ℕ
  | [] => 0
  | e :: rest =>
      if e == 101 || e == 69 then
        let sign := if rest.head? = some 43 || rest.head? = some 45 then 1 else 0
        1 + sign + ((rest.drop sign).takeWhile isDigit).length
      else 0

/-- The bytes of a number, and whether it is a real one. Source: `lex.rs`, the number. -/
def numberLen (rest : List UInt8) : ℕ × Bool :=
  let n := (rest.takeWhile isDigit).length
  match rest.drop n with
  | dot :: d :: more =>
      if dot == 46 && isDigit d then
        let k := ((d :: more).takeWhile isDigit).length
        (n + (1 + (k + exponentLen ((d :: more).drop k))), true)
      else (n, false)
  | _ => (n, false)

/-- Source: `lex.rs`, the number. -/
def number (i : ℕ) (rest : List UInt8) : Passed :=
  let (n, isReal) := numberLen rest
  token i rest n (if isReal then .realLit else .intLit)

/-- Source: `lex.rs`, the identifier or keyword. -/
def word (i : ℕ) (rest : List UInt8) : Passed := do
  let n := 1 + ((rest.drop 1).takeWhile isWord).length
  let text ← slice rest 0 n
  let kind := match keywordLookup text with
    | some kw => .keyword kw
    | none => .ident
  .ok (n, some ⟨kind, ⟨i, i + n⟩, text⟩)

/-- Operators of two bytes. Source: `lex.rs`, `match two`. -/
def twoByte : List UInt8 → Option TokenKind
  | [58, 61] => some .assign
  | [61, 62] => some .arrow
  | [60, 62] => some .ne
  | [60, 61] => some .le
  | [62, 61] => some .ge
  | [46, 46] => some .dotDot
  | _ => none

/-- Operators of one byte. Source: `lex.rs`, `match bytes[i] as char`. -/
def oneByte (b : UInt8) : Option TokenKind :=
  match b.toNat with
  | 61 => some .eq
  | 60 => some .lt
  | 62 => some .gt
  | 43 => some .plus
  | 45 => some .minus
  | 42 => some .star
  | 47 => some .slash
  | 40 => some .lParen
  | 41 => some .rParen
  | 91 => some .lBracket
  | 93 => some .rBracket
  | 123 => some .lBrace
  | 125 => some .rBrace
  | 44 => some .comma
  | 59 => some .semi
  | 58 => some .colon
  | 46 => some .dot
  | _ => none

/-- Source: `lex.rs`, the operators. -/
def operator (i : ℕ) (b : UInt8) (rest : List UInt8) : Passed := do
  let two ← if 2 ≤ rest.length then slice rest 0 2 else .ok []
  match twoByte two with
  | some kind => token i rest 2 kind
  | none =>
      match oneByte b with
      | some kind => token i rest 1 kind
      | none => reject ("unexpected character " ++ debugChar b) (.at_ i)

/-- One round, at byte `b` with which `rest` starts. Source: `lex.rs`, the body of the loop of
`lex`. -/
def round (i : ℕ) (b : UInt8) (rest : List UInt8) : Passed :=
  if isSpace b then .ok (1, none)
  else if b = 40 && rest[1]? = some 42 then blockComment i rest
  else if b = 47 && rest[1]? = some 47 then lineComment rest
  else if b = 37 then directAddress i rest
  else if (b = 84 || b = 116) && rest[1]? = some 35 then timeLiteral floats checks i rest
  else if isDigit b then number i rest
  else if isAlpha b || b == 95 then word i rest
  else operator i b rest

/-- Tokens from position `i` on, in at most so many rounds. Source: `lex.rs`, the loop of `lex`. -/
def lexFrom : ℕ → ℕ → List UInt8 → Except LexFault (List Token)
  | 0, _, _ => .error .outOfRounds
  | _ + 1, i, [] => .ok [⟨.eof, .at_ i, []⟩]
  | n + 1, i, b :: rest => do
      let (k, t) ← round floats checks i b (b :: rest)
      let ts ← lexFrom n (i + k) ((b :: rest).drop k)
      .ok (t.toList ++ ts)

/-- Lex a source. Source: `lex.rs`, `lex`. -/
def lex (source : List UInt8) : Except LexFault (List Token) :=
  lexFrom floats checks (source.length + 1) 0 source

end SoftPlc.St.Lex
