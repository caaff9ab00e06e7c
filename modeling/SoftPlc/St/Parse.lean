import SoftPlc.St.Ast

/-!
# The expression parser

`Parser::parse_expr` of `plc-compiler/src/parse.rs` with everything below it: a tower of levels, one
for each group of binary operators, over unary operators, postfix forms and primaries. The parser
position is the list of the tokens that are left, and the end of it is `Eof`. A parser for nested
expressions is an argument of every function below `parseExpr`, which closes the recursion; it hands
itself on to shorter lists only, and every list that it is asked for is shorter
(`parseExpr_ne_stuck`).
-/

namespace SoftPlc.St

open SoftPlc.Lib

/-! ## Tokens -/

/-- Keywords. Source: `plc-compiler/src/lex.rs`, `KEYWORDS`. -/
inductive Keyword where
  | and
  | or
  | xor
  | not
  | mod
  | true
  | false
  | en
  | eno
  /-- A keyword that the subset excludes. -/
  | excluded (text : String)
  /-- Any other keyword; none starts or continues an expression. -/
  | other (text : String)
  deriving DecidableEq, Repr

/-- The spelling of a keyword. Source: `lex.rs`, `KEYWORDS`. -/
def Keyword.text : Keyword → String
  | .and => "AND"
  | .or => "OR"
  | .xor => "XOR"
  | .not => "NOT"
  | .mod => "MOD"
  | .true => "TRUE"
  | .false => "FALSE"
  | .en => "EN"
  | .eno => "ENO"
  | .excluded text => text
  | .other text => text

/-- Tokens. A literal carries what its text parses to, if it does. Source: `lex.rs`, `TokenKind`. -/
inductive Token where
  | ident (text : String)
  | intLit (value : Option ℤ)
  | realLit (value : Option F32)
  | timeLit (value : Option (BitVec 32))
  | keyword (kw : Keyword)
  | assign
  | arrow
  | eq
  | ne
  | lt
  | le
  | gt
  | ge
  | plus
  | minus
  | star
  | slash
  | lParen
  | rParen
  | lBracket
  | rBracket
  | lBrace
  | rBrace
  | comma
  | semi
  | colon
  | dot
  | dotDot
  | directAddr (text : String)
  deriving DecidableEq, Repr

/-- Why an expression is rejected; a missing token is `Eof`. Source: the `EParse` and excluded-keyword
errors of `parse.rs`. -/
inductive ParseError where
  | excluded (kw : String)
  | expected (what : String) (got : Option Token)
  | unexpected (got : Option Token)
  | badLiteral (what : String)
  | notAName (what : String)
  /-- A nested parser was asked for a list that is not shorter; it never is. -/
  | stuck
  deriving DecidableEq, Repr

/-- Expression parsers: a tree and the tokens that are left. -/
abbrev Parser := List Token → Except ParseError (Expr × List Token)

/-! ## Levels of binary operators -/

/-- The operators of a level, by token. -/
abbrev Level := Token → Option BinaryOp

/-- Source: `parse.rs`, the loop condition of `Parser::parse_or`. -/
def orLevel : Level
  | .keyword .or => some .or
  | _ => none

/-- Source: `parse.rs`, the loop condition of `Parser::parse_and`. -/
def andLevel : Level
  | .keyword .and => some .and
  | _ => none

/-- Source: `parse.rs`, the loop condition of `Parser::parse_xor`. -/
def xorLevel : Level
  | .keyword .xor => some .xor
  | _ => none

/-- Source: `parse.rs`, the `match` of `Parser::parse_compare`. -/
def compareLevel : Level
  | .eq => some .eq
  | .ne => some .ne
  | .lt => some .lt
  | .le => some .le
  | .gt => some .gt
  | .ge => some .ge
  | _ => none

/-- Source: `parse.rs`, the `match` of `Parser::parse_add`. -/
def addLevel : Level
  | .plus => some .add
  | .minus => some .sub
  | _ => none

/-- Source: `parse.rs`, the `match` of `Parser::parse_mul`. -/
def mulLevel : Level
  | .star => some .mul
  | .slash => some .div
  | .keyword .mod => some .mod
  | _ => none

/-- Extend a left operand while an operator of the level follows. Source: `parse.rs`, the loops of
`Parser::parse_or` to `Parser::parse_mul`. -/
def levelLoop (level : Level) (operand : Parser) (left : Expr) (toks : List Token) :
    Except ParseError (Expr × List Token) :=
  match toks with
  | [] => .ok (left, [])
  | t :: rest =>
      match level t with
      | none => .ok (left, t :: rest)
      | some op => do
          let (right, rest') ← operand rest
          if _h : rest'.length ≤ rest.length then
            levelLoop level operand (.binary op left right) rest'
          else .error .stuck
termination_by toks.length

/-- One level. Source: `parse.rs`, the bodies of `Parser::parse_or` to `Parser::parse_mul`. -/
def parseLevel (level : Level) (operand : Parser) : Parser := fun toks => do
  let (left, rest) ← operand toks
  levelLoop level operand left rest

section

variable (unary : Parser)

/-- Source: `parse.rs`, `Parser::parse_mul`. -/
def parseMul : Parser := parseLevel mulLevel unary

/-- Source: `parse.rs`, `Parser::parse_add`. -/
def parseAdd : Parser := parseLevel addLevel (parseMul unary)

/-- Source: `parse.rs`, `Parser::parse_compare`. -/
def parseCompare : Parser := parseLevel compareLevel (parseAdd unary)

/-- Source: `parse.rs`, `Parser::parse_xor`. -/
def parseXor : Parser := parseLevel xorLevel (parseCompare unary)

/-- Source: `parse.rs`, `Parser::parse_and`. -/
def parseAnd : Parser := parseLevel andLevel (parseXor unary)

/-- Source: `parse.rs`, `Parser::parse_or`. -/
def parseOr : Parser := parseLevel orLevel (parseAnd unary)

end

/-! ## Operands -/

section

variable (expr : Parser)

/-- Take a token of one kind. Source: `parse.rs`, `Parser::expect`. -/
def expectToken (t : Token) (what : String) : List Token → Except ParseError (List Token)
  | t' :: rest => if t' = t then .ok rest else .error (.expected what (some t'))
  | [] => .error (.expected what none)

/-- The value of a literal. Source: `parse.rs`, the `map_err` of the literal arms of
`Parser::parse_primary`. -/
def literalOf {α : Type} (what : String) (mk : α → Literal) (rest : List Token) :
    Option α → Except ParseError (Expr × List Token)
  | some v => .ok (.literal (mk v), rest)
  | none => .error (.badLiteral what)

/-- Source: `parse.rs`, `Parser::parse_primary`. -/
def parsePrimary : Parser
  | .keyword (.excluded kw) :: _ => .error (.excluded kw)
  | .keyword .true :: rest => .ok (.literal (.bool true), rest)
  | .keyword .false :: rest => .ok (.literal (.bool false), rest)
  | .intLit v :: rest => literalOf "bad integer" .int rest v
  | .realLit v :: rest => literalOf "bad real" .real rest v
  | .timeLit v :: rest => literalOf "bad time" .timeMs rest v
  | .ident text :: .lParen :: rest =>
      if sameName text "Q_GOOD" then do
        let (inner, rest) ← expr rest
        let rest ← expectToken .rParen "RParen" rest
        .ok (.qGood inner, rest)
      else .ok (.name [.ident text], .lParen :: rest)
  | .ident text :: rest => .ok (.name [.ident text], rest)
  | .lParen :: rest => do
      let (e, rest) ← expr rest
      let rest ← expectToken .rParen "RParen" rest
      .ok (e, rest)
  | .keyword .en :: rest => .ok (.name [.ident "EN"], rest)
  | .keyword .eno :: rest => .ok (.name [.ident "ENO"], rest)
  | toks => .error (.unexpected toks.head?)

/-- The associations of a call. -/
structure Assocs where
  inputs : List CallArg
  outputs : List CallOut

/-- One association. Source: `parse.rs`, the `if` of the loop of `Parser::finish_fb_call`. -/
def parseAssoc (args : Assocs) : List Token → Except ParseError (Assocs × List Token)
  | .ident name :: .assign :: rest => do
      let (value, rest) ← expr rest
      .ok (⟨args.inputs ++ [.named name value], args.outputs⟩, rest)
  | .ident name :: .arrow :: rest => do
      let (dest, rest) ← expr rest
      .ok (⟨args.inputs, args.outputs ++ [⟨name, dest⟩]⟩, rest)
  | toks => do
      let (value, rest) ← expr toks
      .ok (⟨args.inputs ++ [.positional value], args.outputs⟩, rest)

/-- More associations, each after a comma. Source: `parse.rs`, the loop of
`Parser::finish_fb_call`. -/
def assocLoop (args : Assocs) (toks : List Token) : Except ParseError (Assocs × List Token) :=
  match toks with
  | .comma :: rest => do
      let (args, rest') ← parseAssoc expr args rest
      if _h : rest'.length ≤ rest.length then assocLoop args rest' else .error .stuck
  | toks => .ok (args, toks)
termination_by toks.length

/-- The associations between the parentheses. Source: `parse.rs`, the `if` and the loop of
`Parser::finish_fb_call`. -/
def parseAssocs (toks : List Token) : Except ParseError (Assocs × List Token) :=
  if toks.head? = some .rParen then .ok (⟨[], []⟩, toks)
  else do
    let (args, rest) ← parseAssoc expr ⟨[], []⟩ toks
    assocLoop expr args rest

/-- A call of a name, behind its opening parenthesis. Source: `parse.rs`,
`Parser::finish_fb_call`. -/
def finishFbCall (toks : List Token) : Expr → Except ParseError (Expr × List Token)
  | .name path => do
      let (args, rest) ← parseAssocs expr toks
      let rest ← expectToken .rParen "RParen" rest
      .ok (.fbCall ⟨path, args.inputs, args.outputs⟩, rest)
  | _ => .error (.notAName "FB call callee must be a name")

/-- A path with one more segment. Source: `parse.rs`, the `match &mut expr` of
`Parser::parse_postfix`. -/
def extendPath (seg : PathSeg) (what : String) (rest : List Token) :
    Expr → Except ParseError (Expr × List Token)
  | .name path => .ok (.name (path ++ [seg]), rest)
  | _ => .error (.notAName what)

/-- The name of a field. Source: `parse.rs`, the `match self.peek()` behind a dot in
`Parser::parse_postfix`. -/
def fieldName : List Token → Except ParseError (String × List Token)
  | .ident text :: rest => .ok (text, rest)
  | .keyword kw :: rest => .ok (kw.text, rest)
  | toks => .error (.expected "field name after '.'" toks.head?)

/-- One postfix form; no result when none follows. Source: `parse.rs`, the loop body of
`Parser::parse_postfix`. -/
def parseSuffix (e : Expr) :
    List Token → Option (Except ParseError (Expr × List Token))
  | .dot :: rest => some do
      let (name, rest) ← fieldName rest
      extendPath (.ident name) "field access on non-name" rest e
  | .lBracket :: rest => some do
      let (index, rest) ← expr rest
      let rest ← expectToken .rBracket "RBracket" rest
      extendPath (.index index) "index on non-name" rest e
  | .lParen :: rest => some (finishFbCall expr rest e)
  | _ => none

/-- Source: `parse.rs`, the loop of `Parser::parse_postfix`. -/
def suffixLoop (e : Expr) (toks : List Token) : Except ParseError (Expr × List Token) :=
  match parseSuffix expr e toks with
  | none => .ok (e, toks)
  | some form => do
      let (e', rest) ← form
      if _h : rest.length < toks.length then suffixLoop e' rest else .error .stuck
termination_by toks.length

/-- Source: `parse.rs`, `Parser::parse_postfix`. -/
def parsePostfix : Parser := fun toks => do
  let (e, rest) ← parsePrimary expr toks
  suffixLoop expr e rest

/-- Source: `parse.rs`, `Parser::parse_unary`. -/
def parseUnary : Parser
  | .keyword .not :: rest => do
      let (e, rest) ← parseUnary rest
      .ok (.unary .not e, rest)
  | .minus :: rest => do
      let (e, rest) ← parseUnary rest
      .ok (.unary .neg e, rest)
  | toks => parsePostfix expr toks

end

/-! ## Closing the recursion -/

/-- The parser whose nested expressions are its own, for a way to put operands together. -/
def parseWith (levels : Parser → Parser) (toks : List Token) :
    Except ParseError (Expr × List Token) :=
  levels (parseUnary fun nested =>
    if _h : nested.length < toks.length then parseWith levels nested else .error .stuck) toks
termination_by toks.length

/-- Source: `parse.rs`, `Parser::parse_expr`. -/
def parseExpr : Parser := parseWith parseOr

end SoftPlc.St
