import SoftPlc.St.Cursor

/-!
# The parser of a compilation unit

`plc-compiler/src/parse.rs` from `Parser::parse_unit` to `Parser::parse_primary`, over positions. The
`f32` that the text of a real literal spells is a parameter. Spans of statements and declarations only
decorate later diagnostics and are left out; an expression has its own beside it, which errors use.

Functions that call each other are the rules of one recursive definition, `exprRule` or `stmtRule`,
in which `self` is the call. Each function has its own name and its equation. `unop%` applies a
function to one argument; it stands at recursive calls so that no note of their place in the file
becomes part of the definition.
-/

namespace SoftPlc.St.Units

open SoftPlc.Lib

/-- An expression with its span. Source: `ast.rs`, `Expr::span`. -/
structure Located where
  expr : Expr
  span : Lex.Span

/-- A call with its span. Source: `ast.rs`, `FbCallExpr`, the field `callee_span`. -/
structure LocatedCall where
  call : FbCallExpr
  span : Lex.Span

/-- The associations of a call. Source: `parse.rs`, the locals of `Parser::finish_fb_call`. -/
structure Assocs where
  inputs : List CallArg
  outputs : List CallOut

/-- Levels of binary operators, the loosest first. -/
inductive Level where
  | or
  | and
  | xor
  | compare
  | add
  | mul
  deriving DecidableEq, Repr

/-- The operator of a level that a token is. Source: `parse.rs`, the loops of `Parser::parse_or` to
`Parser::parse_mul`. -/
def Level.op : Level → Lex.TokenKind → Option BinaryOp
  | .or, .keyword kw => if kw = "OR" then some .or else none
  | .and, .keyword kw => if kw = "AND" then some .and else none
  | .xor, .keyword kw => if kw = "XOR" then some .xor else none
  | .compare, .eq => some .eq
  | .compare, .ne => some .ne
  | .compare, .lt => some .lt
  | .compare, .le => some .le
  | .compare, .gt => some .gt
  | .compare, .ge => some .ge
  | .add, .plus => some .add
  | .add, .minus => some .sub
  | .mul, .star => some .mul
  | .mul, .slash => some .div
  | .mul, .keyword kw => if kw = "MOD" then some .mod else none
  | _, _ => none

section

variable (parseReal : List UInt8 → Option F32) (toks : List Lex.Token)

/-! ## Expressions -/

/-- A literal at its token. Source: `parse.rs`, the literal arms of `Parser::parse_primary`. -/
def literalAt (t : Lex.Token) (message : String) (value : Option Literal) : Parse Located := do
  let _ ← bump toks
  let v ← orErrAt message t.span value
  pure ⟨.literal v, t.span⟩

/-- A name at its token. Source: `parse.rs`, the name arms of `Parser::parse_primary`. -/
def nameAt (t : Lex.Token) (name : String) : Located := ⟨.name [.ident name], t.span⟩

/-- The name after a dot. Source: `parse.rs`, the arm `Dot` of `Parser::parse_postfix`. -/
def fieldName : Parse (String × Lex.Span) := do
  let t ← peek toks
  match t.kind with
  | .ident =>
      let _ ← bump toks
      pure (Lex.chars t.text, t.span)
  | .keyword kw =>
      let _ ← bump toks
      pure (kw, t.span)
  | _ => err toks .eParse "expected field name after '.'"

/-- A path with one more segment, which ends at `stop`. Source: `parse.rs`, the `match &mut expr` of
`Parser::parse_postfix`. -/
def extendPath (e : Located) (seg : PathSeg) (stop : ℕ) (message : String) (span : Lex.Span) :
    Parse Located :=
  match e.expr with
  | .name path => pure ⟨.name (path ++ [seg]), ⟨e.span.start, stop⟩⟩
  | _ => errAt .eParse message span

/-- Whether `Q_GOOD(` follows. Source: `parse.rs`, the arm `Ident` of `Parser::parse_primary`. -/
def qGoodCall (t : Lex.Token) : Parse Bool :=
  if sameName (Lex.chars t.text) "Q_GOOD" then peekIs toks .lParen else pure false

/-- The functions on expressions, which call each other. -/
inductive ExprRule where
  | expr
  | or
  | and
  | xor
  | compare
  | add
  | mul
  | operand (level : Level)
  | levelLoop (level : Level) (left : Located)
  | unary
  | postfixForm
  | postfixLoop (e : Located)
  | primary
  | fbCall (callee : Located)
  | argLoop (args : Assocs)
  | arg (args : Assocs)

/-- What a rule reads. -/
abbrev ExprRule.Result : ExprRule → Type
  | .expr => Located
  | .or => Located
  | .and => Located
  | .xor => Located
  | .compare => Located
  | .add => Located
  | .mul => Located
  | .operand _ => Located
  | .levelLoop _ _ => Located
  | .unary => Located
  | .postfixForm => Located
  | .postfixLoop _ => Located
  | .primary => Located
  | .fbCall _ => LocatedCall
  | .argLoop _ => Assocs
  | .arg _ => Assocs

/-- What each function on expressions does. Source: `parse.rs`, `Parser::parse_expr` to
`Parser::finish_fb_call`. -/
def exprRule (r : ExprRule) : Parse r.Result :=
  let self := fun q => unop% exprRule q
  match r with
  | .expr => self .or
  | .or => do
      let left : Located ← self .and
      self (.levelLoop .or left)
  | .and => do
      let left : Located ← self .xor
      self (.levelLoop .and left)
  | .xor => do
      let left : Located ← self .compare
      self (.levelLoop .xor left)
  | .compare => do
      let left : Located ← self .add
      self (.levelLoop .compare left)
  | .add => do
      let left : Located ← self .mul
      self (.levelLoop .add left)
  | .mul => do
      let left : Located ← self .unary
      self (.levelLoop .mul left)
  | .operand level =>
      match level with
      | .or => self .and
      | .and => self .xor
      | .xor => self .compare
      | .compare => self .add
      | .add => self .mul
      | .mul => self .unary
  | .levelLoop level left => do
      let t ← peek toks
      match level.op t.kind with
      | some op =>
          let _ ← bump toks
          let right : Located ← self (.operand level)
          self (.levelLoop level
            ⟨.binary op left.expr right.expr, ⟨left.span.start, right.span.stop⟩⟩)
      | none => pure left
  | .unary => do
      let t ← peek toks
      if t.kind = .keyword "NOT" then
        let _ ← bump toks
        let e : Located ← self .unary
        pure ⟨.unary .not e.expr, ⟨t.span.start, e.span.stop⟩⟩
      else if t.kind = .minus then
        let _ ← bump toks
        let e : Located ← self .unary
        pure ⟨.unary .neg e.expr, ⟨t.span.start, e.span.stop⟩⟩
      else self .postfixForm
  | .postfixForm => do
      let e : Located ← self .primary
      self (.postfixLoop e)
  | .postfixLoop e => do
      let t ← peek toks
      if t.kind = .dot then
        let _ ← bump toks
        let (name, span) ← fieldName toks
        let e ← extendPath e (.ident name) span.stop "field access on non-name" span
        self (.postfixLoop e)
      else if t.kind = .lBracket then
        let _ ← bump toks
        let idx : Located ← self .expr
        let close ← expect toks .rBracket
        let e ← extendPath e (.index idx.expr) close.span.stop "index on non-name" close.span
        self (.postfixLoop e)
      else if t.kind = .lParen then
        let call : LocatedCall ← self (.fbCall e)
        self (.postfixLoop ⟨.fbCall call.call, call.span⟩)
      else pure e
  | .primary => do
      checkExcludedKeyword toks
      let t ← peek toks
      match t.kind with
      | .keyword kw =>
          if kw = "TRUE" then literalAt toks t "" (some (.bool true))
          else if kw = "FALSE" then literalAt toks t "" (some (.bool false))
          else if kw = "EN" ∨ kw = "ENO" then
            let _ ← bump toks
            pure (nameAt t kw)
          else err toks .eParse ("unexpected token in expression: " ++ describe t)
      | .intLit => literalAt toks t "bad integer" ((parseI64 t.text).map .int)
      | .realLit => literalAt toks t "bad real" ((parseReal t.text).map .real)
      | .timeLit =>
          literalAt toks t "bad time" ((parseI32 t.text).map fun v => .timeMs (BitVec.ofInt 32 v))
      | .ident =>
          let _ ← bump toks
          let qGood ← qGoodCall toks t
          if qGood then
            let _ ← bump toks
            let inner : Located ← self .expr
            let close ← expect toks .rParen
            pure ⟨.qGood inner.expr, ⟨t.span.start, close.span.stop⟩⟩
          else pure (nameAt t (Lex.chars t.text))
      | .lParen =>
          let _ ← bump toks
          let e : Located ← self .expr
          let _ ← expect toks .rParen
          pure e
      | _ => err toks .eParse ("unexpected token in expression: " ++ describe t)
  | .fbCall callee => do
      match callee.expr with
      | .name path =>
          let _ ← expect toks .lParen
          let empty ← peekIs toks .rParen
          let args ← if empty then pure ⟨[], []⟩ else self (.argLoop ⟨[], []⟩)
          let close ← expect toks .rParen
          pure ⟨⟨path, args.inputs, args.outputs⟩, ⟨callee.span.start, close.span.stop⟩⟩
      | _ => errAt .eParse "FB call callee must be a name" callee.span
  | .argLoop args => do
      let args : Assocs ← self (.arg args)
      let more ← peekIs toks .comma
      if more then
        let _ ← bump toks
        self (.argLoop args)
      else pure args
  | .arg args => do
      let t ← peek toks
      let i ← position
      if t.kind = .ident ∧ i + 1 < toks.length then
        let next ← tokenAt toks (i + 1)
        if next.kind = .assign then
          let name ← bump toks
          let _ ← bump toks
          let value : Located ← self .expr
          pure ⟨args.inputs ++ [.named (Lex.chars name.text) value.expr], args.outputs⟩
        else if next.kind = .arrow then
          let name ← bump toks
          let _ ← bump toks
          let dest : Located ← self .expr
          pure ⟨args.inputs, args.outputs ++ [⟨Lex.chars name.text, dest.expr⟩]⟩
        else
          let value : Located ← self .expr
          pure ⟨args.inputs ++ [.positional value.expr], args.outputs⟩
      else
        let value : Located ← self .expr
        pure ⟨args.inputs ++ [.positional value.expr], args.outputs⟩
partial_fixpoint

section

-- derives the equations of the rules once, before the many lemmas below ask for them
attribute [local simp] exprRule

end

/-- Source: `parse.rs`, `Parser::parse_expr`. -/
def parseExpr : Parse Located := exprRule parseReal toks .expr

/-- Source: `parse.rs`, `Parser::parse_or`. -/
def parseOr : Parse Located := exprRule parseReal toks .or

/-- Source: `parse.rs`, `Parser::parse_and`. -/
def parseAnd : Parse Located := exprRule parseReal toks .and

/-- Source: `parse.rs`, `Parser::parse_xor`. -/
def parseXor : Parse Located := exprRule parseReal toks .xor

/-- Source: `parse.rs`, `Parser::parse_compare`. -/
def parseCompare : Parse Located := exprRule parseReal toks .compare

/-- Source: `parse.rs`, `Parser::parse_add`. -/
def parseAdd : Parse Located := exprRule parseReal toks .add

/-- Source: `parse.rs`, `Parser::parse_mul`. -/
def parseMul : Parse Located := exprRule parseReal toks .mul

/-- The operands of a level. Source: `parse.rs`, the calls in the loops of `Parser::parse_or` to
`Parser::parse_mul`. -/
def operand (level : Level) : Parse Located := exprRule parseReal toks (.operand level)

/-- Source: `parse.rs`, the loops of `Parser::parse_or` to `Parser::parse_mul`. -/
def levelLoop (level : Level) (left : Located) : Parse Located :=
  exprRule parseReal toks (.levelLoop level left)

/-- Source: `parse.rs`, `Parser::parse_unary`. -/
def parseUnary : Parse Located := exprRule parseReal toks .unary

/-- Source: `parse.rs`, `Parser::parse_postfix`. -/
def parsePostfix : Parse Located := exprRule parseReal toks .postfixForm

/-- Source: `parse.rs`, the loop of `Parser::parse_postfix`. -/
def postfixLoop (e : Located) : Parse Located := exprRule parseReal toks (.postfixLoop e)

/-- Source: `parse.rs`, `Parser::parse_primary`. -/
def parsePrimary : Parse Located := exprRule parseReal toks .primary

/-- Source: `parse.rs`, `Parser::finish_fb_call`. -/
def finishFbCall (callee : Located) : Parse LocatedCall := exprRule parseReal toks (.fbCall callee)

/-- Source: `parse.rs`, the loop of `Parser::finish_fb_call`. -/
def argLoop (args : Assocs) : Parse Assocs := exprRule parseReal toks (.argLoop args)

/-- Source: `parse.rs`, the `if` of the loop of `Parser::finish_fb_call`. -/
def parseArg (args : Assocs) : Parse Assocs := exprRule parseReal toks (.arg args)

theorem parseExpr_eq :
    parseExpr parseReal toks = parseOr parseReal toks := by
  show exprRule parseReal toks .expr = _
  rw [exprRule.eq_def]
  rfl

theorem parseOr_eq :
    parseOr parseReal toks = (do
  let left ← parseAnd parseReal toks
  levelLoop parseReal toks .or left) := by
  show exprRule parseReal toks .or = _
  rw [exprRule.eq_def]
  rfl

theorem parseAnd_eq :
    parseAnd parseReal toks = (do
  let left ← parseXor parseReal toks
  levelLoop parseReal toks .and left) := by
  show exprRule parseReal toks .and = _
  rw [exprRule.eq_def]
  rfl

theorem parseXor_eq :
    parseXor parseReal toks = (do
  let left ← parseCompare parseReal toks
  levelLoop parseReal toks .xor left) := by
  show exprRule parseReal toks .xor = _
  rw [exprRule.eq_def]
  rfl

theorem parseCompare_eq :
    parseCompare parseReal toks = (do
  let left ← parseAdd parseReal toks
  levelLoop parseReal toks .compare left) := by
  show exprRule parseReal toks .compare = _
  rw [exprRule.eq_def]
  rfl

theorem parseAdd_eq :
    parseAdd parseReal toks = (do
  let left ← parseMul parseReal toks
  levelLoop parseReal toks .add left) := by
  show exprRule parseReal toks .add = _
  rw [exprRule.eq_def]
  rfl

theorem parseMul_eq :
    parseMul parseReal toks = (do
  let left ← parseUnary parseReal toks
  levelLoop parseReal toks .mul left) := by
  show exprRule parseReal toks .mul = _
  rw [exprRule.eq_def]
  rfl

theorem operand_or : operand parseReal toks .or = parseAnd parseReal toks := by
  show exprRule parseReal toks (.operand .or) = _
  rw [exprRule.eq_def]
  rfl

theorem operand_and : operand parseReal toks .and = parseXor parseReal toks := by
  show exprRule parseReal toks (.operand .and) = _
  rw [exprRule.eq_def]
  rfl

theorem operand_xor : operand parseReal toks .xor = parseCompare parseReal toks := by
  show exprRule parseReal toks (.operand .xor) = _
  rw [exprRule.eq_def]
  rfl

theorem operand_compare : operand parseReal toks .compare = parseAdd parseReal toks := by
  show exprRule parseReal toks (.operand .compare) = _
  rw [exprRule.eq_def]
  rfl

theorem operand_add : operand parseReal toks .add = parseMul parseReal toks := by
  show exprRule parseReal toks (.operand .add) = _
  rw [exprRule.eq_def]
  rfl

theorem operand_mul : operand parseReal toks .mul = parseUnary parseReal toks := by
  show exprRule parseReal toks (.operand .mul) = _
  rw [exprRule.eq_def]
  rfl

theorem levelLoop_eq (level : Level) (left : Located) :
    levelLoop parseReal toks level left = (do
  let t ← peek toks
  match level.op t.kind with
  | some op =>
      let _ ← bump toks
      let right ← operand parseReal toks level
      levelLoop parseReal toks level
        ⟨.binary op left.expr right.expr, ⟨left.span.start, right.span.stop⟩⟩
  | none => pure left) := by
  show exprRule parseReal toks (.levelLoop level left) = _
  rw [exprRule.eq_def]
  rfl

theorem parseUnary_eq :
    parseUnary parseReal toks = (do
  let t ← peek toks
  if t.kind = .keyword "NOT" then
    let _ ← bump toks
    let e ← parseUnary parseReal toks
    pure ⟨.unary .not e.expr, ⟨t.span.start, e.span.stop⟩⟩
  else if t.kind = .minus then
    let _ ← bump toks
    let e ← parseUnary parseReal toks
    pure ⟨.unary .neg e.expr, ⟨t.span.start, e.span.stop⟩⟩
  else parsePostfix parseReal toks) := by
  show exprRule parseReal toks .unary = _
  rw [exprRule.eq_def]
  rfl

theorem parsePostfix_eq :
    parsePostfix parseReal toks = (do
  let e ← parsePrimary parseReal toks
  postfixLoop parseReal toks e) := by
  show exprRule parseReal toks .postfixForm = _
  rw [exprRule.eq_def]
  rfl

theorem postfixLoop_eq (e : Located) :
    postfixLoop parseReal toks e = (do
  let t ← peek toks
  if t.kind = .dot then
    let _ ← bump toks
    let (name, span) ← fieldName toks
    let e ← extendPath e (.ident name) span.stop "field access on non-name" span
    postfixLoop parseReal toks e
  else if t.kind = .lBracket then
    let _ ← bump toks
    let idx ← parseExpr parseReal toks
    let close ← expect toks .rBracket
    let e ← extendPath e (.index idx.expr) close.span.stop "index on non-name" close.span
    postfixLoop parseReal toks e
  else if t.kind = .lParen then
    let call ← finishFbCall parseReal toks e
    postfixLoop parseReal toks ⟨.fbCall call.call, call.span⟩
  else pure e) := by
  show exprRule parseReal toks (.postfixLoop e) = _
  rw [exprRule.eq_def]
  rfl

theorem parsePrimary_eq :
    parsePrimary parseReal toks = (do
  checkExcludedKeyword toks
  let t ← peek toks
  match t.kind with
  | .keyword kw =>
      if kw = "TRUE" then literalAt toks t "" (some (.bool true))
      else if kw = "FALSE" then literalAt toks t "" (some (.bool false))
      else if kw = "EN" ∨ kw = "ENO" then
        let _ ← bump toks
        pure (nameAt t kw)
      else err toks .eParse ("unexpected token in expression: " ++ describe t)
  | .intLit => literalAt toks t "bad integer" ((parseI64 t.text).map .int)
  | .realLit => literalAt toks t "bad real" ((parseReal t.text).map .real)
  | .timeLit =>
      literalAt toks t "bad time" ((parseI32 t.text).map fun v => .timeMs (BitVec.ofInt 32 v))
  | .ident =>
      let _ ← bump toks
      let qGood ← qGoodCall toks t
      if qGood then
        let _ ← bump toks
        let inner ← parseExpr parseReal toks
        let close ← expect toks .rParen
        pure ⟨.qGood inner.expr, ⟨t.span.start, close.span.stop⟩⟩
      else pure (nameAt t (Lex.chars t.text))
  | .lParen =>
      let _ ← bump toks
      let e ← parseExpr parseReal toks
      let _ ← expect toks .rParen
      pure e
  | _ => err toks .eParse ("unexpected token in expression: " ++ describe t)) := by
  show exprRule parseReal toks .primary = _
  rw [exprRule.eq_def]
  rfl

theorem finishFbCall_eq (callee : Located) :
    finishFbCall parseReal toks callee = (do
  match callee.expr with
  | .name path =>
      let _ ← expect toks .lParen
      let empty ← peekIs toks .rParen
      let args ← if empty then pure ⟨[], []⟩ else argLoop parseReal toks ⟨[], []⟩
      let close ← expect toks .rParen
      pure ⟨⟨path, args.inputs, args.outputs⟩, ⟨callee.span.start, close.span.stop⟩⟩
  | _ => errAt .eParse "FB call callee must be a name" callee.span) := by
  show exprRule parseReal toks (.fbCall callee) = _
  rw [exprRule.eq_def]
  rfl

theorem argLoop_eq (args : Assocs) :
    argLoop parseReal toks args = (do
  let args ← parseArg parseReal toks args
  let more ← peekIs toks .comma
  if more then
    let _ ← bump toks
    argLoop parseReal toks args
  else pure args) := by
  show exprRule parseReal toks (.argLoop args) = _
  rw [exprRule.eq_def]
  rfl

theorem parseArg_eq (args : Assocs) :
    parseArg parseReal toks args = (do
  let t ← peek toks
  let i ← position
  if t.kind = .ident ∧ i + 1 < toks.length then
    let next ← tokenAt toks (i + 1)
    if next.kind = .assign then
      let name ← bump toks
      let _ ← bump toks
      let value ← parseExpr parseReal toks
      pure ⟨args.inputs ++ [.named (Lex.chars name.text) value.expr], args.outputs⟩
    else if next.kind = .arrow then
      let name ← bump toks
      let _ ← bump toks
      let dest ← parseExpr parseReal toks
      pure ⟨args.inputs, args.outputs ++ [⟨Lex.chars name.text, dest.expr⟩]⟩
    else
      let value ← parseExpr parseReal toks
      pure ⟨args.inputs ++ [.positional value.expr], args.outputs⟩
  else
    let value ← parseExpr parseReal toks
    pure ⟨args.inputs ++ [.positional value.expr], args.outputs⟩) := by
  show exprRule parseReal toks (.arg args) = _
  rw [exprRule.eq_def]
  rfl

/-! ## Statements -/

/-- Source: `parse.rs`, `Parser::parse_max_iter_attr`. -/
def parseMaxIterAttr : Parse ℕ := do
  let _ ← expect toks .lBrace
  let (id, _) ← expectIdent toks
  if sameName id "max_iter" then
    let _ ← expect toks .assign
    let n ← expect toks .intLit
    let v ← orErrAt "bad max_iter" n.span (parseU32 n.text)
    let _ ← expect toks .rBrace
    pure v
  else err toks .eParse "only max_iter attribute supported"

/-- The attribute before a loop. Source: `parse.rs`, the first `if` of `Parser::parse_stmt`. -/
def maxIterAttr : Parse (Option ℕ) := do
  let brace ← peekIs toks .lBrace
  if brace then
    let v ← parseMaxIterAttr toks
    pure (some v)
  else pure none

/-- A semicolon may follow. Source: `parse.rs`, the ends of `Parser::parse_if` to
`Parser::parse_for`. -/
def optionalSemi : Parse Unit := do
  let semi ← peekIs toks .semi
  if semi then
    let _ ← bump toks
    pure ()
  else pure ()

/-- A label, or the end of a range. Source: `parse.rs`, the labels of `Parser::parse_case`. -/
def labelValue (message : String) : Parse ℤ := do
  let lit ← expect toks .intLit
  orErrAt message lit.span (parseI64 lit.text)

/-- One label or range. Source: `parse.rs`, the loop over the labels of `Parser::parse_case`. -/
def parseLabel : Parse (List ℤ) := do
  let v ← labelValue toks "bad CASE label"
  let range ← peekIs toks .dotDot
  if range then
    let _ ← bump toks
    let hv ← labelValue toks "bad CASE range"
    if hv < v then err toks .eParse "CASE range high < low" else pure (span v hv)
  else pure [v]

/-- Source: `parse.rs`, the loop over the labels of `Parser::parse_case`. -/
def labelLoop (labels : List ℤ) : Parse (List ℤ) := do
  let more ← parseLabel toks
  let comma ← peekIs toks .comma
  if comma then
    let _ ← bump toks
    unop% labelLoop (labels ++ more)
  else pure (labels ++ more)
partial_fixpoint

/-- Whether an integer starts the next arm: look one token ahead and come back. Source: `parse.rs`,
the first `if` of the loop of `Parser::parse_stmt_list`. -/
def atLabel (stop : List Lex.TokenKind) : Parse Bool := do
  let t ← peek toks
  if stop.any (fun s => s == .intLit) && t.kind == .intLit then
    let save ← position
    let _ ← bump toks
    let next ← peek toks
    setPosition save
    pure (next.kind == .colon || next.kind == .comma || next.kind == .dotDot)
  else pure false

/-- Source: `parse.rs`, the stops of `Parser::parse_if`. -/
def ifStop : List Lex.TokenKind := [.keyword "ELSIF", .keyword "ELSE", .keyword "END_IF"]

/-- The optional step of a loop. Source: `parse.rs`, `let by` of `Parser::parse_for`. -/
def parseStep : Parse (Option Expr) := do
  let hasStep ← peekIs toks (.keyword "BY")
  if hasStep then
    let _ ← bump toks
    let e ← parseExpr parseReal toks
    pure (some e.expr)
  else pure none

/-- The functions on statements, which call each other. -/
inductive StmtRule where
  | stmt
  | ifs
  | branch
  | elsifLoop (branches : List (Expr × List Stmt))
  | case
  | caseLoop (arms : List CaseArm)
  | while (maxIter : Option ℕ)
  | for (maxIter : Option ℕ)
  | stmtList (stop : List Lex.TokenKind) (body : List Stmt)

/-- What a rule reads. -/
abbrev StmtRule.Result : StmtRule → Type
  | .stmt => Stmt
  | .ifs => Stmt
  | .branch => Expr × List Stmt
  | .elsifLoop _ => List (Expr × List Stmt)
  | .case => Stmt
  | .caseLoop _ => List CaseArm × Option (List Stmt)
  | .while _ => Stmt
  | .for _ => Stmt
  | .stmtList _ _ => List Stmt

/-- What each function on statements does. Source: `parse.rs`, `Parser::parse_stmt` to
`Parser::parse_stmt_list`. -/
def stmtRule (r : StmtRule) : Parse r.Result :=
  let self := fun q => unop% stmtRule q
  match r with
  | .stmt => do
      checkExcludedKeyword toks
      let maxIter ← maxIterAttr toks
      let t ← peek toks
      if t.kind = .keyword "IF" then self .ifs
      else if t.kind = .keyword "CASE" then self .case
      else if t.kind = .keyword "WHILE" then self (.while maxIter)
      else if t.kind = .keyword "FOR" then self (.for maxIter)
      else if t.kind = .keyword "RETURN" then
        let _ ← expectKw toks "RETURN"
        let _ ← expect toks .semi
        pure .return
      else if t.kind = .semi then
        let _ ← bump toks
        pure .empty
      else if maxIter.isSome then
        err toks .eParse "\x7b max_iter := … \x7d only valid before WHILE/FOR"
      else
        let e ← parseExpr parseReal toks
        let t ← peek toks
        if t.kind = .assign then
          let _ ← bump toks
          let rhs ← parseExpr parseReal toks
          let _ ← expect toks .semi
          pure (.assign e.expr rhs.expr)
        else
          match e.expr with
          | .fbCall call =>
              let _ ← expect toks .semi
              pure (.fbCall call)
          | _ =>
              if t.kind = .lParen then
                let call ← finishFbCall parseReal toks e
                let _ ← expect toks .semi
                pure (.fbCall call.call)
              else err toks .eParse "expected assignment or FB call statement"
  | .ifs => do
      let _ ← expectKw toks "IF"
      let branch : Expr × List Stmt ← self .branch
      let branches : List (Expr × List Stmt) ← self (.elsifLoop [branch])
      let hasElse ← peekIs toks (.keyword "ELSE")
      if hasElse then
        let _ ← bump toks
        let elseBody : List Stmt ← self (.stmtList [.keyword "END_IF"] [])
        let _ ← expectKw toks "END_IF"
        optionalSemi toks
        pure (.ifs branches (some elseBody))
      else
        let _ ← expectKw toks "END_IF"
        optionalSemi toks
        pure (.ifs branches none)
  | .branch => do
      let cond ← parseExpr parseReal toks
      let _ ← expectKw toks "THEN"
      let body : List Stmt ← self (.stmtList ifStop [])
      pure (cond.expr, body)
  | .elsifLoop branches => do
      let more ← peekIs toks (.keyword "ELSIF")
      if more then
        let _ ← bump toks
        let branch : Expr × List Stmt ← self .branch
        self (.elsifLoop (branches ++ [branch]))
      else pure branches
  | .case => do
      let _ ← expectKw toks "CASE"
      let selector ← parseExpr parseReal toks
      let _ ← expectKw toks "OF"
      let (arms, elseBody) ← self (.caseLoop [])
      let _ ← expectKw toks "END_CASE"
      optionalSemi toks
      pure (.case selector.expr arms elseBody)
  | .caseLoop arms => do
      let t ← peek toks
      if t.kind = .keyword "END_CASE" then pure (arms, none)
      else if t.kind = .keyword "ELSE" then
        let _ ← bump toks
        let elseBody : List Stmt ← self (.stmtList [.keyword "END_CASE"] [])
        pure (arms, some elseBody)
      else
        let labels ← labelLoop toks []
        let _ ← expect toks .colon
        let body : List Stmt ← self (.stmtList [.intLit, .keyword "ELSE", .keyword "END_CASE"] [])
        self (.caseLoop (arms ++ [⟨labels, body⟩]))
  | .while maxIter => do
      let _ ← expectKw toks "WHILE"
      let cond ← parseExpr parseReal toks
      let _ ← expectKw toks "DO"
      let body : List Stmt ← self (.stmtList [.keyword "END_WHILE"] [])
      let _ ← expectKw toks "END_WHILE"
      optionalSemi toks
      pure (.while cond.expr maxIter body)
  | .for maxIter => do
      let _ ← expectKw toks "FOR"
      let (var, _) ← expectIdent toks
      let _ ← expect toks .assign
      let first ← parseExpr parseReal toks
      let _ ← expectKw toks "TO"
      let last ← parseExpr parseReal toks
      let step ← parseStep parseReal toks
      let _ ← expectKw toks "DO"
      let body : List Stmt ← self (.stmtList [.keyword "END_FOR"] [])
      let _ ← expectKw toks "END_FOR"
      optionalSemi toks
      pure (.for var first.expr last.expr step maxIter body)
  | .stmtList stop body => do
      let t ← peek toks
      if t.kind = .eof ∨ stop.any (kindsEq t.kind) then pure body
      else
        let label ← atLabel toks stop
        if label then pure body
        else
          let s : Stmt ← self .stmt
          self (.stmtList stop (body ++ [s]))
partial_fixpoint

section

-- as for `exprRule`
attribute [local simp] stmtRule

end

/-- Source: `parse.rs`, `Parser::parse_stmt`. -/
def parseStmt : Parse Stmt := stmtRule parseReal toks .stmt

/-- Source: `parse.rs`, `Parser::parse_if`. -/
def parseIf : Parse Stmt := stmtRule parseReal toks .ifs

/-- A condition with its statements. Source: `parse.rs`, the branches of `Parser::parse_if`. -/
def parseBranch : Parse (Expr × List Stmt) := stmtRule parseReal toks .branch

/-- Source: `parse.rs`, the loop of `Parser::parse_if`. -/
def elsifLoop (branches : List (Expr × List Stmt)) : Parse (List (Expr × List Stmt)) :=
  stmtRule parseReal toks (.elsifLoop branches)

/-- Source: `parse.rs`, `Parser::parse_case`. -/
def parseCase : Parse Stmt := stmtRule parseReal toks .case

/-- Source: `parse.rs`, the loop over the arms of `Parser::parse_case`. -/
def caseLoop (arms : List CaseArm) : Parse (List CaseArm × Option (List Stmt)) :=
  stmtRule parseReal toks (.caseLoop arms)

/-- Source: `parse.rs`, `Parser::parse_while`. -/
def parseWhile (maxIter : Option ℕ) : Parse Stmt := stmtRule parseReal toks (.while maxIter)

/-- Source: `parse.rs`, `Parser::parse_for`. -/
def parseFor (maxIter : Option ℕ) : Parse Stmt := stmtRule parseReal toks (.for maxIter)

/-- Source: `parse.rs`, `Parser::parse_stmt_list`, with the statements so far. -/
def parseStmtList (stop : List Lex.TokenKind) (body : List Stmt) : Parse (List Stmt) :=
  stmtRule parseReal toks (.stmtList stop body)

theorem parseStmt_eq :
    parseStmt parseReal toks = (do
  checkExcludedKeyword toks
  let maxIter ← maxIterAttr toks
  let t ← peek toks
  if t.kind = .keyword "IF" then parseIf parseReal toks
  else if t.kind = .keyword "CASE" then parseCase parseReal toks
  else if t.kind = .keyword "WHILE" then parseWhile parseReal toks maxIter
  else if t.kind = .keyword "FOR" then parseFor parseReal toks maxIter
  else if t.kind = .keyword "RETURN" then
    let _ ← expectKw toks "RETURN"
    let _ ← expect toks .semi
    pure .return
  else if t.kind = .semi then
    let _ ← bump toks
    pure .empty
  else if maxIter.isSome then
    err toks .eParse "\x7b max_iter := … \x7d only valid before WHILE/FOR"
  else
    let e ← parseExpr parseReal toks
    let t ← peek toks
    if t.kind = .assign then
      let _ ← bump toks
      let rhs ← parseExpr parseReal toks
      let _ ← expect toks .semi
      pure (.assign e.expr rhs.expr)
    else
      match e.expr with
      | .fbCall call =>
          let _ ← expect toks .semi
          pure (.fbCall call)
      | _ =>
          if t.kind = .lParen then
            let call ← finishFbCall parseReal toks e
            let _ ← expect toks .semi
            pure (.fbCall call.call)
          else err toks .eParse "expected assignment or FB call statement") := by
  show stmtRule parseReal toks .stmt = _
  rw [stmtRule.eq_def]
  rfl

theorem parseIf_eq :
    parseIf parseReal toks = (do
  let _ ← expectKw toks "IF"
  let branch ← parseBranch parseReal toks
  let branches ← elsifLoop parseReal toks [branch]
  let hasElse ← peekIs toks (.keyword "ELSE")
  if hasElse then
    let _ ← bump toks
    let elseBody ← parseStmtList parseReal toks [.keyword "END_IF"] []
    let _ ← expectKw toks "END_IF"
    optionalSemi toks
    pure (.ifs branches (some elseBody))
  else
    let _ ← expectKw toks "END_IF"
    optionalSemi toks
    pure (.ifs branches none)) := by
  show stmtRule parseReal toks .ifs = _
  rw [stmtRule.eq_def]
  rfl

theorem parseBranch_eq :
    parseBranch parseReal toks = (do
  let cond ← parseExpr parseReal toks
  let _ ← expectKw toks "THEN"
  let body ← parseStmtList parseReal toks ifStop []
  pure (cond.expr, body)) := by
  show stmtRule parseReal toks .branch = _
  rw [stmtRule.eq_def]
  rfl

theorem elsifLoop_eq (branches : List (Expr × List Stmt)) :
    elsifLoop parseReal toks branches = (do
  let more ← peekIs toks (.keyword "ELSIF")
  if more then
    let _ ← bump toks
    let branch ← parseBranch parseReal toks
    elsifLoop parseReal toks (branches ++ [branch])
  else pure branches) := by
  show stmtRule parseReal toks (.elsifLoop branches) = _
  rw [stmtRule.eq_def]
  rfl

theorem parseCase_eq :
    parseCase parseReal toks = (do
  let _ ← expectKw toks "CASE"
  let selector ← parseExpr parseReal toks
  let _ ← expectKw toks "OF"
  let (arms, elseBody) ← caseLoop parseReal toks []
  let _ ← expectKw toks "END_CASE"
  optionalSemi toks
  pure (.case selector.expr arms elseBody)) := by
  show stmtRule parseReal toks .case = _
  rw [stmtRule.eq_def]
  rfl

theorem caseLoop_eq (arms : List CaseArm) :
    caseLoop parseReal toks arms = (do
  let t ← peek toks
  if t.kind = .keyword "END_CASE" then pure (arms, none)
  else if t.kind = .keyword "ELSE" then
    let _ ← bump toks
    let elseBody ← parseStmtList parseReal toks [.keyword "END_CASE"] []
    pure (arms, some elseBody)
  else
    let labels ← labelLoop toks []
    let _ ← expect toks .colon
    let body ← parseStmtList parseReal toks [.intLit, .keyword "ELSE", .keyword "END_CASE"] []
    caseLoop parseReal toks (arms ++ [⟨labels, body⟩])) := by
  show stmtRule parseReal toks (.caseLoop arms) = _
  rw [stmtRule.eq_def]
  rfl

theorem parseWhile_eq (maxIter : Option ℕ) :
    parseWhile parseReal toks maxIter = (do
  let _ ← expectKw toks "WHILE"
  let cond ← parseExpr parseReal toks
  let _ ← expectKw toks "DO"
  let body ← parseStmtList parseReal toks [.keyword "END_WHILE"] []
  let _ ← expectKw toks "END_WHILE"
  optionalSemi toks
  pure (.while cond.expr maxIter body)) := by
  show stmtRule parseReal toks (.while maxIter) = _
  rw [stmtRule.eq_def]
  rfl

theorem parseFor_eq (maxIter : Option ℕ) :
    parseFor parseReal toks maxIter = (do
  let _ ← expectKw toks "FOR"
  let (var, _) ← expectIdent toks
  let _ ← expect toks .assign
  let first ← parseExpr parseReal toks
  let _ ← expectKw toks "TO"
  let last ← parseExpr parseReal toks
  let step ← parseStep parseReal toks
  let _ ← expectKw toks "DO"
  let body ← parseStmtList parseReal toks [.keyword "END_FOR"] []
  let _ ← expectKw toks "END_FOR"
  optionalSemi toks
  pure (.for var first.expr last.expr step maxIter body)) := by
  show stmtRule parseReal toks (.for maxIter) = _
  rw [stmtRule.eq_def]
  rfl

theorem parseStmtList_eq (stop : List Lex.TokenKind) (body : List Stmt) :
    parseStmtList parseReal toks stop body = (do
  let t ← peek toks
  if t.kind = .eof ∨ stop.any (kindsEq t.kind) then pure body
  else
    let label ← atLabel toks stop
    if label then pure body
    else
      let s ← parseStmt parseReal toks
      parseStmtList parseReal toks stop (body ++ [s])) := by
  show stmtRule parseReal toks (.stmtList stop body) = _
  rw [stmtRule.eq_def]
  rfl

/-! ## Declarations -/

/-- The plane of a direct address. Source: `parse.rs`, the `match plane_s` of `parse_direct_addr`. -/
def directPlane (text : List UInt8) : Option DirectPlane :=
  if text = [73] then some .i
  else if text = [81] then some .q
  else if text = [77] then some .m
  else if text = [82] then some .r
  else none

/-- The text is `I:0`. Source: `parse.rs`, `parse_direct_addr`. -/
def parseDirectAddr (t : Lex.Token) : Parse DirectAddr :=
  match t.text.dropWhile (fun b => b != 58) with
  | [] => errAt .eLex "bad direct addr" t.span
  | _ :: idx =>
      match directPlane (t.text.takeWhile fun b => b != 58) with
      | none => errAt .eLex "bad plane" t.span
      | some plane =>
          match parseU32 idx with
          | none => errAt .eLex "bad direct index" t.span
          | some index => pure ⟨plane, index⟩

/-- The bounds of an array. Source: `parse.rs`, the first `if` of `Parser::parse_type`. -/
def arrayUpper : Parse ℕ := do
  let _ ← expectKw toks "ARRAY"
  let _ ← expect toks .lBracket
  let lo ← expect toks .intLit
  match parseI64 lo.text with
  | none => err toks .eParse "bad array lower bound"
  | some v =>
      if v ≠ 0 then err toks .eParse "ARRAY lower bound must be 0 in v1"
      else
        let _ ← expect toks .dotDot
        let hi ← expect toks .intLit
        let upper ← orErrAt "bad array upper bound" hi.span (parseU32 hi.text)
        let _ ← expect toks .rBracket
        let _ ← expectKw toks "OF"
        pure upper

/-- Keywords that name a type. Source: `parse.rs`, the `matches!` of `Parser::parse_type`. -/
def typeKeywords : List String :=
  ["BOOL", "INT", "DINT", "REAL", "TIME", "TON", "TOF", "TP", "CTU", "CTD", "RS", "SR", "PID"]

/-- Source: `parse.rs`, the second `match` of `Parser::parse_type`. -/
def namedType : Parse TypeExpr := do
  let t ← peek toks
  match t.kind with
  | .ident =>
      let _ ← bump toks
      pure (.named (Lex.chars t.text))
  | .keyword kw =>
      if kw ∈ typeKeywords then
        let _ ← bump toks
        pure (.named kw)
      else if kw = "STRING" ∨ kw = "WSTRING" then excludedKw toks .eExcludedString "STRING"
      else if kw = "LINT" ∨ kw = "LREAL" then excludedKw toks .eExcluded "LINT/LREAL"
      else if kw = "REF_TO" then excludedKw toks .eExcludedPointer "REF_TO"
      else err toks .eParse ("expected type name, got " ++ describe t)
  | _ => err toks .eParse ("expected type name, got " ++ describe t)

/-- What `parseType` does. -/
def typeRule (r : Unit) : Parse TypeExpr := do
  checkExcludedKeyword toks
  let array ← peekIs toks (.keyword "ARRAY")
  if array then
    let upper ← arrayUpper toks
    let elem ← unop% typeRule r
    pure (.array upper elem)
  else namedType toks
partial_fixpoint

/-- Source: `parse.rs`, `Parser::parse_type`. -/
def parseType : Parse TypeExpr := typeRule toks ()

theorem parseType_eq :
    parseType toks = (do
      checkExcludedKeyword toks
      let array ← peekIs toks (.keyword "ARRAY")
      if array then
        let upper ← arrayUpper toks
        let elem ← parseType toks
        pure (.array upper elem)
      else namedType toks) := by
  show typeRule toks () = _
  rw [typeRule]
  rfl

/-- The optional direct address. Source: `parse.rs`, `let mut at` of `Parser::parse_var_decl`. -/
def parseAt : Parse (Option DirectAddr) := do
  let hasAt ← peekIs toks (.keyword "AT")
  if hasAt then
    let _ ← bump toks
    let t ← peek toks
    if t.kind ≠ .directAddr then err toks .eParse "expected direct address after AT"
    else
      let _ ← bump toks
      let addr ← parseDirectAddr t
      pure (some addr)
  else pure none

/-- The optional initial value. Source: `parse.rs`, `let mut init` of `Parser::parse_var_decl`. -/
def parseInit : Parse (Option Expr) := do
  let hasInit ← peekIs toks .assign
  if hasInit then
    let _ ← bump toks
    let e ← parseExpr parseReal toks
    pure (some e.expr)
  else pure none

/-- Source: `parse.rs`, `Parser::parse_var_decl`. -/
def parseVarDecl : Parse VarDecl := do
  let (name, _) ← expectIdent toks
  let addr ← parseAt toks
  let _ ← expect toks .colon
  let ty ← parseType toks
  let init ← parseInit parseReal toks
  let _ ← expect toks .semi
  pure ⟨name, addr, ty, init⟩

/-- A section that may be constant. Source: `parse.rs`, the arms `VAR_GLOBAL` and `VAR` of
`Parser::parse_var_section`. -/
def orConstant (kind : VarKind) : Parse VarKind := do
  let _ ← bump toks
  let constant ← peekIs toks (.keyword "CONSTANT")
  if constant then
    let _ ← bump toks
    pure .constant
  else pure kind

/-- A section of one kind. Source: `parse.rs`, the first arms of `Parser::parse_var_section`. -/
def plainSection (kind : VarKind) : Parse VarKind := do
  let _ ← bump toks
  pure kind

/-- Source: `parse.rs`, the `match` of `Parser::parse_var_section`. -/
def sectionKind : Parse VarKind := do
  let t ← peek toks
  if t.kind = .keyword "VAR_INPUT" then plainSection toks .input
  else if t.kind = .keyword "VAR_OUTPUT" then plainSection toks .output
  else if t.kind = .keyword "VAR_RETAIN" then plainSection toks .retain
  else if t.kind = .keyword "VAR_GLOBAL" then orConstant toks .global
  else if t.kind = .keyword "VAR" then orConstant toks .var
  else if t.kind = .keyword "VAR_IN_OUT" then excludedKw toks .eExcludedVarInOut "VAR_IN_OUT"
  else err toks .eParse "expected VAR section"

/-- Source: `parse.rs`, the loop of `Parser::parse_var_section`. -/
def varLoop (vars : List VarDecl) : Parse (List VarDecl) := do
  let atEnd ← peekIs toks (.keyword "END_VAR")
  if atEnd then pure vars
  else
    checkExcludedKeyword toks
    let v ← parseVarDecl parseReal toks
    unop% varLoop (vars ++ [v])
partial_fixpoint

/-- Source: `parse.rs`, `Parser::parse_var_section`. -/
def parseVarSection : Parse VarSection := do
  let kind ← sectionKind toks
  let vars ← varLoop parseReal toks []
  let _ ← expectKw toks "END_VAR"
  pure ⟨kind, vars⟩

/-- Keywords that open a section in a block. Source: `parse.rs`, the first arm of the loops of
`Parser::parse_program` and `Parser::parse_fb`. -/
def sectionKeywords : List String :=
  ["VAR", "VAR_INPUT", "VAR_OUTPUT", "VAR_RETAIN", "VAR_GLOBAL"]

/-- What a program or function block consists of. -/
structure Block where
  name : String
  vars : List VarSection
  body : List Stmt

section

variable (endKw nested : String)

/-- What `blockLoop` does with the block so far. -/
def blockRule (b : Block) : Parse Block := do
  checkExcludedKeyword toks
  let t ← peek toks
  if ∃ kw ∈ sectionKeywords, t.kind = .keyword kw then
    let v ← parseVarSection parseReal toks
    let longer : Block := ⟨b.name, b.vars ++ [v], b.body⟩
    unop% blockRule longer
  else if t.kind = .keyword endKw then
    let _ ← expectKw toks endKw
    pure b
  else if t.kind = .keyword "FUNCTION_BLOCK" then excludedKw toks .eExcludedNestedFbType nested
  else
    let s ← parseStmt parseReal toks
    let longer : Block := ⟨b.name, b.vars, b.body ++ [s]⟩
    unop% blockRule longer
partial_fixpoint

/-- Sections and statements up to the closing keyword. Source: `parse.rs`, the loops of
`Parser::parse_program` and `Parser::parse_fb`. -/
def blockLoop (name : String) (vars : List VarSection) (body : List Stmt) : Parse Block :=
  blockRule parseReal toks endKw nested ⟨name, vars, body⟩

theorem blockLoop_eq (name : String) (vars : List VarSection) (body : List Stmt) :
    blockLoop parseReal toks endKw nested name vars body = (do
      checkExcludedKeyword toks
      let t ← peek toks
      if ∃ kw ∈ sectionKeywords, t.kind = .keyword kw then
        let v ← parseVarSection parseReal toks
        blockLoop parseReal toks endKw nested name (vars ++ [v]) body
      else if t.kind = .keyword endKw then
        let _ ← expectKw toks endKw
        pure ⟨name, vars, body⟩
      else if t.kind = .keyword "FUNCTION_BLOCK" then
        excludedKw toks .eExcludedNestedFbType nested
      else
        let s ← parseStmt parseReal toks
        blockLoop parseReal toks endKw nested name vars (body ++ [s])) := by
  show blockRule parseReal toks endKw nested ⟨name, vars, body⟩ = _
  rw [blockRule]
  rfl

end

/-- A block between its keywords. Source: `parse.rs`, `Parser::parse_program` and
`Parser::parse_fb`. -/
def parseBlock (startKw endKw nested : String) : Parse Block := do
  let _ ← expectKw toks startKw
  let (name, _) ← expectIdent toks
  blockLoop parseReal toks endKw nested name [] []

/-- Source: `parse.rs`, `Parser::parse_program`. -/
def parseProgram : Parse Program := do
  let b ← parseBlock parseReal toks "PROGRAM" "END_PROGRAM" "FUNCTION_BLOCK nested inside PROGRAM/FB"
  pure ⟨b.name, b.vars, b.body⟩

/-- Source: `parse.rs`, `Parser::parse_fb`. -/
def parseFb : Parse FunctionBlock := do
  let b ← parseBlock parseReal toks "FUNCTION_BLOCK" "END_FUNCTION_BLOCK"
    "nested FUNCTION_BLOCK type definition"
  pure ⟨b.name, b.vars, b.body⟩

/-- One declaration. Source: `parse.rs`, the `match` of `Parser::parse_unit`. -/
def parseDecl : Parse Decl := do
  checkExcludedKeyword toks
  let t ← peek toks
  if t.kind = .keyword "PROGRAM" then
    let p ← parseProgram parseReal toks
    pure (.program p)
  else if t.kind = .keyword "FUNCTION_BLOCK" then
    let fb ← parseFb parseReal toks
    pure (.functionBlock fb)
  else err toks .eParse ("expected PROGRAM or FUNCTION_BLOCK, got " ++ describe t)

/-- Source: `parse.rs`, the loop of `Parser::parse_unit`. -/
def unitLoop (decls : List Decl) : Parse (List Decl) := do
  let atEnd ← peekIs toks .eof
  if atEnd then pure decls
  else
    let d ← parseDecl parseReal toks
    unop% unitLoop (decls ++ [d])
partial_fixpoint

/-- Source: `parse.rs`, `Parser::parse_unit`. -/
def parseUnit : Parse CompilationUnit := do
  let decls ← unitLoop parseReal toks []
  pure ⟨decls⟩

end

end SoftPlc.St.Units
