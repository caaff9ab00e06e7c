import SoftPlc.Ir.Basic
import SoftPlc.Lib.F32

/-!
# Structured Text: abstract syntax

The syntax trees of `plc-compiler/src/ast.rs`. Source spans are left out: they only decorate
diagnostics. An `i64` literal is an integer, a `u32` a natural number, a TIME literal the 32 bits of
its `i32`.
-/

namespace SoftPlc.St

open SoftPlc.Lib

/-! ## Expressions -/

/-- Literal values. Source: `ast.rs`, `Literal`. -/
inductive Literal where
  | bool (b : Bool)
  | int (v : ℤ)
  | real (v : F32)
  | timeMs (v : BitVec 32)
  deriving DecidableEq, Repr

/-- Unary operators. Source: `ast.rs`, `UnaryOp`. -/
inductive UnaryOp where
  | neg
  | not
  deriving DecidableEq, Repr

/-- Binary operators. Source: `ast.rs`, `BinaryOp`. -/
inductive BinaryOp where
  | add
  | sub
  | mul
  | div
  | mod
  | and
  | or
  | xor
  | eq
  | ne
  | lt
  | le
  | gt
  | ge
  deriving DecidableEq, Repr

mutual

/-- Expression. Source: `ast.rs`, `Expr`. -/
inductive Expr where
  /-- Boolean, numeric or time literal. -/
  | literal (value : Literal)
  /-- Name or dotted path. -/
  | name (path : List PathSeg)
  /-- Unary operation. -/
  | unary (op : UnaryOp) (expr : Expr)
  /-- Binary operation. -/
  | binary (op : BinaryOp) (left right : Expr)
  /-- `Q_GOOD(name)`. -/
  | qGood (expr : Expr)
  /-- Inline function-block call. -/
  | fbCall (call : FbCallExpr)

/-- Path segment. Source: `ast.rs`, `PathSeg`. -/
inductive PathSeg where
  | ident (name : String)
  | index (expr : Expr)

/-- Call input argument. Source: `ast.rs`, `CallArg`. -/
inductive CallArg where
  | positional (value : Expr)
  | named (name : String) (value : Expr)

/-- Call output association `name => dest`. Source: `ast.rs`, `CallOut`. -/
structure CallOut where
  /-- Output parameter name. -/
  name : String
  /-- Destination expression. -/
  dest : Expr

/-- Function-block call. Source: `ast.rs`, `FbCallExpr`. -/
structure FbCallExpr where
  /-- Callee path. -/
  callee : List PathSeg
  /-- Input associations and positional arguments. -/
  inputs : List CallArg
  /-- Output associations. -/
  outputs : List CallOut

end

/-! ## Statements -/

mutual

/-- Statement. Source: `ast.rs`, `Stmt`. -/
inductive Stmt where
  /-- `lhs := rhs;` -/
  | assign (lhs rhs : Expr)
  /-- Function-block call as a statement. -/
  | fbCall (call : FbCallExpr)
  /-- `IF … ELSIF … ELSE … END_IF`. -/
  | ifs (branches : List (Expr × List Stmt)) (elseBody : Option (List Stmt))
  /-- `CASE … END_CASE`. -/
  | case (selector : Expr) (arms : List CaseArm) (elseBody : Option (List Stmt))
  /-- `WHILE … END_WHILE` with its optional iteration bound. -/
  | while (cond : Expr) (maxIter : Option ℕ) (body : List Stmt)
  /-- `FOR var := first TO last BY step DO … END_FOR`. The source's names of the bounds are `from`,
  `to` and `by`. -/
  | for (var : String) (first last : Expr) (step : Option Expr) (maxIter : Option ℕ)
      (body : List Stmt)
  /-- `RETURN;` -/
  | return
  /-- Empty statement. -/
  | empty

/-- `CASE` labels and body. Source: `ast.rs`, `CaseArm`. -/
structure CaseArm where
  /-- Integer labels; ranges are lowered by the parser. -/
  labels : List ℤ
  /-- Body. -/
  body : List Stmt

end

/-! ## Declarations -/

/-- Variable section kind. Source: `ast.rs`, `VarKind`. -/
inductive VarKind where
  | var
  | input
  | output
  | retain
  | constant
  | global
  deriving DecidableEq, Repr

/-- Plane of a direct address. Source: `ast.rs`, `DirectPlane`. -/
inductive DirectPlane where
  | i
  | q
  | m
  | r
  deriving DecidableEq, Repr

/-- `AT %I0` binding. Source: `ast.rs`, `DirectAddr`. -/
structure DirectAddr where
  /-- Plane. -/
  plane : DirectPlane
  /-- Slot or offset index. -/
  index : ℕ
  deriving DecidableEq, Repr

/-- Type expression of a declaration. Source: `ast.rs`, `TypeExpr`. -/
inductive TypeExpr where
  /-- Elementary type, primitive or function-block type name. -/
  | named (name : String)
  /-- `ARRAY [0..upper] OF elem`. -/
  | array (upper : ℕ) (elem : TypeExpr)
  deriving DecidableEq, Repr

/-- One variable declaration. Source: `ast.rs`, `VarDecl`. -/
structure VarDecl where
  /-- Name. -/
  name : String
  /-- Optional direct address. -/
  addr : Option DirectAddr
  /-- Type. -/
  ty : TypeExpr
  /-- Optional initial value. -/
  init : Option Expr

/-- One `VAR … END_VAR` section. Source: `ast.rs`, `VarSection`. -/
structure VarSection where
  /-- Section kind. -/
  kind : VarKind
  /-- Declarations. -/
  vars : List VarDecl

/-- `PROGRAM` body. Source: `ast.rs`, `Program`. -/
structure Program where
  /-- Name. -/
  name : String
  /-- Variable sections. -/
  vars : List VarSection
  /-- Statements. -/
  body : List Stmt

/-- `FUNCTION_BLOCK` type definition. Source: `ast.rs`, `FunctionBlock`. -/
structure FunctionBlock where
  /-- Type name. -/
  name : String
  /-- Variable sections. -/
  vars : List VarSection
  /-- Statements. -/
  body : List Stmt

/-- Top-level declaration. Source: `ast.rs`, `Decl`. -/
inductive Decl where
  | program (p : Program)
  | functionBlock (fb : FunctionBlock)

/-- The declarations of one source file. Source: `ast.rs`, `CompilationUnit`. -/
structure CompilationUnit where
  /-- Top-level declarations in source order. -/
  decls : List Decl

/-! ## Names -/

/-- `str::to_ascii_lowercase`: the spelling under which names are looked up. -/
def lower (name : String) : String :=
  String.ofList (name.toList.map fun c => if 'A' ≤ c ∧ c ≤ 'Z' then Char.ofNat (c.toNat + 32) else c)

/-- `str::to_ascii_uppercase`. -/
def upper (name : String) : String :=
  String.ofList (name.toList.map fun c => if 'a' ≤ c ∧ c ≤ 'z' then Char.ofNat (c.toNat - 32) else c)

/-- `str::eq_ignore_ascii_case`. -/
def sameName (a b : String) : Bool := lower a == lower b

end SoftPlc.St
