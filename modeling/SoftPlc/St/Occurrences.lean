import SoftPlc.St.Ast

/-!
# What occurs in a body

The expressions that statements are made of, with all their parts, and the label lists of their
`CASE` arms.
-/

namespace SoftPlc.St

/-! ## Expressions -/

mutual

/-- An expression with its parts. -/
def exprParts : Expr → List Expr
  | .literal value => [.literal value]
  | .name path => .name path :: segParts path
  | .unary op e => .unary op e :: exprParts e
  | .binary op left right => .binary op left right :: (exprParts left ++ exprParts right)
  | .qGood e => .qGood e :: exprParts e
  | .fbCall ⟨callee, inputs, outputs⟩ =>
      .fbCall ⟨callee, inputs, outputs⟩ :: (segParts callee ++ argParts inputs ++ outParts outputs)

/-- The expressions in a path, which are indices. -/
def segParts : List PathSeg → List Expr
  | [] => []
  | .ident _ :: rest => segParts rest
  | .index e :: rest => exprParts e ++ segParts rest

/-- The expressions in the inputs of a call. -/
def argParts : List CallArg → List Expr
  | [] => []
  | .positional e :: rest => exprParts e ++ argParts rest
  | .named _ e :: rest => exprParts e ++ argParts rest

/-- The expressions in the outputs of a call. -/
def outParts : List CallOut → List Expr
  | [] => []
  | ⟨_, dest⟩ :: rest => exprParts dest ++ outParts rest

end

/-! ## Statements -/

mutual

/-- The expressions in a statement. -/
def stmtParts : Stmt → List Expr
  | .assign lhs rhs => exprParts lhs ++ exprParts rhs
  | .fbCall call => segParts call.callee ++ argParts call.inputs ++ outParts call.outputs
  | .ifs branches elseBody => branchesParts branches ++ elseParts elseBody
  | .case selector arms elseBody => exprParts selector ++ armsParts arms ++ elseParts elseBody
  | .while cond _ body => exprParts cond ++ stmtsParts body
  | .for _ first last step _ body =>
      exprParts first ++ exprParts last ++ (step.map exprParts).getD [] ++ stmtsParts body
  | .return => []
  | .empty => []

/-- The expressions in statements. -/
def stmtsParts : List Stmt → List Expr
  | [] => []
  | s :: rest => stmtParts s ++ stmtsParts rest

/-- The expressions in branches. -/
def branchesParts : List (Expr × List Stmt) → List Expr
  | [] => []
  | (cond, body) :: rest => exprParts cond ++ stmtsParts body ++ branchesParts rest

/-- The expressions in the last branch. -/
def elseParts : Option (List Stmt) → List Expr
  | none => []
  | some body => stmtsParts body

/-- The expressions in the bodies of arms. -/
def armsParts : List CaseArm → List Expr
  | [] => []
  | ⟨_, body⟩ :: rest => stmtsParts body ++ armsParts rest

end

/-- The literal that an expression is. -/
def Expr.literal? : Expr → Option Literal
  | .literal value => some value
  | _ => none

/-- The literals in statements. -/
def stmtsLiterals (body : List Stmt) : List Literal := (stmtsParts body).filterMap Expr.literal?

/-- An access `root[index]` in an expression. -/
def Expr.access? : Expr → Option (String × Expr)
  | .name (.ident root :: .index index :: _) => some (root, index)
  | _ => none

/-- The element accesses in statements. -/
def stmtsAccesses (body : List Stmt) : List (String × Expr) :=
  (stmtsParts body).filterMap Expr.access?

/-! ## Labels -/

mutual

/-- The label lists of the `CASE` arms in a statement. -/
def stmtLabels : Stmt → List (List ℤ)
  | .ifs branches elseBody => branchesLabels branches ++ elseLabels elseBody
  | .case _ arms elseBody => armsLabels arms ++ elseLabels elseBody
  | .while _ _ body => stmtsLabels body
  | .for _ _ _ _ _ body => stmtsLabels body
  | _ => []

/-- The label lists of the arms in statements. -/
def stmtsLabels : List Stmt → List (List ℤ)
  | [] => []
  | s :: rest => stmtLabels s ++ stmtsLabels rest

/-- The label lists of the arms in branches. -/
def branchesLabels : List (Expr × List Stmt) → List (List ℤ)
  | [] => []
  | (_, body) :: rest => stmtsLabels body ++ branchesLabels rest

/-- The label lists of the arms in the last branch. -/
def elseLabels : Option (List Stmt) → List (List ℤ)
  | none => []
  | some body => stmtsLabels body

/-- The label lists of arms and of the arms in their bodies. -/
def armsLabels : List CaseArm → List (List ℤ)
  | [] => []
  | ⟨labels, body⟩ :: rest => labels :: stmtsLabels body ++ armsLabels rest

end

end SoftPlc.St
