import SoftPlc.Compiler.Codegen
import SoftPlc.Vm.ExecSpec

/-!
# Structured Text: types and meaning

What a program means, without code, offsets or a stack. A program runs on a `Store`: the values of
its variables, the primitive instances, and the count of divisions by zero. Variables are found by
name through a `Scope`. A body ends normally, returns early, or faults; it faults where the language
gives no result, which for a well-typed body (`stmtOk`) is a division whose quotient does not exist,
a full division counter, or a controller with limits out of order.

Integer arithmetic is arithmetic of integers wrapped to the type of the operands. REAL arithmetic is
that of `F32`.
-/

namespace SoftPlc.St

open SoftPlc.Ir SoftPlc.Fb SoftPlc.Lib SoftPlc.Vm SoftPlc.Compiler

/-! ## Scopes -/

/-- What a name stands for. -/
inductive Entity where
  /-- `%I` slot. -/
  | input (slot : ℕ) (ty : IrType)
  /-- `%Q` slot. -/
  | output (slot : ℕ) (ty : IrType)
  /-- Elementary variable. -/
  | var (ty : IrType)
  /-- Array of elementary values. -/
  | array (ty : IrType) (len : ℕ)
  /-- Retained variable. -/
  | retain (ty : IrType)
  /-- Primitive instance: a cell of the pool of its kind. -/
  | prim (id : PrimitiveId) (inst : ℕ)
  /-- Constant. -/
  | const (value : Literal)
  /-- Anything else; a program that uses it has no meaning here. -/
  | other
  deriving DecidableEq

/-- The entities of the names in scope; names in lower case. -/
abbrev Scope := String → Option Entity

/-- A scope with one more name. -/
def Scope.declare (Γ : Scope) (name : String) (e : Entity) : Scope :=
  fun n => if n = name then some e else Γ n

/-- A place that holds a value. -/
inductive Loc where
  /-- A variable, or a numbered part of one: an array element, or an output of a primitive. -/
  | cell (name : String) (k : ℕ)
  /-- A retained variable. -/
  | retain (name : String)
  /-- A `%Q` slot. -/
  | output (slot : ℕ)
  deriving DecidableEq

/-- What a path stands for. -/
inductive Ref where
  | loc (l : Loc) (ty : IrType)
  | input (slot : ℕ) (ty : IrType)
  | const (value : Literal)

/-- The number and type of an output of a primitive. -/
def primOutput (id : PrimitiveId) (field : String) : Option (ℕ × IrType) :=
  match (primOutTypes id).findIdx? fun o => sameName o.1 field with
  | some k => ((primOutTypes id)[k]?).map fun o => (k, o.2)
  | none => none

/-- The meaning of a path: a name, an output of a primitive, or an array element with a literal
index inside the bounds. -/
def Scope.resolve (Γ : Scope) : List PathSeg → Option Ref
  | [.ident n] =>
      match Γ (lower n) with
      | some (.input slot ty) => some (.input slot ty)
      | some (.output slot ty) => some (.loc (.output slot) ty)
      | some (.var ty) => some (.loc (.cell (lower n) 0) ty)
      | some (.retain ty) => some (.loc (.retain (lower n)) ty)
      | some (.const value) => some (.const value)
      | _ => none
  | [.ident n, .ident field] =>
      match Γ (lower n) with
      | some (.prim id _) => (primOutput id field).map fun o => .loc (.cell (lower n) o.1) o.2
      | _ => none
  | [.ident n, .index (.literal (.int i))] =>
      match Γ (lower n) with
      | some (.array ty len) =>
          if 0 ≤ i ∧ i < len then some (.loc (.cell (lower n) i.toNat) ty) else none
      | _ => none
  | _ => none

/-! ## Types -/

/-- The type of a literal. -/
def Literal.irType : Literal → IrType
  | .bool _ => .bool
  | .int _ => .dint
  | .real _ => .real
  | .timeMs _ => .time

/-- The value of a literal. -/
def Literal.value : Literal → VmValue
  | .bool b => .bool b
  | .int v => .dint (BitVec.ofInt 32 v)
  | .real v => .real v
  | .timeMs v => .time v

/-- An integer that a DINT can hold. -/
def fitsI32 (v : ℤ) : Bool := -2 ^ 31 ≤ v ∧ v < 2 ^ 31

/-- Integer literals fit a DINT. -/
def Literal.fits : Literal → Bool
  | .int v => fitsI32 v
  | _ => true

/-- The type that a unary operator gives. -/
def unaryType : UnaryOp → IrType → Option IrType
  | .not, t => if t = .real then none else some t
  | .neg, t => if t = .bool then none else some t

/-- The type that a binary operator gives on operands of one type. -/
def binaryType : BinaryOp → IrType → Option IrType
  | .add, t | .sub, t | .mul, t | .div, t => if t = .bool then none else some t
  | .and, t | .or, t => if t = .bool then some .bool else none
  | .xor, t => if t = .bool ∨ t = .int ∨ t = .dint then some t else none
  | .eq, _ | .ne, _ | .lt, _ | .le, _ | .gt, _ | .ge, _ => some .bool
  | .mod, _ => none

/-- The type of an expression; none if it is not well typed. -/
def exprType (Γ : Scope) : Expr → Option IrType
  | .literal value => if value.fits then some value.irType else none
  | .name path =>
      match Γ.resolve path with
      | some (.loc _ ty) => some ty
      | some (.input _ ty) => some ty
      | some (.const value) => if value.fits then some value.irType else none
      | none => none
  | .unary op expr =>
      match exprType Γ expr with
      | some t => unaryType op t
      | none => none
  | .binary op left right =>
      match exprType Γ left, exprType Γ right with
      | some t, some u => if t = u then binaryType op t else none
      | _, _ => none
  | .qGood (.name [.ident n]) =>
      match Γ (lower n) with
      | some (.input _ _) => some .bool
      | _ => none
  | _ => none

/-- Types of the inputs of a primitive. -/
def primInTypes : PrimitiveId → List IrType
  | .ton | .tof | .tp => [.bool, .time]
  | .ctu | .ctd => [.bool, .bool, .dint]
  | .rs | .sr => [.bool, .bool]
  | .rTrig | .fTrig => [.bool]
  | .pid => [.real, .real, .bool]

/-- A call argument with its value. -/
def CallArg.arg : CallArg → Arg Expr
  | .positional value => ⟨none, isTrueLiteral value, value⟩
  | .named name value => ⟨some name, isTrueLiteral value, value⟩

/-- The values of all the inputs of a primitive, in declaration order. -/
def primArgs (id : PrimitiveId) (inputs : List CallArg) : Option (List Expr) :=
  let names := primInNames id
  match bindArgs names (inputs.map CallArg.arg) 0 (List.replicate names.length none) with
  | .ok args => args.mapM fun a => a
  | .error _ => none

/-- The destination of an assignment has a type. -/
def assigns (Γ : Scope) (lhs : Expr) (ty : IrType) : Bool :=
  match lhs with
  | .name path =>
      match Γ.resolve path with
      | some (.loc _ t) => t = ty
      | _ => false
  | _ => false

/-- An output association of a primitive call copies an output to a variable of its type. -/
def outOk (Γ : Scope) (id : PrimitiveId) (o : CallOut) : Bool :=
  sameName o.name "ENO" ||
    match primOutput id o.name with
    | some (_, ty) => assigns Γ o.dest ty
    | none => false

/-- A call of a primitive whose arguments and destinations have the declared types. -/
def callOk (Γ : Scope) (call : FbCallExpr) : Bool :=
  match call.callee with
  | [.ident n] =>
      match Γ (lower n) with
      | some (.prim id _) =>
          (primArgs id call.inputs).any (fun args =>
            args.map (exprType Γ) = (primInTypes id).map some) &&
          call.outputs.all (outOk Γ id)
      | _ => false
  | _ => false

/-- The scope inside a `FOR`: a control variable that is not declared is one inside the loop. -/
def Scope.enterFor (Γ : Scope) (var : String) : Scope :=
  if (Γ (lower var)).isNone then Γ.declare (lower var) (.var .dint) else Γ

mutual

/-- Statements in which every assignment, argument and condition has the type of its target. -/
def stmtOk : Stmt → Scope → Bool
  | .assign lhs rhs, Γ =>
      match exprType Γ rhs with
      | some t => assigns Γ lhs t
      | none => false
  | .fbCall call, Γ => callOk Γ call
  | .ifs branches elseBody, Γ => branchesOk branches Γ && elseOk elseBody Γ
  | .case selector arms elseBody, Γ =>
      (exprType Γ selector = some .int ∨ exprType Γ selector = some .dint) && armsOk arms Γ &&
        elseOk elseBody Γ
  | .while cond maxIter body, Γ =>
      exprType Γ cond = some .bool && maxIter.all (fun n => n < 2 ^ 32) && stmtsOk body Γ
  | .for var first last step maxIter body, Γ =>
      (Γ.enterFor var (lower var) = some (.var .dint)) && exprType Γ first = some .dint &&
        exprType (Γ.enterFor var) last = some .dint &&
        step.all (fun s => exprType (Γ.enterFor var) s = some .dint) &&
        maxIter.all (fun n => n < 2 ^ 32) && stmtsOk body (Γ.enterFor var)
  | .return, _ => true
  | .empty, _ => true

/-- Every statement of a list. -/
def stmtsOk : List Stmt → Scope → Bool
  | [], _ => true
  | s :: rest, Γ => stmtOk s Γ && stmtsOk rest Γ

/-- Every branch of an `IF`. -/
def branchesOk : List (Expr × List Stmt) → Scope → Bool
  | [], _ => true
  | (cond, body) :: rest, Γ =>
      exprType Γ cond = some .bool && stmtsOk body Γ && branchesOk rest Γ

/-- An `ELSE`. -/
def elseOk : Option (List Stmt) → Scope → Bool
  | none, _ => true
  | some body, Γ => stmtsOk body Γ

/-- Every arm of a `CASE`; an arm has a label, and labels fit a DINT. -/
def armsOk : List CaseArm → Scope → Bool
  | [], _ => true
  | ⟨labels, body⟩ :: rest, Γ =>
      !labels.isEmpty && labels.all fitsI32 && stmtsOk body Γ && armsOk rest Γ

end

/-! ## Operators -/

/-- The values that a program works on. -/
structure Store where
  /-- Variables. -/
  vars : Loc → VmValue
  /-- Primitive instances. -/
  prims : PrimitiveStore
  /-- Divisions by zero so far. -/
  div0 : ℕ

/-- What a program reads from outside. -/
structure Env where
  /-- Input image. -/
  inputs : SlotImage
  /-- Time. -/
  nowMs : ℕ

/-- How a body can end before its last statement. -/
inductive Exit where
  /-- `RETURN`. -/
  | returned
  /-- No result. -/
  | fault
  deriving DecidableEq

/-- Meanings of expressions and statements. -/
abbrev StM := EStateM Exit Store

/-- End without a result. -/
def fault {α : Type} : StM α := fun σ => .error .fault σ

/-- Zero of a type, with one more division by zero on the counter. -/
def divideByZero (ty : IrType) : StM VmValue := fun σ =>
  if σ.div0 < u32Max then .ok (.zero ty) { σ with div0 := σ.div0 + 1 } else .error .fault σ

/-- Integer arithmetic, wrapped to a type. Division truncates; it gives zero on a zero divisor, and
no result if the quotient does not fit the working width. -/
def intBinary (op : BinaryOp) (ty : IrType) (a b : VmValue) (x y : ℤ) : StM VmValue :=
  match op with
  | .add => pure (.ofInt ty (x + y))
  | .sub => pure (.ofInt ty (x - y))
  | .mul => pure (.ofInt ty (x * y))
  | .div =>
      if y = 0 then divideByZero ty
      else if quotientOverflows a b then fault
      else pure (.ofInt ty (x.tdiv y))
  | _ => fault

/-- REAL arithmetic. -/
def realBinary (op : BinaryOp) (x y : F32) : StM VmValue :=
  match op with
  | .add => pure (.real (x.add y))
  | .sub => pure (.real (x.sub y))
  | .mul => pure (.real (x.mul y))
  | .div => if y.isZero then divideByZero .real else pure (.real (x.div y))
  | _ => fault

/-- Exclusive or, of truth values or bit by bit. -/
def xorValues : VmValue → VmValue → StM VmValue
  | .bool x, .bool y => pure (.bool (x ^^ y))
  | .int x, .int y => pure (.int (x ^^^ y))
  | .dint x, .dint y => pure (.dint (x ^^^ y))
  | _, _ => fault

/-- The order of two values of one type. -/
def orderValues (real : F32 → F32 → Bool) (int : ℤ → ℤ → Bool) (a b : VmValue) : StM VmValue :=
  match a, b with
  | .real x, .real y => pure (.bool (real x y))
  | _, _ =>
      match a.asI64, b.asI64 with
      | some x, some y => pure (.bool (int x y))
      | _, _ => fault

/-- The binary operators that evaluate both operands. -/
def binaryValue (op : BinaryOp) (a b : VmValue) : StM VmValue :=
  match op with
  | .add | .sub | .mul | .div =>
      match a, b with
      | .real x, .real y => realBinary op x y
      | _, _ =>
          match a.asI64, b.asI64 with
          | some x, some y => intBinary op a.irType a b x y
          | _, _ => fault
  | .xor => xorValues a b
  | .eq => pure (.bool (a = b))
  | .ne => pure (.bool (a ≠ b))
  | .lt => orderValues (fun x y => x.lt y) (fun x y => x < y) a b
  | .le => orderValues (fun x y => x.le y) (fun x y => x ≤ y) a b
  | .gt => orderValues (fun x y => y.lt x) (fun x y => y < x) a b
  | .ge => orderValues (fun x y => y.le x) (fun x y => y ≤ x) a b
  | .mod | .and | .or => fault

/-- The unary operators: NOT of a truth value or bit by bit, and the negated number, wrapped. -/
def unaryValue (op : UnaryOp) (a : VmValue) : StM VmValue :=
  match op, a with
  | .not, .bool b => pure (.bool !b)
  | .not, .int v => pure (.int (~~~v))
  | .not, .dint v => pure (.dint (~~~v))
  | .not, .time v => pure (.time (~~~v))
  | .not, .lint v => pure (.lint (~~~v))
  | .neg, .real v => pure (.real v.neg)
  | .neg, .int v => pure (.ofInt .int (-v.toInt))
  | .neg, .dint v => pure (.ofInt .dint (-v.toInt))
  | .neg, .time v => pure (.ofInt .time (-v.toInt))
  | .neg, .lint v => pure (.ofInt .lint (-v.toInt))
  | _, _ => fault

/-! ## Expressions -/

/-- The value of an expression. AND and OR evaluate their right operand only if the left one does
not decide. -/
def eval (env : Env) (Γ : Scope) : Expr → StM VmValue
  | .literal value => pure value.value
  | .name path =>
      match Γ.resolve path with
      | some (.loc l _) => do
          let σ ← get
          pure (σ.vars l)
      | some (.input slot _) =>
          match env.inputs.values[slot]? with
          | some v => pure v
          | none => fault
      | some (.const value) => pure value.value
      | none => fault
  | .unary op expr => do
      let a ← eval env Γ expr
      unaryValue op a
  | .binary op left right =>
      match op with
      | .and => do
          let a ← eval env Γ left
          if a.asBool then eval env Γ right else pure (.bool false)
      | .or => do
          let a ← eval env Γ left
          if a.asBool then pure (.bool true) else eval env Γ right
      | op => do
          let a ← eval env Γ left
          let b ← eval env Γ right
          binaryValue op a b
  | .qGood (.name [.ident n]) =>
      match Γ (lower n) with
      | some (.input slot _) =>
          match env.inputs.qualityGood[slot]? with
          | some good => pure (.bool good)
          | none => fault
      | _ => fault
  | _ => fault

/-! ## Statements -/

/-- A store with one place changed. -/
def Store.set (σ : Store) (l : Loc) (v : VmValue) : Store :=
  { σ with vars := fun l' => if l' = l then v else σ.vars l' }

theorem Store.set_self (σ : Store) (l : Loc) (v : VmValue) : (σ.set l v).vars l = v :=
  if_pos rfl

theorem Store.set_ne (σ : Store) {l l' : Loc} (h : l' ≠ l) (v : VmValue) :
    (σ.set l v).vars l' = σ.vars l' :=
  if_neg h

/-- Assign to a path. -/
def assign (Γ : Scope) (lhs : Expr) (v : VmValue) : StM Unit :=
  match lhs with
  | .name path =>
      match Γ.resolve path with
      | some (.loc l _) => modify fun σ => σ.set l v
      | _ => fault
  | _ => fault

/-- A store with the numbered parts of a name changed. -/
def Store.setCells (σ : Store) (name : String) (vals : List VmValue) : Store :=
  { σ with vars := fun l =>
      match l with
      | .cell n k => if n = name then (vals[k]?).getD (σ.vars l) else σ.vars l
      | _ => σ.vars l }

/-- Run a primitive instance on the values of its inputs; its outputs are the parts of its name. -/
def invoke (env : Env) (name : String) (id : PrimitiveId) (inst : ℕ) (args : List VmValue) :
    StM Unit := fun σ =>
  match callPrimitive σ.prims id inst (args.map VmValue.toStackValue) env.nowMs with
  | .ok (prims, out) =>
      .ok () ({ σ with prims := prims }.setCells name (resultValues (isTimer id) 0 out))
  | .error _ => .error .fault σ

/-- Copy outputs of a primitive to their destinations. -/
def copyOut (Γ : Scope) (name : String) (id : PrimitiveId) : List CallOut → StM Unit
  | [] => pure ()
  | o :: rest =>
      if sameName o.name "ENO" then copyOut Γ name id rest
      else
        match primOutput id o.name with
        | some (k, _) => do
            let σ ← get
            assign Γ o.dest (σ.vars (.cell name k))
            copyOut Γ name id rest
        | none => fault

/-- Values of a list of expressions, from left to right. -/
def evalAll (env : Env) (Γ : Scope) : List Expr → StM (List VmValue)
  | [] => pure []
  | e :: rest => do
      let v ← eval env Γ e
      let vs ← evalAll env Γ rest
      pure (v :: vs)

/-- A call of a primitive: copy in, run, copy out. -/
def execCall (env : Env) (Γ : Scope) (call : FbCallExpr) : StM Unit :=
  match call.callee with
  | [.ident n] =>
      match Γ (lower n) with
      | some (.prim id inst) =>
          match primArgs id call.inputs with
          | some args => do
              let vals ← evalAll env Γ args
              invoke env (lower n) id inst vals
              copyOut Γ (lower n) id call.outputs
          | none => fault
      | _ => fault
  | _ => fault

/-- A loop that is cut off after a number of iterations. -/
def boundedLoop (cond : StM Bool) (body : StM Unit) : ℕ → StM Unit
  | 0 => pure ()
  | n + 1 => do
      if ← cond then do
        body
        boundedLoop cond body n
      else pure ()

/-- Whether the control variable of a `FOR` has not passed the limit. -/
def forTest (l : Loc) (limit : VmValue) : StM Bool := do
  let σ ← get
  let past ← binaryValue .gt (σ.vars l) limit
  pure !past.asBool

/-- Advance the control variable of a `FOR`. -/
def forNext (l : Loc) (stride : VmValue) : StM Unit := do
  let σ ← get
  let next ← binaryValue .add (σ.vars l) stride
  modify fun σ => σ.set l next

/-- The step of a `FOR`. -/
def evalStep (env : Env) (Γ : Scope) : Option Expr → StM VmValue
  | some e => eval env Γ e
  | none => pure (.dint 1)

/-- Whether a value is one of the labels of an arm. -/
def matchesLabel (v : VmValue) (labels : List ℤ) : Bool :=
  labels.any fun lab => v.asI64 = some lab

mutual

/-- The meaning of a statement. The bounds of a `FOR` are evaluated once, after the control variable
got its first value. -/
def exec (env : Env) : Stmt → Scope → StM Unit
  | .empty, _ => pure ()
  | .return, _ => fun σ => .error .returned σ
  | .assign lhs rhs, Γ => do
      let v ← eval env Γ rhs
      assign Γ lhs v
  | .fbCall call, Γ => execCall env Γ call
  | .ifs branches elseBody, Γ => execBranches env branches Γ (execElse env elseBody Γ)
  | .case selector arms elseBody, Γ => do
      let v ← eval env Γ selector
      execArms env arms Γ v (execElse env elseBody Γ)
  | .while cond maxIter body, Γ =>
      boundedLoop (do let c ← eval env Γ cond; pure c.asBool) (execAll env body Γ)
        (maxIter.getD 0)
  | .for var first last step maxIter body, Γ => do
      let v ← eval env Γ first
      modify fun σ => σ.set (.cell (lower var) 0) v
      let limit ← eval env (Γ.enterFor var) last
      let stride ← evalStep env (Γ.enterFor var) step
      boundedLoop (forTest (.cell (lower var) 0) limit)
        (do
          execAll env body (Γ.enterFor var)
          forNext (.cell (lower var) 0) stride)
        ((forBound first last step maxIter).getD 0)

/-- Statements one after the other. -/
def execAll (env : Env) : List Stmt → Scope → StM Unit
  | [], _ => pure ()
  | s :: rest, Γ => do
      exec env s Γ
      execAll env rest Γ

/-- The first branch whose condition holds, or else the rest. -/
def execBranches (env : Env) : List (Expr × List Stmt) → Scope → StM Unit → StM Unit
  | [], _, otherwise => otherwise
  | (cond, body) :: rest, Γ, otherwise => do
      let c ← eval env Γ cond
      if c.asBool then execAll env body Γ else execBranches env rest Γ otherwise

/-- An `ELSE`, or nothing. -/
def execElse (env : Env) : Option (List Stmt) → Scope → StM Unit
  | none, _ => pure ()
  | some body, Γ => execAll env body Γ

/-- The first arm with a matching label, or else the rest. -/
def execArms (env : Env) : List CaseArm → Scope → VmValue → StM Unit → StM Unit
  | [], _, _, otherwise => otherwise
  | ⟨labels, body⟩ :: rest, Γ, v, otherwise =>
      if matchesLabel v labels then execAll env body Γ else execArms env rest Γ v otherwise

end

end SoftPlc.St
