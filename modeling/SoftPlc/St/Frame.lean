import SoftPlc.St.Semantics

/-!
# What statements leave alone

`stmtWrites` says which places a statement may write: the targets of assignments and of copied
outputs, the outputs of called instances, and the control variables of `FOR`. `Spares` says that a
computation leaves a place alone; it composes (`Spares.bind`), so a statement leaves alone what it
does not write (`spares_exec`).
-/

namespace SoftPlc.St

open SoftPlc.Ir SoftPlc.Lib SoftPlc.Vm SoftPlc.Fb

/-! ## Places that are written -/

/-- The place that an assignment writes. -/
def Scope.target (Γ : Scope) : Expr → Option Loc
  | .name path =>
      match Γ.resolve path with
      | some (.loc l _) => some l
      | _ => none
  | _ => none

/-- Whether a place is a numbered part of a name. -/
def Loc.isCellOf (name : String) : Loc → Bool
  | .cell n _ => n = name
  | _ => false

/-- Whether a call may write a place. -/
def callWrites (Γ : Scope) (call : FbCallExpr) (l : Loc) : Bool :=
  match call.callee with
  | [.ident n] => l.isCellOf (lower n) || call.outputs.any fun o => Γ.target o.dest = some l
  | _ => false

mutual

/-- Whether a statement may write a place. -/
def stmtWrites : Stmt → Scope → Loc → Bool
  | .assign lhs _, Γ, l => Γ.target lhs = some l
  | .fbCall call, Γ, l => callWrites Γ call l
  | .ifs branches elseBody, Γ, l => branchesWrite branches Γ l || elseWrites elseBody Γ l
  | .case _ arms elseBody, Γ, l => armsWrite arms Γ l || elseWrites elseBody Γ l
  | .while _ _ body, Γ, l => stmtsWrite body Γ l
  | .for var _ _ _ _ body, Γ, l =>
      (l = .cell (lower var) 0) || stmtsWrite body (Γ.enterFor var) l
  | .return, _, _ => false
  | .empty, _, _ => false

/-- Any statement of a list. -/
def stmtsWrite : List Stmt → Scope → Loc → Bool
  | [], _, _ => false
  | s :: rest, Γ, l => stmtWrites s Γ l || stmtsWrite rest Γ l

/-- Any branch of an `IF`. -/
def branchesWrite : List (Expr × List Stmt) → Scope → Loc → Bool
  | [], _, _ => false
  | (_, body) :: rest, Γ, l => stmtsWrite body Γ l || branchesWrite rest Γ l

/-- An `ELSE`. -/
def elseWrites : Option (List Stmt) → Scope → Loc → Bool
  | none, _, _ => false
  | some body, Γ, l => stmtsWrite body Γ l

/-- Any arm of a `CASE`. -/
def armsWrite : List CaseArm → Scope → Loc → Bool
  | [], _, _ => false
  | ⟨_, body⟩ :: rest, Γ, l => stmtsWrite body Γ l || armsWrite rest Γ l

end

/-! ## Computations that leave a place alone -/

/-- The store at the end. -/
def finalStore {α : Type} : EStateM.Result Exit Store α → Store
  | .ok _ σ => σ
  | .error _ σ => σ

/-- A computation leaves a place alone. -/
def Spares (l : Loc) {α : Type} (x : StM α) : Prop :=
  ∀ σ, (finalStore (x σ)).vars l = σ.vars l

variable {l : Loc} {α β : Type} {env : Env} {Γ : Scope}

theorem Spares.pure (a : α) : Spares l (Pure.pure a : StM α) := fun _ => rfl

theorem Spares.fault : Spares l (fault : StM α) := fun _ => rfl

theorem Spares.get : Spares l (MonadState.get : StM Store) := fun _ => rfl

theorem Spares.bind {x : StM α} {k : α → StM β} (hx : Spares l x) (hk : ∀ a, Spares l (k a)) :
    Spares l (x >>= k) := by
  intro σ
  have hbind : (x >>= k) σ = EStateM.bind x k σ := rfl
  have hfirst := hx σ
  rw [hbind, EStateM.bind]
  rcases hm : x σ with ⟨a, σ'⟩ | ⟨e, σ'⟩
  · rw [hm] at hfirst
    exact (hk a σ').trans hfirst
  · rw [hm] at hfirst
    exact hfirst

/-- A change elsewhere. -/
theorem Spares.set {l' : Loc} {v : VmValue} (h : l ≠ l') :
    Spares l (modify fun σ => σ.set l' v : StM Unit) :=
  fun σ => Store.set_ne σ h v

/-! ## Expressions -/

theorem spares_divideByZero (ty : IrType) : Spares l (divideByZero ty) := by
  intro σ
  unfold divideByZero
  split_ifs <;> rfl

theorem spares_intBinary (op : BinaryOp) (ty : IrType) (a b : VmValue) (x y : ℤ) :
    Spares l (intBinary op ty a b x y) := by
  unfold intBinary
  split
  · exact .pure _
  · exact .pure _
  · exact .pure _
  · split_ifs
    · exact spares_divideByZero ty
    · exact .fault
    · exact .pure _
  · exact .fault

theorem spares_realBinary (op : BinaryOp) (x y : F32) : Spares l (realBinary op x y) := by
  unfold realBinary
  split
  · exact .pure _
  · exact .pure _
  · exact .pure _
  · split_ifs
    · exact spares_divideByZero _
    · exact .pure _
  · exact .fault

theorem spares_orderValues (real : F32 → F32 → Bool) (int : ℤ → ℤ → Bool) (a b : VmValue) :
    Spares l (orderValues real int a b) := by
  unfold orderValues
  split
  · exact .pure _
  · split
    · exact .pure _
    · exact .fault

theorem spares_binaryValue (op : BinaryOp) (a b : VmValue) : Spares l (binaryValue op a b) := by
  cases op with
  | add | sub | mul | div =>
      simp only [binaryValue]
      split
      · exact spares_realBinary _ _ _
      · split
        · exact spares_intBinary _ _ _ _ _ _
        · exact .fault
  | xor =>
      simp only [binaryValue, xorValues]
      split
      · exact .pure _
      · exact .pure _
      · exact .pure _
      · exact .fault
  | eq => exact .pure _
  | ne => exact .pure _
  | lt | le | gt | ge => exact spares_orderValues _ _ _ _
  | mod | and | or => exact .fault

theorem spares_unaryValue (op : UnaryOp) (a : VmValue) : Spares l (unaryValue op a) := by
  unfold unaryValue
  split <;> first | exact .pure _ | exact .fault

/-- Expressions write nothing. -/
theorem spares_eval : (e : Expr) → Spares l (eval env Γ e)
  | .literal value => .pure _
  | .name path => by
      rw [eval]
      split
      · exact .bind .get fun _ => .pure _
      · split
        · exact .pure _
        · exact .fault
      · exact .pure _
      · exact .fault
  | .unary op e => by
      rw [eval]
      exact .bind (spares_eval e) fun a => spares_unaryValue op a
  | .binary op left right => by
      have hboth : ∀ op, Spares l (do
          let a ← eval env Γ left
          let b ← eval env Γ right
          binaryValue op a b) := fun op =>
        .bind (spares_eval left) fun a => .bind (spares_eval right) fun b => spares_binaryValue op a b
      cases op with
      | and =>
          simp only [eval]
          refine .bind (spares_eval left) fun a => ?_
          split_ifs
          · exact spares_eval right
          · exact .pure _
      | or =>
          simp only [eval]
          refine .bind (spares_eval left) fun a => ?_
          split_ifs
          · exact .pure _
          · exact spares_eval right
      | _ =>
          simp only [eval]
          exact hboth _
  | .qGood e => by
      unfold eval
      split
      case h_5 n heq =>
        cases heq
        split
        · split
          · exact .pure _
          · exact .fault
        · exact .fault
      case h_6 => exact .fault
      all_goals
        rename_i heq
        cases heq
  | .fbCall call => by
      unfold eval
      exact .fault

theorem spares_evalAll : (es : List Expr) → Spares l (evalAll env Γ es)
  | [] => .pure _
  | e :: rest => by
      rw [evalAll]
      exact .bind (spares_eval e) fun v => .bind (spares_evalAll rest) fun vs => .pure _

theorem spares_evalStep (step : Option Expr) : Spares l (evalStep env Γ step) := by
  cases step with
  | none => exact .pure _
  | some e => exact spares_eval e

/-! ## Statements -/

/-- An assignment writes its target. -/
theorem spares_assign {lhs : Expr} {v : VmValue} (h : Γ.target lhs ≠ some l) :
    Spares l (assign Γ lhs v) := by
  unfold assign
  split
  · split
    · next path l' ty hpath =>
        refine .set fun heq => h ?_
        rw [Scope.target, hpath, heq]
    · exact .fault
  · exact .fault

/-- An instance writes the parts of its name. -/
theorem spares_invoke {name : String} {id : PrimitiveId} {inst : ℕ} {args : List VmValue}
    (h : l.isCellOf name = false) : Spares l (invoke env name id inst args) := by
  intro σ
  unfold invoke
  rcases callPrimitive σ.prims id inst (args.map VmValue.toStackValue) env.nowMs with e | ⟨prims, out⟩
  · rfl
  · cases l with
    | cell n k =>
        have hn : n ≠ name := by simpa [Loc.isCellOf] using h
        exact if_neg hn
    | retain n => rfl
    | output slot => rfl

/-- Copied outputs are assigned. -/
theorem spares_copyOut {name : String} {id : PrimitiveId} : (outs : List CallOut) →
    (outs.any fun o => Γ.target o.dest = some l) = false → Spares l (copyOut Γ name id outs)
  | [], _ => .pure _
  | o :: rest, h => by
      rw [List.any_cons, Bool.or_eq_false_iff] at h
      obtain ⟨ho, hrest⟩ := h
      have htarget : Γ.target o.dest ≠ some l := by simpa using ho
      rw [copyOut]
      split_ifs
      · exact spares_copyOut rest hrest
      · split
        · exact .bind .get fun σ => .bind (spares_assign htarget) fun _ => spares_copyOut rest hrest
        · exact .fault

theorem spares_execCall {call : FbCallExpr} (h : callWrites Γ call l = false) :
    Spares l (execCall env Γ call) := by
  unfold execCall
  split
  · next n hcallee =>
      rw [callWrites, hcallee] at h
      simp only [Bool.or_eq_false_iff] at h
      split
      · split
        · exact .bind (spares_evalAll _) fun vals => .bind (spares_invoke h.1) fun _ =>
            spares_copyOut _ h.2
        · exact .fault
      · exact .fault
  · exact .fault

/-- A loop writes what its condition and its body write. -/
theorem Spares.boundedLoop {cond : StM Bool} {body : StM Unit} (hcond : Spares l cond)
    (hbody : Spares l body) (n : ℕ) : Spares l (boundedLoop cond body n) := by
  induction n with
  | zero => exact .pure _
  | succ n ih =>
      rw [St.boundedLoop]
      refine .bind hcond fun c => ?_
      split_ifs
      · exact .bind hbody fun _ => ih
      · exact .pure _

theorem spares_forTest (l' : Loc) (limit : VmValue) : Spares l (forTest l' limit) :=
  .bind .get fun _ => .bind (spares_binaryValue _ _ _) fun _ => .pure _

theorem spares_forNext {l' : Loc} {stride : VmValue} (h : l ≠ l') : Spares l (forNext l' stride) :=
  .bind .get fun _ => .bind (spares_binaryValue _ _ _) fun _ => .set h

mutual

/-- **A statement leaves alone what it does not write.** -/
theorem spares_exec : (s : Stmt) → {Γ : Scope} → stmtWrites s Γ l = false → Spares l (exec env s Γ)
  | .empty, _, _ => by
      rw [exec]
      exact .pure _
  | .return, _, _ => by
      rw [exec]
      exact fun _ => rfl
  | .assign lhs rhs, Γ, h => by
      rw [stmtWrites, decide_eq_false_iff_not] at h
      rw [exec]
      exact .bind (spares_eval rhs) fun v => spares_assign h
  | .fbCall call, Γ, h => by
      rw [stmtWrites] at h
      rw [exec]
      exact spares_execCall h
  | .ifs branches elseBody, Γ, h => by
      rw [stmtWrites, Bool.or_eq_false_iff] at h
      rw [exec]
      exact spares_execBranches branches h.1 (spares_execElse elseBody h.2)
  | .case selector arms elseBody, Γ, h => by
      rw [stmtWrites, Bool.or_eq_false_iff] at h
      rw [exec]
      exact .bind (spares_eval selector) fun v =>
        spares_execArms arms h.1 v (spares_execElse elseBody h.2)
  | .while cond maxIter body, Γ, h => by
      rw [stmtWrites] at h
      rw [exec]
      exact .boundedLoop (.bind (spares_eval cond) fun _ => .pure _) (spares_execAll body h) _
  | .for var first last step maxIter body, Γ, h => by
      rw [stmtWrites, Bool.or_eq_false_iff, decide_eq_false_iff_not] at h
      rw [exec]
      refine .bind (spares_eval first) fun v => .bind (.set h.1) fun _ =>
        .bind (spares_eval last) fun limit => .bind (spares_evalStep step) fun stride =>
          .boundedLoop (spares_forTest _ _) ?_ _
      exact .bind (spares_execAll body h.2) fun _ => spares_forNext h.1

/-- Statements one after the other. -/
theorem spares_execAll : (body : List Stmt) → {Γ : Scope} → stmtsWrite body Γ l = false →
    Spares l (execAll env body Γ)
  | [], _, _ => by
      rw [execAll]
      exact .pure _
  | s :: rest, Γ, h => by
      rw [stmtsWrite, Bool.or_eq_false_iff] at h
      rw [execAll]
      exact .bind (spares_exec s h.1) fun _ => spares_execAll rest h.2

/-- The branches of an `IF`. -/
theorem spares_execBranches {otherwise : StM Unit} : (branches : List (Expr × List Stmt)) →
    {Γ : Scope} → branchesWrite branches Γ l = false → Spares l otherwise →
    Spares l (execBranches env branches Γ otherwise)
  | [], _, _, hother => by
      rw [execBranches]
      exact hother
  | (cond, body) :: rest, Γ, h, hother => by
      rw [branchesWrite, Bool.or_eq_false_iff] at h
      rw [execBranches]
      refine .bind (spares_eval cond) fun c => ?_
      split_ifs
      · exact spares_execAll body h.1
      · exact spares_execBranches rest h.2 hother

/-- An `ELSE`. -/
theorem spares_execElse : (elseBody : Option (List Stmt)) → {Γ : Scope} →
    elseWrites elseBody Γ l = false → Spares l (execElse env elseBody Γ)
  | none, _, _ => by
      rw [execElse]
      exact .pure _
  | some body, Γ, h => by
      rw [elseWrites] at h
      rw [execElse]
      exact spares_execAll body h

/-- The arms of a `CASE`. -/
theorem spares_execArms {otherwise : StM Unit} : (arms : List CaseArm) → {Γ : Scope} →
    armsWrite arms Γ l = false → (v : VmValue) → Spares l otherwise →
    Spares l (execArms env arms Γ v otherwise)
  | [], _, _, v, hother => by
      rw [execArms]
      exact hother
  | ⟨labels, body⟩ :: rest, Γ, h, v, hother => by
      rw [armsWrite, Bool.or_eq_false_iff] at h
      rw [execArms]
      split_ifs
      · exact spares_execAll body h.1
      · exact spares_execArms rest h.2 v hother

end

end SoftPlc.St
