import SoftPlc.Compiler.Assemble

/-!
# What the emitter does

One inversion rule for each emitter function: a successful run is a chain of runs of its parts, with
the items appended between them written out. From the rules follows what every run of the emitter
does (`Ext`): it appends, it keeps what is bound, and it allocates above everything allocated
before; and a run places no label twice and none that it was given (`Fresh`).
-/

namespace SoftPlc.Compiler

open SoftPlc.Ir SoftPlc.St SoftPlc.Lib SoftPlc.Vm

variable {order : HashOrder} {g g' g'' : Codegen}

/-! ## Actions -/

/-- A simple instruction as an item. -/
abbrev Item.simple (op : Opcode) (payload : ℕ) : Item := .instr (.simple op payload)

/-- `PUSHI_DINT` as an item. -/
abbrev Item.dint (imm : ℕ) : Item := .instr (.withImm32 .pushIDint 0 imm)

/-- The emitter with more items. -/
def Codegen.adds (g : Codegen) (items : List Item) : Codegen :=
  { g with items := g.items ++ items }

/-- The emitter with one more label number used. -/
def Codegen.bump (g : Codegen) : Codegen := { g with labelId := g.labelId + 1 }

/-- The symbol of a lower-case name. -/
def Codegen.look (g : Codegen) (name : String) : Option Storage :=
  (g.locals.lookup name).or (g.globals.lookup name)

/-- The end of all data that the emitter knows. -/
def Codegen.top (g : Codegen) : ℕ := max g.globalsEnd g.extraData

/-- The pc of the next item. -/
def Codegen.pc (g : Codegen) : ℕ := itemsSize g.items

section Adds

variable (g) (xs ys : List Item)

@[simp] theorem Codegen.adds_items : (g.adds xs).items = g.items ++ xs := rfl

@[simp] theorem Codegen.adds_labelId : (g.adds xs).labelId = g.labelId := rfl

@[simp] theorem Codegen.adds_extraData : (g.adds xs).extraData = g.extraData := rfl

@[simp] theorem Codegen.adds_look : (g.adds xs).look = g.look := rfl

@[simp] theorem Codegen.adds_top : (g.adds xs).top = g.top := rfl

@[simp] theorem Codegen.adds_entries : (g.adds xs).entries = g.entries := rfl

@[simp] theorem Codegen.adds_fbLayouts : (g.adds xs).fbLayouts = g.fbLayouts := rfl

@[simp] theorem Codegen.adds_pc : (g.adds xs).pc = g.pc + itemsSize xs := by
  simp [Codegen.pc]

@[simp] theorem Codegen.adds_adds : (g.adds xs).adds ys = g.adds (xs ++ ys) := by
  simp [Codegen.adds, List.append_assoc]

@[simp] theorem Codegen.adds_nil : g.adds [] = g := by
  simp [Codegen.adds]

@[simp] theorem Codegen.bump_items : g.bump.items = g.items := rfl

@[simp] theorem Codegen.bump_labelId : g.bump.labelId = g.labelId + 1 := rfl

@[simp] theorem Codegen.bump_extraData : g.bump.extraData = g.extraData := rfl

@[simp] theorem Codegen.bump_look : g.bump.look = g.look := rfl

@[simp] theorem Codegen.bump_top : g.bump.top = g.top := rfl

@[simp] theorem Codegen.bump_pc : g.bump.pc = g.pc := rfl

end Adds

/-- Appending always succeeds. -/
theorem append_bind {α : Type} (item : Item) (k : Unit → EmitM α) :
    (append item >>= k) g = k () (g.adds [item]) := rfl

/-- Appending as the last action. -/
theorem append_ok {item : Item} {u : Unit} : append item g = .ok u g' ↔ g' = g.adds [item] := by
  constructor
  · intro h
    cases h
    rfl
  · rintro rfl
    rfl

/-- A failing action does not succeed. -/
@[simp] theorem failWith_ok {α : Type} {code : ErrorCode} {message : String} {a : α} :
    failWith code message g ≠ .ok a g' := by
  simp [failWith]

/-- A missing value does not succeed. -/
@[simp] theorem unwrapFail_ok {α : Type} {a : α} : unwrapFail g ≠ .ok a g' := by
  simp [unwrapFail]

/-- Using a result keeps the state. -/
theorem liftResult_ok {α : Type} {x : Except CompileFault α} {a : α} :
    liftResult x g = .ok a g' ↔ x = .ok a ∧ g' = g := by
  cases x with
  | error e => simp [liftResult]
  | ok b => simp [liftResult, eq_comm]

/-- Using a result and going on. -/
theorem liftResult_bind_ok {α β : Type} {x : Except CompileFault α} {k : α → EmitM β} {b : β} :
    (liftResult x >>= k) g = .ok b g' ↔ ∃ a, x = .ok a ∧ k a g = .ok b g' := by
  cases x with
  | error e =>
      have hne : (liftResult (.error e) >>= k) g = .error e g := rfl
      simp [hne]
  | ok a =>
      have heq : (liftResult (.ok a) >>= k) g = k a g := rfl
      simp [heq]

/-- An optional result that is there. -/
theorem orReject_ok {α : Type} {x : Option α} {code : ErrorCode} {message : String} {a : α} :
    orReject x code message = .ok a ↔ x = some a := by
  cases x <;> simp [orReject, reject]

/-- A fresh label has the next number. -/
theorem freshLabel_ok {kind : LabelKind} {l : Label} (h : freshLabel kind g = .ok l g') :
    l = ⟨kind, g.labelId⟩ ∧ g' = g.bump := by
  unfold freshLabel at h
  split_ifs at h
  cases h
  exact ⟨rfl, rfl⟩

/-- A lookup finds the symbol of the lower-case name. -/
theorem lookup_ok {name : String} {st : Storage} :
    lookup name g = .ok st g' ↔ g.look (lower name) = some st ∧ g' = g := by
  have hsym : g.symbol name = g.look (lower name) := rfl
  unfold lookup
  rw [hsym]
  cases g.look (lower name) <;> simp [eq_comm]

/-- Looking a name up and going on. -/
theorem lookup_bind_ok {α : Type} {name : String} {k : Storage → EmitM α} {a : α} :
    (lookup name >>= k) g = .ok a g' ↔
      ∃ st, g.look (lower name) = some st ∧ k st g = .ok a g' := by
  constructor
  · intro h
    obtain ⟨st, g₁, hst, hk⟩ := estate_bind_ok.mp h
    obtain ⟨hlook, hg⟩ := lookup_ok.mp hst
    exact ⟨st, hlook, hg ▸ hk⟩
  · rintro ⟨st, hlook, hk⟩
    exact estate_bind_ok.mpr ⟨st, g, lookup_ok.mpr ⟨hlook, rfl⟩, hk⟩

/-- A checked sum. -/
theorem checkU32_ok {n m : ℕ} : checkU32 n = .ok m ↔ n ≤ u32Max ∧ m = n := by
  unfold checkU32
  split_ifs with h
  · simp [h, eq_comm]
  · simp [h]

/-- Computing the offset of a field and going on. -/
theorem fieldOffset_bind_ok {α : Type} {base : ℕ} {f : FieldLayout} {k : ℕ → EmitM α} {a : α}
    (h : (fieldOffset base f >>= k) g = .ok a g') : k (base + f.offset) g = .ok a g' := by
  obtain ⟨off, hoff, hk⟩ := liftResult_bind_ok.mp h
  obtain ⟨-, rfl⟩ := checkU32_ok.mp hoff
  exact hk

/-- Reading the layout of an instance's type and going on. -/
theorem instLayout_bind_ok {α : Type} {fb : String} {k : UserFbLayout → EmitM α} {a : α}
    (h : (instLayout fb >>= k) g = .ok a g') :
    ∃ l, g.fbLayouts.lookup (lower fb) = some l ∧ k l g = .ok a g' := by
  unfold instLayout at h
  obtain ⟨l, g₁, hl, hk⟩ := estate_bind_ok.mp h
  obtain ⟨o, g₂, ho, hl'⟩ := estate_bind_ok.mp hl
  cases ho
  rcases hfb : g.fbLayouts.lookup (lower fb) with _ | l'
  · simp [hfb] at hl'
  · rw [hfb] at hl'
    cases hl'
    exact ⟨_, rfl, hk⟩

/-- Aligning does not go back. -/
theorem le_alignUp (cursor align : ℕ) : cursor ≤ alignUp cursor align := by
  unfold alignUp
  split_ifs <;> omega

/-- A temporary lies above everything known, and its end is the new top. -/
theorem allocTemp_ok {ty : IrType} {off : ℕ} (h : allocTemp ty g = .ok off g') :
    g.top ≤ off ∧
      g' = { g with dataCursor := off + ty.byteWidth, extraData := off + ty.byteWidth } := by
  unfold allocTemp at h
  simp only at h
  split_ifs at h
  cases h
  refine ⟨?_, rfl⟩
  exact ((le_max_left _ _).trans (le_alignUp _ _))

/-! ## Expressions -/

/-- A short-circuit operator. -/
theorem emitShortCircuit_ok {left right : EmitM IrType} {skip : Opcode} {kind : LabelKind}
    {decided : ℕ} {t : IrType}
    (h : emitShortCircuit left right skip kind decided g = .ok t g') :
    ∃ g₁ tmp g₂ u g₃, left g.bump = .ok .bool g₁ ∧ allocTemp .bool g₁.bump = .ok tmp g₂ ∧
      right (g₂.adds [.simple .stData tmp, .simple .ldData tmp, .jump skip ⟨kind, g₁.labelId⟩]) =
        .ok u g₃ ∧
      t = .bool ∧
      g' = g₃.adds [.jump .jmp ⟨.scEnd, g.labelId⟩, .label ⟨kind, g₁.labelId⟩,
        .simple .pushIBool decided, .label ⟨.scEnd, g.labelId⟩] := by
  unfold emitShortCircuit at h
  obtain ⟨endL, _, hend, h⟩ := estate_bind_ok.mp h
  obtain ⟨rfl, rfl⟩ := freshLabel_ok hend
  obtain ⟨t₁, g₁, hleft, h⟩ := estate_bind_ok.mp h
  split_ifs at h with ht
  · simp at h
  obtain ⟨dup, _, hdup, h⟩ := estate_bind_ok.mp h
  obtain ⟨rfl, rfl⟩ := freshLabel_ok hdup
  obtain ⟨tmp, g₂, htmp, h⟩ := estate_bind_ok.mp h
  simp only [emitSimple, emit, emitJmp, append_bind, Codegen.adds_adds] at h
  obtain ⟨u, g₃, hright, h⟩ := estate_bind_ok.mp h
  simp only [placeLabel, append_bind, Codegen.adds_adds, estate_pure] at h
  cases h
  exact ⟨g₁, tmp, g₂, u, g₃, by simpa [not_not.mp ht] using hleft, htmp, hright, rfl, rfl⟩

/-- A strict binary operator. -/
theorem emitBinary_ok {op : BinaryOp} {left right : EmitM IrType} {t : IrType}
    (h : emitBinary op left right g = .ok t g') :
    ∃ lt g₁ rt g₂ code, left g = .ok lt g₁ ∧ right g₁ = .ok rt g₂ ∧
      binaryOpcode op = some code ∧ (BinaryOp.needsSameType op = true → lt = rt) ∧
      t = (if BinaryOp.isComparison op then .bool else lt) ∧ g' = g₂.adds [.simple code 0] := by
  unfold emitBinary at h
  obtain ⟨lt, g₁, hleft, h⟩ := estate_bind_ok.mp h
  obtain ⟨rt, g₂, hright, h⟩ := estate_bind_ok.mp h
  rcases hcode : binaryOpcode op with _ | code
  · simp [hcode] at h
  · simp only [hcode] at h
    by_cases hty : BinaryOp.needsSameType op = true ∧ lt ≠ rt
    · simp [hty] at h
    · rw [if_neg hty] at h
      simp only [emitSimple, emit, append_bind, estate_pure, EStateM.Result.ok.injEq] at h
      obtain ⟨rfl, rfl⟩ := h
      refine ⟨lt, g₁, rt, g₂, code, hleft, hright, rfl, ?_, rfl, rfl⟩
      intro hsame
      by_contra hne
      exact hty ⟨hsame, hne⟩

/-- A unary operator. -/
theorem emitExpr_unary_ok {op : UnaryOp} {e : Expr} {t : IrType}
    (h : emitExpr order (.unary op e) g = .ok t g') :
    ∃ u g₁, emitExpr order e g = .ok u g₁ ∧
      ((op = .not ∧ t = .bool ∧ g' = g₁.adds [.simple .not 0]) ∨
        (op = .neg ∧ t = u ∧ g' = g₁.adds [.simple .neg 0])) := by
  rw [emitExpr] at h
  obtain ⟨u, g₁, he, h⟩ := estate_bind_ok.mp h
  cases op with
  | not =>
      cases h
      exact ⟨u, g₁, he, .inl ⟨rfl, rfl, rfl⟩⟩
  | neg =>
      cases h
      exact ⟨_, g₁, he, .inr ⟨rfl, rfl, rfl⟩⟩

/-- A binary operator: AND, OR, or a strict one. -/
theorem emitExpr_binary (op : BinaryOp) (left right : Expr) :
    emitExpr order (.binary op left right) =
      match op with
      | .and => emitShortCircuit (emitExpr order left) (emitExpr order right) .jmpIfNot .andF 0
      | .or => emitShortCircuit (emitExpr order left) (emitExpr order right) .jmpIf .orT 1
      | op => emitBinary op (emitExpr order left) (emitExpr order right) := by
  cases op <;> simp [emitExpr]

/-- A call as a value is always rejected. -/
theorem emitExpr_fbCall_ne_ok {call : FbCallExpr} {t : IrType} :
    emitExpr order (.fbCall call) g ≠ .ok t g' := by
  rcases call with ⟨callee, inputs, outputs⟩
  rw [emitExpr]
  intro h
  obtain ⟨_, _, -, h⟩ := estate_bind_ok.mp h
  exact failWith_ok h

/-! ## Statements -/

/-- The items of a counter test. -/
def counterTest (counter : ℕ) (endL : Label) : List Item :=
  [.simple .ldData counter, .dint 0, .simple .eq 0, .jump .jmpIf endL]

/-- The items that count one iteration. -/
def counterNext (counter : ℕ) (head : Label) : List Item :=
  [.simple .ldData counter, .dint 1, .simple .sub 0, .simple .stData counter, .jump .jmp head]

/-- The items that leave a `FOR` past its last value. -/
def boundTest (varOff toTmp : ℕ) (endL : Label) : List Item :=
  [.simple .ldData varOff, .simple .ldData toTmp, .simple .gt 0, .jump .jmpIf endL]

/-- The items that advance the variable of a `FOR`. -/
def stepNext (varOff byTmp : ℕ) : List Item :=
  [.simple .ldData varOff, .simple .ldData byTmp, .simple .add 0, .simple .stData varOff]

/-- The items that compare a selector with labels. -/
def labelTests (tmp : ℕ) (bodyL nextL : Label) : List ℤ → List Item
  | [] => []
  | lab :: rest =>
      [.simple .ldData tmp, .dint (asU32 lab), .simple .eq 0,
        if rest.isEmpty then .jump .jmpIfNot nextL else .jump .jmpIf bodyL] ++
        labelTests tmp bodyL nextL rest

/-- The items that leave a branch. -/
def branchEnd (more : Bool) (endL : Label) : List Item :=
  if more then [.jump .jmp endL] else []

/-- A counter test always succeeds. -/
theorem emitCounterTest_bind {α : Type} (counter : ℕ) (endL : Label) (k : Unit → EmitM α) :
    (emitCounterTest counter endL >>= k) g = k () (g.adds (counterTest counter endL)) := by
  simp only [emitCounterTest, bind_assoc, emitSimple, emitDint, emit, emitJmp, append_bind,
    Codegen.adds_adds]
  rfl

/-- Counting always succeeds. -/
theorem emitCounterNext_bind {α : Type} (counter : ℕ) (head : Label) (k : Unit → EmitM α) :
    (emitCounterNext counter head >>= k) g = k () (g.adds (counterNext counter head)) := by
  simp only [emitCounterNext, bind_assoc, emitSimple, emitDint, emit, emitJmp, append_bind,
    Codegen.adds_adds]
  rfl

/-- Label tests always succeed. -/
theorem emitLabelTests_eq (tmp : ℕ) (bodyL nextL : Label) (labels : List ℤ) :
    emitLabelTests tmp bodyL nextL labels g =
      .ok () (g.adds (labelTests tmp bodyL nextL labels)) := by
  induction labels generalizing g with
  | nil => simp [emitLabelTests, labelTests]
  | cons lab rest ih =>
      simp only [emitLabelTests, emitSimple, emitDint, emit, append_bind, Codegen.adds_adds]
      unfold emitLabelJump
      cases hrest : rest.isEmpty <;>
        simp [emitJmp, append_bind, ih, labelTests, hrest]

/-- Leaving a branch always succeeds. -/
theorem emitBranchEnd_bind {α : Type} (more : Bool) (endL : Label) (k : Unit → EmitM α) :
    (emitBranchEnd more endL >>= k) g = k () (g.adds (branchEnd more endL)) := by
  cases more
  · simp only [branchEnd, Bool.false_eq_true, if_false, Codegen.adds_nil]
    rfl
  · rfl

/-- `IF`. -/
theorem emitStmt_ifs_ok {branches : List (Expr × List Stmt)} {elseBody : Option (List Stmt)}
    {u : Unit} (h : emitStmt order (.ifs branches elseBody) g = .ok u g') :
    ∃ g₁ g₂,
      emitBranches order branches ⟨.ifEnd, g.labelId⟩ elseBody.isSome g.bump = .ok () g₁ ∧
      emitElse order elseBody g₁ = .ok () g₂ ∧ g' = g₂.adds [.label ⟨.ifEnd, g.labelId⟩] := by
  rw [emitStmt] at h
  obtain ⟨endL, _, hend, h⟩ := estate_bind_ok.mp h
  obtain ⟨rfl, rfl⟩ := freshLabel_ok hend
  obtain ⟨⟨⟩, g₁, h₁, h⟩ := estate_bind_ok.mp h
  obtain ⟨⟨⟩, g₂, h₂, h⟩ := estate_bind_ok.mp h
  exact ⟨g₁, g₂, h₁, h₂, append_ok.mp h⟩

/-- The branches of an `IF`. -/
theorem emitBranches_cons_ok {cond : Expr} {body : List Stmt} {rest : List (Expr × List Stmt)}
    {endL : Label} {hasElse : Bool} {u : Unit}
    (h : emitBranches order ((cond, body) :: rest) endL hasElse g = .ok u g') :
    ∃ g₁ g₂, emitExpr order cond g.bump = .ok .bool g₁ ∧
      emitStmts order body (g₁.adds [.jump .jmpIfNot ⟨.ifNext, g.labelId⟩]) = .ok () g₂ ∧
      emitBranches order rest endL hasElse
        (g₂.adds (branchEnd (!rest.isEmpty || hasElse) endL ++ [.label ⟨.ifNext, g.labelId⟩])) =
        .ok () g' := by
  rw [emitBranches] at h
  obtain ⟨next, _, hnext, h⟩ := estate_bind_ok.mp h
  obtain ⟨rfl, rfl⟩ := freshLabel_ok hnext
  obtain ⟨t, g₁, h₁, h⟩ := estate_bind_ok.mp h
  by_cases ht : t = .bool
  · subst ht
    rw [if_neg (by simp)] at h
    simp only [emitJmp, append_bind] at h
    obtain ⟨⟨⟩, g₂, h₂, h⟩ := estate_bind_ok.mp h
    simp only [emitBranchEnd_bind, placeLabel, append_bind, Codegen.adds_adds] at h
    exact ⟨g₁, g₂, h₁, h₂, h⟩
  · simp [ht] at h

/-- `CASE`. -/
theorem emitStmt_case_ok {selector : Expr} {arms : List CaseArm} {elseBody : Option (List Stmt)}
    {u : Unit} (h : emitStmt order (.case selector arms elseBody) g = .ok u g') :
    ∃ t g₁ tmp g₂ g₃ g₄, emitExpr order selector g = .ok t g₁ ∧ (t = .int ∨ t = .dint) ∧
      allocTemp t g₁ = .ok tmp g₂ ∧
      emitArms order arms tmp ⟨.caseEnd, g₂.labelId⟩ (g₂.adds [.simple .stData tmp]).bump =
        .ok () g₃ ∧
      emitElse order elseBody g₃ = .ok () g₄ ∧ g' = g₄.adds [.label ⟨.caseEnd, g₂.labelId⟩] := by
  rw [emitStmt] at h
  obtain ⟨t, g₁, h₁, h⟩ := estate_bind_ok.mp h
  by_cases ht : t ≠ .int ∧ t ≠ .dint
  · simp [ht] at h
  · rw [if_neg ht] at h
    obtain ⟨tmp, g₂, htmp, h⟩ := estate_bind_ok.mp h
    simp only [emitSimple, emit, append_bind] at h
    obtain ⟨endL, _, hend, h⟩ := estate_bind_ok.mp h
    obtain ⟨rfl, rfl⟩ := freshLabel_ok hend
    obtain ⟨⟨⟩, g₃, h₃, h⟩ := estate_bind_ok.mp h
    obtain ⟨⟨⟩, g₄, h₄, h⟩ := estate_bind_ok.mp h
    refine ⟨t, g₁, tmp, g₂, g₃, g₄, h₁, ?_, htmp, h₃, h₄, append_ok.mp h⟩
    by_contra hne
    exact ht (not_or.mp hne)

/-- The arms of a `CASE`. -/
theorem emitArms_cons_ok {labels : List ℤ} {body : List Stmt} {rest : List CaseArm} {tmp : ℕ}
    {endL : Label} {u : Unit} (h : emitArms order (⟨labels, body⟩ :: rest) tmp endL g = .ok u g') :
    ∃ g₁, emitStmts order body (g.bump.bump.adds
        (labelTests tmp ⟨.caseBody, g.labelId⟩ ⟨.caseNext, g.labelId + 1⟩ labels ++
          [.label ⟨.caseBody, g.labelId⟩])) = .ok () g₁ ∧
      emitArms order rest tmp endL
        (g₁.adds [.jump .jmp endL, .label ⟨.caseNext, g.labelId + 1⟩]) = .ok () g' := by
  rw [emitArms] at h
  obtain ⟨bodyL, _, hbody, h⟩ := estate_bind_ok.mp h
  obtain ⟨rfl, rfl⟩ := freshLabel_ok hbody
  obtain ⟨nextL, _, hnext, h⟩ := estate_bind_ok.mp h
  obtain ⟨rfl, rfl⟩ := freshLabel_ok hnext
  rw [estate_bind_of_ok (emitLabelTests_eq _ _ _ _)] at h
  simp only [placeLabel, append_bind, Codegen.adds_adds] at h
  obtain ⟨⟨⟩, g₁, h₁, h⟩ := estate_bind_ok.mp h
  simp only [emitJmp, append_bind, Codegen.adds_adds] at h
  exact ⟨g₁, h₁, h⟩

/-- `WHILE`. -/
theorem emitStmt_while_ok {cond : Expr} {maxIter : Option ℕ} {body : List Stmt} {u : Unit}
    (h : emitStmt order (.while cond maxIter body) g = .ok u g') :
    ∃ max counter g₁ g₂ g₃, maxIter = some max ∧ allocTemp .dint g = .ok counter g₁ ∧
      emitExpr order cond ((g₁.adds [.dint max, .simple .stData counter]).bump.bump.adds
        (.label ⟨.whHead, g₁.labelId⟩ :: counterTest counter ⟨.whEnd, g₁.labelId + 1⟩)) =
        .ok .bool g₂ ∧
      emitStmts order body (g₂.adds [.jump .jmpIfNot ⟨.whEnd, g₁.labelId + 1⟩]) = .ok () g₃ ∧
      g' = g₃.adds (counterNext counter ⟨.whHead, g₁.labelId⟩ ++
        [.label ⟨.whEnd, g₁.labelId + 1⟩]) := by
  cases maxIter with
  | none => simp [emitStmt] at h
  | some max =>
      rw [emitStmt] at h
      obtain ⟨counter, g₁, hcounter, h⟩ := estate_bind_ok.mp h
      simp only [emitDint, emitSimple, emit, append_bind, Codegen.adds_adds] at h
      obtain ⟨head, _, hhead, h⟩ := estate_bind_ok.mp h
      obtain ⟨rfl, rfl⟩ := freshLabel_ok hhead
      obtain ⟨endL, _, hend, h⟩ := estate_bind_ok.mp h
      obtain ⟨rfl, rfl⟩ := freshLabel_ok hend
      simp only [placeLabel, append_bind, emitCounterTest_bind, Codegen.adds_adds] at h
      obtain ⟨t, g₂, h₂, h⟩ := estate_bind_ok.mp h
      by_cases ht : t = .bool
      · subst ht
        rw [if_neg (by simp)] at h
        simp only [emitJmp, append_bind] at h
        obtain ⟨⟨⟩, g₃, h₃, h⟩ := estate_bind_ok.mp h
        simp only [emitCounterNext_bind, append_ok, Codegen.adds_adds] at h
        exact ⟨max, counter, g₁, g₂, g₃, rfl, hcounter, h₂, h₃, h⟩
      · simp [ht] at h

/-- `FOR`. -/
theorem emitStmt_for_ok {var : String} {first last : Expr} {step : Option Expr}
    {maxIter : Option ℕ} {body : List Stmt} {u : Unit}
    (h : emitStmt order (.for var first last step maxIter body) g = .ok u g') :
    ∃ max varOff g₁ t₂ g₂ toTmp g₃ t₄ g₄ byTmp g₅ g₆ counter g₇ g₈,
      forBound first last step maxIter = some max ∧ forVariable var g = .ok varOff g₁ ∧
      emitExpr order first g₁ = .ok t₂ g₂ ∧
      allocTemp .dint (g₂.adds [.simple .stData varOff]) = .ok toTmp g₃ ∧
      emitExpr order last g₃ = .ok t₄ g₄ ∧
      allocTemp .dint (g₄.adds [.simple .stData toTmp]) = .ok byTmp g₅ ∧
      emitStep order step g₅ = .ok () g₆ ∧
      allocTemp .dint (g₆.adds [.simple .stData byTmp]) = .ok counter g₇ ∧
      emitStmts order body ((g₇.adds [.dint max, .simple .stData counter]).bump.bump.adds
        (.label ⟨.forHead, g₇.labelId⟩ :: (counterTest counter ⟨.forEnd, g₇.labelId + 1⟩ ++
          boundTest varOff toTmp ⟨.forEnd, g₇.labelId + 1⟩))) = .ok () g₈ ∧
      g' = g₈.adds (stepNext varOff byTmp ++ (counterNext counter ⟨.forHead, g₇.labelId⟩ ++
        [.label ⟨.forEnd, g₇.labelId + 1⟩])) := by
  rw [emitStmt] at h
  rcases hmax : forBound first last step maxIter with _ | max
  · simp [hmax] at h
  · simp only [hmax] at h
    obtain ⟨varOff, g₁, h₁, h⟩ := estate_bind_ok.mp h
    obtain ⟨t₂, g₂, h₂, h⟩ := estate_bind_ok.mp h
    simp only [emitSimple, emit, append_bind] at h
    obtain ⟨toTmp, g₃, h₃, h⟩ := estate_bind_ok.mp h
    obtain ⟨t₄, g₄, h₄, h⟩ := estate_bind_ok.mp h
    simp only [append_bind] at h
    obtain ⟨byTmp, g₅, h₅, h⟩ := estate_bind_ok.mp h
    obtain ⟨⟨⟩, g₆, h₆, h⟩ := estate_bind_ok.mp h
    simp only [append_bind] at h
    obtain ⟨counter, g₇, h₇, h⟩ := estate_bind_ok.mp h
    simp only [emitDint, emit, append_bind, Codegen.adds_adds] at h
    obtain ⟨head, _, hhead, h⟩ := estate_bind_ok.mp h
    obtain ⟨rfl, rfl⟩ := freshLabel_ok hhead
    obtain ⟨endL, _, hend, h⟩ := estate_bind_ok.mp h
    obtain ⟨rfl, rfl⟩ := freshLabel_ok hend
    simp only [placeLabel, emitJmp, append_bind, emitCounterTest_bind, Codegen.adds_adds] at h
    obtain ⟨⟨⟩, g₈, h₈, h⟩ := estate_bind_ok.mp h
    simp only [append_bind, emitCounterNext_bind, append_ok, Codegen.adds_adds] at h
    refine ⟨max, varOff, g₁, t₂, g₂, toTmp, g₃, t₄, g₄, byTmp, g₅, g₆, counter, g₇, g₈, rfl, h₁, h₂,
      h₃, h₄, h₅, h₆, h₇, ?_, ?_⟩
    · simpa [boundTest] using h₈
    · simpa [stepNext] using h

end SoftPlc.Compiler
