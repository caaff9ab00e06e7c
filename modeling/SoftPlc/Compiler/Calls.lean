import SoftPlc.Compiler.Expressions

/-!
# Compiled assignments and calls

The code of an assignment stores at the place that its path stands for. The code of a call of a
primitive pushes the arguments in declaration order, runs the instance, stores the outputs at the
cells of the instance, the first from the top, and copies what the call asks for.
-/

namespace SoftPlc.Compiler

open SoftPlc.Ir SoftPlc.St SoftPlc.Lib SoftPlc.Vm SoftPlc.Fb

variable {order : HashOrder} {items : List Item} {image : VmImage} {pc N : ℕ} {env : Env}
  {Γ : Scope} {g g' : Codegen} {T : Live} {σ : Store} {s : VmState} {R : Store → VmState → Prop}
  {α : Type} {m : EStateM.Result Exit Store α} {post : α → Store → Config → Prop}

/-- The machine stands at a pc, with a stack and a store. -/
structure Reaches (env : Env) (N : ℕ) (Γ : Scope) (g : Codegen) (T : Live) (stack : List VmValue)
    (pc : ℕ) (u : Unit) (σ : Store) (c : Config) : Prop where
  pc : c.pc = pc
  stack : c.state.stack = stack
  represents : Represents env N Γ g T σ c.state

/-! ## Assignments -/

/-- An assignment stores at the place of its path. -/
theorem emitStore_ok (hk : Knows env Γ g T) {lhs : Expr} {ty : IrType} {u : Unit}
    (hty : assigns Γ lhs ty = true) (h : emitStore lhs g = .ok u g') :
    ∃ path l ld st off, lhs = .name path ∧ Γ.resolve path = some (.loc l ty) ∧
      Place Γ g l ty ld st off ∧ g' = g.adds [.simple st off] := by
  cases lhs with
  | name path =>
      unfold assigns at hty
      rcases href : Γ.resolve path with _ | ⟨l, t⟩ | _ | _ <;> simp only [href] at hty
      all_goals first
        | cases hty
        | skip
      obtain rfl : t = ty := by simpa using hty
      refine ⟨path, l, ?_⟩
      unfold emitStore at h
      have hresolve := href
      unfold Scope.resolve at href
      split at href
      · rename_i n
        obtain ⟨⟨root, rest⟩, hparts, h⟩ := liftResult_bind_ok.mp h
        cases hparts
        obtain ⟨st, hst, h⟩ := lookup_bind_ok.mp h
        rcases he : Γ (lower n) with _ | e
        · simp [he] at href
        · have hn : (Γ (lower n)).isSome := by simp [he]
          obtain ⟨st', hst', hent⟩ := hk.bound he
          rw [hst] at hst'
          cases hst'
          rw [he] at href
          cases st with
          | output slot ty =>
              cases hent
              cases href
              exact ⟨_, _, _, rfl, hresolve, .output he, append_ok.mp h⟩
          | data off ty =>
              cases ty with
              | elem u =>
                  cases hent
                  cases href
                  exact ⟨_, _, _, rfl, hresolve, .cell hn hst rfl, append_ok.mp h⟩
              | array e len =>
                  cases e <;> cases hent <;> cases href
              | _ =>
                  cases hent
                  cases href
          | retain off ty =>
              cases hent
              cases href
              exact ⟨_, _, _, rfl, hresolve, .retain hn hst, append_ok.mp h⟩
          | _ => exact absurd h failWith_ok
      · rename_i n field
        obtain ⟨⟨root, rest⟩, hparts, h⟩ := liftResult_bind_ok.mp h
        cases hparts
        obtain ⟨st, hst, h⟩ := lookup_bind_ok.mp h
        split at href
        · rename_i id inst he
          obtain ⟨⟨k, t'⟩, hout, href⟩ := Option.map_eq_some_iff.mp href
          cases href
          obtain ⟨st', hst', hent⟩ := hk.bound he
          rw [hst] at hst'
          cases hst'
          obtain ⟨outs, rfl, houts⟩ := Storage.entity_prim hent
          obtain ⟨name, off, hget, hfind⟩ := findOutput_of_primOutput houts hout
          obtain ⟨o, ho, h⟩ := liftResult_bind_ok.mp h
          rw [orReject_ok.mp ho] at hfind
          cases hfind
          refine ⟨_, _, _, rfl, hresolve, .cell (by simp [he]) hst ?_, append_ok.mp h⟩
          simp [Storage.cell, hget]
        · cases href
      · -- an element of an array cannot be assigned
        rename_i n i
        obtain ⟨⟨root, rest⟩, hparts, h⟩ := liftResult_bind_ok.mp h
        cases hparts
        obtain ⟨st, hst, h⟩ := lookup_bind_ok.mp h
        exact absurd h failWith_ok
      · cases href
  | _ => cases hty

/-- Assigning to a path changes its place. -/
theorem assign_ok {path : List PathSeg} {l : Loc} {ty : IrType}
    (h : Γ.resolve path = some (.loc l ty)) (v : VmValue) (σ : Store) :
    assign Γ (.name path) v σ = .ok () (σ.set l v) := by
  simp only [assign, h]
  rfl

/-- The code of an assignment takes the value from the stack. -/
theorem mirrors_assign (C : Target image items) (hk : Knows env Γ g T) {lhs : Expr} {v : VmValue}
    {rest : List VmValue} {u : Unit} (hty : assigns Γ lhs v.irType = true)
    (h : emitStore lhs g = .ok u g') (hpre : g'.items <+: items) (hs : s.stack = v :: rest)
    (hr : Represents env N Γ g T σ s) :
    Mirrors image env.nowMs R (assign Γ lhs v σ) (Reaches env N Γ g T rest g'.pc) ⟨s, g.pc⟩ := by
  obtain ⟨path, l, ld, st, off, rfl, hres, hplace, rfl⟩ := emitStore_ok hk hty h
  refine hplace.store C hk hr (stands_adds hpre) rfl hs fun s' hs' hr' => ?_
  rw [Codegen.adds_simple_pc]
  exact .ok (assign_ok hres v σ) ⟨rfl, hs', hr'⟩

/-! ## Arguments -/

/-- The code of the arguments. -/
theorem argCodes_eq (inputs : List CallArg) :
    argCodes order inputs =
      (inputs.map CallArg.arg).map fun a => ⟨a.name, a.isTrue, emitExpr order a.value⟩ := by
  induction inputs with
  | nil => rfl
  | cons a rest ih => cases a <;> simp [argCodes, CallArg.arg, ih]

/-- Arguments are assigned to inputs whatever they are. -/
theorem bindArgs_map {α β : Type} (f : α → β) (names : List String) (inputs : List (Arg α)) (pos : ℕ)
    (args : List (Option α)) :
    bindArgs names (inputs.map fun a => ⟨a.name, a.isTrue, f a.value⟩) pos
      (args.map (Option.map f)) =
        (bindArgs names inputs pos args).map (List.map (Option.map f)) := by
  induction inputs generalizing pos args with
  | nil => rfl
  | cons a rest ih =>
      obtain ⟨name, isTrue, value⟩ := a
      have hset : ∀ idx, (args.map (Option.map f)).set idx (some (f value)) =
          (args.set idx (some value)).map (Option.map f) := by
        intro idx
        rw [List.map_set]
        rfl
      cases name with
      | none =>
          simp only [List.map_cons, bindArgs, List.length_map]
          split_ifs
          · rfl
          · rw [hset, ih]
      | some name =>
          simp only [List.map_cons, bindArgs]
          split_ifs
          · exact ih pos args
          · rfl
          · split
            · rfl
            · rw [hset, ih]

/-- A list of values that are all there. -/
theorem mapM_id_eq_some {α : Type} {xs : List (Option α)} {ys : List α}
    (h : (xs.mapM fun a => a) = some ys) : xs = ys.map some := by
  induction xs generalizing ys with
  | nil =>
      cases h
      rfl
  | cons x xs ih =>
      rw [List.mapM_cons] at h
      obtain ⟨y, hy, h⟩ := Option.bind_eq_some_iff.mp h
      obtain ⟨zs, hzs, h⟩ := Option.bind_eq_some_iff.mp h
      cases h
      rw [hy, ih hzs, List.map_cons]

/-- The code of the inputs of a primitive is that of the argument expressions. -/
theorem bindArgs_argCodes {id : PrimitiveId} {inputs : List CallArg} {es : List Expr}
    (h : primArgs id inputs = some es) {args : List (Option (EmitM IrType))}
    (hbind : bindArgs (primInNames id) (argCodes order inputs) 0
      (List.replicate (primInNames id).length none) = .ok args) :
    args = es.map fun e => some (emitExpr order e) := by
  simp only [primArgs] at h
  split at h
  · rename_i args' hargs
    rw [argCodes_eq] at hbind
    have hmap := bindArgs_map (emitExpr order) (primInNames id) (inputs.map CallArg.arg) 0
      (List.replicate (primInNames id).length none)
    rw [List.map_replicate, Option.map_none, hbind, hargs] at hmap
    cases hmap
    rw [mapM_id_eq_some h, List.map_map]
    rfl
  · cases h

/-- The machine stands behind the code of some expressions, with their values on the stack. -/
structure YieldsAll (env : Env) (N : ℕ) (Γ : Scope) (g : Codegen) (T : Live) (stack : List VmValue)
    (tys : List IrType) (pc : ℕ) (vals : List VmValue) (σ : Store) (c : Config) : Prop where
  pc : c.pc = pc
  irTypes : vals.map VmValue.irType = tys
  stack : c.state.stack = vals.reverse ++ stack
  represents : Represents env N Γ g T σ c.state

section Calls

variable (C : Target image items)
include C

/-- The code of the arguments pushes their values, the last on top. -/
theorem mirrors_args (hN : N ≤ 2 ^ 32) : (es : List Expr) → {names : List String} →
    {tys : List IrType} → {g g' : Codegen} → {u : Unit} → {σ : Store} → {s : VmState} →
    names.length = es.length → es.map (exprType Γ) = tys.map some →
    emitArgs names (es.map fun e => some (emitExpr order e)) g = .ok u g' → g'.items <+: items →
    g'.top ≤ N → Knows env Γ g T → Represents env N Γ g T σ s →
    Mirrors image env.nowMs R (evalAll env Γ es σ)
      (YieldsAll env N Γ g T s.stack tys g'.pc) ⟨s, g.pc⟩
  | [], names, tys, g, g', u, σ, s, hlen, htys, h, hpre, htop, hk, hr => by
      obtain rfl : names = [] := List.eq_nil_of_length_eq_zero hlen
      obtain rfl : tys = [] := by simpa using htys.symm
      cases h
      exact .ok rfl ⟨rfl, rfl, rfl, hr⟩
  | e :: es, name :: names, ty :: tys, g, g', u, σ, s, hlen, htys, h, hpre, htop, hk, hr => by
      obtain ⟨hty, htys⟩ := List.cons.inj htys
      obtain ⟨t, g₁, h₁, h⟩ := estate_bind_ok.mp h
      obtain ⟨T₁, e₁⟩ := (whole_emitExpr order e).grows h₁
      obtain ⟨T₂, e₂⟩ := grows_emitArgs (fun m hm => by
        obtain ⟨e', -, he'⟩ := List.mem_map.mp hm
        cases he'
        exact whole_emitExpr order e') h
      have hpre₁ : g₁.items <+: items := e₂.items.trans hpre
      have htop₁ : g₁.top ≤ N := e₂.top.trans htop
      refine .bind (computes_expr C hN e hty R h₁ hpre₁ htop₁ hk hr) ?_
      rintro a σ₁ ⟨s₁, _⟩ - ⟨rfl, hat, hs₁, hr₁⟩
      simp only at hs₁ hr₁
      refine .bind (mirrors_args hN es (Nat.succ.inj hlen) htys h hpre htop (hk.ext e₁.toExt)
        (hr₁.ext hk e₁.toExt)) ?_
      rintro vals σ₂ c₂ - ⟨hpc₂, hts, hs₂, hr₂⟩
      refine .ok rfl ⟨hpc₂, ?_, ?_, hr₂.back e₁.toExt⟩
      · rw [List.map_cons, hat, hts]
      · rw [hs₂, hs₁, List.reverse_cons, List.append_assoc]
        rfl
  | e :: es, [], tys, g, g', u, σ, s, hlen, _, _, _, _, _, _ => by cases hlen
  | e :: es, _ :: _, [], g, g', u, σ, s, _, htys, _, _, _, _, _ => by cases htys

end Calls

/-! ## Outputs -/

/-- Set numbered parts of a name, one after the other. -/
def setFrom (name : String) : ℕ → List VmValue → Store → Store
  | _, [], σ => σ
  | k, v :: vs, σ => setFrom name (k + 1) vs (σ.set (.cell name k) v)

theorem setFrom_vars (name : String) (k : ℕ) (vals : List VmValue) (σ : Store) (l : Loc) :
    (setFrom name k vals σ).vars l =
      match l with
      | .cell n j => if n = name ∧ k ≤ j then (vals[j - k]?).getD (σ.vars l) else σ.vars l
      | _ => σ.vars l := by
  induction vals generalizing k σ with
  | nil => cases l <;> simp [setFrom]
  | cons v vs ih =>
      rw [setFrom, ih]
      cases l with
      | cell n j =>
          by_cases hn : n = name
          · subst hn
            rcases Nat.lt_trichotomy j k with hlt | rfl | hgt
            · simp [Store.set, Nat.not_le.mpr hlt, show ¬k + 1 ≤ j by omega, hlt.ne]
            · simp [Store.set]
            · obtain ⟨i, rfl⟩ : ∃ i, j = k + 1 + i := ⟨j - (k + 1), by omega⟩
              have hidx : k + 1 + i - k = i + 1 := by omega
              simp [Store.set, hidx, show k ≤ k + 1 + i by omega, show k + 1 + i ≠ k by omega]
          · simp [Store.set, hn]
      | retain n => rfl
      | output slot => rfl

/-- All the parts at once, or one after the other. -/
theorem setCells_eq (σ : Store) (name : String) (vals : List VmValue) :
    σ.setCells name vals = setFrom name 0 vals σ := by
  have hvars : (setFrom name 0 vals σ).vars = (σ.setCells name vals).vars := by
    funext l
    rw [setFrom_vars]
    cases l <;> simp [Store.setCells]
  have hother : ∀ (k : ℕ) (vals : List VmValue) (σ : Store),
      (setFrom name k vals σ).prims = σ.prims ∧ (setFrom name k vals σ).div0 = σ.div0 := by
    intro k vals
    induction vals generalizing k with
    | nil => exact fun σ => ⟨rfl, rfl⟩
    | cons v vs ih => exact fun σ => ih (k + 1) (σ.set (.cell name k) v)
  obtain ⟨hprims, hdiv0⟩ := hother 0 vals σ
  rw [show setFrom name 0 vals σ = ⟨(setFrom name 0 vals σ).vars, (setFrom name 0 vals σ).prims,
    (setFrom name 0 vals σ).div0⟩ from rfl, hvars, hprims, hdiv0]
  rfl

/-- The outputs have the types of the results. -/
theorem resultTypes_eq (id : PrimitiveId) : resultTypes id = (primOutTypes id).map Prod.snd := by
  cases id <;> rfl

/-- As many input types as inputs. -/
theorem primInTypes_length (id : PrimitiveId) : (primInTypes id).length = id.inputCount := by
  cases id <;> rfl

/-- As many input names as inputs. -/
theorem primInNames_length (id : PrimitiveId) : (primInNames id).length = id.inputCount := by
  cases id <;> rfl

section Instance

variable (C : Target image items) {n : String} {id : PrimitiveId} {inst : ℕ}
  {outs : List (String × ℕ × IrType)}
include C

/-- Storing the outputs sets the parts of the instance. -/
theorem mirrors_stores (hst : g.look n = some (.prim id inst outs)) (hn : (Γ n).isSome)
    (hk : Knows env Γ g T) {nowMs : ℕ} : (later : List (String × ℕ × IrType)) → {k : ℕ} →
    {vals rest : List VmValue} → {pc : ℕ} → {σ : Store} → {s : VmState} → outs.drop k = later →
    vals.map VmValue.irType = later.map (fun o => o.2.2) →
    Stands items pc (later.map fun o => .simple .stData o.2.1) → s.stack = vals ++ rest →
    Represents env N Γ g T σ s →
    (∀ s', s'.stack = rest → Represents env N Γ g T (setFrom n k vals σ) s' →
      Mirrors image nowMs R m post
        ⟨s', pc + itemsSize (later.map fun o => .simple .stData o.2.1)⟩) →
    Mirrors image nowMs R m post ⟨s, pc⟩
  | [], k, vals, rest, pc, σ, s, hlater, htys, hstands, hs, hr, hnext => by
      obtain rfl : vals = [] := by simpa using htys
      exact hnext s hs hr
  | o :: later, k, v :: vals, rest, pc, σ, s, hlater, htys, hstands, hs, hr, hnext => by
      obtain ⟨hv, htys⟩ := List.cons.inj htys
      have hget : outs[k]? = some o := by
        rw [← List.head?_drop, hlater]
        rfl
      have hcell : (Storage.prim id inst outs).cell k = some (o.2.1, v.irType) := by
        rw [Storage.cell, hget, hv]
        rfl
      obtain ⟨d, hd, hset⟩ := hr.setCell pc hk hn hst hcell
      refine .stData C hstands.head hr.addresses hs hd ?_
      refine mirrors_stores hst hn hk later (k := k + 1) ?_ htys hstands.tail rfl
        (hset (vals ++ rest)) fun s' hs' hr' => ?_
      · rw [← List.drop_drop, hlater]
        rfl
      · have hpc := hnext s' hs' hr'
        rwa [List.map_cons, itemsSize_cons, ← Nat.add_assoc] at hpc
  | o :: later, k, [], rest, pc, σ, s, hlater, htys, hstands, hs, hr, hnext => by cases htys

/-- The call instruction and the stores behind it run the instance. -/
theorem mirrors_invoke (hst : g.look n = some (.prim id inst outs)) (hn : (Γ n).isSome)
    (hinst : inst < 2 ^ 32)
    (houts : (outs.map fun o => (o.1, o.2.2)) = primOutTypes id) (hk : Knows env Γ g T)
    (hstands : Stands items pc
      (.instr (.callFb 0 id.toU32 inst) :: outs.map fun o => .simple .stData o.2.1))
    {vals rest : List VmValue} (hlen : vals.length = id.inputCount)
    (hs : s.stack = vals.reverse ++ rest) (hr : Represents env N Γ g T σ s) :
    Mirrors image env.nowMs R (invoke env n id inst vals σ)
      (Reaches env N Γ g T rest (pc + itemsSize (.instr (.callFb 0 id.toU32 inst) ::
        outs.map fun o => .simple .stData o.2.1))) ⟨s, pc⟩ := by
  have hpop : popArgs pc id.inputCount s =
      .ok (vals.map VmValue.toStackValue) (s.withStack rest) := by
    refine popArgs_ok.mpr ⟨?_, ?_, ?_⟩
    · rw [hs, List.length_append, List.length_reverse, hlen]
      exact Nat.le_add_right _ _
    · rw [hs, ← hlen, ← List.length_reverse, List.take_left, List.map_reverse, List.reverse_reverse]
    · rw [hs, ← hlen, ← List.length_reverse, List.drop_left]
  have hdec := C.decode hstands.head ⟨by decide, by cases id <;> decide, hinst⟩
  rcases hcall : callPrimitive σ.prims id inst (vals.map VmValue.toStackValue) env.nowMs with
    e | ⟨prims, out⟩
  · -- a primitive that fails ends the run
    have hm : invoke env n id inst vals σ = .error .fault σ := by
      rw [invoke, hcall]
    have hfail : ∃ f, invokePrimitive id inst (vals.map VmValue.toStackValue) env.nowMs pc
        (s.withStack rest) = .error f (s.withStack rest) := by
      rw [invokePrimitive, VmState.withStack_primitives, hr.prims, hcall]
      cases e <;> exact ⟨_, rfl⟩
    obtain ⟨f, hf⟩ := hfail
    refine .fault hdec rfl (f := f) (t := s.withStack rest) ?_ hm
    simp only [execInstr, if_true, callPrim, PrimitiveId.fromU32_toU32, bind_assoc]
    rw [estate_bind_of_ok hpop, estate_bind_of_error hf]
  · have hm : invoke env n id inst vals σ = .ok ()
        (setFrom n 0 (resultValues (isTimer id) 0 out) { σ with prims := prims }) := by
      rw [invoke, hcall, ← setCells_eq]
    have htys := callPrimitive_ok hcall
    have hcalled : invokePrimitive id inst (vals.map VmValue.toStackValue) env.nowMs pc
        (s.withStack rest) = .ok out { s.withStack rest with primitives := prims } := by
      rw [invokePrimitive, VmState.withStack_primitives, hr.prims, hcall]
    have hexec : execInstr image env.nowMs pc 12 (.callFb 0 id.toU32 inst) s =
        (pushResults (isTimer id) pc 0 out >>= fun _ => pure (.goto (pc + 12)))
          { s.withStack rest with primitives := prims } := by
      simp only [execInstr, if_true, callPrim, PrimitiveId.fromU32_toU32, bind_assoc]
      rw [estate_bind_of_ok hpop, estate_bind_of_ok hcalled]
    rcases hpush : pushResults (isTimer id) pc 0 out
      { s.withStack rest with primitives := prims } with ⟨u, t⟩ | ⟨f, t⟩
    · obtain ⟨-, rfl⟩ := pushResults_ok.mp hpush
      rw [estate_bind_of_ok hpush, estate_pure] at hexec
      refine .next hdec rfl hexec ?_
      refine mirrors_stores C hst hn hk outs (k := 0) rfl ?_ hstands.tail rfl
        (((hr.withStack rest).pools prims).withStack _) fun s' hs' hr' => ?_
      · rw [htys, resultTypes_eq, ← houts, List.map_map]
        rfl
      · refine .ok hm ⟨?_, hs', hr'⟩
        rw [itemsSize_cons, ← Nat.add_assoc]
        rfl
    · rw [estate_bind_of_error hpush] at hexec
      obtain ⟨-, -, rfl⟩ := pushResults_error hpush
      exact .full hdec rfl hexec

/-- Copying the outputs. -/
theorem mirrors_copyOut (hst : g.look n = some (.prim id inst outs)) (hn : (Γ n).isSome)
    (houts : (outs.map fun o => (o.1, o.2.2)) = primOutTypes id) : (os : List CallOut) →
    {g' g'' : Codegen} → {u : Unit} → {σ : Store} → {s : VmState} → Ext g g' →
    os.all (outOk Γ id) = true → emitPrimOuts outs os g' = .ok u g'' → g''.items <+: items →
    Knows env Γ g' T → Represents env N Γ g' T σ s →
    Mirrors image env.nowMs R (copyOut Γ n id os σ) (Reaches env N Γ g' T s.stack g''.pc) ⟨s, g'.pc⟩
  | [], g', g'', u, σ, s, hext, hok, h, hpre, hk, hr => by
      cases h
      exact .ok rfl ⟨rfl, rfl, hr⟩
  | o :: os, g', g'', u, σ, s, hext, hok, h, hpre, hk, hr => by
      rw [List.all_cons, Bool.and_eq_true] at hok
      obtain ⟨ho, hok⟩ := hok
      unfold emitPrimOuts at h
      unfold copyOut
      by_cases heno : sameName o.name "ENO" = true
      · rw [if_pos heno] at h ⊢
        exact mirrors_copyOut hst hn houts os hext hok h hpre hk hr
      · rw [if_neg heno] at h ⊢
        obtain ⟨⟨name, off, t⟩, hfound, h⟩ := liftResult_bind_ok.mp h
        simp only [emitSimple, emit, append_bind] at h
        obtain ⟨⟨⟩, g₁, h₁, h⟩ := estate_bind_ok.mp h
        have hst' := hext.look hst
        rcases hout : primOutput id o.name with _ | ⟨k, ty⟩
        · simp [outOk, heno, hout] at ho
        · obtain ⟨name', off', hget, hfind⟩ := findOutput_of_primOutput houts hout
          rw [orReject_ok.mp hfound] at hfind
          cases hfind
          have hassigns : assigns Γ o.dest t = true := by
            simpa [outOk, heno, hout] using ho
          have hcell : (Storage.prim id inst outs).cell k = some (off, t) := by
            simp [Storage.cell, hget]
          obtain ⟨hty, hheld⟩ := hr.cells hn hst' hcell
          have e₁ := grows_emitStore h₁
          have e₂ := grows_emitPrimOuts (e₁.look hst') h
          have hpre₁ : g₁.items <+: items := e₂.items.trans hpre
          have hpre₀ : (g'.adds [.simple .ldData off]).items <+: items := e₁.items.trans hpre₁
          refine .ldData C (stands_adds hpre₀) hr.addresses hheld ?_
          have e₀ := Ext.adds g' [.simple .ldData off]
          have hk₀ := hk.ext e₀
          have hr₀ := (hr.withStack (σ.vars (.cell n k) :: s.stack)).ext hk e₀
          have hassigns' : assigns Γ o.dest (σ.vars (.cell n k)).irType = true := hty ▸ hassigns
          have hstep := mirrors_assign C (R := R) hk₀ hassigns' h₁ hpre₁ rfl hr₀
          rw [Codegen.adds_simple_pc] at hstep
          refine Enacts.bind (c := assign Γ o.dest (σ.vars (.cell n k)))
            (k := fun _ => copyOut Γ n id os) hstep ?_
          rintro _ σ₁ ⟨s₁, _⟩ - ⟨rfl, hs₁, hr₁⟩
          have hr₁' := hr₁.ext hk₀ e₁.toExt
          refine (mirrors_copyOut hst hn houts os ((hext.trans e₀).trans e₁.toExt) hok h hpre
            (hk₀.ext e₁.toExt) hr₁').mono ?_
          rintro _ σ₂ c₂ - ⟨hpc₂, hs₂, hr₂⟩
          exact ⟨hpc₂, hs₂.trans hs₁, (hr₂.back e₁.toExt).back e₀⟩

end Instance

/-- **Compiled calls.** The code of a call of a primitive does what the call means. -/
theorem mirrors_call (C : Target image items) (hN : N ≤ 2 ^ 32) {call : FbCallExpr} {u : Unit}
    (hok : callOk Γ call = true)
    (h : emitFbCall order call.callee (argCodes order call.inputs) call.outputs g = .ok u g')
    (hpre : g'.items <+: items) (htop : g'.top ≤ N) (hk : Knows env Γ g T)
    (hr : Represents env N Γ g T σ s) :
    Mirrors image env.nowMs R (execCall env Γ call σ) (Reaches env N Γ g T s.stack g'.pc)
      ⟨s, g.pc⟩ := by
  obtain ⟨callee, inputs, outputs⟩ := call
  unfold callOk at hok
  unfold emitFbCall at h
  unfold execCall
  simp only at hok h ⊢
  split at hok
  · rename_i n
    split at hok
    · rename_i id inst he
      rw [Bool.and_eq_true] at hok
      obtain ⟨hargs, houtputs⟩ := hok
      rcases hes : primArgs id inputs with _ | es
      · simp [hes] at hargs
      have htys : es.map (exprType Γ) = (primInTypes id).map some := by
        simpa [hes] using hargs
      have hcount : es.length = id.inputCount := by
        rw [← primInTypes_length, ← List.length_map (exprType Γ), htys, List.length_map]
      obtain ⟨st, hst, h⟩ := lookup_bind_ok.mp h
      obtain ⟨st', hst', hent⟩ := hk.bound he
      rw [hst] at hst'
      cases hst'
      obtain ⟨outs, rfl, houts⟩ := Storage.entity_prim hent
      have hn : (Γ (lower n)).isSome := by simp [he]
      simp only at h
      unfold emitPrimCall at h
      obtain ⟨args, hbind, h⟩ := liftResult_bind_ok.mp h
      obtain rfl := bindArgs_argCodes hes hbind
      obtain ⟨⟨⟩, g₁, h₁, h⟩ := estate_bind_ok.mp h
      simp only [emit, append_bind] at h
      rw [estate_bind_of_ok (forM_stData_eq outs), Codegen.adds_adds, List.singleton_append] at h
      obtain ⟨T₁, e₁⟩ := grows_emitArgs (fun m hm => by
        obtain ⟨e', -, he'⟩ := List.mem_map.mp hm
        cases he'
        exact whole_emitExpr order e') h₁
      have e₂ := Ext.adds g₁ (.instr (.callFb 0 id.toU32 inst) ::
        outs.map fun o => .simple .stData o.2.1)
      have hst₁ := e₁.look hst
      have e₃ := grows_emitPrimOuts (e₂.look hst₁) h
      have hpre₂ := e₃.items.trans hpre
      have hpre₁ : g₁.items <+: items := e₂.items.trans hpre₂
      have htop₁ : g₁.top ≤ N := (e₂.trans e₃.toExt).top.trans htop
      -- the arguments
      simp only [he, hes]
      refine .bind (mirrors_args C hN es ?_ htys h₁ hpre₁ htop₁ hk hr) ?_
      · rw [hcount, primInNames_length]
      rintro vals σ₁ ⟨s₁, _⟩ - ⟨rfl, hvals, hs₁, hr₁⟩
      simp only at hs₁ hr₁
      -- the call
      have hk₁ := hk.ext e₁.toExt
      have hr₁' := hr₁.ext hk e₁.toExt
      have hlen : vals.length = id.inputCount := by
        rw [← primInTypes_length, ← hvals, List.length_map]
      refine .bind (mirrors_invoke C hst₁ hn (hk.instances he) houts hk₁ (stands_adds hpre₂) hlen
        hs₁ hr₁') ?_
      rintro _ σ₂ ⟨s₂, _⟩ - ⟨rfl, hs₂, hr₂⟩
      simp only at hs₂ hr₂
      rw [← Codegen.adds_pc]
      -- the outputs
      refine (mirrors_copyOut C (e₁.look hst) hn houts outputs e₂ houtputs h hpre (hk₁.ext e₂)
        (hr₂.ext hk₁ e₂)).mono ?_
      rintro _ σ₃ c₃ - ⟨hpc₃, hs₃, hr₃⟩
      exact ⟨hpc₃, hs₃.trans hs₂, (hr₃.back e₂).back e₁.toExt⟩
    · cases hok
  · cases hok

end SoftPlc.Compiler
