import SoftPlc.Compiler.Boundary
import SoftPlc.Scan.Reach
import SoftPlc.Vm.Pools

/-!
# Instances of primitives

The compiler numbers the instances of each kind of primitive: first those of the programs, then
those nested in function blocks, against the limit of `project.toml`. The machine that the loader
makes has pools of 128 instances of each kind. A project that declares at most 128 instances of each
kind never leaves them (`primitive_calls_in_pool`); one that declares more is accepted all the same
and faults (`pool_exceeded`).
-/

namespace SoftPlc.Compiler

open SoftPlc.Ir SoftPlc.St SoftPlc.Fb SoftPlc.Lib SoftPlc.Vm SoftPlc.Scan

/-! ## Declarations -/

/-- The kind of primitive that a type names. -/
def TypeDef.primitive : TypeDef → Option PrimitiveId
  | .prim id => some id
  | _ => none

/-- The kind of primitive that a declaration makes an instance of. -/
def declaredPrimitive (v : VarDecl) : Option PrimitiveId :=
  match resolveType v.ty with
  | .ok ty => ty.primitive
  | .error _ => none

/-- How many instances of a kind of primitive some sections declare. -/
def primitiveDecls (id : PrimitiveId) (sections : List VarSection) : ℕ :=
  (sections.flatMap VarSection.vars).countP fun v => declaredPrimitive v = some id

/-- The sections of a program or function block. -/
def declSections : Decl → List VarSection
  | .program p => p.vars
  | .functionBlock fb => fb.vars

/-- How many instances of a kind of primitive a project declares, in programs and in function
blocks. -/
def LoadedProject.primitiveDecls (p : LoadedProject) (id : PrimitiveId) : ℕ :=
  (((p.libUnits.map Prod.snd ++ p.units).flatMap CompilationUnit.decls).map fun d =>
    Compiler.primitiveDecls id (declSections d)).sum

/-! ## Numbers -/

/-- How many instances of a kind have been numbered. -/
def BindState.count (st : BindState) (id : PrimitiveId) : ℕ := (st.primCounts.lookup id).getD 0

/-- The instances among symbols have numbers that have been given. -/
def Counted (st : BindState) (symbols : Symbols) : Prop :=
  ∀ name id inst outs, (name, Storage.prim id inst outs) ∈ symbols → inst < st.count id

theorem Counted.mono {st st' : BindState} {symbols : Symbols} (h : Counted st symbols)
    (hle : ∀ id, st.count id ≤ st'.count id) : Counted st' symbols :=
  fun name id inst outs hmem => (h name id inst outs hmem).trans_le (hle id)

/-- One for a kind, zero for the others. -/
def oneFor (id : PrimitiveId) (kind : Option PrimitiveId) : ℕ := if kind = some id then 1 else 0

/-- A new instance of a kind. -/
theorem count_cons (st : BindState) (alloc : Allocator) (kind id : PrimitiveId) :
    BindState.count { st with alloc := alloc
                              primCounts := (kind, st.count kind + 1) :: st.primCounts } id =
      st.count id + oneFor id (some kind) := by
  unfold BindState.count oneFor
  dsimp only
  by_cases h : id = kind
  · subst h
    rw [List.lookup_cons_self, if_pos rfl]
    rfl
  · have hne : (id == kind) = false := by simpa using h
    rw [List.lookup_cons, hne, if_neg fun heq => h (Option.some.inj heq).symm]
    rfl

/-- What the binding of one declaration counts. -/
theorem bindVar_count {fbs : FbLayouts} {maxInstances : ℕ} {kind : VarKind} {st st' : BindState}
    {v : VarDecl} (h : bindVar fbs maxInstances kind st v = .ok st')
    (hst : Counted st st.globals) :
    (∀ id, st'.count id ≤ st.count id + oneFor id (declaredPrimitive v)) ∧
      Counted st' st'.globals := by
  have hkept : ∀ {st₁ : BindState} {storage : Storage}, st₁.primCounts = st.primCounts →
      (∀ id inst outs, storage ≠ .prim id inst outs) →
      (∀ id, BindState.count { st₁ with globals := (lower v.name, storage) :: st.globals } id ≤
          st.count id + oneFor id (declaredPrimitive v)) ∧
        Counted { st₁ with globals := (lower v.name, storage) :: st.globals }
          ((lower v.name, storage) :: st.globals) := by
    intro st₁ storage hcounts hne
    have hsame : ∀ id, BindState.count { st₁ with globals := (lower v.name, storage) :: st.globals }
        id = st.count id := by
      intro id
      unfold BindState.count
      rw [hcounts]
    refine ⟨fun id => (hsame id).le.trans (Nat.le_add_right _ _), ?_⟩
    intro name id inst outs hmem
    rw [hsame]
    rcases List.mem_cons.mp hmem with heq | hmem
    · exact absurd (Prod.mk.inj heq).2.symm (hne id inst outs)
    · exact hst name id inst outs hmem
  rcases bindVar_ok h with ⟨-, rfl⟩ | ⟨-, storage, st₁, hstep, rfl⟩
  · exact ⟨fun id => Nat.le_add_right _ _, hst⟩
  · cases hstep with
    | input _ _ _ => exact hkept rfl (by simp)
    | output _ _ _ => exact hkept rfl (by simp)
    | retain _ _ _ => exact hkept rfl (by simp)
    | data _ _ _ => exact hkept rfl (by simp)
    | userInst _ _ _ => exact hkept rfl (by simp)
    | const _ _ => exact hkept rfl (by simp)
    | @prim kind' inst outs alloc hty hinst _ _ =>
        have hdecl : declaredPrimitive v = some kind' := by
          simp [declaredPrimitive, hty, TypeDef.primitive]
        obtain rfl : inst = st.count kind' := hinst
        have hcount := count_cons st alloc kind'
        refine ⟨fun id => ?_, ?_⟩
        · rw [hdecl]
          exact (hcount id).le
        · intro name id inst outs' hmem
          have hgoal : inst < st.count id + oneFor id (some kind') := by
            rcases List.mem_cons.mp hmem with heq | hmem
            · cases heq
              simp [oneFor]
            · exact (hst name id inst outs' hmem).trans_le (Nat.le_add_right _ _)
          rw [← hcount id] at hgoal
          exact hgoal

theorem countP_eq_oneFor (id : PrimitiveId) (kind : Option PrimitiveId) :
    (if decide (kind = some id) = true then 1 else 0) = oneFor id kind := by
  simp [oneFor]

/-- The numbers that the programs use up. -/
theorem bindProject_count {file : ProjectFile} {fbs : FbLayouts} {ds : Decls} {bound : BindState}
    (h : bindProject file fbs ds.programs = .ok bound) :
    (∀ id, bound.count id ≤
        ds.programVars.countP fun x => declaredPrimitive x.2 = some id) ∧
      Counted bound bound.globals := by
  refine bindProject_induct h (fun vars st =>
    (∀ id, st.count id ≤ vars.countP fun x => declaredPrimitive x.2 = some id) ∧
      Counted st st.globals) ?_ ?_
  · rintro st hglobals - hcounts -
    refine ⟨fun id => ?_, ?_⟩
    · simp [BindState.count, hcounts]
    · rw [hglobals]
      intro name id inst outs hmem
      cases hmem
  · rintro vars st kind v st' ⟨hcount, hst⟩ hbind
    obtain ⟨hone, hst'⟩ := bindVar_count hbind hst
    refine ⟨fun id => ?_, hst'⟩
    rw [List.countP_append, List.countP_singleton, countP_eq_oneFor]
    exact (hone id).trans (Nat.add_le_add_right (hcount id) _)

/-- How many of the instances nested in a function block are of a kind. -/
def nested (id : PrimitiveId) (instances : List (String × TypeDef)) : ℕ :=
  instances.countP fun x => x.2.primitive = some id

/-- The numbers that the instances of a function block use up. -/
theorem instanceSymbols_count {fbs : FbLayouts} {maxInstances : ℕ}
    {instances : List (String × TypeDef)} {st st' : BindState} {locals locals' : Symbols}
    (h : instanceSymbols fbs maxInstances instances st locals = .ok (locals', st'))
    (hst : Counted st locals) :
    (∀ id, st'.count id = st.count id + nested id instances) ∧ Counted st' locals' := by
  induction instances generalizing st locals with
  | nil =>
      cases h
      exact ⟨fun id => rfl, hst⟩
  | cons x instances ih =>
      obtain ⟨name, ty⟩ := x
      have hskip : ∀ {st₁ : BindState} {locals₁ : Symbols}, ty.primitive = none →
          (∀ id, st₁.count id = st.count id) →
          instanceSymbols fbs maxInstances instances st₁ locals₁ = .ok (locals', st') →
          Counted st₁ locals₁ →
          (∀ id, st'.count id = st.count id + nested id ((name, ty) :: instances)) ∧
            Counted st' locals' := by
        intro st₁ locals₁ hprim hsame h hst₁
        obtain ⟨hcount, hcounted⟩ := ih h hst₁
        refine ⟨fun id => ?_, hcounted⟩
        rw [hcount, hsame, nested, nested, List.countP_cons, hprim]
        simp
      cases ty with
      | elem t => exact hskip rfl (fun _ => rfl) h hst
      | array t len => exact hskip rfl (fun _ => rfl) h hst
      | userFb uname =>
          obtain ⟨layout, -, h⟩ := except_bind_ok.mp h
          obtain ⟨⟨base, alloc⟩, -, h⟩ := except_bind_ok.mp h
          refine @hskip { st with alloc := alloc } _ rfl (fun _ => rfl) h ?_
          intro name id inst outs hmem
          rcases List.mem_cons.mp hmem with heq | hmem
          · cases heq
          · exact hst name id inst outs hmem
      | prim kind =>
          obtain ⟨⟨storage, st₁⟩, hnew, h⟩ := except_bind_ok.mp h
          obtain ⟨outs, alloc, -, -, rfl, rfl⟩ := newPrim_ok hnew
          have hone := count_cons st alloc kind
          obtain ⟨hcount, hcounted⟩ := ih h (by
            intro name id inst outs' hmem
            have hgoal : inst < st.count id + oneFor id (some kind) := by
              rcases List.mem_cons.mp hmem with heq | hmem
              · cases heq
                simp [oneFor, BindState.count]
              · exact (hst name id inst outs' hmem).trans_le (Nat.le_add_right _ _)
            rw [← hone id] at hgoal
            exact hgoal)
          refine ⟨fun id => ?_, hcounted⟩
          have htotal := (hcount id).trans (congrArg (· + nested id instances) (hone id))
          rw [htotal, nested, nested, List.countP_cons, countP_eq_oneFor, Nat.add_assoc,
            Nat.add_comm (oneFor id _)]
          rfl

/-! ## Calls -/

section Calls

variable {order : HashOrder} {g g' : Codegen}

/-- Every call of a primitive names an instance that has been numbered. -/
structure CallsCounted (st : BindState) (g : Codegen) : Prop where
  globals : Counted st g.globals
  calls : ∀ fbKind fbId inst, .instr (.callFb fbKind fbId inst) ∈ g.items →
    (∃ id : PrimitiveId, fbKind = 0 ∧ fbId = id.toU32 ∧ inst < st.count id) ∨ fbKind = 1

/-- The calls in a body are of instances in scope. -/
theorem CallsCounted.body {st st' : BindState} (h : CallsCounted st g)
    (hle : ∀ id, st.count id ≤ st'.count id) {locals : Symbols} (hlocals : Counted st' locals)
    {body : List Stmt} {last : Opcode} {u : Unit}
    (hbody : emitBody order locals body last g = .ok u g') : CallsCounted st' g' := by
  obtain ⟨T, g₁, hgrows, rfl⟩ := emitBody_ok hbody
  have hglobals : g₁.globals = g.globals := hgrows.globals
  refine ⟨?_, ?_⟩
  · show Counted st' g₁.globals
    rw [hglobals]
    exact h.globals.mono hle
  · intro fbKind fbId inst hmem
    have hmem : .instr (.callFb fbKind fbId inst) ∈ g₁.items := by
      rcases List.mem_append.mp hmem with hmem | hmem
      · exact hmem
      · cases List.mem_singleton.mp hmem
    rcases hgrows.origin _ hmem with hold | horigin
    · rcases h.calls fbKind fbId inst hold with ⟨id, hkind, hid, hlt⟩ | hkind
      · exact .inl ⟨id, hkind, hid, hlt.trans_le (hle id)⟩
      · exact .inr hkind
    · cases horigin with
      | user _ _ => exact .inr rfl
      | @prim n id inst outs hlook =>
          refine .inl ⟨id, rfl, rfl, ?_⟩
          -- a name that the body has bound itself is a temporary
          rcases hgrows.new hlook with hlook | ⟨-, off, hst, -⟩
          · rcases Option.or_eq_some_iff.mp hlook with hlook | ⟨-, hlook⟩
            · exact hlocals n id inst outs (mem_of_lookup hlook)
            · exact (h.globals n id inst outs (mem_of_lookup hlook)).trans_le (hle id)
          · cases hst

/-- Fields are no instances of primitives. -/
theorem counted_fieldSymbols (st : BindState) (fields : List FieldLayout) :
    Counted st (fieldSymbols fields) := by
  intro name id inst outs hmem
  unfold fieldSymbols at hmem
  rw [List.mem_reverse, List.mem_map] at hmem
  obtain ⟨f, -, heq⟩ := hmem
  obtain ⟨-, hst⟩ := Prod.mk.inj heq
  split_ifs at hst

/-- The numbers that the function blocks use up. -/
theorem emitFbs_count {maxInstances id : ℕ} {fbs : FbLayouts} {st st' : BindState}
    (h : CallsCounted st g) (hrun : emitFbs order maxInstances id fbs st g = .ok st' g') :
    (∀ kind, st'.count kind = st.count kind + (fbs.map fun x => nested kind x.2.instances).sum) ∧
      CallsCounted st' g' := by
  induction fbs generalizing id st g with
  | nil =>
      cases hrun
      exact ⟨fun kind => rfl, h⟩
  | cons x fbs ih =>
      obtain ⟨key, layout⟩ := x
      obtain ⟨st₁, g₁, hfb, hrun⟩ := estate_bind_ok.mp hrun
      obtain ⟨locals, hlocals, hbody⟩ := emitFb_ok hfb
      obtain ⟨hcount, hcounted⟩ :=
        instanceSymbols_count hlocals (counted_fieldSymbols st layout.fields)
      have hle : ∀ kind, st.count kind ≤ st₁.count kind := by
        intro kind
        rw [hcount]
        exact Nat.le_add_right _ _
      have hstart : CallsCounted st { g with
          fbLayouts := setEntryName key (fbEntryName id) g.fbLayouts
          entries := g.entries ++ [⟨fbEntryName id, g.code.length % 2 ^ 32, true⟩] } :=
        ⟨h.globals, h.calls⟩
      obtain ⟨hrest, hfinal⟩ := ih (hstart.body hle hcounted hbody) hrun
      refine ⟨fun kind => ?_, hfinal⟩
      rw [hrest, hcount, List.map_cons, List.sum_cons, Nat.add_assoc]

/-- The calls of all bodies. -/
theorem emitProject_count {file : ProjectFile} {programs : List (String × St.Program)}
    {fbs : FbLayouts} {bound final : BindState} (h : CallsCounted bound g)
    (hrun : emitProject order file programs fbs bound g = .ok final g') :
    (∀ kind, final.count kind =
        bound.count kind + (fbs.map fun x => nested kind x.2.instances).sum) ∧
      CallsCounted final g' := by
  unfold emitProject at hrun
  obtain ⟨st, g₁, h₁, hrun⟩ := estate_bind_ok.mp hrun
  obtain ⟨u, g₂, h₂, hrun⟩ := estate_bind_ok.mp hrun
  cases hrun
  obtain ⟨hcount, hcalls⟩ := emitFbs_count h h₁
  refine ⟨fun kind => ?_, ?_⟩
  · rw [hcount, ((order.fbs_perm fbs).map _).sum_eq]
  · refine emitTasks_invariant (I := CallsCounted final) ?_ hcalls h₂
    intro t p u g g' hg htask
    obtain ⟨⟨⟩, g₁, hentry, hbody⟩ := estate_bind_ok.mp htask
    cases hentry
    have hstart : CallsCounted final { g with
        entries := g.entries ++ [⟨"task." ++ t.name, g.code.length % 2 ^ 32, false⟩] } :=
      ⟨hg.globals, hg.calls⟩
    have hnone : Counted final [] := by
      intro name id inst outs hmem
      cases hmem
    exact hstart.body (fun kind => le_refl _) hnone hbody

end Calls

/-! ## What the project declares -/

section Declared

variable {id : PrimitiveId}

/-- A declaration of a function block nests at most the instance that it declares. -/
theorem layoutVar_nested {known : FbLayouts} {kind : VarKind} {st st' : LayoutState} {v : VarDecl}
    (h : layoutVar known kind st v = .ok st') :
    nested id st'.instances ≤ nested id st.instances + oneFor id (declaredPrimitive v) := by
  obtain ⟨ty, hty, hout⟩ := layoutVar_ok h
  rcases hout with ⟨inputs, hadd⟩ | ⟨ir, off, alloc, -, rfl⟩ | rfl
  · obtain ⟨size, -, hadd⟩ := except_bind_ok.mp hadd
    obtain ⟨⟨off, alloc⟩, -, hadd⟩ := except_bind_ok.mp hadd
    cases hadd
    exact Nat.le_add_right _ _
  · exact Nat.le_add_right _ _
  · have hdecl : declaredPrimitive v = ty.primitive := by
      simp [declaredPrimitive, hty]
    dsimp only
    rw [nested, nested, List.countP_append, List.countP_singleton, countP_eq_oneFor, hdecl]

/-- A function block nests at most the instances that it declares. -/
theorem layoutUserFb_nested {fb : FunctionBlock} {known : FbLayouts} {layout : UserFbLayout}
    (h : layoutUserFb fb known = .ok layout) :
    nested id layout.instances ≤ primitiveDecls id fb.vars := by
  unfold layoutUserFb at h
  obtain ⟨st, hfold, h⟩ := except_bind_ok.mp h
  cases h
  let P (vars : List VarDecl) (st : LayoutState) : Prop :=
    nested id st.instances ≤ vars.countP fun v => declaredPrimitive v = some id
  have hvar : ∀ kind vars st v st', P vars st → layoutVar known kind st v = .ok st' →
      P (vars ++ [v]) st' := by
    intro kind vars st v st' hP hv
    show _ ≤ _
    rw [List.countP_append, List.countP_singleton, countP_eq_oneFor]
    exact (layoutVar_nested hv).trans (Nat.add_le_add_right hP _)
  have hsection : ∀ vars st (s : VarSection) st', P vars st →
      s.vars.foldlM (layoutVar known s.kind) st = .ok st' → P (vars ++ s.vars) st' := by
    intro vars st s st' hP hs
    have hrun := except_foldlM_append (g := fun v => [v]) hs P (hvar s.kind) vars hP
    rwa [← List.map_eq_flatMap, List.map_id'] at hrun
  have hrun := except_foldlM_append (g := VarSection.vars) hfold P hsection [] (Nat.zero_le _)
  exact hrun

/-- The instances nested in layouts. -/
def nestedIn (id : PrimitiveId) (fbs : FbLayouts) : ℕ :=
  (fbs.map fun x => nested id x.2.instances).sum

/-- The instances that function blocks declare. -/
def declaredIn (id : PrimitiveId) (fbs : List (String × FunctionBlock)) : ℕ :=
  (fbs.map fun x => primitiveDecls id x.2.vars).sum

/-- A pass moves function blocks from the pending ones to the known ones. -/
theorem layoutPass_nested (pending : List (String × FunctionBlock)) (known : FbLayouts) :
    nestedIn id (layoutPass pending known).2 + declaredIn id (layoutPass pending known).1 ≤
      nestedIn id known + declaredIn id pending := by
  induction pending generalizing known with
  | nil => exact le_refl _
  | cons x pending ih =>
      obtain ⟨key, fb⟩ := x
      unfold layoutPass
      rcases hl : layoutUserFb fb known with e | layout
      · have hrest := ih known
        simp only [declaredIn, List.map_cons, List.sum_cons] at hrest ⊢
        omega
      · have hrest := ih ((key, layout) :: known)
        have hone : nested id layout.instances ≤ primitiveDecls id fb.vars := layoutUserFb_nested hl
        simp only [nestedIn, declaredIn, List.map_cons, List.sum_cons] at hrest ⊢
        omega

/-- The layouts nest at most what the function blocks declare. -/
theorem layoutFbs_nested {guard : ℕ} {pending : List (String × FunctionBlock)}
    {known fbs : FbLayouts} (h : layoutFbs guard pending known = .ok fbs) :
    nestedIn id fbs ≤ nestedIn id known + declaredIn id pending := by
  induction guard generalizing pending known with
  | zero =>
      cases pending with
      | nil =>
          cases h
          exact Nat.le_add_right _ _
      | cons x pending => cases h
  | succ guard ih =>
      cases pending with
      | nil =>
          cases h
          exact Nat.le_add_right _ _
      | cons x pending =>
          obtain ⟨name, fb⟩ := x
          unfold layoutFbs at h
          dsimp only at h
          split_ifs at h
          · obtain ⟨_, -, h⟩ := except_bind_ok.mp h
            cases h
          · exact (ih h).trans (layoutPass_nested _ _)

/-- An ordered map holds what is inserted. -/
theorem sum_insertSorted {α : Type} (f : String × α → ℕ) (key : String) (value : α)
    (m : List (String × α)) :
    ((insertSorted key value m).map f).sum = f (key, value) + (m.map f).sum := by
  exact ((insertSorted_perm key value m).map f).sum_eq.trans List.sum_cons

/-- The instances that programs declare. -/
theorem countP_programVars (ds : Decls) :
    (ds.programVars.countP fun x => declaredPrimitive x.2 = some id) =
      (ds.programs.map fun x => primitiveDecls id x.2.vars).sum := by
  have hsection : ∀ sections : List VarSection,
      (sectionVars sections).countP (fun x => declaredPrimitive x.2 = some id) =
        primitiveDecls id sections := by
    intro sections
    rw [sectionVars, primitiveDecls, List.countP_flatMap, List.countP_flatMap]
    congr 1
    apply List.map_congr_left
    intro s _
    exact List.countP_map
  rw [Decls.programVars, List.countP_flatMap]
  congr 1
  apply List.map_congr_left
  intro x _
  exact hsection x.2.vars

/-- The declarations of a project are those of its programs and function blocks. -/
theorem collectDecls_declared {p : LoadedProject} {ds : Decls} (h : collectDecls p = .ok ds) :
    (ds.programs.map fun x => primitiveDecls id x.2.vars).sum + declaredIn id ds.fbs =
      p.primitiveDecls id := by
  unfold collectDecls at h
  obtain ⟨⟨⟩, -, h⟩ := except_bind_ok.mp h
  let P (decls : List Decl) (ds : Decls) : Prop :=
    (ds.programs.map fun x => primitiveDecls id x.2.vars).sum + declaredIn id ds.fbs =
      (decls.map fun d => primitiveDecls id (declSections d)).sum
  have hadd : ∀ decls ds d ds', P decls ds → addDecl ds d = .ok ds' → P (decls ++ [d]) ds' := by
    intro decls ds d ds' hP hd
    have hP : (ds.programs.map fun x => primitiveDecls id x.2.vars).sum + declaredIn id ds.fbs =
      (decls.map fun d => primitiveDecls id (declSections d)).sum := hP
    show _ = _
    rw [List.map_append, List.sum_append, ← hP]
    cases d with
    | functionBlock fb =>
        simp only [addDecl] at hd
        split_ifs at hd
        · cases hd
        · cases hd
          simp only [declaredIn, sum_insertSorted, List.map_cons, List.map_nil, List.sum_cons,
            List.sum_nil, declSections]
          omega
    | program prog =>
        simp only [addDecl] at hd
        split_ifs at hd
        · cases hd
        · cases hd
          simp only [sum_insertSorted, List.map_cons, List.map_nil, List.sum_cons, List.sum_nil,
            declSections]
          omega
  have hrun := except_foldlM_append (g := fun d => [d]) h P hadd [] rfl
  rwa [← List.map_eq_flatMap, List.map_id'] at hrun

end Declared

/-! ## Pools -/

/-- The compiler numbers at most the instances that a project declares. -/
theorem Stages.count_le {order : HashOrder} {p : LoadedProject} {c : Compiled}
    (h : Stages order p c) : CallsCounted c.final c.codegen ∧
      ∀ id, c.final.count id ≤ p.primitiveDecls id := by
  obtain ⟨hbound, hglobals⟩ := bindProject_count h.bound
  have hstart : CallsCounted c.bound { fbLayouts := c.fbLayouts, globals := c.bound.globals } := by
    refine ⟨hglobals, ?_⟩
    intro fbKind fbId inst hmem
    cases hmem
  obtain ⟨hcount, hcalls⟩ := emitProject_count hstart h.emitted
  refine ⟨hcalls, fun id => ?_⟩
  have hprograms := hbound id
  rw [countP_programVars] at hprograms
  have hnested := @layoutFbs_nested id _ _ _ _ h.layouts
  have hknown : nestedIn id [] = 0 := rfl
  rw [hknown, Nat.zero_add] at hnested
  calc c.final.count id = c.bound.count id + nestedIn id c.fbLayouts := hcount id
    _ ≤ _ + declaredIn id c.decls.fbs := Nat.add_le_add hprograms hnested
    _ = p.primitiveDecls id := collectDecls_declared h.decls

/-- **A project that declares at most 128 instances of each kind never leaves the pools.** The code
must also be shorter than `2 ^ 32` bytes, so that the verifier's check of its length means
something. -/
theorem primitive_calls_in_pool {order : HashOrder} {p : LoadedProject} {buildId : String}
    {m : IrModule} {manifest : Manifest} (hc : compileLoaded order p buildId = .ok (m, manifest))
    (hsize : m.code.length < 2 ^ 32)
    (hdecls : ∀ id, p.primitiveDecls id ≤ ({} : VmConfig).primitiveInstances) {force : Bool}
    {pkg : Package} {ctx : ArmContext} {arm : PreparedArm} (hpkg : pkg.validated = some m)
    (harm : prepareArm force pkg ctx = .ok arm) {s : VmState}
    (hs : Life arm.program.vm.image arm.program.vm.state s) (name : String) (nowMs pc : ℕ) :
    (runEntry arm.program.vm.image name nowMs s).1 ≠
      .error (.err (.primitive pc PrimitiveCallError.badInstance.debugText)) := by
  intro hbad
  obtain ⟨c, hstages, hc⟩ := except_bind_ok.mp hc
  cases hc
  obtain ⟨retain, hvm⟩ := prepareArm_vm hpkg harm
  rw [hvm] at hs hbad
  obtain ⟨hassembled, hentries⟩ := compiled_assembled hstages hsize
  obtain ⟨e, he, k, conf, fbId, inst, n, hpasses, hdec, hpool⟩ := runEntry_badInstance hbad
  obtain ⟨hcounted, hcount⟩ := (compileStages_ok hstages).count_le
  rcases hassembled.executed hentries he hpasses hdec with ⟨j, hj, hstored⟩ | ⟨op, l, target, -, hsim⟩
  · cases j with
    | simple op payload => cases hstored
    | withImm32 op payload imm => cases hstored
    | callFb fbKind fbId' inst' =>
        obtain ⟨hkind, hfb, hinst⟩ := DecodedInstr.callFb.inj hstored
        rcases hcounted.calls fbKind fbId' inst' hj with ⟨id, -, rfl, hlt⟩ | rfl
        · have hid : PrimitiveId.fromU32 fbId = some id := by
            rw [hfb]
            cases id <;> rfl
          have hsizes : poolSize s.primitives id = ({} : VmConfig).primitiveInstances :=
            (hs.samePools id).trans (poolSize_withCapacity _ id)
          have hinside : inst < ({} : VmConfig).primitiveInstances :=
            calc inst ≤ inst' := hinst.le.trans (Nat.mod_le _ _)
              _ < c.final.count id := hlt
              _ ≤ p.primitiveDecls id := hcount id
              _ ≤ _ := hdecls id
          have houtside := hpool id hid
          rw [hsizes] at houtside
          exact absurd hinside (not_lt.mpr houtside)
        · cases hkind
  · cases hsim

/-- The name of an edge detector. -/
def edgeName (i : ℕ) : String := "e" ++ toString i

/-- `n + 1` edge detectors and a call of the last of them. -/
def edgeProject (n : ℕ) : LoadedProject :=
  singleTask [⟨.var, (List.range (n + 1)).map fun i => plainVar (edgeName i) "R_TRIG" none⟩]
    [.fbCall ⟨[.ident (edgeName n)], [.named "CLK" (.literal (.bool false))], []⟩] []

/-- A package with a module. -/
def packed (m : IrModule) : Package where
  manifest := ⟨"demo", "", primitiveAbi, [("main", "task.main")], []⟩
  validated := some m

/-- The first run of the task of a prepared program. -/
def firstRun (arm : PreparedArm) : Except VmFault ExecResult :=
  (runEntry arm.program.vm.image "task.main" 0 arm.program.vm.state).1

/-- One edge detector fits. -/
theorem edge_in_pool :
    ∃ m manifest arm, compileLoaded .listed (edgeProject 0) "b" = .ok (m, manifest) ∧
      prepareArm false (packed m) ⟨["main"], none⟩ = .ok arm ∧
      firstRun arm ≠ .error (.err (.primitive 4 PrimitiveCallError.badInstance.debugText)) := by
  obtain ⟨⟨m, manifest⟩, hc, hsize, harm⟩ :
      ∃ r, compileLoaded .listed (edgeProject 0) "b" = .ok r ∧ r.1.code.length < 2 ^ 32 ∧
        (prepareArm false (packed r.1) ⟨["main"], none⟩).isOk = true :=
    except_of_decide (by decide +kernel)
  rcases harm' : prepareArm false (packed m) ⟨["main"], none⟩ with e | arm
  · rw [harm'] at harm
    cases harm
  · have hdecls : ∀ id, (edgeProject 0).primitiveDecls id ≤ ({} : VmConfig).primitiveInstances := by
      intro id
      cases id <;> decide +kernel
    exact ⟨m, manifest, arm, hc, harm',
      primitive_calls_in_pool hc hsize hdecls rfl harm' .loaded "task.main" 0 4⟩

/-- `bindVar` after its duplicate check. -/
def bindNew (fbs : FbLayouts) (maxInstances : ℕ) (kind : VarKind) (st : BindState) (v : VarDecl) :
    Except CompileFault BindState := do
  let ty ← resolveType v.ty
  let (storage, st) ← match v.addr with
    | some addr => bindAt fbs v ty addr st
    | none => bindPlain fbs maxInstances kind v ty st
  .ok { st with globals := (lower v.name, storage) :: st.globals }

section NewNames

variable {fbs : FbLayouts} {maxInstances : ℕ} {kind : VarKind} {st : BindState}

theorem bindVar_new {v : VarDecl} (h : st.globals.lookup (lower v.name) = none) :
    bindVar fbs maxInstances kind st v = bindNew fbs maxInstances kind st v :=
  if_neg (by rw [h]; exact Bool.false_ne_true)

/-- Declarations of distinct new names pass the duplicate check. -/
theorem foldlM_bindVar_new {vars : List VarDecl} (hnodup : (vars.map fun v => lower v.name).Nodup)
    (hnew : ∀ v ∈ vars, st.globals.lookup (lower v.name) = none) :
    vars.foldlM (bindVar fbs maxInstances kind) st =
      vars.foldlM (bindNew fbs maxInstances kind) st := by
  induction vars generalizing st with
  | nil => rfl
  | cons v vars ih =>
      rw [List.map_cons, List.nodup_cons] at hnodup
      have hhead := hnew v List.mem_cons_self
      rw [List.foldlM_cons, List.foldlM_cons, bindVar_new hhead]
      refine except_bind_congr fun st' hst' => ih hnodup.2 ?_
      rw [← bindVar_new hhead] at hst'
      intro w hw
      have hne : lower w.name ≠ lower v.name := fun he =>
        hnodup.1 (List.mem_map.mpr ⟨w, hw, he⟩)
      rcases bindVar_ok hst' with ⟨-, rfl⟩ | ⟨-, storage, st₁, -, rfl⟩
      · exact hnew w (List.mem_cons_of_mem _ hw)
      · rw [List.lookup_cons, beq_eq_false_iff_ne.mpr hne]
        exact hnew w (List.mem_cons_of_mem _ hw)

end NewNames

/-- The declarations of edge detectors. -/
def edgeVars (n : ℕ) : List VarDecl :=
  (List.range (n + 1)).map fun i => plainVar (edgeName i) "R_TRIG" none

/-- The number in the name of an edge detector. -/
def edgeNumber (name : List Char) : ℕ := (name.drop 1).foldl (fun n c => 10 * n + (c.toNat - 48)) 0

theorem toList_lower_edgeName (i : ℕ) : (lower (edgeName i)).toList =
    ('e' :: Nat.toDigits 10 i).map
      fun c => if 'A' ≤ c ∧ c ≤ 'Z' then Char.ofNat (c.toNat + 32) else c := by
  rw [lower, String.toList_ofList, edgeName, String.toList_append]
  congr 1
  exact congrArg _ String.toList_ofList

/-- The names of 129 edge detectors are distinct. -/
theorem edgeVars_nodup : ((edgeVars 128).map fun v => lower v.name).Nodup := by
  apply List.Nodup.of_map fun name => edgeNumber name.toList
  have hnumbers : ((edgeVars 128).map fun v => lower v.name).map (fun name => edgeNumber name.toList) =
      List.range 129 := by
    rw [edgeVars, List.map_map, List.map_map, ← List.map_id (List.range 129)]
    apply List.map_congr_left
    intro i hi
    rw [Function.comp_apply, Function.comp_apply, plainVar, toList_lower_edgeName]
    revert i
    decide +kernel
  rw [hnumbers]
  exact List.nodup_range

/-- The program of edge detectors. -/
def edgeProgram (n : ℕ) : St.Program :=
  ⟨"main", [⟨.var, edgeVars n⟩],
    [.fbCall ⟨[.ident (edgeName n)], [.named "CLK" (.literal (.bool false))], []⟩]⟩

theorem collectDecls_edgeProject (n : ℕ) :
    collectDecls (edgeProject n) = .ok { programs := [("main", edgeProgram n)] } := by
  have hmain : lower (edgeProgram n).name = "main" := show lower "main" = "main" by decide
  have hadd : addDecl {} (.program (edgeProgram n)) =
      .ok { programs := [("main", edgeProgram n)] } := by
    simp only [addDecl, hmain]
    rfl
  exact except_bind_ok.mpr ⟨(), rfl, except_bind_ok.mpr ⟨_, hadd, rfl⟩⟩

theorem bindProject_edgeProgram : bindProject (edgeProject 128).file [] [("main", edgeProgram 128)] =
    (edgeVars 128).foldlM (bindNew [] 4096 .var) {} := by
  rw [← foldlM_bindVar_new edgeVars_nodup fun v _ => rfl]
  unfold bindProject bindVarSections
  simp [edgeProject, singleTask, edgeProgram]

/-- One more is accepted by compiler and loader, and the first run faults. -/
theorem pool_exceeded :
    (edgeProject 128).file.maxInstances = 4096 ∧
    ∃ m manifest arm, compileLoaded .listed (edgeProject 128) "b" = .ok (m, manifest) ∧
      prepareArm false (packed m) ⟨["main"], none⟩ = .ok arm ∧
      firstRun arm = .error (.err (.primitive 4 PrimitiveCallError.badInstance.debugText)) := by
  refine ⟨rfl, ?_⟩
  obtain ⟨⟨m, manifest⟩, hc, hrun⟩ :
      ∃ r, compileLoaded .listed (edgeProject 128) "b" = .ok r ∧
        (prepareArm false (packed r.1) ⟨["main"], none⟩).toOption.map firstRun =
          some (.error (.err (.primitive 4 PrimitiveCallError.badInstance.debugText))) := by
    have hok : ∀ {α β : Type} (a : α) (f : α → Except CompileFault β),
        (Except.ok a >>= f) = f a := fun _ _ => rfl
    rw [compileLoaded, compileStages, collectDecls_edgeProject, hok, layoutFbs, hok,
      bindProject_edgeProgram]
    exact except_of_decide (by decide +kernel)
  obtain ⟨arm, harm, hfirst⟩ := Option.map_eq_some_iff.mp hrun
  exact ⟨m, manifest, arm, hc, except_of_toOption harm, hfirst⟩

end SoftPlc.Compiler
