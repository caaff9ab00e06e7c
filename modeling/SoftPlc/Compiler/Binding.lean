import SoftPlc.Compiler.Emission

/-!
# What binding does

`BindStep` lists once what binding one declaration can do, with the state before and after it
(`bindVar_ok`). `bindProject_induct` carries a property from the empty state over the declarations
of all programs; every fact about the symbol table and the allocator of a project is such a
property.
-/

namespace SoftPlc.Compiler

open SoftPlc.Ir SoftPlc.St SoftPlc.Lib SoftPlc.Vm

/-! ## Stages -/

/-- The stages of a compilation that succeeded. -/
structure Stages (order : HashOrder) (p : LoadedProject) (c : Compiled) : Prop where
  decls : collectDecls p = .ok c.decls
  layouts : layoutFbs 10000 c.decls.fbs [] = .ok c.fbLayouts
  recursion : checkFbRecursion c.decls.fbs = .ok ()
  bound : bindProject p.file c.fbLayouts c.decls.programs = .ok c.bound
  tasks : p.file.task.forM (checkTask c.decls.programs) = .ok ()
  emitted : emitProject order p.file c.decls.programs c.fbLayouts c.bound
    { fbLayouts := c.fbLayouts, globals := c.bound.globals } = .ok c.final c.codegen
  finished : c.codegen.finish (max c.final.alloc.data c.codegen.extraData)
    (max c.final.alloc.retain c.codegen.extraRetain) c.final.inputSlots c.final.outputSlots =
      .ok c.module
  verified : verifyModule c.module = .ok ()

theorem compileStages_ok {order : HashOrder} {p : LoadedProject} {c : Compiled}
    (h : compileStages order p = .ok c) : Stages order p c := by
  unfold compileStages at h
  obtain ⟨decls, hdecls, h⟩ := except_bind_ok.mp h
  obtain ⟨fbs, hfbs, h⟩ := except_bind_ok.mp h
  obtain ⟨⟨⟩, hrec, h⟩ := except_bind_ok.mp h
  obtain ⟨bound, hbound, h⟩ := except_bind_ok.mp h
  obtain ⟨⟨⟩, htasks, h⟩ := except_bind_ok.mp h
  split at h
  · cases h
  · rename_i final g hemit
    obtain ⟨module, hfinish, h⟩ := except_bind_ok.mp h
    obtain ⟨⟨⟩, hverified, h⟩ := except_bind_ok.mp h
    obtain ⟨restart, -, h⟩ := except_bind_ok.mp h
    cases h
    refine ⟨hdecls, hfbs, hrec, hbound, htasks, hemit, hfinish, ?_⟩
    unfold verified at hverified
    split at hverified
    · assumption
    · cases hverified

/-! ## One declaration -/

/-- A declaration that becomes a constant. -/
def IsConstant (kind : VarKind) (v : VarDecl) : Prop := kind = .constant ∧ v.addr = none

/-- The storage that binding gives to a declaration, and the state behind it. -/
inductive BindStep (fbs : FbLayouts) (maxInstances : ℕ) (kind : VarKind) (v : VarDecl)
    (st : BindState) : Storage → BindState → Prop
  /-- An input slot. -/
  | input {slot : ℕ} {ty : IrType} (inputSlots : ℕ) (tags : List TagEntry)
      (hplain : ¬IsConstant kind v) :
      BindStep fbs maxInstances kind v st (.input slot ty)
        { st with inputSlots := inputSlots, tagDictionary := tags }
  /-- An output slot. -/
  | output {slot : ℕ} {ty : IrType} (outputSlots : ℕ) (tags : List TagEntry)
      (hplain : ¬IsConstant kind v) :
      BindStep fbs maxInstances kind v st (.output slot ty)
        { st with outputSlots := outputSlots, tagDictionary := tags }
  /-- Retained bytes behind all others, and an entry of the manifest. -/
  | retain {off : ℕ} {ty : IrType} (tags : List TagEntry)
      (hoff : off = alignUp st.alloc.retain (max (tyAlign ty) 1)) (hplain : ¬IsConstant kind v) :
      BindStep fbs maxInstances kind v st (.retain off ty)
        { st with
          alloc := { st.alloc with retain := off + ty.byteWidth }
          retainSymbols := st.retainSymbols ++ [⟨v.name, ty, off⟩]
          tagDictionary := tags }
  /-- Data bytes behind all others. -/
  | data {off size : ℕ} {ty : TypeDef} (hsize : ty.byteSize fbs = .ok size)
      (hoff : off = alignUp st.alloc.data (max ty.align 1)) (hplain : ¬IsConstant kind v) :
      BindStep fbs maxInstances kind v st (.data off ty)
        { st with alloc := { st.alloc with data := off + size } }
  /-- The next instance of a primitive, with its outputs behind all other data. -/
  | prim {id : PrimitiveId} {inst : ℕ} {outs : List (String × ℕ × IrType)} {alloc : Allocator}
      (hty : resolveType v.ty = .ok (.prim id)) (hinst : inst = (st.primCounts.lookup id).getD 0)
      (houts : allocPrimOutputs st.alloc id = .ok (outs, alloc)) (hplain : ¬IsConstant kind v) :
      BindStep fbs maxInstances kind v st (.prim id inst outs)
        { st with alloc := alloc, primCounts := (id, inst + 1) :: st.primCounts }
  /-- The bytes of a function-block instance behind all other data. -/
  | userInst {name : String} {layout : UserFbLayout} {base : ℕ}
      (hlayout : fbs.lookup (lower name) = some layout) (hbase : base = alignUp st.alloc.data 4)
      (hplain : ¬IsConstant kind v) :
      BindStep fbs maxInstances kind v st (.userInst name base)
        { st with alloc := { st.alloc with data := base + layout.totalDataSize } }
  /-- A constant, which is its literal. -/
  | const {ty : IrType} {value : Literal} (hconst : IsConstant kind v)
      (hinit : v.init = some (.literal value)) : BindStep fbs maxInstances kind v st (.const ty value) st

section Steps

variable {fbs : FbLayouts} {maxInstances : ℕ} {kind : VarKind} {v : VarDecl} {st st' : BindState}
  {storage : Storage}

theorem allocData_ok {a a' : Allocator} {size align off : ℕ}
    (h : a.allocData size align = .ok (off, a')) :
    off = alignUp a.data (max align 1) ∧ a' = { a with data := off + size } := by
  obtain ⟨cursor, hcursor, h⟩ := except_bind_ok.mp h
  obtain ⟨-, rfl⟩ := checkU32_ok.mp hcursor
  cases h
  exact ⟨rfl, rfl⟩

theorem newRetain_ok {name : String} {ir : IrType} {off : ℕ}
    (h : st.newRetain name ir = .ok (off, st')) :
    off = alignUp st.alloc.retain (max (tyAlign ir) 1) ∧
      st' = { st with
        alloc := { st.alloc with retain := off + ir.byteWidth }
        retainSymbols := st.retainSymbols ++ [⟨name, ir, off⟩] } := by
  obtain ⟨⟨off', alloc⟩, halloc, h⟩ := except_bind_ok.mp h
  obtain ⟨cursor, hcursor, halloc⟩ := except_bind_ok.mp halloc
  obtain ⟨-, rfl⟩ := checkU32_ok.mp hcursor
  cases halloc
  cases h
  exact ⟨rfl, rfl⟩

theorem newData_ok {ty : TypeDef} (hplain : ¬IsConstant kind v)
    (h : st.newData fbs ty = .ok (storage, st')) :
    BindStep fbs maxInstances kind v st storage st' := by
  obtain ⟨size, hsize, h⟩ := except_bind_ok.mp h
  obtain ⟨⟨off, alloc⟩, halloc, h⟩ := except_bind_ok.mp h
  obtain ⟨hoff, rfl⟩ := allocData_ok halloc
  cases h
  exact .data hsize hoff hplain

theorem newPrim_ok {id : PrimitiveId} (h : st.newPrim id maxInstances = .ok (storage, st')) :
    ∃ outs alloc, allocPrimOutputs st.alloc id = .ok (outs, alloc) ∧
      (st.primCounts.lookup id).getD 0 < maxInstances ∧
      storage = .prim id ((st.primCounts.lookup id).getD 0) outs ∧
      st' = { st with
        alloc := alloc
        primCounts := (id, (st.primCounts.lookup id).getD 0 + 1) :: st.primCounts } := by
  unfold BindState.newPrim at h
  by_cases hfull : (st.primCounts.lookup id).getD 0 ≥ maxInstances
  · simp only [hfull, if_true] at h
    cases h
  · simp only [hfull, if_false] at h
    obtain ⟨⟨outs, alloc⟩, houts, h⟩ := except_bind_ok.mp h
    cases h
    exact ⟨outs, alloc, houts, Nat.lt_of_not_ge hfull, rfl, rfl⟩

theorem bindAt_ok {ty : TypeDef} {addr : DirectAddr} (hv : v.addr = some addr)
    (h : bindAt fbs v ty addr st = .ok (storage, st')) :
    BindStep fbs maxInstances kind v st storage st' := by
  have hplain : ¬IsConstant kind v := by
    rintro ⟨-, hnone⟩
    rw [hv] at hnone
    cases hnone
  unfold bindAt at h
  split at h
  · obtain ⟨ir, -, h⟩ := except_bind_ok.mp h
    obtain ⟨next, -, h⟩ := except_bind_ok.mp h
    cases h
    exact .input _ _ hplain
  · obtain ⟨ir, -, h⟩ := except_bind_ok.mp h
    obtain ⟨next, -, h⟩ := except_bind_ok.mp h
    cases h
    exact .output _ _ hplain
  · obtain ⟨ir, -, h⟩ := except_bind_ok.mp h
    obtain ⟨⟨off, st₁⟩, hnew, h⟩ := except_bind_ok.mp h
    obtain ⟨hoff, rfl⟩ := newRetain_ok hnew
    cases h
    exact .retain _ hoff hplain
  · exact newData_ok hplain h

theorem bindPlain_ok {ty : TypeDef} (hv : v.addr = none) (hty : resolveType v.ty = .ok ty)
    (h : bindPlain fbs maxInstances kind v ty st = .ok (storage, st')) :
    BindStep fbs maxInstances kind v st storage st' := by
  unfold bindPlain at h
  split at h
  · obtain ⟨ir, -, h⟩ := except_bind_ok.mp h
    split at h
    · rename_i value hinit
      cases h
      exact .const ⟨rfl, hv⟩ hinit
    · cases h
  · obtain ⟨ir, -, h⟩ := except_bind_ok.mp h
    obtain ⟨⟨off, st₁⟩, hnew, h⟩ := except_bind_ok.mp h
    obtain ⟨hoff, rfl⟩ := newRetain_ok hnew
    cases h
    exact .retain _ hoff fun hconst => nomatch hconst.1
  · rename_i hne _
    have hplain : ¬IsConstant kind v := fun hconst => hne hconst.1
    split at h
    · obtain ⟨outs, alloc, houts, -, rfl, rfl⟩ := newPrim_ok h
      exact .prim hty rfl houts hplain
    · obtain ⟨layout, hlayout, h⟩ := except_bind_ok.mp h
      obtain ⟨⟨base, alloc⟩, halloc, h⟩ := except_bind_ok.mp h
      obtain ⟨hbase, rfl⟩ := allocData_ok halloc
      cases h
      exact .userInst (orReject_ok.mp hlayout) hbase hplain
    · exact newData_ok hplain h

/-- What binding a declaration does: nothing when its name is bound already, else one step. -/
theorem bindVar_ok (h : bindVar fbs maxInstances kind st v = .ok st') :
    (st.globals.lookup (lower v.name)).isSome ∧ st' = st ∨
      st.globals.lookup (lower v.name) = none ∧
        ∃ storage st₁, BindStep fbs maxInstances kind v st storage st₁ ∧
          st' = { st₁ with globals := (lower v.name, storage) :: st.globals } := by
  unfold bindVar at h
  simp only at h
  by_cases hbound : (st.globals.lookup (lower v.name)).isSome
  · rw [if_pos hbound] at h
    split_ifs at h with hagain
    · cases h
      exact .inl ⟨hbound, rfl⟩
    · cases h
  · rw [if_neg hbound] at h
    have hnone : st.globals.lookup (lower v.name) = none := Option.not_isSome_iff_eq_none.mp hbound
    have hdone : ∀ {storage : Storage} {st₁ : BindState},
        BindStep fbs maxInstances kind v st storage st₁ →
        st' = { st₁ with globals := (lower v.name, storage) :: st₁.globals } →
        st' = { st₁ with globals := (lower v.name, storage) :: st.globals } := by
      intro storage st₁ hstep heq
      have hglobals : st₁.globals = st.globals := by
        cases hstep <;> rfl
      rw [heq, hglobals]
    obtain ⟨ty, hty, h⟩ := except_bind_ok.mp h
    rcases hv : v.addr with _ | addr
    · simp only [hv] at h
      obtain ⟨⟨storage, st₁⟩, hstep, h⟩ := except_bind_ok.mp h
      have hstep := bindPlain_ok hv hty hstep
      cases h
      exact .inr ⟨hnone, storage, st₁, hstep, hdone hstep rfl⟩
    · simp only [hv] at h
      obtain ⟨⟨storage, st₁⟩, hstep, h⟩ := except_bind_ok.mp h
      have hstep : BindStep fbs maxInstances kind v st storage st₁ := bindAt_ok hv hstep
      cases h
      exact .inr ⟨hnone, storage, st₁, hstep, hdone hstep rfl⟩

end Steps

/-! ## All declarations -/

/-- The variables of some sections with the kinds of their sections. -/
def sectionVars (sections : List VarSection) : List (VarKind × VarDecl) :=
  sections.flatMap fun s => s.vars.map fun v => (s.kind, v)

/-- The variables of all programs, in the order in which they are bound. -/
def Decls.programVars (ds : Decls) : List (VarKind × VarDecl) :=
  ds.programs.flatMap fun p => sectionVars p.2.vars

/-- The tags of a project bind nothing. -/
theorem addTag_ok {st st' : BindState} {tag : TagMap} (h : addTag st tag = .ok st') :
    st'.globals = st.globals ∧ st'.alloc = st.alloc ∧ st'.primCounts = st.primCounts ∧
      st'.retainSymbols = st.retainSymbols := by
  unfold addTag at h
  obtain ⟨ty, -, h⟩ := except_bind_ok.mp h
  split at h
  · obtain ⟨next, -, h⟩ := except_bind_ok.mp h
    cases h
    exact ⟨rfl, rfl, rfl, rfl⟩
  · obtain ⟨next, -, h⟩ := except_bind_ok.mp h
    cases h
    exact ⟨rfl, rfl, rfl, rfl⟩
  · cases h
    exact ⟨rfl, rfl, rfl, rfl⟩
  · cases h
    exact ⟨rfl, rfl, rfl, rfl⟩
  · cases h

/-- **Induction over the declarations of a project.** -/
theorem bindProject_induct {file : ProjectFile} {fbs : FbLayouts} {ds : Decls} {bound : BindState}
    (h : bindProject file fbs ds.programs = .ok bound)
    (P : List (VarKind × VarDecl) → BindState → Prop)
    (start : ∀ st : BindState, st.globals = [] → st.alloc = ⟨0, 0⟩ → st.primCounts = [] →
      st.retainSymbols = [] → P [] st)
    (step : ∀ vars st kind v st', P vars st →
      bindVar fbs file.maxInstances kind st v = .ok st' → P (vars ++ [(kind, v)]) st') :
    P ds.programVars bound := by
  unfold bindProject at h
  obtain ⟨st₀, htags, hbind⟩ := except_bind_ok.mp h
  have hstart : P [] st₀ := by
    have htag := except_foldlM_invariant htags
      (fun st : BindState => st.globals = [] ∧ st.alloc = ⟨0, 0⟩ ∧ st.primCounts = [] ∧
        st.retainSymbols = []) (by
      rintro st tag st' - ⟨h₁, h₂, h₃, h₄⟩ hadd
      obtain ⟨h₁', h₂', h₃', h₄'⟩ := addTag_ok hadd
      exact ⟨h₁'.trans h₁, h₂'.trans h₂, h₃'.trans h₃, h₄'.trans h₄⟩) ⟨rfl, rfl, rfl, rfl⟩
    exact start st₀ htag.1 htag.2.1 htag.2.2.1 htag.2.2.2
  have hvars : ∀ (kind : VarKind) (vs : List VarDecl) (vars : List (VarKind × VarDecl))
      (st st' : BindState), P vars st →
      vs.foldlM (bindVar fbs file.maxInstances kind) st = .ok st' →
      P (vars ++ vs.map fun v => (kind, v)) st' := by
    intro kind vs vars st st' hP hfold
    have hrun := except_foldlM_append (g := fun v => [(kind, v)]) hfold P
      (fun vars st v st' hP hv => step vars st kind v st' hP hv) vars hP
    rwa [← List.map_eq_flatMap] at hrun
  have hsections : ∀ (ss : List VarSection) (vars : List (VarKind × VarDecl)) (st st' : BindState),
      P vars st → bindVarSections fbs file.maxInstances ss st = .ok st' →
      P (vars ++ sectionVars ss) st' := by
    intro ss vars st st' hP hfold
    exact except_foldlM_append hfold P
      (fun vars st s st' hP hs => hvars s.kind s.vars vars st st' hP hs) vars hP
  have hrun := except_foldlM_append (g := fun p : String × Program => sectionVars p.2.vars) hbind P
    (fun vars st p st' hP hp => hsections p.2.vars vars st st' hP hp) [] hstart
  exact hrun

/-! ## Small projects -/

/-- Hash maps that are iterated in the order in which they are listed. -/
def HashOrder.listed : HashOrder where
  fbs l := l
  fbs_perm l := .refl l
  named _ l := l
  named_perm _ l := .refl l

/-- A project with one program, which is its one task, and function blocks. -/
def singleTask (vars : List VarSection) (body : List Stmt) (blocks : List FunctionBlock) :
    LoadedProject where
  units := [⟨blocks.map .functionBlock ++ [.program ⟨"main", vars, body⟩]⟩]
  file := { id := "demo", version := "1", task := [⟨"main", "main"⟩] }

/-- A name as an expression. -/
def ident (name : String) : Expr := .name [.ident name]

/-- A variable without an address. -/
def plainVar (name ty : String) (init : Option Expr) : VarDecl := ⟨name, none, .named ty, init⟩

end SoftPlc.Compiler
