import SoftPlc.Compiler.Literals
import SoftPlc.Compiler.Places

/-!
# Array elements

An access `a[k]` with a constant index is a load from the place of element `k`, wherever that is: the
index is not compared with the bounds of the declaration. An assignment to an element is never
accepted: `emit_store` has the code for it behind a check that only a field passes.
`array_accesses_iff` says for which programs reads and assignments do what the declaration says.
-/

namespace SoftPlc.Compiler

open SoftPlc.Ir SoftPlc.St SoftPlc.Lib SoftPlc.Vm

/-! ## Names of a body -/

/-- The declarations and the symbols among which a body finds a name: a program among the variables
of all programs, a function block among its fields, and behind its fields and instances again among
the variables of the programs. The layouts give the sizes of function blocks. -/
inductive FoundIn (c : Compiled) (file : ProjectFile) (name : String) :
    List Stmt → FbLayouts → List (VarKind × VarDecl) → Symbols → Prop
  | program {t : TaskMap} {p : Program} (ht : t ∈ file.task)
      (hp : c.decls.programs.lookup (lower t.program) = some p) :
      FoundIn c file name p.body c.fbLayouts c.decls.programVars c.bound.globals
  | field {key : String} {fb : FunctionBlock} {known : FbLayouts} {l : UserFbLayout}
      (hfb : (key, fb) ∈ c.decls.fbs) (hl : c.fbLayouts.lookup key = some l)
      (hknown : layoutUserFb fb known = .ok l) (hinst : ∀ x ∈ l.instances, lower x.1 ≠ lower name)
      (hfield : (fieldSymbols l.fields).lookup (lower name) ≠ none) :
      FoundIn c file name fb.body known (sectionVars fb.vars) (fieldSymbols l.fields)
  | outer {key : String} {fb : FunctionBlock} {known : FbLayouts} {l : UserFbLayout}
      (hfb : (key, fb) ∈ c.decls.fbs) (hl : c.fbLayouts.lookup key = some l)
      (hknown : layoutUserFb fb known = .ok l) (hinst : ∀ x ∈ l.instances, lower x.1 ≠ lower name)
      (hfield : (fieldSymbols l.fields).lookup (lower name) = none) :
      FoundIn c file name fb.body c.fbLayouts c.decls.programVars c.bound.globals

/-- A name of a body that stands for an array, with what its declaration says. -/
structure ArrayOf (c : Compiled) (file : ProjectFile) (name : String) (body : List Stmt) where
  fbs : FbLayouts
  vars : List (VarKind × VarDecl)
  symbols : Symbols
  found : FoundIn c file name body fbs vars symbols
  /-- Place of the array. -/
  offset : ℕ
  /-- Type of the elements. -/
  ty : IrType
  /-- Number of elements. -/
  len : ℕ
  symbol : symbols.lookup (lower name) = some (.data offset (.array (.elem ty) len))

/-- The access `name[k]`. -/
def element (name : String) (k : ℤ) : Expr := .name [.ident name, .index (.literal (.int k))]

variable {order : HashOrder} {p : LoadedProject} {c : Compiled} {file : ProjectFile} {name : String}
  {body : List Stmt}

namespace ArrayOf

/-- The place of an element. -/
def place (a : ArrayOf c file name body) (k : ℤ) : ℕ := a.offset + k.toNat * a.ty.byteWidth

/-- An emitter in which the name stands for the array. -/
def Seen (a : ArrayOf c file name body) (g : Codegen) : Prop :=
  g.symbol name = some (.data a.offset (.array (.elem a.ty) a.len))

/-- An index within the bounds that are declared for the name. -/
def InBounds (a : ArrayOf c file name body) (k : ℤ) : Prop :=
  ∃ d ∈ a.vars, ∃ upper elem, lower d.2.name = lower name ∧ d.2.ty = .array upper elem ∧
    resolveType elem = .ok (.elem a.ty) ∧ a.len = upper + 1 ∧ 0 ≤ k ∧ k ≤ upper

/-- A byte of an element. -/
def ElementByte (a : ArrayOf c file name body) (k : ℤ) (b : ℕ) : Prop :=
  a.place k ≤ b ∧ b < a.place k + a.ty.byteWidth

/-- A read of an element loads from its place, where nothing of another variable lies. -/
structure ReadRight (order : HashOrder) (a : ArrayOf c file name body) (k : ℤ) : Prop where
  bounds : a.InBounds k
  load : ∀ g ty g', a.Seen g → emitExpr order (element name k) g = .ok ty g' →
    ty = a.ty ∧ g' = g.adds [.instr (.simple .ldData (a.place k))]
  alone : ∀ b, a.ElementByte k b →
    (∃ size, (TypeDef.array (.elem a.ty) a.len).byteSize a.fbs = .ok size ∧
      a.offset ≤ b ∧ b < a.offset + size) ∧
    ∀ other st, other ≠ lower name → a.symbols.lookup other = some st → ¬st.Covers a.fbs b

/-- An assignment of a value of the element type is accepted and stores to the element. -/
def AssignRight (order : HashOrder) (a : ArrayOf c file name body) (k : ℤ) : Prop :=
  a.InBounds k → ∀ value g g₁, a.Seen g → emitExpr order value g = .ok a.ty g₁ →
    emitStmt order (.assign (element name k) value) g =
      .ok () (g₁.adds [.instr (.simple .stData (a.place k))])

end ArrayOf

/-- **Reads of elements stay inside of their arrays.** -/
def ReadsRight (order : HashOrder) (c : Compiled) (file : ProjectFile) : Prop :=
  ∀ body name k, (name, .literal (.int k)) ∈ stmtsAccesses body →
    ∀ a : ArrayOf c file name body, a.ReadRight order k

/-- **Assignments to elements are accepted.** -/
def AssignsRight (order : HashOrder) (c : Compiled) (file : ProjectFile) : Prop :=
  ∀ body name k, ∀ a : ArrayOf c file name body, a.AssignRight order k

/-! ## Declared bounds -/

theorem resolveType_array {ty : TypeExpr} {elem : TypeDef} {len : ℕ}
    (h : resolveType ty = .ok (.array elem len)) :
    ∃ upper e t, ty = .array upper e ∧ resolveType e = .ok (.elem t) ∧ elem = .elem t ∧
      len = upper + 1 ∧ len ≤ maxArrayElems := by
  cases ty with
  | named n =>
      unfold resolveType at h
      split at h
      · cases h
      · split at h <;> cases h
  | array upper e =>
      unfold resolveType at h
      obtain ⟨len', hlen, h⟩ := except_bind_ok.mp h
      obtain ⟨-, rfl⟩ := checkU32_ok.mp hlen
      split_ifs at h with hmax
      · cases h
      · obtain ⟨elemTy, hty, h⟩ := except_bind_ok.mp h
        split at h
        · rename_i t
          cases h
          exact ⟨upper, e, t, rfl, hty, rfl, rfl, Nat.le_of_not_gt hmax⟩
        · cases h

/-- The scope of a name is placed. -/
theorem FoundIn.dataScope {fbs : FbLayouts} {vars : List (VarKind × VarDecl)} {symbols : Symbols}
    (hc : compileStages order p = .ok c) (h : FoundIn c file name body fbs vars symbols) :
    ∃ top, DataScope fbs vars symbols top := by
  have hprograms := dataScope_bindProject (compileStages_ok hc).bound
  cases h with
  | program ht hp => exact ⟨_, hprograms⟩
  | field hfb hl hknown hinst hfield => exact dataScope_layoutUserFb hknown
  | outer hfb hl hknown hinst hfield => exact ⟨_, hprograms⟩

namespace ArrayOf

variable (a : ArrayOf c file name body)

/-- What the declaration of an array says. -/
theorem declared (hc : compileStages order p = .ok c) :
    a.offset ≤ u32Max ∧ a.len ≤ maxArrayElems ∧
      ∃ d ∈ a.vars, ∃ upper elem, lower d.2.name = lower name ∧ d.2.ty = .array upper elem ∧
        resolveType elem = .ok (.elem a.ty) ∧ a.len = upper + 1 := by
  obtain ⟨top, hscope⟩ := a.found.dataScope hc
  obtain ⟨hoff, d, hd, hname, hty⟩ := hscope.declared _ _ _ (mem_of_lookup a.symbol)
  obtain ⟨upper, e, t, hexpr, helem, heq, hlen, hmax⟩ := resolveType_array hty
  cases heq
  exact ⟨hoff.trans hscope.fits, hmax, d, hd, upper, e, hname, hexpr, helem, hlen⟩

/-- Inside of the bounds means before the end of the array. -/
theorem InBounds.lt {k : ℤ} {a : ArrayOf c file name body} (h : a.InBounds k) :
    0 ≤ k ∧ k.toNat < a.len := by
  obtain ⟨d, -, upper, e, -, -, -, hlen, hle, hupper⟩ := h
  omega

end ArrayOf

/-! ## Reads -/

theorem emitExpr_element {g : Codegen} {k : ℤ} {offset len : ℕ} {ty t : IrType} {g' : Codegen}
    (hg : g.symbol name = some (.data offset (.array (.elem t) len)))
    (h : emitExpr order (element name k) g = .ok ty g') :
    ty = t ∧ g' = g.adds [.instr (.simple .ldData (offset + asU32 k * t.byteWidth))] := by
  simp only [element, emitExpr, emitLoadPath] at h
  obtain ⟨⟨root, rest⟩, hparts, h₁⟩ := liftResult_bind_ok.mp h
  cases hparts
  obtain ⟨st, hst, h₂⟩ := lookup_bind_ok.mp h₁
  have hst' : g.symbol name = some st := hst
  rw [hg] at hst'
  cases hst'
  simp only [emitLoadIndex, TypeDef.irElem] at h₂
  obtain ⟨off, hoff, h₃⟩ := liftResult_bind_ok.mp h₂
  obtain ⟨-, rfl⟩ := checkU32_ok.mp hoff
  cases h₃
  exact ⟨rfl, rfl⟩

/-- The place of an element, when its index is a number of the array. -/
theorem element_place {k : ℤ} {offset len : ℕ} {t : IrType} (hk : 0 ≤ k ∧ k.toNat < len)
    (hlen : len ≤ maxArrayElems) :
    offset + asU32 k * t.byteWidth = offset + k.toNat * t.byteWidth := by
  have hmod : asU32 k = k.toNat := by
    unfold maxArrayElems at hlen
    unfold asU32
    omega
  rw [hmod]

theorem ArrayOf.readRight (a : ArrayOf c file name body) (hc : compileStages order p = .ok c) {k : ℤ}
    (hk : a.InBounds k) : a.ReadRight order k := by
  obtain ⟨-, hlen, -⟩ := a.declared hc
  obtain ⟨hnonneg, hlt⟩ := hk.lt
  refine ⟨hk, ?_, ?_⟩
  · intro g ty g' hg h
    obtain ⟨hty, hg'⟩ := emitExpr_element hg h
    rw [element_place ⟨hnonneg, hlt⟩ hlen] at hg'
    exact ⟨hty, hg'⟩
  · rintro b ⟨hlow, hhigh⟩
    have hsize : (TypeDef.array (.elem a.ty) a.len).byteSize a.fbs =
        .ok (min (a.ty.byteWidth * a.len) u32Max) := rfl
    have hwidth : a.ty.byteWidth ≤ 8 := by
      cases a.ty <;> decide
    have hmin : min (a.ty.byteWidth * a.len) u32Max = a.ty.byteWidth * a.len := by
      apply min_eq_left
      calc a.ty.byteWidth * a.len ≤ 8 * maxArrayElems := Nat.mul_le_mul hwidth hlen
        _ ≤ u32Max := by decide
    have hend : k.toNat * a.ty.byteWidth + a.ty.byteWidth ≤ a.ty.byteWidth * a.len := by
      calc k.toNat * a.ty.byteWidth + a.ty.byteWidth = (k.toNat + 1) * a.ty.byteWidth := by ring
        _ ≤ a.len * a.ty.byteWidth := Nat.mul_le_mul_right _ hlt
        _ = a.ty.byteWidth * a.len := Nat.mul_comm _ _
    have hinside : a.offset ≤ b ∧ b < a.offset + a.ty.byteWidth * a.len := by
      unfold ArrayOf.place at hlow hhigh
      omega
    rw [hmin] at hsize
    have hown : (Storage.data a.offset (.array (.elem a.ty) a.len)).Covers a.fbs b :=
      ⟨_, hsize, hinside⟩
    refine ⟨⟨_, hsize, hinside⟩, ?_⟩
    intro other st hne hst
    obtain ⟨top, hscope⟩ := a.found.dataScope hc
    exact hscope.other hne a.symbol hst hown

/-! ## Assignments -/

/-- A read of the first element is always accepted. -/
theorem emitExpr_first {g : Codegen} {offset len : ℕ} {t : IrType} (hoffset : offset ≤ u32Max)
    (hg : g.symbol name = some (.data offset (.array (.elem t) len))) :
    emitExpr order (element name 0) g = .ok t (g.adds [.instr (.simple .ldData offset)]) := by
  have hplace : offset + asU32 0 * t.byteWidth = offset := by
    simp [asU32]
  simp only [element, emitExpr, emitLoadPath]
  refine liftResult_bind_ok.mpr ⟨_, rfl, lookup_bind_ok.mpr ⟨_, hg, ?_⟩⟩
  simp only [emitLoadIndex, TypeDef.irElem]
  exact liftResult_bind_ok.mpr ⟨offset, checkU32_ok.mpr ⟨by rwa [hplace], hplace.symm⟩, rfl⟩

/-- **No assignment to an element is accepted.** -/
theorem emitStmt_assign_element_ne {k : ℤ} {value : Expr} {g g' : Codegen} :
    emitStmt order (.assign (element name k) value) g ≠ .ok () g' := by
  intro h
  simp only [emitStmt] at h
  obtain ⟨ty, g₁, -, hstore⟩ := estate_bind_ok.mp h
  simp only [element, emitStore] at hstore
  obtain ⟨⟨root, rest⟩, hparts, h₁⟩ := liftResult_bind_ok.mp hstore
  cases hparts
  obtain ⟨st, -, h₂⟩ := lookup_bind_ok.mp h₁
  exact failWith_ok h₂

/-- An emitter that knows one symbol. -/
def knowing (name : String) (st : Storage) : Codegen where
  fbLayouts := []
  globals := [(lower name, st)]

theorem ArrayOf.not_assignRight (a : ArrayOf c file name body) (hc : compileStages order p = .ok c)
    (h : a.AssignRight order 0) : False := by
  obtain ⟨hoffset, -, d, hd, upper, e, hname, hty, helem, hlen⟩ := a.declared hc
  have hbounds : a.InBounds 0 := ⟨d, hd, upper, e, hname, hty, helem, hlen, le_refl _, by omega⟩
  have hseen : a.Seen (knowing name (.data a.offset (.array (.elem a.ty) a.len))) := by
    simp [ArrayOf.Seen, Codegen.symbol, knowing]
  exact emitStmt_assign_element_ne (h hbounds _ _ _ hseen (emitExpr_first hoffset hseen))

/-! ## Programs -/

/-- The indices of a program are within the bounds of its arrays. -/
def IndicesInBounds (c : Compiled) (file : ProjectFile) : Prop :=
  ∀ body name k, (name, .literal (.int k)) ∈ stmtsAccesses body →
    ∀ a : ArrayOf c file name body, a.InBounds k

theorem readsRight_iff (hc : compileStages order p = .ok c) :
    ReadsRight order c file ↔ IndicesInBounds c file :=
  ⟨fun h body name k hk a => (h body name k hk a).bounds,
    fun h body name k hk a => a.readRight hc (h body name k hk a)⟩

theorem assignsRight_iff (hc : compileStages order p = .ok c) :
    AssignsRight order c file ↔ ∀ body name, IsEmpty (ArrayOf c file name body) :=
  ⟨fun h body name => ⟨fun a => a.not_assignRight hc (h body name 0 a)⟩,
    fun h body name _ a => (h body name).elim a⟩

/-- **What accepted programs can do with arrays.** Reads are right exactly when every index is within
its bounds, and assignments exactly when there is no array. -/
theorem array_accesses_iff (hc : compileStages order p = .ok c) :
    (ReadsRight order c p.file ↔ IndicesInBounds c p.file) ∧
      (AssignsRight order c p.file ↔ ∀ body name, IsEmpty (ArrayOf c p.file name body)) :=
  ⟨readsRight_iff hc, assignsRight_iff hc⟩

/-- `VAR a : ARRAY [0..1] OF DINT; b, x : DINT; END_VAR x := a[k];` -/
def readElement (k : ℤ) : LoadedProject :=
  singleTask [⟨.var, [⟨"a", none, .array 1 (.named "DINT"), none⟩, plainVar "b" "DINT" none,
    plainVar "x" "DINT" none]⟩] [.assign (ident "x") (element "a" k)] []

theorem array_accesses_iff_second :
    ∃ c, compileStages .listed (readElement 1) = .ok c ∧
      (ReadsRight .listed c (readElement 1).file ↔ IndicesInBounds c (readElement 1).file) ∧
      (AssignsRight .listed c (readElement 1).file ↔
        ∀ body name, IsEmpty (ArrayOf c (readElement 1).file name body)) := by
  obtain ⟨c, hc, -⟩ :
      ∃ c, compileStages .listed (readElement 1) = .ok c ∧ c.codegen.entries.length = 1 :=
    except_of_decide (by decide +kernel)
  exact ⟨c, hc, array_accesses_iff hc⟩

/-- The program of `readElement`. -/
def readProgram (k : ℤ) : Program where
  name := "main"
  vars := [⟨.var, [⟨"a", none, .array 1 (.named "DINT"), none⟩, plainVar "b" "DINT" none,
    plainVar "x" "DINT" none]⟩]
  body := [.assign (ident "x") (element "a" k)]

/-- The declarations of `readElement`. -/
def readDecls (k : ℤ) : Decls where
  programs := [("main", readProgram k)]

theorem element_mem_readProgram (k : ℤ) :
    ("a", .literal (.int k)) ∈ stmtsAccesses (readProgram k).body := by
  with_unfolding_all exact List.mem_singleton_self _

/-- **An access past the end is accepted**: `x := a[2]` loads `b`. And no element can be assigned. -/
theorem element_past_end :
    ∃ c, compileStages .listed (readElement 2) = .ok c ∧
      c.bound.globals.lookup "b" = some (.data 8 (.elem .dint)) ∧
      .instr (.simple .ldData 8) ∈ c.codegen.items ∧
      ¬ReadsRight .listed c (readElement 2).file ∧ ¬AssignsRight .listed c (readElement 2).file := by
  obtain ⟨c, hc, ha, hb, hitem⟩ :
      ∃ c, compileStages .listed (readElement 2) = .ok c ∧
        c.bound.globals.lookup "a" = some (.data 0 (.array (.elem .dint) 2)) ∧
        c.bound.globals.lookup "b" = some (.data 8 (.elem .dint)) ∧
        .instr (.simple .ldData 8) ∈ c.codegen.items :=
    except_of_decide (by decide +kernel)
  have hdecls : c.decls = readDecls 2 :=
    Except.ok.inj ((compileStages_ok hc).decls.symm.trans (by with_unfolding_all rfl))
  have hprogram : c.decls.programs.lookup (lower "main") = some (readProgram 2) := by
    rw [hdecls]
    with_unfolding_all rfl
  have hfound : FoundIn c (readElement 2).file "a" (readProgram 2).body c.fbLayouts
      c.decls.programVars c.bound.globals :=
    .program (t := ⟨"main", "main"⟩) (List.mem_singleton_self _) hprogram
  obtain ⟨a, hlen⟩ : ∃ a : ArrayOf c (readElement 2).file "a" (readProgram 2).body, a.len = 2 :=
    ⟨⟨_, _, _, hfound, 0, .dint, 2, ha⟩, rfl⟩
  refine ⟨c, hc, hb, hitem, ?_, ?_⟩
  · intro h
    have hlt := (h _ _ _ (element_mem_readProgram 2) a).bounds.lt.2
    rw [hlen] at hlt
    exact absurd hlt (by decide)
  · intro h
    exact a.not_assignRight hc (h _ _ 0 a)

end SoftPlc.Compiler
