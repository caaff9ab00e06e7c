import SoftPlc.Compiler.Symbols

/-!
# Where the data of variables lie

The variables of the programs, and the fields of a function block, are placed one behind the other:
no byte belongs to two of them, and each has the type that its declaration says (`DataScope`).
-/

namespace SoftPlc.Compiler

open SoftPlc.Ir SoftPlc.St SoftPlc.Lib SoftPlc.Vm

/-- The data bytes that belong to a symbol. -/
def Storage.Covers (fbs : FbLayouts) (b : ℕ) : Storage → Prop
  | .data off ty => ∃ size, ty.byteSize fbs = .ok size ∧ off ≤ b ∧ b < off + size
  | .prim _ _ outs => ∃ o ∈ outs, o.2.1 ≤ b ∧ b < o.2.1 + o.2.2.byteWidth
  | .userInst fb base =>
      ∃ layout, fbs.lookup (lower fb) = some layout ∧ base ≤ b ∧ b < base + layout.totalDataSize
  | _ => False

/-- Symbols of declarations, placed one behind the other below a top. -/
structure DataScope (fbs : FbLayouts) (vars : List (VarKind × VarDecl)) (symbols : Symbols)
    (top : ℕ) : Prop where
  fits : top ≤ u32Max
  below : ∀ x ∈ symbols, ∀ b, x.2.Covers fbs b → b < top
  apart : symbols.Pairwise fun x y => ∀ b, ¬(x.2.Covers fbs b ∧ y.2.Covers fbs b)
  declared : ∀ name off ty, (name, Storage.data off ty) ∈ symbols →
    off ≤ top ∧ ∃ d ∈ vars, lower d.2.name = name ∧ resolveType d.2.ty = .ok ty

/-- What placing a declaration does to the data. -/
structure Placing (fbs : FbLayouts) (v : VarDecl) (storage : Storage) (top top' : ℕ) : Prop where
  le : top ≤ top'
  fits : top ≤ u32Max → top' ≤ u32Max
  covers : ∀ b, storage.Covers fbs b → top ≤ b ∧ b < top'
  declared : ∀ off ty, storage = .data off ty → off ≤ top' ∧ resolveType v.ty = .ok ty

variable {fbs : FbLayouts} {vars : List (VarKind × VarDecl)} {symbols : Symbols} {top top' : ℕ}

theorem DataScope.start : DataScope fbs vars [] 0 :=
  ⟨Nat.zero_le _, by simp, .nil, by simp⟩

/-- A declaration that adds no symbol. -/
theorem DataScope.mono (h : DataScope fbs vars symbols top) (hle : top ≤ top')
    (hfits : top' ≤ u32Max) (more : List (VarKind × VarDecl)) :
    DataScope fbs (vars ++ more) symbols top' where
  fits := hfits
  below x hx b hb := (h.below x hx b hb).trans_le hle
  apart := h.apart
  declared name off ty hmem := by
    obtain ⟨hoff, d, hd, hname, hty⟩ := h.declared name off ty hmem
    exact ⟨hoff.trans hle, d, List.mem_append_left _ hd, hname, hty⟩

/-- A declaration that adds a symbol. -/
theorem DataScope.add (h : DataScope fbs vars symbols top) {kind : VarKind} {v : VarDecl}
    {storage : Storage} (hv : Placing fbs v storage top top') :
    DataScope fbs (vars ++ [(kind, v)]) ((lower v.name, storage) :: symbols) top' := by
  have hold := h.mono hv.le (hv.fits h.fits) [(kind, v)]
  refine ⟨hold.fits, ?_, ?_, ?_⟩
  · intro x hx b hb
    rcases List.mem_cons.mp hx with rfl | hx
    · exact (hv.covers b hb).2
    · exact hold.below x hx b hb
  · rw [List.pairwise_cons]
    refine ⟨?_, h.apart⟩
    rintro y hy b ⟨hb, hb'⟩
    exact absurd (h.below y hy b hb') (Nat.not_lt.mpr (hv.covers b hb).1)
  · intro name off ty hmem
    rcases List.mem_cons.mp hmem with heq | hmem
    · rw [Prod.mk.injEq] at heq
      obtain ⟨rfl, hst⟩ := heq
      obtain ⟨hoff, hty⟩ := hv.declared off ty hst.symm
      exact ⟨hoff, (kind, v), List.mem_append_right _ (List.mem_singleton_self _), rfl, hty⟩
    · exact hold.declared name off ty hmem

/-- Other symbols have no byte in common with a symbol. -/
theorem DataScope.other (h : DataScope fbs vars symbols top) {name name' : String}
    {st st' : Storage} (hne : name' ≠ name) (hst : symbols.lookup name = some st)
    (hst' : symbols.lookup name' = some st') {b : ℕ} (hb : st.Covers fbs b) :
    ¬st'.Covers fbs b := by
  intro hb'
  have hmem : (name, st) ∈ symbols := mem_of_lookup hst
  have hmem' : (name', st') ∈ symbols := mem_of_lookup hst'
  have : Std.Symm fun x y : String × Storage => ∀ b, ¬(x.2.Covers fbs b ∧ y.2.Covers fbs b) :=
    ⟨fun x y h b hxy => h b hxy.symm⟩
  have hpair : (name, st) ≠ (name', st') := fun heq => hne (Prod.mk.inj heq).1.symm
  exact h.apart.forall hmem hmem' hpair b ⟨hb, hb'⟩

/-! ## Allocation -/

theorem allocData_le {a a' : Allocator} {size align off : ℕ}
    (h : a.allocData size align = .ok (off, a')) :
    a.data ≤ off ∧ a'.data = off + size ∧ off + size ≤ u32Max := by
  obtain ⟨cursor, hcursor, h⟩ := except_bind_ok.mp h
  obtain ⟨hle, rfl⟩ := checkU32_ok.mp hcursor
  cases h
  exact ⟨le_alignUp _ _, rfl, hle⟩

/-- Outputs are placed one behind the other. -/
theorem allocOutputs_le {a a' : Allocator} {outs : List (String × IrType)}
    {offs : List (String × ℕ × IrType)} (h : allocOutputs a outs = .ok (offs, a')) :
    a.data ≤ a'.data ∧ (a.data ≤ u32Max → a'.data ≤ u32Max) ∧
      ∀ o ∈ offs, a.data ≤ o.2.1 ∧ o.2.1 + o.2.2.byteWidth ≤ a'.data := by
  induction outs generalizing a offs with
  | nil =>
      cases h
      exact ⟨le_refl _, id, by simp⟩
  | cons x outs ih =>
      obtain ⟨⟨off, a₁⟩, hfirst, h⟩ := except_bind_ok.mp h
      obtain ⟨⟨offs', a₂⟩, hrest, h⟩ := except_bind_ok.mp h
      cases h
      obtain ⟨hoff, hdata, hle⟩ := allocData_le hfirst
      obtain ⟨hmono, hfits, hoffs⟩ := ih hrest
      refine ⟨by omega, fun _ => hfits (by omega), ?_⟩
      intro o ho
      rcases List.mem_cons.mp ho with rfl | ho
      · exact ⟨hoff, hdata ▸ hmono⟩
      · have := hoffs o ho
        exact ⟨by omega, this.2⟩

/-- A symbol without data. -/
theorem Placing.nothing {v : VarDecl} {storage : Storage} (hcovers : ∀ b, ¬storage.Covers fbs b)
    (hdata : ∀ off ty, storage ≠ .data off ty) : Placing fbs v storage top top where
  le := le_refl _
  fits := id
  covers b hb := absurd hb (hcovers b)
  declared off ty heq := absurd heq (hdata off ty)

/-- A data symbol. -/
theorem Placing.data {v : VarDecl} {ty : TypeDef} {a a' : Allocator} {size off : ℕ}
    (hty : resolveType v.ty = .ok ty) (hsize : ty.byteSize fbs = .ok size)
    (h : a.allocData size ty.align = .ok (off, a')) :
    Placing fbs v (.data off ty) a.data a'.data := by
  obtain ⟨hoff, hdata, hle⟩ := allocData_le h
  refine ⟨by omega, fun _ => by omega, ?_, ?_⟩
  · rintro b ⟨size', hsize', hb⟩
    rw [hsize] at hsize'
    cases hsize'
    omega
  · rintro off' ty' heq
    cases heq
    exact ⟨by omega, hty⟩

/-! ## Programs -/

section Programs

variable {maxInstances : ℕ} {kind : VarKind} {v : VarDecl} {st st' : BindState} {storage : Storage}

theorem newData_placing {ty : TypeDef} (hty : resolveType v.ty = .ok ty)
    (h : st.newData fbs ty = .ok (storage, st')) :
    Placing fbs v storage st.alloc.data st'.alloc.data := by
  obtain ⟨size, hsize, h⟩ := except_bind_ok.mp h
  obtain ⟨⟨off, alloc⟩, halloc, h⟩ := except_bind_ok.mp h
  cases h
  exact .data hty hsize halloc

theorem bindAt_placing {ty : TypeDef} {addr : DirectAddr} (hty : resolveType v.ty = .ok ty)
    (h : bindAt fbs v ty addr st = .ok (storage, st')) :
    Placing fbs v storage st.alloc.data st'.alloc.data := by
  unfold bindAt at h
  split at h
  · obtain ⟨ir, -, h⟩ := except_bind_ok.mp h
    obtain ⟨next, -, h⟩ := except_bind_ok.mp h
    cases h
    exact .nothing (fun _ => id) (fun _ _ => nofun)
  · obtain ⟨ir, -, h⟩ := except_bind_ok.mp h
    obtain ⟨next, -, h⟩ := except_bind_ok.mp h
    cases h
    exact .nothing (fun _ => id) (fun _ _ => nofun)
  · obtain ⟨ir, -, h⟩ := except_bind_ok.mp h
    obtain ⟨⟨off, st₁⟩, hnew, h⟩ := except_bind_ok.mp h
    obtain ⟨-, rfl⟩ := newRetain_ok hnew
    cases h
    exact .nothing (fun _ => id) (fun _ _ => nofun)
  · exact newData_placing hty h

theorem bindPlain_placing {ty : TypeDef} (hty : resolveType v.ty = .ok ty)
    (h : bindPlain fbs maxInstances kind v ty st = .ok (storage, st')) :
    Placing fbs v storage st.alloc.data st'.alloc.data := by
  unfold bindPlain at h
  split at h
  · obtain ⟨ir, -, h⟩ := except_bind_ok.mp h
    split at h
    · cases h
      exact .nothing (fun _ => id) (fun _ _ => nofun)
    · cases h
  · obtain ⟨ir, -, h⟩ := except_bind_ok.mp h
    obtain ⟨⟨off, st₁⟩, hnew, h⟩ := except_bind_ok.mp h
    obtain ⟨-, rfl⟩ := newRetain_ok hnew
    cases h
    exact .nothing (fun _ => id) (fun _ _ => nofun)
  · split at h
    · obtain ⟨outs, alloc, houts, -, rfl, rfl⟩ := newPrim_ok h
      obtain ⟨hle, hfits, hall⟩ := allocOutputs_le houts
      refine ⟨hle, hfits, ?_, fun _ _ => nofun⟩
      rintro b ⟨o, ho, hb⟩
      have := hall o ho
      exact ⟨by omega, by show b < alloc.data; omega⟩
    · obtain ⟨layout, hlayout, h⟩ := except_bind_ok.mp h
      obtain ⟨⟨base, alloc⟩, halloc, h⟩ := except_bind_ok.mp h
      obtain ⟨hbase, hdata, hle⟩ := allocData_le halloc
      cases h
      refine ⟨by show _ ≤ alloc.data; omega, fun _ => by show alloc.data ≤ _; omega, ?_,
        fun _ _ => nofun⟩
      rintro b ⟨layout', hlayout', hb⟩
      rw [orReject_ok.mp hlayout] at hlayout'
      cases hlayout'
      exact ⟨by omega, by show b < alloc.data; omega⟩
    · exact newData_placing hty h

theorem BindStep.globals_eq (h : BindStep fbs maxInstances kind v st storage st') :
    st'.globals = st.globals := by
  cases h <;> rfl

/-- Binding a declaration keeps the data of the programs apart. -/
theorem DataScope.bindVar (h : DataScope fbs vars st.globals st.alloc.data)
    (hbind : bindVar fbs maxInstances kind st v = .ok st') :
    DataScope fbs (vars ++ [(kind, v)]) st'.globals st'.alloc.data := by
  unfold Compiler.bindVar at hbind
  dsimp only at hbind
  split_ifs at hbind
  · cases hbind
    exact h.mono (le_refl _) h.fits _
  · cases hbind
  · obtain ⟨ty, hty, hrest⟩ := except_bind_ok.mp hbind
    have hdone : ∀ {storage : Storage} {st₁ : BindState},
        BindStep fbs maxInstances kind v st storage st₁ →
        Placing fbs v storage st.alloc.data st₁.alloc.data →
        DataScope fbs (vars ++ [(kind, v)]) ((lower v.name, storage) :: st₁.globals)
          st₁.alloc.data := by
      intro storage st₁ hstep hplacing
      rw [hstep.globals_eq]
      exact h.add hplacing
    rcases hv : v.addr with _ | addr
    · simp only [hv] at hrest
      obtain ⟨⟨storage, st₁⟩, hstep, hrest⟩ := except_bind_ok.mp hrest
      cases hrest
      exact hdone (bindPlain_ok hv hty hstep) (bindPlain_placing hty hstep)
    · simp only [hv] at hrest
      obtain ⟨⟨storage, st₁⟩, hstep, hrest⟩ := except_bind_ok.mp hrest
      cases hrest
      exact hdone (@bindAt_ok fbs maxInstances kind v st st₁ storage ty addr hv hstep)
        (bindAt_placing hty hstep)

/-- **The variables of the programs lie apart.** -/
theorem dataScope_bindProject {file : ProjectFile} {ds : Decls} {bound : BindState}
    (h : bindProject file fbs ds.programs = .ok bound) :
    DataScope fbs ds.programVars bound.globals bound.alloc.data := by
  refine bindProject_induct h (fun vars st => DataScope fbs vars st.globals st.alloc.data) ?_ ?_
  · intro st hglobals halloc _ _
    rw [hglobals, halloc]
    exact .start
  · intro vars st kind v st' hscope hv
    exact hscope.bindVar hv

end Programs

/-! ## Function blocks -/

section Blocks

variable {known : FbLayouts} {kind : VarKind} {v : VarDecl} {st st' : LayoutState}

theorem fieldSymbols_append (fields : List FieldLayout) (f : FieldLayout) :
    fieldSymbols (fields ++ [f]) =
      (lower f.name, if f.retain then Storage.retain (f.retainOffset.getD 0) (f.ty.irElem.getD .bool)
        else .data f.offset f.ty) :: fieldSymbols fields := by
  simp [fieldSymbols]

/-- A data field. -/
theorem DataScope.addField {name : String} {ty : TypeDef} (hname : v.name = name)
    (h : DataScope known vars (fieldSymbols st.fields) st.alloc.data)
    (hty : resolveType v.ty = .ok ty) (hadd : st.addField known name ty = .ok st') :
    DataScope known (vars ++ [(kind, v)]) (fieldSymbols st'.fields) st'.alloc.data := by
  subst hname
  obtain ⟨size, hsize, hadd⟩ := except_bind_ok.mp hadd
  obtain ⟨⟨off, alloc⟩, halloc, hadd⟩ := except_bind_ok.mp hadd
  cases hadd
  dsimp only
  rw [fieldSymbols_append]
  exact h.add (.data hty hsize halloc)

/-- Laying out a declaration keeps the fields apart. -/
theorem DataScope.layoutVar (h : DataScope known vars (fieldSymbols st.fields) st.alloc.data)
    (hlay : layoutVar known kind st v = .ok st') :
    DataScope known (vars ++ [(kind, v)]) (fieldSymbols st'.fields) st'.alloc.data := by
  obtain ⟨ty, hty, hout⟩ := layoutVar_ok hlay
  rcases hout with ⟨inputs, hadd⟩ | ⟨ir, off, alloc, halloc, rfl⟩ | rfl
  · have hst : DataScope known vars
        (fieldSymbols ({ st with inputs := inputs } : LayoutState).fields)
        ({ st with inputs := inputs } : LayoutState).alloc.data := h
    exact hst.addField rfl hty hadd
  · obtain ⟨cursor, -, halloc⟩ := except_bind_ok.mp halloc
    cases halloc
    dsimp only
    rw [fieldSymbols_append]
    exact h.add (.nothing (fun _ => id) (fun _ _ => nofun))
  · exact h.mono (le_refl _) h.fits _

/-- **The fields of a function block lie apart.** -/
theorem dataScope_layoutUserFb {fb : FunctionBlock} {layout : UserFbLayout}
    (h : layoutUserFb fb known = .ok layout) :
    ∃ top, DataScope known (sectionVars fb.vars) (fieldSymbols layout.fields) top := by
  unfold layoutUserFb at h
  obtain ⟨st, hfold, h⟩ := except_bind_ok.mp h
  cases h
  let P (vars : List (VarKind × VarDecl)) (st : LayoutState) : Prop :=
    DataScope known vars (fieldSymbols st.fields) st.alloc.data
  have hsection : ∀ vars st (s : VarSection) st', P vars st →
      s.vars.foldlM (Compiler.layoutVar known s.kind) st = .ok st' →
      P (vars ++ s.vars.map fun v => (s.kind, v)) st' := by
    intro vars st s st' hP hs
    have hrun := except_foldlM_append (g := fun v => [(s.kind, v)]) hs P
      (fun vars st v st' hP hv => hP.layoutVar hv) vars hP
    rwa [← List.map_eq_flatMap] at hrun
  have hrun := except_foldlM_append (g := fun s : VarSection => s.vars.map fun v => (s.kind, v)) hfold P
    hsection [] .start
  exact ⟨_, hrun⟩

end Blocks

end SoftPlc.Compiler
