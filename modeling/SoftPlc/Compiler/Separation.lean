import SoftPlc.Compiler.Arrays
import SoftPlc.Compiler.Represent

/-!
# Where the variables of programs lie

`Separate` follows binding: the data of every symbol ends below the data cursor, the outputs of a
primitive lie one behind the other, and so do the retained variables. With the bytes that the symbols
cover (`DataScope`) it gives the cells of a compiled project: they are apart (`compiled_apart`), so a
scope of its variables is known before the first body is emitted (`compiled_knows`).
-/

namespace SoftPlc.Compiler

open SoftPlc.Ir SoftPlc.St SoftPlc.Lib SoftPlc.Vm

variable {order : HashOrder} {fbs : FbLayouts} {st st' : BindState} {storage : Storage}

/-- One output behind the other. -/
abbrev InRow (outs : List (String × ℕ × IrType)) : Prop :=
  outs.Pairwise fun o o' => o.2.1 + o.2.2.byteWidth ≤ o'.2.1

/-- What binding keeps. -/
structure Separate (fbs : FbLayouts) (st : BindState) : Prop where
  /-- Data ends below the cursor. -/
  ends : ∀ {n storage e}, (n, storage) ∈ st.globals → storage.dataEnd fbs = some e →
    e ≤ st.alloc.data
  /-- The outputs of an instance. -/
  outs : ∀ {n id inst outs}, (n, Storage.prim id inst outs) ∈ st.globals → InRow outs
  /-- Retained variables end below the cursor. -/
  kept : ∀ {n off t}, (n, Storage.retain off t) ∈ st.globals → off + t.byteWidth ≤ st.alloc.retain
  /-- A later one lies behind an earlier one. -/
  retained : st.globals.Pairwise fun x y => ∀ off t off' t', x.2 = .retain off t →
    y.2 = .retain off' t' → off' + t'.byteWidth ≤ off

/-! ## Binding -/

/-- A new symbol. -/
theorem Separate.add (h : Separate fbs st) {name : String}
    (hglobals : st'.globals = (name, storage) :: st.globals)
    (hdata : st.alloc.data ≤ st'.alloc.data) (hretain : st.alloc.retain ≤ st'.alloc.retain)
    (hend : ∀ e, storage.dataEnd fbs = some e → e ≤ st'.alloc.data)
    (houts : ∀ id inst outs, storage = .prim id inst outs → InRow outs)
    (hkept : ∀ off t, storage = .retain off t →
      st.alloc.retain ≤ off ∧ off + t.byteWidth ≤ st'.alloc.retain) : Separate fbs st' := by
  constructor
  · intro n storage' e hmem he
    rw [hglobals] at hmem
    rcases List.mem_cons.mp hmem with heq | hmem
    · cases heq
      exact hend e he
    · exact (h.ends hmem he).trans hdata
  · intro n id inst outs hmem
    rw [hglobals] at hmem
    rcases List.mem_cons.mp hmem with heq | hmem
    · cases heq
      exact houts id inst outs rfl
    · exact h.outs hmem
  · intro n off t hmem
    rw [hglobals] at hmem
    rcases List.mem_cons.mp hmem with heq | hmem
    · cases heq
      exact (hkept off t rfl).2
    · exact (h.kept hmem).trans hretain
  · rw [hglobals]
    refine List.pairwise_cons.mpr ⟨?_, h.retained⟩
    rintro ⟨n, storage'⟩ hmem off t off' t' heq heq'
    cases heq'
    exact (h.kept hmem).trans (hkept off t heq).1

/-- The outputs of a primitive are allocated one behind the other. -/
theorem allocOutputs_inRow {a a' : Allocator} {outs : List (String × IrType)}
    {offs : List (String × ℕ × IrType)} (h : allocOutputs a outs = .ok (offs, a')) : InRow offs := by
  induction outs generalizing a offs with
  | nil =>
      cases h
      exact .nil
  | cons x outs ih =>
      obtain ⟨⟨off, a₁⟩, hfirst, h⟩ := except_bind_ok.mp h
      obtain ⟨⟨offs', a₂⟩, hrest, h⟩ := except_bind_ok.mp h
      cases h
      obtain ⟨-, hdata, -⟩ := allocData_le hfirst
      refine List.pairwise_cons.mpr ⟨fun o ho => ?_, ih hrest⟩
      have hle := ((allocOutputs_le hrest).2.2 o ho).1
      rwa [hdata] at hle

/-- The last end of the outputs of a primitive. -/
theorem dataEnd_prim {id : PrimitiveId} {inst e : ℕ} {outs : List (String × ℕ × IrType)}
    (h : (Storage.prim id inst outs).dataEnd fbs = some e) :
    (∃ o ∈ outs, e = o.2.1 + o.2.2.byteWidth) ∧ ∀ o ∈ outs, o.2.1 + o.2.2.byteWidth ≤ e := by
  obtain ⟨hmem, hle⟩ := List.max?_eq_some_iff.mp h
  obtain ⟨o, ho, rfl⟩ := List.mem_map.mp hmem
  exact ⟨⟨o, ho, rfl⟩, fun o' ho' => hle _ (List.mem_map.mpr ⟨o', ho', rfl⟩)⟩

/-- Binding a declaration. -/
theorem Separate.bindVar (h : Separate fbs st) {maxInstances : ℕ} {kind : VarKind} {v : VarDecl}
    (hbind : bindVar fbs maxInstances kind st v = .ok st') : Separate fbs st' := by
  rcases bindVar_ok hbind with ⟨-, rfl⟩ | ⟨-, storage, st₁, hstep, rfl⟩
  · exact h
  · cases hstep with
    | input inputSlots tags hplain =>
        exact h.add rfl le_rfl le_rfl (fun _ => nofun) (fun _ _ _ => nofun) (fun _ _ => nofun)
    | output outputSlots tags hplain =>
        exact h.add rfl le_rfl le_rfl (fun _ => nofun) (fun _ _ _ => nofun) (fun _ _ => nofun)
    | const hconst hinit =>
        exact h.add rfl le_rfl le_rfl (fun _ => nofun) (fun _ _ _ => nofun) (fun _ _ => nofun)
    | @retain off ty tags hoff hplain =>
        have hle : st.alloc.retain ≤ off := hoff ▸ le_alignUp _ _
        refine h.add rfl le_rfl (hle.trans (Nat.le_add_right _ _)) (fun _ => nofun)
          (fun _ _ _ => nofun) ?_
        rintro _ _ ⟨⟩
        exact ⟨hle, le_rfl⟩
    | @data off size ty hsize hoff hplain =>
        have hle : st.alloc.data ≤ off := hoff ▸ le_alignUp _ _
        refine h.add rfl (hle.trans (Nat.le_add_right _ _)) le_rfl ?_ (fun _ _ _ => nofun)
          (fun _ _ => nofun)
        intro e he
        rw [Storage.dataEnd, hsize] at he
        cases he
        exact le_rfl
    | @prim id inst outs alloc hty hinst houts hplain =>
        obtain ⟨hle, -, hall⟩ := allocOutputs_le houts
        refine h.add rfl hle (allocOutputs_retain houts).ge ?_ ?_ (fun _ _ => nofun)
        · intro e he
          obtain ⟨⟨o, ho, rfl⟩, -⟩ := dataEnd_prim he
          exact (hall o ho).2
        · rintro _ _ _ ⟨⟩
          exact allocOutputs_inRow houts
    | @userInst name layout base hlayout hbase hplain =>
        have hle : st.alloc.data ≤ base := hbase ▸ le_alignUp _ _
        refine h.add rfl (hle.trans (Nat.le_add_right _ _)) le_rfl ?_ (fun _ _ _ => nofun)
          (fun _ _ => nofun)
        intro e he
        rw [Storage.dataEnd, hlayout] at he
        cases he
        exact le_rfl

/-- The symbols of a project. -/
theorem separate_bindProject {file : ProjectFile} {ds : Decls} {bound : BindState}
    (h : bindProject file fbs ds.programs = .ok bound) : Separate fbs bound := by
  refine bindProject_induct h (fun _ st => Separate fbs st) ?_ ?_
  · intro st hglobals _ _ _
    constructor <;> simp [hglobals]
  · intro _ st kind v st' hP hv
    exact hP.bindVar hv

/-! ## Cells -/

section Cells

variable {k off : ℕ} {t : IrType}

/-- The size of an array that a program may declare. -/
theorem byteSize_array {len : ℕ} (h : len ≤ maxArrayElems) :
    (TypeDef.array (.elem t) len).byteSize fbs = .ok (t.byteWidth * len) := by
  have hbound : t.byteWidth * len ≤ u32Max := by
    have hwidth : t.byteWidth ≤ 8 := by cases t <;> decide
    calc t.byteWidth * len ≤ 8 * maxArrayElems := Nat.mul_le_mul hwidth h
      _ ≤ u32Max := by decide
  show Except.ok (min (t.byteWidth * len) u32Max) = _
  rw [min_eq_left hbound]

/-- Symbols with arrays of a length that a program may declare. -/
def Storage.Bounded (storage : Storage) : Prop :=
  ∀ off elem len, storage = .data off (.array elem len) → len ≤ maxArrayElems

/-- An element lies inside its array. -/
theorem element_inside {len w : ℕ} (h : k < len) : k * w + w ≤ w * len := by
  calc k * w + w = w * (k + 1) := by ring
    _ ≤ w * len := Nat.mul_le_mul_left w h

/-- A symbol covers the bytes of its cells, -/
theorem Storage.Bounded.covers (h : storage.Bounded) (hcell : storage.cell k = some (off, t)) {b : ℕ}
    (hb : off ≤ b) (hb' : b < off + t.byteWidth) : storage.Covers fbs b := by
  unfold Storage.cell at hcell
  split at hcell
  · cases hcell
    exact ⟨_, rfl, hb, hb'⟩
  · next _ start elem len =>
      split_ifs at hcell with hk
      cases hcell
      have hin := element_inside (w := t.byteWidth) hk
      exact ⟨_, byteSize_array (h _ _ _ rfl), by omega, by omega⟩
  · obtain ⟨o, ho, heq⟩ := Option.map_eq_some_iff.mp hcell
    cases heq
    exact ⟨o, List.mem_of_getElem? ho, hb, hb'⟩
  · cases hcell

/-- and ends behind them. -/
theorem Storage.Bounded.cell_le (h : storage.Bounded) (hcell : storage.cell k = some (off, t)) :
    ∃ e, storage.dataEnd fbs = some e ∧ off + t.byteWidth ≤ e := by
  unfold Storage.cell at hcell
  split at hcell
  · cases hcell
    exact ⟨_, rfl, le_rfl⟩
  · next _ start elem len =>
      split_ifs at hcell with hk
      cases hcell
      refine ⟨start + t.byteWidth * len, ?_, ?_⟩
      · rw [Storage.dataEnd, byteSize_array (h _ _ _ rfl)]
        rfl
      · have hin := element_inside (w := t.byteWidth) hk
        omega
  · next _ id inst outs =>
      obtain ⟨o, ho, heq⟩ := Option.map_eq_some_iff.mp hcell
      cases heq
      have hmem : o ∈ outs := List.mem_of_getElem? ho
      have hends : o.2.1 + o.2.2.byteWidth ∈ outs.map fun o => o.2.1 + o.2.2.byteWidth :=
        List.mem_map.mpr ⟨o, hmem, rfl⟩
      obtain ⟨e, he⟩ : ∃ e, (Storage.prim id inst outs).dataEnd fbs = some e :=
        Option.isSome_iff_exists.mp (List.isSome_max?_of_mem hends)
      exact ⟨e, he, (dataEnd_prim he).2 o hmem⟩
  · cases hcell

/-- Two cells of a symbol. -/
theorem beside_cells {k' off' : ℕ} {t' : IrType} (hrow : ∀ id inst outs,
      storage = .prim id inst outs → InRow outs)
    (hcell : storage.cell k = some (off, t)) (hcell' : storage.cell k' = some (off', t'))
    (hne : k ≠ k') : Beside off t.byteWidth off' t'.byteWidth := by
  cases storage with
  | data start ty =>
      cases ty with
      | elem e =>
          cases k <;> cases k' <;> simp [Storage.cell] at hcell hcell' hne
      | array e len =>
          cases e with
          | elem e =>
              simp only [Storage.cell, Option.ite_none_right_eq_some, Option.some.injEq,
                Prod.mk.injEq] at hcell hcell'
              obtain ⟨-, rfl, rfl⟩ := hcell
              obtain ⟨-, rfl, rfl⟩ := hcell'
              rcases Nat.lt_or_gt_of_ne hne with hlt | hlt
              · have hin := element_inside (w := e.byteWidth) hlt
                rw [Nat.mul_comm e.byteWidth] at hin
                exact .inl (by omega)
              · have hin := element_inside (w := e.byteWidth) hlt
                rw [Nat.mul_comm e.byteWidth] at hin
                exact .inr (by omega)
          | _ => cases hcell
      | _ => cases hcell
  | prim id inst outs =>
      obtain ⟨o, ho, heq⟩ := Option.map_eq_some_iff.mp hcell
      obtain ⟨o', ho', heq'⟩ := Option.map_eq_some_iff.mp hcell'
      cases heq
      cases heq'
      have hpair := List.pairwise_iff_getElem.mp (hrow id inst outs rfl)
      obtain ⟨hk, rfl⟩ := List.getElem?_eq_some_iff.mp ho
      obtain ⟨hk', rfl⟩ := List.getElem?_eq_some_iff.mp ho'
      rcases Nat.lt_or_gt_of_ne hne with hlt | hlt
      · exact .inl (hpair k k' hk hk' hlt)
      · exact .inr (hpair k' k hk' hk hlt)
  | _ => cases hcell

end Cells

/-! ## Compiled projects -/

/-- The emitter before the first body. -/
def Compiled.start (c : Compiled) : Codegen :=
  { fbLayouts := c.fbLayouts, globals := c.bound.globals }

/-- The end of the globals is the largest of the ends of their data. -/
theorem globalsEnd_eq (g : Codegen) :
    g.globalsEnd = ((g.globals.filterMap fun x => x.2.dataEnd g.fbLayouts).max?).getD 0 :=
  rfl

/-- A symbol ends below the end of the globals. -/
theorem le_globalsEnd {g : Codegen} {n : String} {e : ℕ} (hmem : (n, storage) ∈ g.globals)
    (he : storage.dataEnd g.fbLayouts = some e) : e ≤ g.globalsEnd := by
  have hends : e ∈ g.globals.filterMap fun x => x.2.dataEnd g.fbLayouts :=
    List.mem_filterMap.mpr ⟨_, hmem, he⟩
  obtain ⟨m, hm⟩ := Option.isSome_iff_exists.mp (List.isSome_max?_of_mem hends)
  rw [globalsEnd_eq, hm]
  exact (List.max?_eq_some_iff.mp hm).2 e hends

/-- The end of the globals is the end of one of them. -/
theorem globalsEnd_le {g : Codegen} {m : ℕ}
    (h : ∀ n storage e, (n, storage) ∈ g.globals → storage.dataEnd g.fbLayouts = some e → e ≤ m) :
    g.globalsEnd ≤ m := by
  rcases hmax : (g.globals.filterMap fun x => x.2.dataEnd g.fbLayouts).max? with _ | e
  · rw [globalsEnd_eq, hmax]
    exact Nat.zero_le m
  · rw [globalsEnd_eq, hmax]
    obtain ⟨⟨n, storage⟩, hmem, he⟩ := List.mem_filterMap.mp (List.max?_eq_some_iff.mp hmax).1
    exact h n storage e hmem he

/-! ## Numbers of instances -/

section Instances

variable {maxInstances : ℕ} {kind : VarKind} {v : VarDecl}

/-- Only primitives get instances, and these are below the limit. -/
theorem bindPlain_instance {ty : TypeDef} {id : PrimitiveId} {inst : ℕ}
    {outs : List (String × ℕ × IrType)}
    (h : bindPlain fbs maxInstances kind v ty st = .ok (.prim id inst outs, st')) :
    inst < maxInstances := by
  unfold bindPlain at h
  split at h
  · obtain ⟨ir, -, h⟩ := except_bind_ok.mp h
    split at h <;> cases h
  · obtain ⟨ir, -, h⟩ := except_bind_ok.mp h
    obtain ⟨⟨off, st₁⟩, -, h⟩ := except_bind_ok.mp h
    cases h
  · split at h
    · obtain ⟨_, _, -, hlt, heq, -⟩ := newPrim_ok h
      cases heq
      exact hlt
    · obtain ⟨layout, -, h⟩ := except_bind_ok.mp h
      obtain ⟨⟨base, alloc⟩, -, h⟩ := except_bind_ok.mp h
      cases h
    · obtain ⟨size, -, h⟩ := except_bind_ok.mp h
      obtain ⟨⟨off, alloc⟩, -, h⟩ := except_bind_ok.mp h
      cases h

/-- A variable with an address is no instance. -/
theorem bindAt_instance {ty : TypeDef} {addr : DirectAddr} {id : PrimitiveId} {inst : ℕ}
    {outs : List (String × ℕ × IrType)} :
    bindAt fbs v ty addr st ≠ .ok (.prim id inst outs, st') := by
  intro h
  unfold bindAt at h
  split at h
  · obtain ⟨ir, -, h⟩ := except_bind_ok.mp h
    obtain ⟨next, -, h⟩ := except_bind_ok.mp h
    cases h
  · obtain ⟨ir, -, h⟩ := except_bind_ok.mp h
    obtain ⟨next, -, h⟩ := except_bind_ok.mp h
    cases h
  · obtain ⟨ir, -, h⟩ := except_bind_ok.mp h
    obtain ⟨⟨off, st₁⟩, -, h⟩ := except_bind_ok.mp h
    cases h
  · obtain ⟨size, -, h⟩ := except_bind_ok.mp h
    obtain ⟨⟨off, alloc⟩, -, h⟩ := except_bind_ok.mp h
    cases h

/-- Instances have numbers below the limit. -/
def Numbered (maxInstances : ℕ) (symbols : Symbols) : Prop :=
  ∀ n id inst outs, (n, Storage.prim id inst outs) ∈ symbols → inst < maxInstances

theorem Numbered.bindVar (h : Numbered maxInstances st.globals)
    (hbind : bindVar fbs maxInstances kind st v = .ok st') :
    Numbered maxInstances st'.globals := by
  unfold Compiler.bindVar at hbind
  dsimp only at hbind
  split_ifs at hbind
  · cases hbind
    exact h
  · cases hbind
  · obtain ⟨ty, hty, hrest⟩ := except_bind_ok.mp hbind
    rcases hv : v.addr with _ | addr
    · simp only [hv] at hrest
      obtain ⟨⟨storage, st₁⟩, hplain, hrest⟩ := except_bind_ok.mp hrest
      have hstep := bindPlain_ok hv hty hplain
      cases hrest
      intro n id inst outs hmem
      rcases List.mem_cons.mp hmem with heq | hmem
      · cases heq
        exact bindPlain_instance hplain
      · rw [hstep.globals_eq] at hmem
        exact h n id inst outs hmem
    · simp only [hv] at hrest
      obtain ⟨⟨storage, st₁⟩, hat, hrest⟩ := except_bind_ok.mp hrest
      have hstep := @bindAt_ok fbs maxInstances kind v st st₁ storage ty addr hv hat
      cases hrest
      intro n id inst outs hmem
      rcases List.mem_cons.mp hmem with heq | hmem
      · cases heq
        exact absurd hat bindAt_instance
      · rw [hstep.globals_eq] at hmem
        exact h n id inst outs hmem

theorem numbered_bindProject {file : ProjectFile} {ds : Decls} {bound : BindState}
    (h : bindProject file fbs ds.programs = .ok bound) :
    Numbered file.maxInstances bound.globals := by
  refine bindProject_induct h (fun _ st => Numbered file.maxInstances st.globals) ?_ ?_
  · intro st hglobals _ _ _ n id inst outs hmem
    rw [hglobals] at hmem
    cases hmem
  · intro _ st kind v st' hP hv
    exact hP.bindVar hv

end Instances

section Project

variable {p : LoadedProject} {c : Compiled}

theorem Compiled.start_look (c : Compiled) (n : String) : c.start.look n = c.bound.globals.lookup n :=
  rfl

/-- Arrays have the lengths that programs may declare. -/
theorem Stages.bounded (h : Stages order p c) {n : String} (hst : c.start.look n = some storage) :
    storage.Bounded := by
  rintro off elem len rfl
  obtain ⟨-, d, -, -, hty⟩ :=
    (dataScope_bindProject h.bound).declared n off _ (mem_of_lookup hst)
  obtain ⟨-, -, -, -, -, -, -, hlen⟩ := resolveType_array hty
  exact hlen

/-- **The cells of the variables of a project lie apart.** -/
theorem compiled_apart (h : Stages order p c) : c.start.Apart := by
  have hsep := separate_bindProject h.bound
  constructor
  · intro n storage k off t hst hcell
    obtain ⟨e, he, hle⟩ := (h.bounded hst).cell_le hcell
    have hend := le_globalsEnd (g := c.start) (mem_of_lookup hst) he
    exact (hle.trans hend).trans (le_max_left _ _)
  · intro n storage k off t n' storage' k' off' t' hst hcell hst' hcell' hne
    by_cases hn : n' = n
    · subst hn
      obtain rfl := Option.some.inj (hst.symm.trans hst')
      refine beside_cells ?_ hcell hcell' (hne.resolve_left fun hn => hn rfl)
      rintro id inst outs rfl
      exact hsep.outs (mem_of_lookup hst)
    · -- a byte of both would be covered twice
      by_contra hmeet
      rw [not_or, Nat.not_le, Nat.not_le] at hmeet
      have hpos := t.byteWidth_pos
      have hpos' := t'.byteWidth_pos
      refine (dataScope_bindProject h.bound).other hn hst hst' (b := max off off')
        ((h.bounded hst).covers hcell ?_ ?_) ((h.bounded hst').covers hcell' ?_ ?_) <;> omega

/-- The data of the programs ends below the cursor. -/
theorem Stages.globalsEnd_le (h : Stages order p c) : c.start.globalsEnd ≤ c.bound.alloc.data :=
  Compiler.globalsEnd_le fun _ _ _ hmem he => (separate_bindProject h.bound).ends hmem he

/-- The variables of the programs as a scope. -/
def Compiled.scope (c : Compiled) : Scope := fun n => (c.start.look n).map Storage.entity

/-- An instance comes from an instance. -/
theorem entity_prim {id : PrimitiveId} {inst : ℕ} (h : storage.entity = .prim id inst) :
    ∃ outs, storage = .prim id inst outs := by
  unfold Storage.entity at h
  split at h <;> first | cases h | skip
  · split_ifs at h
    cases h
    exact ⟨_, rfl⟩

/-- Retained variables of two names lie apart. -/
theorem Separate.beside (h : Separate fbs st) {n n' : String} {off off' : ℕ} {t t' : IrType}
    (hst : (n, Storage.retain off t) ∈ st.globals) (hst' : (n', Storage.retain off' t') ∈ st.globals)
    (hne : n ≠ n') : Beside off t.byteWidth off' t'.byteWidth := by
  have hsymm : Std.Symm fun x y : String × Storage => ∀ off t off' t', x.2 = .retain off t →
      y.2 = .retain off' t' → Beside off t.byteWidth off' t'.byteWidth :=
    ⟨fun x y hxy off t off' t' hx hy => (hxy off' t' off t hy hx).symm⟩
  have hpairs : st.globals.Pairwise fun x y => ∀ off t off' t', x.2 = .retain off t →
      y.2 = .retain off' t' → Beside off t.byteWidth off' t'.byteWidth :=
    h.retained.imp fun hxy off t off' t' hx hy => .inr (hxy off t off' t' hx hy)
  have hpair : (n, Storage.retain off t) ≠ (n', Storage.retain off' t') :=
    fun heq => hne (Prod.mk.inj heq).1
  exact hpairs.forall hst hst' hpair off t off' t' rfl rfl

/-- **What a project declares is known before the first body**, if the variables on one `%Q` slot have
one type and the inputs have theirs. The limit of instances has 32 bits. -/
theorem compiled_knows (h : Stages order p c) {env : Env} (hmax : p.file.maxInstances ≤ 2 ^ 32)
    (hslots : ∀ {n slot t n' t'}, c.scope n = some (.output slot t) →
      c.scope n' = some (.output slot t') → t = t')
    (hinputs : ∀ {n slot t}, c.scope n = some (.input slot t) →
      ∃ v, env.inputs.values[slot]? = some v ∧ v.irType = t) : Knows env c.scope c.start [] := by
  refine ⟨?_, ?_, compiled_apart h, ?_, hslots, ?_, hinputs, by simp, by simp, .nil⟩
  · intro n e hn
    obtain ⟨storage, hst, rfl⟩ := Option.map_eq_some_iff.mp hn
    exact ⟨storage, hst, rfl⟩
  · intro n storage hn hst
    rw [Compiled.scope, hst] at hn
    cases hn
  · intro n off t n' off' t' hst hst' hne
    exact (separate_bindProject h.bound).beside (mem_of_lookup hst) (mem_of_lookup hst') hne
  · intro n id inst hn
    obtain ⟨storage, hst, he⟩ := Option.map_eq_some_iff.mp hn
    obtain ⟨outs, rfl⟩ := entity_prim he
    exact (numbered_bindProject h.bound n id inst outs (mem_of_lookup hst)).trans_le hmax

end Project

end SoftPlc.Compiler
