import SoftPlc.Compiler.Boundary
import SoftPlc.Ir.Spbc
import SoftPlc.Lib.StableSort
import SoftPlc.Retain.Layout

/-!
# What a compilation writes into the manifest

The manifest of a compiled project repeats what the module holds: its sizes, the names of its task
entries, and the retain symbols with their offsets. The retain symbols have distinct names, lie one
behind the other and end inside the retain segment (`Placed`), so a retain layout can be made of them
(`Placed.layout`). The entries of a module have the flags of their names (`Stages.flags`).
-/

namespace SoftPlc.Compiler

open SoftPlc.Ir SoftPlc.St SoftPlc.Lib SoftPlc.Vm SoftPlc.Retain

/-! ## Retain symbols -/

/-- Where a retain symbol ends. -/
def ManifestRetainSymbol.stop (s : ManifestRetainSymbol) : ℕ := s.offset + s.ty.byteWidth

/-- Retain symbols with distinct names, one behind the other. -/
structure Placed (st : BindState) : Prop where
  bound : ∀ s ∈ st.retainSymbols, (st.globals.lookup (lower s.name)).isSome
  named : ∀ s ∈ st.retainSymbols, s.name ≠ ""
  distinct : st.retainSymbols.Pairwise fun a b => lower a.name ≠ lower b.name
  behind : st.retainSymbols.Pairwise fun a b => a.stop ≤ b.offset
  inside : ∀ s ∈ st.retainSymbols, s.stop ≤ st.alloc.retain

theorem allocOutputs_retain {a a' : Allocator} {outs : List (String × IrType)}
    {offs : List (String × ℕ × IrType)} (h : allocOutputs a outs = .ok (offs, a')) :
    a'.retain = a.retain := by
  induction outs generalizing a offs with
  | nil =>
      cases h
      rfl
  | cons x outs ih =>
      obtain ⟨⟨off, a₁⟩, hfirst, h⟩ := except_bind_ok.mp h
      obtain ⟨⟨offs', a₂⟩, hrest, h⟩ := except_bind_ok.mp h
      cases h
      have hrest := ih hrest
      obtain ⟨-, rfl⟩ := allocData_ok hfirst
      exact hrest

/-- A step that adds no retain symbol keeps them placed. -/
theorem Placed.keep {st st' : BindState} (h : Placed st) (hsymbols : st'.retainSymbols = st.retainSymbols)
    (hretain : st'.alloc.retain = st.alloc.retain)
    (hglobals : ∀ key, (st.globals.lookup key).isSome → (st'.globals.lookup key).isSome) :
    Placed st' where
  bound s hs := hglobals _ (h.bound s (hsymbols ▸ hs))
  named s hs := h.named s (hsymbols ▸ hs)
  distinct := hsymbols ▸ h.distinct
  behind := hsymbols ▸ h.behind
  inside s hs := hretain ▸ h.inside s (hsymbols ▸ hs)

/-- Binding a declaration with a name keeps the retain symbols placed. -/
theorem Placed.bindVar {fbs : FbLayouts} {maxInstances : ℕ} {kind : VarKind} {st st' : BindState}
    {v : VarDecl} (h : Placed st) (hname : v.name ≠ "")
    (hbind : bindVar fbs maxInstances kind st v = .ok st') : Placed st' := by
  rcases bindVar_ok hbind with ⟨-, rfl⟩ | ⟨hnew, storage, st₁, hstep, rfl⟩
  · exact h
  · have hmore : ∀ key, (st.globals.lookup key).isSome →
        (((lower v.name, storage) :: st.globals).lookup key).isSome := by
      intro key hkey
      rw [List.lookup_cons]
      split
      · rfl
      · exact hkey
    cases hstep with
    | input inputSlots tags hplain => exact h.keep rfl rfl hmore
    | output outputSlots tags hplain => exact h.keep rfl rfl hmore
    | data hsize hoff hplain => exact h.keep rfl rfl hmore
    | prim hty hinst houts hplain => exact h.keep rfl (allocOutputs_retain houts) hmore
    | userInst hlayout hbase hplain => exact h.keep rfl rfl hmore
    | const hconst hinit => exact h.keep rfl rfl hmore
    | @retain off ty tags hoff hplain =>
        have hle : st.alloc.retain ≤ off := by
          rw [hoff]
          exact le_alignUp _ _
        have hmem : ∀ {s : ManifestRetainSymbol}, s ∈ st.retainSymbols ++ [⟨v.name, ty, off⟩] →
            s ∈ st.retainSymbols ∨ s = ⟨v.name, ty, off⟩ :=
          fun hs => (List.mem_append.mp hs).imp id List.mem_singleton.mp
        refine ⟨?_, ?_, ?_, ?_, ?_⟩
        · intro s hs
          rcases hmem hs with hs | rfl
          · exact hmore _ (h.bound s hs)
          · dsimp only
            rw [List.lookup_cons, beq_self_eq_true]
            rfl
        · intro s hs
          rcases hmem hs with hs | rfl
          · exact h.named s hs
          · exact hname
        · refine List.pairwise_append.mpr ⟨h.distinct, List.pairwise_singleton _ _, ?_⟩
          intro a ha b hb
          obtain rfl := List.mem_singleton.mp hb
          intro heq
          have hbound := h.bound a ha
          rw [heq, hnew] at hbound
          cases hbound
        · refine List.pairwise_append.mpr ⟨h.behind, List.pairwise_singleton _ _, ?_⟩
          intro a ha b hb
          obtain rfl := List.mem_singleton.mp hb
          exact (h.inside a ha).trans hle
        · intro s hs
          rcases hmem hs with hs | rfl
          · exact ((h.inside s hs).trans hle).trans (Nat.le_add_right _ _)
          · exact le_rfl

/-- The retain symbols of a project are placed, if its variables have names. -/
theorem placed_bindProject {file : ProjectFile} {fbs : FbLayouts} {ds : Decls} {bound : BindState}
    (hbind : bindProject file fbs ds.programs = .ok bound)
    (hnames : ∀ x ∈ ds.programVars, x.2.name ≠ "") : Placed bound := by
  refine bindProject_induct hbind
    (fun vars st => (∀ x ∈ vars, x.2.name ≠ "") → Placed st) ?_ ?_ hnames
  · intro st _ _ _ hsymbols _
    refine ⟨?_, ?_, ?_, ?_, ?_⟩
    all_goals
      rw [hsymbols]
      simp
  · intro vars st kind v st' hP hstep hall
    refine (hP fun x hx => hall x (List.mem_append_left _ hx)).bindVar ?_ hstep
    exact hall (kind, v) (List.mem_append_right _ List.mem_cons_self)

/-! ## Layouts -/

/-- A check of neighbours that all pairs pass. -/
theorem checkWindows_pairwise {bad : RetainSymbol → RetainSymbol → Bool}
    {text : RetainSymbol → RetainSymbol → String} {xs : List RetainSymbol}
    (h : xs.Pairwise fun a b => bad a b = false) : checkWindows bad text xs = .ok () := by
  induction xs with
  | nil => rfl
  | cons a xs ih =>
      obtain ⟨ha, hxs⟩ := List.pairwise_cons.mp h
      cases xs with
      | nil => rfl
      | cons b xs =>
          rw [checkWindows, ha b List.mem_cons_self]
          exact ih hxs

/-- A retain layout is made of symbols with distinct names, one behind the other. -/
theorem retainLayout_ok {retainSize : ℕ} {symbols : List RetainSymbol}
    (hnames : ∀ s ∈ symbols, s.name ≠ "") (hdistinct : symbols.Pairwise fun a b => a.name ≠ b.name)
    (hbehind : symbols.Pairwise fun a b => a.endOffset ≤ b.offset)
    (hinside : ∀ s ∈ symbols, s.endOffset ≤ retainSize) :
    ∃ layout, RetainLayout.new retainSize symbols = .ok layout := by
  have hperm : (byName symbols).Perm symbols := List.mergeSort_perm _ _
  have hnodup : (byName symbols).Pairwise fun a b => (a.name == b.name) = false := by
    refine (hperm.pairwise_iff ?_).mpr (hdistinct.imp fun hne => beq_eq_false_iff_ne.mpr hne)
    intro a b hab
    exact beq_eq_false_iff_ne.mpr (beq_eq_false_iff_ne.mp hab).symm
  have heach : (byName symbols).forM (checkSymbol retainSize) = .ok () := by
    apply except_forM_ok_iff.mpr
    intro s hs
    have hs := hperm.mem_iff.mp hs
    rw [checkSymbol, if_neg (hnames s hs), if_neg (not_lt.mpr (hinside s hs))]
  have hordered : byOffset (byName symbols) = symbols := by
    have hstrict : symbols.Pairwise fun a b => a.offset < b.offset := by
      refine hbehind.imp ?_
      intro a b hle
      have hwidth : 0 < a.ty.byteWidth := by cases a.ty <;> decide
      unfold RetainSymbol.endOffset at hle
      omega
    have hnodup : (symbols.map RetainSymbol.offset).Nodup := by
      apply List.pairwise_map.mpr
      exact hstrict.imp fun hlt => ne_of_lt hlt
    have hsorted : (byOffset (byName symbols)).Pairwise fun a b => a.offset ≤ b.offset :=
      sortByKey_sorted RetainSymbol.offset (byName symbols)
    have hperm' : (byOffset (byName symbols)).Perm symbols := (List.mergeSort_perm _ _).trans hperm
    refine hperm'.eq_of_pairwise ?_ hsorted (hstrict.imp fun hlt => hlt.le)
    intro a b ha hb hab hba
    exact List.inj_on_of_nodup_map hnodup (hperm'.mem_iff.mp ha) hb (le_antisymm hab hba)
  have hcheck : checkLayout retainSize (byName symbols) = .ok () := by
    unfold checkLayout
    rw [checkWindows_pairwise hnodup]
    dsimp only [bind, Except.bind]
    rw [heach, hordered]
    exact checkWindows_pairwise (hbehind.imp fun hle => decide_eq_false (not_lt.mpr hle))
  rcases hnew : RetainLayout.new retainSize symbols with e | layout
  · unfold RetainLayout.new at hnew
    split at hnew
    · cases hnew
    · rename_i e' herr
      cases hcheck.symm.trans herr
  · exact ⟨layout, rfl⟩

/-- The layout of placed symbols. -/
theorem Placed.layout {st : BindState} (h : Placed st) {retainSize : ℕ}
    (hsize : st.alloc.retain ≤ retainSize) :
    ∃ layout, RetainLayout.new retainSize
      (st.retainSymbols.map fun s => ⟨s.name, s.ty, s.offset⟩) = .ok layout := by
  apply retainLayout_ok
  · intro s hs
    obtain ⟨x, hx, rfl⟩ := List.mem_map.mp hs
    exact h.named x hx
  · apply List.pairwise_map.mpr
    exact h.distinct.imp fun hne heq => hne (congrArg lower heq)
  · apply List.pairwise_map.mpr
    exact h.behind
  · intro s hs
    obtain ⟨x, hx, rfl⟩ := List.mem_map.mp hs
    exact (h.inside x hx).trans hsize

/-! ## Slots -/

/-- Slots and slot counts of 32 bits. -/
structure SlotsFit (st : BindState) : Prop where
  inputs : st.inputSlots ≤ u32Max
  outputs : st.outputSlots ≤ u32Max
  tags : ∀ t ∈ st.tagDictionary, ∀ n ∈ t.slot, n ≤ u32Max

theorem SlotsFit.addTag {st st' : BindState} {tag : TagMap} (h : SlotsFit st)
    (hslot : ∀ n ∈ tag.slot, n ≤ u32Max) (hadd : addTag st tag = .ok st') : SlotsFit st' := by
  have htags : ∀ {ty : IrType} {kind : TagKind},
      ∀ t ∈ st.tagDictionary ++ [⟨tag.name, ty, kind, tag.slot⟩], ∀ n ∈ t.slot, n ≤ u32Max := by
    intro ty kind t ht n hn
    rcases List.mem_append.mp ht with ht | ht
    · exact h.tags t ht n hn
    · obtain rfl := List.mem_singleton.mp ht
      exact hslot n hn
  unfold Compiler.addTag at hadd
  obtain ⟨ty, -, hadd⟩ := except_bind_ok.mp hadd
  split at hadd
  · obtain ⟨next, hnext, hadd⟩ := except_bind_ok.mp hadd
    obtain ⟨hle, rfl⟩ := checkU32_ok.mp hnext
    cases hadd
    exact ⟨max_le h.inputs hle, h.outputs, htags⟩
  · obtain ⟨next, hnext, hadd⟩ := except_bind_ok.mp hadd
    obtain ⟨hle, rfl⟩ := checkU32_ok.mp hnext
    cases hadd
    exact ⟨h.inputs, max_le h.outputs hle, htags⟩
  · cases hadd
    exact ⟨h.inputs, h.outputs, htags⟩
  · cases hadd
    exact ⟨h.inputs, h.outputs, htags⟩
  · cases hadd

/-- A step that leaves slots and tags as they are. -/
theorem SlotsFit.keep {st st' : BindState} (h : SlotsFit st) (hin : st'.inputSlots = st.inputSlots)
    (hout : st'.outputSlots = st.outputSlots) (htags : st'.tagDictionary = st.tagDictionary) :
    SlotsFit st' where
  inputs := hin ▸ h.inputs
  outputs := hout ▸ h.outputs
  tags t ht := h.tags t (htags ▸ ht)

theorem SlotsFit.newData {fbs : FbLayouts} {st st' : BindState} {ty : TypeDef} {storage : Storage}
    (h : SlotsFit st) (hnew : st.newData fbs ty = .ok (storage, st')) : SlotsFit st' := by
  obtain ⟨size, -, hnew⟩ := except_bind_ok.mp hnew
  obtain ⟨⟨off, alloc⟩, -, hnew⟩ := except_bind_ok.mp hnew
  cases hnew
  exact h.keep rfl rfl rfl

theorem SlotsFit.bindAt {fbs : FbLayouts} {v : VarDecl} {ty : TypeDef} {addr : DirectAddr}
    {st st' : BindState} {storage : Storage} (h : SlotsFit st)
    (hbind : bindAt fbs v ty addr st = .ok (storage, st')) : SlotsFit st' := by
  have htags : ∀ {known : Bool} {e : TagEntry}, (∀ n ∈ e.slot, n ≤ u32Max) →
      ∀ t ∈ (if known then st.tagDictionary else st.tagDictionary ++ [e]), ∀ n ∈ t.slot, n ≤ u32Max := by
    intro known e he t ht n hn
    split_ifs at ht
    · exact h.tags t ht n hn
    · rcases List.mem_append.mp ht with ht | ht
      · exact h.tags t ht n hn
      · obtain rfl := List.mem_singleton.mp ht
        exact he n hn
  unfold Compiler.bindAt at hbind
  split at hbind
  · obtain ⟨ir, -, hbind⟩ := except_bind_ok.mp hbind
    obtain ⟨next, hnext, hbind⟩ := except_bind_ok.mp hbind
    obtain ⟨hle, rfl⟩ := checkU32_ok.mp hnext
    cases hbind
    refine ⟨max_le h.inputs hle, h.outputs, htags ?_⟩
    rintro n ⟨⟩
    omega
  · obtain ⟨ir, -, hbind⟩ := except_bind_ok.mp hbind
    obtain ⟨next, hnext, hbind⟩ := except_bind_ok.mp hbind
    obtain ⟨hle, rfl⟩ := checkU32_ok.mp hnext
    cases hbind
    refine ⟨h.inputs, max_le h.outputs hle, htags ?_⟩
    rintro n ⟨⟩
    omega
  · obtain ⟨ir, -, hbind⟩ := except_bind_ok.mp hbind
    obtain ⟨⟨off, st₁⟩, hnew, hbind⟩ := except_bind_ok.mp hbind
    obtain ⟨-, rfl⟩ := newRetain_ok hnew
    cases hbind
    refine ⟨h.inputs, h.outputs, htags ?_⟩
    rintro n ⟨⟩
  · exact h.newData hbind

theorem SlotsFit.bindPlain {fbs : FbLayouts} {maxInstances : ℕ} {kind : VarKind} {v : VarDecl}
    {ty : TypeDef} {st st' : BindState} {storage : Storage} (h : SlotsFit st)
    (hbind : bindPlain fbs maxInstances kind v ty st = .ok (storage, st')) : SlotsFit st' := by
  unfold Compiler.bindPlain at hbind
  split at hbind
  · obtain ⟨ir, -, hbind⟩ := except_bind_ok.mp hbind
    split at hbind
    · cases hbind
      exact h
    · cases hbind
  · obtain ⟨ir, -, hbind⟩ := except_bind_ok.mp hbind
    obtain ⟨⟨off, st₁⟩, hnew, hbind⟩ := except_bind_ok.mp hbind
    obtain ⟨-, rfl⟩ := newRetain_ok hnew
    cases hbind
    exact h.keep rfl rfl rfl
  · split at hbind
    · obtain ⟨outs, alloc, -, -, -, rfl⟩ := newPrim_ok hbind
      exact h.keep rfl rfl rfl
    · obtain ⟨layout, -, hbind⟩ := except_bind_ok.mp hbind
      obtain ⟨⟨base, alloc⟩, -, hbind⟩ := except_bind_ok.mp hbind
      cases hbind
      exact h.keep rfl rfl rfl
    · exact h.newData hbind

theorem SlotsFit.bindVar {fbs : FbLayouts} {maxInstances : ℕ} {kind : VarKind} {v : VarDecl}
    {st st' : BindState} (h : SlotsFit st) (hbind : bindVar fbs maxInstances kind st v = .ok st') :
    SlotsFit st' := by
  unfold Compiler.bindVar at hbind
  dsimp only at hbind
  split_ifs at hbind
  · cases hbind
    exact h
  · cases hbind
  · obtain ⟨ty, -, hbind⟩ := except_bind_ok.mp hbind
    split at hbind
    · obtain ⟨⟨storage, st₁⟩, hstep, hbind⟩ := except_bind_ok.mp hbind
      cases hbind
      exact (h.bindAt hstep).keep rfl rfl rfl
    · obtain ⟨⟨storage, st₁⟩, hstep, hbind⟩ := except_bind_ok.mp hbind
      cases hbind
      exact (h.bindPlain hstep).keep rfl rfl rfl

/-- The slots of a project fit, if those of its tags do. -/
theorem slotsFit_bindProject {file : ProjectFile} {fbs : FbLayouts}
    {programs : List (String × Program)} {bound : BindState}
    (hbind : bindProject file fbs programs = .ok bound)
    (htags : ∀ tag ∈ file.tag, ∀ n ∈ tag.slot, n ≤ u32Max) : SlotsFit bound := by
  unfold bindProject at hbind
  obtain ⟨st, hst, hbind⟩ := except_bind_ok.mp hbind
  have hstart : SlotsFit st := by
    refine except_foldlM_invariant hst SlotsFit ?_ ⟨Nat.zero_le _, Nat.zero_le _, by simp⟩
    intro st tag st' htag h hadd
    exact h.addTag (htags tag htag) hadd
  refine except_foldlM_invariant hbind SlotsFit ?_ hstart
  intro st x st' _ h hsections
  refine except_foldlM_invariant hsections SlotsFit ?_ h
  intro st s st' _ h hvars
  refine except_foldlM_invariant hvars SlotsFit ?_ h
  intro st v st' _ h hvar
  exact h.bindVar hvar

/-! ## Emission -/

section Emission

variable {order : HashOrder} {g g' : Codegen}

/-- What emission leaves of the bound symbols. -/
structure SameSymbols (st st' : BindState) : Prop where
  retainSymbols : st'.retainSymbols = st.retainSymbols
  retain : st'.alloc.retain = st.alloc.retain
  inputSlots : st'.inputSlots = st.inputSlots
  outputSlots : st'.outputSlots = st.outputSlots
  tagDictionary : st'.tagDictionary = st.tagDictionary

theorem SameSymbols.trans {st st' st'' : BindState} (h : SameSymbols st st')
    (h' : SameSymbols st' st'') : SameSymbols st st'' where
  retainSymbols := h'.retainSymbols.trans h.retainSymbols
  retain := h'.retain.trans h.retain
  inputSlots := h'.inputSlots.trans h.inputSlots
  outputSlots := h'.outputSlots.trans h.outputSlots
  tagDictionary := h'.tagDictionary.trans h.tagDictionary

theorem sameSymbols_instanceSymbols {fbs : FbLayouts} {maxInstances : ℕ}
    {instances : List (String × TypeDef)} {st st' : BindState} {locals locals' : Symbols}
    (h : instanceSymbols fbs maxInstances instances st locals = .ok (locals', st')) :
    SameSymbols st st' := by
  induction instances generalizing st locals with
  | nil =>
      cases h
      exact ⟨rfl, rfl, rfl, rfl, rfl⟩
  | cons x rest ih =>
      obtain ⟨iname, ity⟩ := x
      unfold instanceSymbols at h
      split at h
      · obtain ⟨⟨storage, st₁⟩, hnew, h⟩ := except_bind_ok.mp h
        obtain ⟨outs, alloc, houts, -, -, rfl⟩ := newPrim_ok hnew
        refine SameSymbols.trans ?_ (ih h)
        exact ⟨rfl, allocOutputs_retain houts, rfl, rfl, rfl⟩
      · obtain ⟨layout, -, h⟩ := except_bind_ok.mp h
        obtain ⟨⟨base, alloc⟩, halloc, h⟩ := except_bind_ok.mp h
        obtain ⟨-, rfl⟩ := allocData_ok halloc
        refine SameSymbols.trans ?_ (ih h)
        exact ⟨rfl, rfl, rfl, rfl, rfl⟩
      · exact ih h

/-- Entries that are named as the reader of a module expects. -/
def Flagged (entries : List EntryPoint) : Prop :=
  ∀ e ∈ entries, e.isUserFb = userFbName e.name ∧ e.pc < 2 ^ 32

theorem Flagged.entry {entries : List EntryPoint} (h : Flagged entries) {name : String} {flag : Bool}
    {len : ℕ} (hflag : flag = userFbName name) :
    Flagged (entries ++ [⟨name, len % 2 ^ 32, flag⟩]) := by
  intro e he
  rcases List.mem_append.mp he with he | he
  · exact h e he
  · obtain rfl := List.mem_singleton.mp he
    exact ⟨hflag, Nat.mod_lt _ (by decide)⟩

theorem userFbName_fb (id : ℕ) : userFbName (fbEntryName id) = true := by
  simp [userFbName, fbEntryName]

theorem userFbName_task (name : String) : userFbName ("task." ++ name) = false := by
  simp [userFbName]

/-- A body adds no entry. -/
theorem emitBody_entries {locals : Symbols} {body : List Stmt} {last : Opcode} {u : Unit}
    (h : emitBody order locals body last g = .ok u g') : g'.entries = g.entries := by
  obtain ⟨T, g₁, hgrows, rfl⟩ := emitBody_ok h
  exact hgrows.entries

theorem emitTask_entries {t : TaskMap} {p : Program} {u : Unit}
    (h : emitTask order t p g = .ok u g') :
    g'.entries = g.entries ++ [⟨"task." ++ t.name, g.code.length % 2 ^ 32, false⟩] := by
  obtain ⟨⟨⟩, g₁, hentry, hbody⟩ := estate_bind_ok.mp h
  cases hentry
  exact emitBody_entries hbody

/-- Every task gets its entry. -/
theorem emitTasks_entries {programs : List (String × Program)} {tasks : List TaskMap} {u : Unit}
    (h : emitTasks order programs tasks g = .ok u g') :
    g.entries ⊆ g'.entries ∧ ∀ t ∈ tasks, ∃ e ∈ g'.entries, e.name = "task." ++ t.name := by
  induction tasks generalizing g with
  | nil =>
      cases h
      exact ⟨fun e he => he, by simp⟩
  | cons t tasks ih =>
      rw [emitTasks] at h
      rcases hp : programs.lookup (lower t.program) with _ | p
      · rw [hp] at h
        exact absurd h unwrapFail_ok
      · rw [hp] at h
        obtain ⟨⟨⟩, g₁, h₁, h⟩ := estate_bind_ok.mp h
        obtain ⟨hsub, hall⟩ := ih h
        rw [emitTask_entries h₁] at hsub
        refine ⟨fun e he => hsub (List.mem_append_left _ he), ?_⟩
        intro t' ht'
        rcases List.mem_cons.mp ht' with rfl | ht'
        · exact ⟨_, hsub (List.mem_append_right _ List.mem_cons_self), rfl⟩
        · exact hall t' ht'

/-- What the emission of a project does to its symbols and entries. -/
theorem emitProject_symbols {file : ProjectFile} {programs : List (String × Program)}
    {fbs : FbLayouts} {bound final : BindState} (hstart : g.entries = [])
    (h : emitProject order file programs fbs bound g = .ok final g') :
    SameSymbols bound final ∧ Flagged g'.entries ∧
      ∀ t ∈ file.task, ∃ e ∈ g'.entries, e.name = "task." ++ t.name := by
  unfold emitProject at h
  obtain ⟨st, g₁, h₁, h⟩ := estate_bind_ok.mp h
  obtain ⟨u, g₂, h₂, h⟩ := estate_bind_ok.mp h
  cases h
  have hfbs : SameSymbols bound final ∧ Flagged g₁.entries := by
    refine emitFbs_invariant (I := fun st g => SameSymbols bound st ∧ Flagged g.entries) ?_ ?_ h₁
    · rintro id key layout st st' g g' ⟨hsame, hflagged⟩ hfb
      obtain ⟨locals, hlocals, hbody⟩ := emitFb_ok hfb
      refine ⟨hsame.trans (sameSymbols_instanceSymbols hlocals), ?_⟩
      rw [emitBody_entries hbody]
      exact hflagged.entry (userFbName_fb id).symm
    · refine ⟨⟨rfl, rfl, rfl, rfl, rfl⟩, ?_⟩
      rw [hstart]
      intro e he
      cases he
  refine ⟨hfbs.1, ?_, (emitTasks_entries h₂).2⟩
  refine emitTasks_invariant (I := fun g => Flagged g.entries) ?_ hfbs.2 h₂
  intro t p u g g' hg htask
  rw [emitTask_entries htask]
  exact hg.entry (userFbName_task t.name).symm

end Emission

/-! ## The module -/

/-- The sizes of the finished module. -/
theorem Codegen.finish_sizes {g : Codegen} {dataSize retainSize inputSlots outputSlots : ℕ}
    {m : IrModule} (h : g.finish dataSize retainSize inputSlots outputSlots = .ok m) :
    m.irMajor = irMajor ∧ m.irMinor = irMinor ∧ m.constSize = 0 ∧ m.constData = [] ∧
      retainSize ≤ m.retainSize ∧ m.inputSlots = inputSlots ∧ m.outputSlots = outputSlots := by
  unfold Codegen.finish at h
  obtain ⟨code, -, h⟩ := except_bind_ok.mp h
  cases h
  exact ⟨rfl, rfl, rfl, rfl, le_max_left _ _, rfl, rfl⟩

/-- A verified module has small segments. -/
theorem verified_sizes {m : IrModule} (h : verifyModule m = .ok ()) :
    m.dataSize < 2 ^ 32 ∧ m.retainSize < 2 ^ 32 := by
  unfold verifyModule at h
  by_cases hmajor : m.irMajor ≠ irMajor
  · rw [if_pos hmajor] at h
    cases h
  · by_cases hcode : m.code.length % 2 ^ 32 > maxCodeBytes
    · rw [if_neg hmajor, if_pos hcode] at h
      cases h
    · by_cases hsum : satAdd32 m.dataSize m.retainSize > maxDataRetain
      · rw [if_neg hmajor, if_neg hcode, if_pos hsum] at h
        cases h
      · have hmax : maxDataRetain < u32Max := by decide
        unfold satAdd32 at hsum
        have hle : m.dataSize + m.retainSize < u32Max := by
          by_contra hlarge
          rw [min_eq_right (not_lt.mp hlarge)] at hsum
          omega
        have hu : u32Max = 2 ^ 32 - 1 := rfl
        omega

/-- The retain symbols, slots and entries of a compiled project. -/
structure Declared (c : Compiled) (file : ProjectFile) : Prop where
  placed : Placed c.bound
  slots : SlotsFit c.bound
  same : SameSymbols c.bound c.final
  flagged : Flagged c.module.entries
  tasks : ∀ t ∈ file.task, ∃ e ∈ c.module.entries, e.name = "task." ++ t.name

theorem Stages.declared {order : HashOrder} {p : LoadedProject} {c : Compiled} (h : Stages order p c)
    (hnames : ∀ x ∈ c.decls.programVars, x.2.name ≠ "")
    (htags : ∀ tag ∈ p.file.tag, ∀ n ∈ tag.slot, n ≤ u32Max) : Declared c p.file := by
  obtain ⟨hsame, hflagged, htasks⟩ := emitProject_symbols rfl h.emitted
  have hentries := Codegen.finish_entries h.finished
  rw [← hentries] at hflagged htasks
  exact ⟨placed_bindProject h.bound hnames, slotsFit_bindProject h.bound htags, hsame, hflagged,
    htasks⟩

end SoftPlc.Compiler
