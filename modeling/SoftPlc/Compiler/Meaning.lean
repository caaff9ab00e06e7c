import SoftPlc.Compiler.Separation
import SoftPlc.Compiler.Statements
import SoftPlc.St.Frame
import SoftPlc.Vm.Verified

/-!
# What compiled tasks mean

The bodies of function blocks and tasks are emitted one behind the other. `Continues` says what the
emission of a body keeps for the next one: the global symbols, no local ones, and labels that are
placed once. So the module is linked (`compiled_linked`), the body of a task stands at its entry
(`compiled_begins`), and the run of the task ends as the meaning of its program says
(`compiled_task`).
-/

namespace SoftPlc.Compiler

open SoftPlc.Ir SoftPlc.St SoftPlc.Lib SoftPlc.Vm

variable {order : HashOrder} {g g' g₀ : Codegen} {env : Env} {N : ℕ} {Γ : Scope} {σ : Store}
  {s : VmState}

/-! ## Entry names are no part of a layout -/

theorem lookup_setEntryName (key name k : String) (fbs : FbLayouts) :
    ((setEntryName key name fbs).lookup k).map UserFbLayout.totalDataSize =
      (fbs.lookup k).map UserFbLayout.totalDataSize := by
  induction fbs with
  | nil => rfl
  | cons x fbs ih =>
      obtain ⟨k', layout⟩ := x
      rw [setEntryName]
      by_cases hkey : k' = key
      · rw [if_pos hkey, List.lookup_cons, List.lookup_cons]
        cases k == k' <;> rfl
      · rw [if_neg hkey, List.lookup_cons, List.lookup_cons]
        cases k == k'
        · exact ih
        · rfl

theorem byteSize_setEntryName (key name : String) (fbs : FbLayouts) (ty : TypeDef) :
    ty.byteSize (setEntryName key name fbs) = ty.byteSize fbs := by
  induction ty with
  | elem t => rfl
  | array e len ih => rw [TypeDef.byteSize, TypeDef.byteSize, ih]
  | prim id => rfl
  | userFb fb => rw [TypeDef.byteSize, TypeDef.byteSize, lookup_setEntryName]

theorem dataEnd_setEntryName (key name : String) (fbs : FbLayouts) (st : Storage) :
    st.dataEnd (setEntryName key name fbs) = st.dataEnd fbs := by
  cases st with
  | data off ty => rw [Storage.dataEnd, Storage.dataEnd, byteSize_setEntryName]
  | userInst fb base =>
      have h := congrArg (Option.map (base + ·)) (lookup_setEntryName key name (lower fb) fbs)
      rwa [Option.map_map, Option.map_map] at h
  | _ => rfl

theorem globalsEnd_setEntryName (g : Codegen) (key name : String) (entries : List EntryPoint) :
    ({ g with fbLayouts := setEntryName key name g.fbLayouts, entries := entries } :
      Codegen).globalsEnd = g.globalsEnd := by
  simp only [Codegen.globalsEnd, dataEnd_setEntryName]

/-! ## Bodies one behind the other -/

/-- An emitter behind bodies that another one emitted. -/
structure Continues (g₀ g : Codegen) : Prop where
  /-- Globals stay. -/
  globals : g.globals = g₀.globals
  /-- The symbols of a body are gone. -/
  locals : g.locals = []
  /-- The data of the globals stays where it is. -/
  globalsEnd : g.globalsEnd = g₀.globalsEnd
  /-- Temporaries are added at the end. -/
  extraData : g₀.extraData ≤ g.extraData
  /-- Labels are placed once. -/
  labels : ∀ l, g.items.count (.label l) ≤ inRange 0 g.labelId l

/-- The top does not sink. -/
theorem Continues.top (h : Continues g₀ g) : g₀.top ≤ g.top := by
  unfold Codegen.top
  rw [h.globalsEnd]
  exact max_le_max le_rfl h.extraData

/-- A label number is used or not. -/
theorem inRange_le (lo hi : ℕ) (l : Label) : inRange lo hi l ≤ 1 := by
  unfold inRange
  split_ifs <;> omega

/-- Behind a body. -/
theorem Continues.body (h : Continues g₀ g) {locals : Symbols} {body : List Stmt} {last : Opcode}
    {u : Unit} (hbody : emitBody order locals body last g = .ok u g') : Continues g₀ g' := by
  obtain ⟨T, g₁, hgrows, rfl⟩ := emitBody_ok hbody
  refine ⟨hgrows.globals.trans h.globals, rfl, hgrows.toExt.globalsEnd.trans h.globalsEnd,
    h.extraData.trans hgrows.extraData, ?_⟩
  intro l
  have hplaced := hgrows.placed l
  have hbefore := h.labels l
  have hrange := inRange_add (Nat.zero_le g.labelId) hgrows.labelId l
  have hlast : (g₁.adds [.simple last 0]).items.count (.label l) = g₁.items.count (.label l) := by
    rw [Codegen.adds_items, List.count_append]
    rfl
  show (g₁.adds [.simple last 0]).items.count (.label l) ≤ inRange 0 g₁.labelId l
  rw [hlast, ← hrange]
  exact hplaced.trans (Nat.add_le_add_right hbefore _)

/-- A new entry. -/
theorem Continues.entry (h : Continues g₀ g) (entries : List EntryPoint) :
    Continues g₀ { g with entries := entries } :=
  ⟨h.globals, h.locals, h.globalsEnd, h.extraData, h.labels⟩

/-- Behind a function block. -/
theorem Continues.fb (h : Continues g₀ g) {maxInstances id : ℕ} {key : String}
    {layout : UserFbLayout} {st st' : BindState}
    (hfb : emitFb order maxInstances id key layout st g = .ok st' g') : Continues g₀ g' := by
  obtain ⟨locals, -, hbody⟩ := emitFb_ok hfb
  refine Continues.body ?_ hbody
  exact ⟨h.globals, h.locals, (globalsEnd_setEntryName g _ _ _).trans h.globalsEnd, h.extraData,
    h.labels⟩

/-- Behind a task. -/
theorem Continues.task (h : Continues g₀ g) {t : TaskMap} {p : Program} {u : Unit}
    (htask : emitTask order t p g = .ok u g') : Continues g₀ g' := by
  obtain ⟨⟨⟩, g₁, hentry, hbody⟩ := estate_bind_ok.mp htask
  cases hentry
  exact (h.entry _).body hbody

/-! ## Tasks in the module -/

/-- Where the body of a task is emitted. -/
structure Begins (g₀ g' : Codegen) (order : HashOrder) (t : TaskMap) (body : List Stmt)
    (g₁ g₂ : Codegen) : Prop where
  /-- The emitter before the body. -/
  continues : Continues g₀ g₁
  /-- The body. -/
  emitted : emitBody order [] body .halt g₁ = .ok () g₂
  /-- What follows keeps the items, -/
  items : g₂.items <+: g'.items
  /-- the temporaries, -/
  top : g₂.top ≤ g'.top
  /-- and the entry of the task, which is where the body begins. -/
  entry : ⟨"task." ++ t.name, g₁.pc % 2 ^ 32, false⟩ ∈ g'.entries

/-- Something is added behind what there is. -/
structure Behind (g g' : Codegen) : Prop where
  items : g.items <+: g'.items
  top : g.top ≤ g'.top
  entries : ∀ e ∈ g.entries, e ∈ g'.entries

theorem Behind.refl (g : Codegen) : Behind g g :=
  ⟨List.prefix_refl _, le_rfl, fun _ he => he⟩

theorem Behind.trans {g₁ g₂ g₃ : Codegen} (h : Behind g₁ g₂) (h' : Behind g₂ g₃) : Behind g₁ g₃ :=
  ⟨h.items.trans h'.items, h.top.trans h'.top, fun e he => h'.entries e (h.entries e he)⟩

/-- A task is added behind what there is. -/
theorem emitTask_behind {t : TaskMap} {p : Program} {u : Unit}
    (h : emitTask order t p g = .ok u g') : Behind g g' := by
  have hentries := emitTask_entries h
  obtain ⟨⟨⟩, g₁, hentry, hbody⟩ := estate_bind_ok.mp h
  cases hentry
  obtain ⟨T, g₂, hgrows, rfl⟩ := emitBody_ok hbody
  refine ⟨hgrows.items.trans (List.prefix_append _ _), hgrows.top, fun e he => ?_⟩
  rw [hentries]
  exact List.mem_append_left _ he

/-- Every task of a list is emitted. -/
theorem emitTasks_begins {programs : List (String × Program)} {tasks : List TaskMap} {u : Unit}
    (hg : Continues g₀ g) (h : emitTasks order programs tasks g = .ok u g') {t : TaskMap}
    (ht : t ∈ tasks) {p : Program} (hp : programs.lookup (lower t.program) = some p) :
    ∃ g₁ g₂, Begins g₀ g' order t p.body g₁ g₂ := by
  induction tasks generalizing g with
  | nil => cases ht
  | cons t' tasks ih =>
      rw [emitTasks] at h
      rcases hp' : programs.lookup (lower t'.program) with _ | p'
      · rw [hp'] at h
        exact absurd h unwrapFail_ok
      · rw [hp'] at h
        obtain ⟨⟨⟩, g₂, htask, hrest⟩ := estate_bind_ok.mp h
        rcases List.mem_cons.mp ht with rfl | ht
        · obtain rfl : p = p' := Option.some.inj (hp.symm.trans hp')
          obtain ⟨⟨⟩, g₁, hentry, hbody⟩ := estate_bind_ok.mp htask
          cases hentry
          -- the tasks that follow
          obtain ⟨hitems, htop, hentries⟩ := emitTasks_invariant (I := Behind g₂)
            (fun hbehind htask => hbehind.trans (emitTask_behind htask)) (.refl g₂) hrest
          refine ⟨_, g₂, hg.entry _, hbody, hitems, htop, hentries _ ?_⟩
          rw [emitBody_entries hbody, Codegen.pc, ← flatMap_bytes_length]
          exact List.mem_append_right _ (List.mem_singleton_self _)
        · exact ih (hg.task htask) hrest ht

/-- The whole emission. -/
theorem Stages.continues {p : LoadedProject} {c : Compiled} (h : Stages order p c) :
    (∃ g, Continues c.start g ∧
      emitTasks order c.decls.programs p.file.task g = .ok () c.codegen) ∧
    Continues c.start c.codegen := by
  have hrun := h.emitted
  unfold emitProject at hrun
  obtain ⟨st, g₁, h₁, hrun⟩ := estate_bind_ok.mp hrun
  obtain ⟨⟨⟩, g₂, h₂, hrun⟩ := estate_bind_ok.mp hrun
  cases hrun
  have hcont : Continues c.start g₁ :=
    emitFbs_invariant (I := fun _ g => Continues c.start g) (fun hg hfb => hg.fb hfb)
      ⟨rfl, rfl, rfl, le_rfl, fun l => Nat.zero_le _⟩ h₁
  exact ⟨⟨g₁, hcont, h₂⟩, emitTasks_invariant (fun hg htask => hg.task htask) hcont h₂⟩

/-! ## The module -/

/-- **Compiled code is linked.** -/
theorem compiled_linked {p : LoadedProject} {c : Compiled} (h : Stages order p c)
    (hsize : c.module.code.length < 2 ^ 32) : Linked c.codegen.items c.module.code :=
  Codegen.finish_linked h.finished (fun l => (h.continues.2.labels l).trans (inRange_le _ _ l))
    (compiled_short h hsize)

/-- **The body of every task stands at its entry.** -/
theorem compiled_begins {p : LoadedProject} {c : Compiled} (h : Stages order p c)
    (hsize : c.module.code.length < 2 ^ 32) {t : TaskMap} (ht : t ∈ p.file.task) {pr : Program}
    (hp : c.decls.programs.lookup (lower t.program) = some pr) :
    ∃ g₁ g₂, Begins c.start c.codegen order t pr.body g₁ g₂ ∧
      ⟨"task." ++ t.name, g₁.pc, false⟩ ∈ c.module.entries := by
  obtain ⟨⟨g, hcont, hrun⟩, -⟩ := h.continues
  obtain ⟨g₁, g₂, hbegins⟩ := emitTasks_begins hcont hrun ht hp
  refine ⟨g₁, g₂, hbegins, ?_⟩
  have hle : g₁.pc ≤ itemsSize c.codegen.items := by
    obtain ⟨T, g₃, hgrows, rfl⟩ := emitBody_ok hbegins.emitted
    have hpre : g₁.items <+: c.codegen.items :=
      (hgrows.items.trans (List.prefix_append _ _)).trans hbegins.items
    obtain ⟨post, hpost⟩ := hpre
    rw [← hpost, itemsSize_append]
    exact Nat.le_add_right _ _
  have hshort := compiled_short h hsize
  have hentry := hbegins.entry
  rw [Nat.mod_eq_of_lt (by omega)] at hentry
  rwa [Codegen.finish_entries h.finished]

/-! ## The scope of a task -/

/-- Without symbols of its own, a body sees the globals. -/
theorem Continues.look (h : Continues g₀ g) (hlocals : g₀.locals = []) (n : String) :
    g.look n = g₀.look n := by
  rw [Codegen.look, Codegen.look, h.locals, h.globals, hlocals]

/-- What is known before the first body is known before every body. -/
theorem Continues.knows (h : Continues g₀ g) (hlocals : g₀.locals = []) (hk : Knows env Γ g₀ []) :
    Knows env Γ g [] := by
  have hlook := h.look hlocals
  refine ⟨fun hn => ?_, fun hn hst => hk.left hn (hlook _ ▸ hst), ⟨?_, ?_⟩, ?_, hk.slots,
    hk.instances, hk.inputs, by simp, by simp, .nil⟩
  · obtain ⟨st, hst, he⟩ := hk.bound hn
    exact ⟨st, (hlook _).trans hst, he⟩
  · intro n st k off t hst hcell
    exact (hk.apart.below (hlook _ ▸ hst) hcell).trans h.top
  · intro n st k off t n' st' k' off' t' hst hcell hst' hcell'
    exact hk.apart.disjoint (hlook _ ▸ hst) hcell (hlook _ ▸ hst') hcell'
  · intro n off t n' off' t' hst hst'
    exact hk.retained (hlook _ ▸ hst) (hlook _ ▸ hst')

/-- A state represents the same before every body. -/
theorem Continues.represents_iff (h : Continues g₀ g) (hlocals : g₀.locals = []) :
    Represents env N Γ g [] σ s ↔ Represents env N Γ g₀ [] σ s := by
  have hlook := h.look hlocals
  constructor
  · intro hr
    exact ⟨hr.frames, hr.addresses, hr.size, hr.inputs, hr.prims, hr.div0,
      fun hn hst => hr.cells hn ((hlook _).trans hst),
      fun hn hst => hr.retain hn ((hlook _).trans hst), hr.outputs, by simp⟩
  · intro hr
    exact ⟨hr.frames, hr.addresses, hr.size, hr.inputs, hr.prims, hr.div0,
      fun hn hst => hr.cells hn (hlook _ ▸ hst), fun hn hst => hr.retain hn (hlook _ ▸ hst),
      hr.outputs, by simp⟩

/-! ## Runs -/

/-- The step limit is no part of a step. -/
theorem stepVm_ofModule (m : IrModule) (budget budget' nowMs : ℕ) :
    stepVm (.ofModule m budget) nowMs = stepVm (.ofModule m budget') nowMs := rfl

/-- How the run of a task ends, by the meaning of its body. -/
def Concludes (R : Store → VmState → Prop) : EStateM.Result Exit Store Unit → RunResult → Prop
  | .ok _ σ, r => r.1 = .ok .halted ∧ R σ r.2
  | .error e σ, r => Ends R e σ r

/-- A task whose machine does what a computation does, up to a `HALT`, ends as the computation. The
verifier excludes that the operand stack overflows. -/
theorem concludes_of_mirrors {m : IrModule} (hv : verifyModule m = .ok ()) {e : EntryPoint}
    (he : e ∈ m.entries) {R : Store → VmState → Prop} {x : EStateM.Result Exit Store Unit}
    {endPc nowMs : ℕ} (hend : decodeInstruction m.code endPc = .ok (.simple .halt 0, 4))
    (h : Mirrors (.ofModule m 0) nowMs R x (fun _ σ c => c.pc = endPc ∧ R σ c.state)
      ⟨s.enter, e.pc⟩) :
    ∃ n, ∀ budget, n < budget → Concludes R x (runAt (.ofModule m budget) e.pc nowMs s) := by
  obtain ⟨seen, -, hcert⟩ := verifyModule_certified hv he
  have hgo : ∀ c c', OnRecord m e.pc seen c → Calm (.ofModule m 0) c →
      stepVm (.ofModule m 0) nowMs c = .go c' → OnRecord m e.pc seen c' :=
    fun c c' hon hcalm hstep => hon.step hcert hcalm hstep
  have hslack : ∀ c r, OnRecord m e.pc seen c → Calm (.ofModule m 0) c →
      stepVm (.ofModule m 0) nowMs c = .stop r → ¬Overflow r := by
    rintro c r hon - hstop ⟨pc, hover⟩
    exact (hon.stop hcert hstop pc "").2.2 hover
  have hstop : ∀ (u : Unit) σ t, x = .ok u σ → t.pc = endPc ∧ R σ t.state →
      ∃ r, stepVm (.ofModule m 0) nowMs t = .stop r ∧ r.1 = .ok .halted ∧ R σ r.2 := by
    rintro u σ ⟨t, pc⟩ - ⟨rfl, hR⟩
    have hdec : decodeInstruction (VmImage.ofModule m 0).code pc = .ok (.simple .halt 0, 4) := hend
    refine ⟨(.ok .halted, t), ?_, rfl, hR⟩
    simp only [stepVm, hdec, execInstr]
    rfl
  obtain ⟨n, hn⟩ := h.answers hgo hslack (.start hcert s) hstop
  refine ⟨n, fun budget hlt => ?_⟩
  unfold runAt
  rw [stepVm_ofModule m budget 0]
  rcases hn _ budget hlt with ⟨u, σ, hx, hP⟩ | ⟨exit, σ, hx, hends⟩
  · rw [hx]
    exact hP
  · rw [hx]
    exact hends

/-! ## Room for the data -/

/-- Nested instances are placed behind what there is. -/
theorem instanceSymbols_data {fbs : FbLayouts} {maxInstances : ℕ}
    {instances : List (String × TypeDef)} {st st' : BindState} {locals locals' : Symbols}
    (h : instanceSymbols fbs maxInstances instances st locals = .ok (locals', st')) :
    st.alloc.data ≤ st'.alloc.data := by
  induction instances generalizing st locals with
  | nil =>
      cases h
      exact le_rfl
  | cons x instances ih =>
      obtain ⟨name, ty⟩ := x
      cases ty with
      | elem t => exact ih h
      | array t len => exact ih h
      | userFb uname =>
          obtain ⟨layout, -, h⟩ := except_bind_ok.mp h
          obtain ⟨⟨base, alloc⟩, halloc, h⟩ := except_bind_ok.mp h
          obtain ⟨hbase, hdata, -⟩ := allocData_le halloc
          have hle : st.alloc.data ≤ alloc.data := by omega
          exact hle.trans (ih h)
      | prim id =>
          obtain ⟨⟨storage, st₁⟩, hnew, h⟩ := except_bind_ok.mp h
          obtain ⟨outs, alloc, houts, -, rfl, rfl⟩ := newPrim_ok hnew
          exact (allocOutputs_le houts).1.trans (ih h)

/-- **The data segment holds the variables of the programs and all temporaries.** -/
theorem compiled_top {p : LoadedProject} {c : Compiled} (h : Stages order p c) :
    c.codegen.top ≤ c.module.dataSize := by
  have hdata : max (max (max c.final.alloc.data c.codegen.extraData) c.codegen.extraData) 16 =
      c.module.dataSize := by
    have hfinished := h.finished
    unfold Codegen.finish at hfinished
    obtain ⟨code, -, heq⟩ := except_bind_ok.mp hfinished
    exact congrArg IrModule.dataSize (Except.ok.inj heq)
  have hfinal : c.bound.alloc.data ≤ c.final.alloc.data := by
    have hrun := h.emitted
    unfold emitProject at hrun
    obtain ⟨st, g₁, h₁, hrun⟩ := estate_bind_ok.mp hrun
    obtain ⟨⟨⟩, g₂, h₂, hrun⟩ := estate_bind_ok.mp hrun
    cases hrun
    refine emitFbs_invariant (I := fun st _ => c.bound.alloc.data ≤ st.alloc.data) ?_ le_rfl h₁
    intro id key layout st st' g g' hle hfb
    obtain ⟨locals, hlocals, -⟩ := emitFb_ok hfb
    exact hle.trans (instanceSymbols_data hlocals)
  have hglobals : c.codegen.globalsEnd ≤ c.bound.alloc.data :=
    h.continues.2.globalsEnd ▸ h.globalsEnd_le
  unfold Codegen.top
  omega

/-! ## Tasks -/

/-- Inputs and outputs have the types that the variables on their slots declare. -/
structure Compiled.Fits (c : Compiled) (env : Env) : Prop where
  /-- Variables on one `%Q` slot have one type. -/
  slots : ∀ {n slot t n' t'}, c.scope n = some (.output slot t) →
    c.scope n' = some (.output slot t') → t = t'
  /-- An input has the type of its variables. -/
  inputs : ∀ {n slot t}, c.scope n = some (.input slot t) →
    ∃ v, env.inputs.values[slot]? = some v ∧ v.irType = t

/-- A state of a module that holds the values of a store. -/
abbrev Compiled.Shows (c : Compiled) (env : Env) (σ : Store) (s : VmState) : Prop :=
  Represents env c.module.dataSize c.scope c.start [] σ s

/-- A task whose body begins somewhere in the code, run from there. -/
theorem Begins.concludes {p : LoadedProject} {c : Compiled} {t : TaskMap} {body : List Stmt}
    {g₁ g₂ : Codegen} (hbegins : Begins c.start c.codegen order t body g₁ g₂)
    (h : Stages order p c) (hsize : c.module.code.length < 2 ^ 32)
    (hmax : p.file.maxInstances ≤ 2 ^ 32)
    (he : ⟨"task." ++ t.name, g₁.pc, false⟩ ∈ c.module.entries) (hok : stmtsOk body c.scope = true)
    (hfits : c.Fits env) (hs : c.Shows env σ s.enter) :
    ∃ n, ∀ budget, n < budget → Concludes (c.Shows env) (execAll env body c.scope σ)
      (runAt (.ofModule c.module budget) g₁.pc env.nowMs s) := by
  have hcont := hbegins.continues
  have hshows : ∀ {σ s}, Represents env c.module.dataSize c.scope g₁ [] σ s ↔ c.Shows env σ s :=
    hcont.represents_iff rfl
  obtain ⟨g₃, hbody, rfl⟩ := emitBody_run hbegins.emitted
  have hsame : ({ g₁ with locals := [] } : Codegen) = g₁ := by rw [← hcont.locals]
  rw [hsame] at hbody
  have C : Target (.ofModule c.module 0) c.codegen.items := ⟨compiled_linked h hsize⟩
  have hlast : (g₃.adds [.simple .halt 0]).items <+: c.codegen.items := hbegins.items
  refine concludes_of_mirrors h.verified he
    (C.decode (stands_adds hlast) ⟨rfl, by decide, by decide⟩) ?_
  have hknows := compiled_knows h hmax hfits.slots hfits.inputs
  have hperforms := performs_stmts C (verified_sizes h.verified).1.le body hok
    (c.Shows env) (fun _ _ h => hshows.mp h) hbody ((List.prefix_append _ _).trans hlast)
    (hbegins.top.trans (compiled_top h)) (hcont.knows rfl hknows) (hshows.mpr hs)
  refine hperforms.mono ?_
  rintro _ σ' t' - hreach
  exact ⟨hreach.pc, hshows.mp hreach.represents⟩

/-- **Compiled tasks mean what their programs mean.** A task whose program is well typed, started in
a state that holds the values of a store, ends under every budget that is large enough, and as the
meaning of the program on that store says: it halts in a state that holds the values of the store that
the program leaves, it returns in one if the program returns, and it fails if the program does. -/
theorem compiled_task {p : LoadedProject} {c : Compiled} (hc : compileStages order p = .ok c)
    (hsize : c.module.code.length < 2 ^ 32) (hmax : p.file.maxInstances ≤ 2 ^ 32) {t : TaskMap}
    (ht : t ∈ p.file.task) {pr : Program}
    (hp : c.decls.programs.lookup (lower t.program) = some pr)
    (hok : stmtsOk pr.body c.scope = true) (hfits : c.Fits env) (hs : c.Shows env σ s.enter) :
    ∃ e ∈ c.module.entries, e.name = "task." ++ t.name ∧
      ∃ n, ∀ budget, n < budget →
        Concludes (c.Shows env) (execAll env pr.body c.scope σ)
          (runAt (.ofModule c.module budget) e.pc env.nowMs s) := by
  have hstages := compileStages_ok hc
  obtain ⟨g₁, g₂, hbegins, he⟩ := compiled_begins hstages hsize ht hp
  exact ⟨_, he, rfl, hbegins.concludes hstages hsize hmax he hok hfits hs⟩

/-- `FOR i := 1 TO 3 DO x := NOT x; END_FOR` -/
def toggleBody : List Stmt :=
  [.for "i" (.literal (.int 1)) (.literal (.int 3)) none none
    [.assign (ident "x") (.unary .not (ident "x"))]]

/-- `VAR x : BOOL; y : BOOL; END_VAR` and the loop. -/
def toggleProgram : Program :=
  ⟨"main", [⟨.var, [plainVar "x" "BOOL" none, plainVar "y" "BOOL" none]⟩], toggleBody⟩

/-- The program beside two function blocks. -/
def toggleProject : LoadedProject :=
  singleTask toggleProgram.vars toggleBody [⟨"a", [], []⟩, ⟨"b", [], [.return]⟩]

/-- The symbols of the project. -/
def toggleSymbols : Symbols := [("y", .data 1 (.elem .bool)), ("x", .data 0 (.elem .bool))]

/-- A store in which all variables are FALSE. -/
def allFalse : Store := ⟨fun _ => .bool false, .withCapacity 1, 0⟩

/-- What a body that ends normally leaves in a place. -/
def leaves (l : Loc) : EStateM.Result Exit Store Unit → Option VmValue
  | .ok _ σ => some (σ.vars l)
  | .error _ _ => none

theorem leaves_some {l : Loc} {x : EStateM.Result Exit Store Unit} {v : VmValue}
    (h : leaves l x = some v) : ∃ σ, x = .ok () σ ∧ σ.vars l = v := by
  cases x with
  | ok u σ => exact ⟨σ, rfl, Option.some.inj h⟩
  | error e σ => cases h

/-- What is computed of a compilation of the project. -/
structure Toggles (c : Compiled) : Prop where
  globals : c.bound.globals = toggleSymbols
  code : c.module.code.length < 2 ^ 32
  data : 1 < c.module.dataSize ∧ c.module.dataSize ≤ 2 ^ 24
  retain : c.module.retainSize ≤ 2 ^ 24
  inputs : c.module.inputSlots = 0
  outputs : c.module.outputSlots = 0

instance : DecidablePred Toggles := fun c =>
  decidable_of_iff (c.bound.globals = toggleSymbols ∧ c.module.code.length < 2 ^ 32 ∧
      (1 < c.module.dataSize ∧ c.module.dataSize ≤ 2 ^ 24) ∧ c.module.retainSize ≤ 2 ^ 24 ∧
      c.module.inputSlots = 0 ∧ c.module.outputSlots = 0)
    ⟨fun ⟨h₁, h₂, h₃, h₄, h₅, h₆⟩ => ⟨h₁, h₂, h₃, h₄, h₅, h₆⟩,
      fun h => ⟨h.globals, h.code, h.data, h.retain, h.inputs, h.outputs⟩⟩

section Toggle

variable {c : Compiled} (h : Toggles c)

include h

theorem Toggles.scope : c.scope = fun n => (toggleSymbols.lookup n).map Storage.entity := by
  funext n
  rw [Compiled.scope, Compiled.start_look, h.globals]

/-- The variables are `x` and `y`. -/
theorem Toggles.look {n : String} {storage : Storage} (hst : c.start.look n = some storage) :
    ∃ off, off ≤ 1 ∧ storage = .data off (.elem .bool) := by
  rw [Compiled.start_look, h.globals] at hst
  rcases List.mem_cons.mp (mem_of_lookup hst) with heq | hmem
  · exact ⟨1, le_rfl, (Prod.mk.inj heq).2⟩
  · exact ⟨0, Nat.zero_le 1, (Prod.mk.inj (List.mem_singleton.mp hmem)).2⟩

theorem Toggles.var {n : String} {e : Entity} (hn : c.scope n = some e) : e = .var .bool := by
  obtain ⟨storage, hst, rfl⟩ := Option.map_eq_some_iff.mp hn
  obtain ⟨off, -, rfl⟩ := h.look hst
  rfl

theorem Toggles.fits : c.Fits ⟨.bools 0, 0⟩ := by
  constructor
  · intro n slot t n' t' hn
    cases h.var hn
  · intro n slot t hn
    cases h.var hn

/-- Cold memory holds a store in which all variables are FALSE. -/
theorem Toggles.shows : c.Shows ⟨.bools 0, 0⟩ allFalse (VmState.cold c.module 1).enter := by
  refine ⟨rfl, ⟨rfl, ?_, ?_, ?_, ?_⟩, ByteSegment.len_zeros _, ?_, rfl, rfl, ?_, ?_, ?_, by simp⟩
  · exact (ByteSegment.len_zeros _).trans_le h.data.2
  · exact (ByteSegment.len_zeros _).trans_le h.retain
  · exact ((SlotImage.len_bools _).trans h.inputs).trans_le (Nat.zero_le _)
  · exact ((SlotImage.len_bools _).trans h.outputs).trans_le (Nat.zero_le _)
  · exact congrArg SlotImage.bools h.inputs
  · intro n st k off t _ hst hcell
    obtain ⟨off', hoff, rfl⟩ := h.look hst
    cases k with
    | zero =>
        cases hcell
        exact ⟨rfl, fun pc => load_zeros (hoff.trans_lt h.data.1)⟩
    | succ k => cases hcell
  · intro n off t _ hst
    obtain ⟨off', -, heq⟩ := h.look hst
    cases heq
  · intro n slot t hn
    cases h.var hn

/-- The loop does not write `y`. -/
theorem Toggles.spares : stmtsWrite toggleBody c.scope (.cell "y" 0) = false := by
  rw [h.scope]
  decide +kernel

theorem Toggles.ok : stmtsOk toggleBody c.scope = true := by
  rw [h.scope]
  decide +kernel

/-- The loop leaves `x` TRUE. -/
theorem Toggles.leaves :
    leaves (.cell "x" 0) (execAll ⟨.bools 0, 0⟩ toggleBody c.scope allFalse) = some (.bool true) := by
  rw [h.scope]
  decide +kernel

end Toggle

theorem toggle_program {order : HashOrder} {c : Compiled}
    (hc : compileStages order toggleProject = .ok c) :
    c.decls.programs.lookup (lower "main") = some toggleProgram := by
  have hdecls : c.decls.programs = [("main", toggleProgram)] :=
    congrArg Decls.programs
      (Except.ok.inj ((compileStages_ok hc).decls.symm.trans (by with_unfolding_all rfl)))
  rw [hdecls]
  with_unfolding_all rfl

theorem toggle_listed : ∃ c, compileStages .listed toggleProject = .ok c ∧ Toggles c :=
  except_of_decide (by decide +kernel)

/-- From cold memory the task halts with `x` TRUE. -/
theorem toggle_task :
    ∃ c, compileStages .listed toggleProject = .ok c ∧ ∃ e ∈ c.module.entries,
      e.name = "task." ++ "main" ∧ ∃ n, ∀ budget, n < budget →
        (runAt (.ofModule c.module budget) e.pc 0 (.cold c.module 1)).1 = .ok .halted ∧
          Holds (runAt (.ofModule c.module budget) e.pc 0 (.cold c.module 1)).2.data 0
            (.bool true) := by
  obtain ⟨c, hc, h⟩ := toggle_listed
  obtain ⟨σ, hexec, hx⟩ := leaves_some h.leaves
  obtain ⟨e, he, hname, n, hrun⟩ := compiled_task (t := ⟨"main", "main"⟩) hc h.code (by decide)
    (List.mem_singleton_self _) (toggle_program hc) h.ok h.fits h.shows
  refine ⟨c, hc, e, he, hname, n, fun budget hlt => ?_⟩
  have hend := hrun budget hlt
  have hbody : execAll ⟨.bools 0, 0⟩ toggleProgram.body c.scope allFalse = .ok () σ := hexec
  rw [hbody] at hend
  refine ⟨hend.1, ?_⟩
  have hst : c.start.look "x" = some (.data 0 (.elem .bool)) := by
    rw [Compiled.start_look, h.globals]
    rfl
  have hcell := hend.2.cells (n := "x") (k := 0) (by rw [Compiled.scope, hst]; rfl) hst rfl
  exact hx ▸ hcell.2

/-! ## What a task leaves alone -/

/-- What holds of every end that the meaning allows, holds of the end of a run that does not fail. -/
theorem Concludes.ok {R : Store → VmState → Prop} {x : EStateM.Result Exit Store Unit} {r : RunResult}
    (h : Concludes R x r) (hok : r.1.isOk = true) : R (finalStore x) r.2 := by
  cases x with
  | ok u σ => exact h.2
  | error e σ =>
      cases e with
      | returned => exact h.2
      | fault =>
          obtain ⟨f, hf⟩ := h
          rw [hf] at hok
          cases hok

/-- Two runs give one result, and where they do not fail they end in states of one store. -/
def Alike (R R' : Store → VmState → Prop) (r r' : RunResult) : Prop :=
  r.1.toOption = r'.1.toOption ∧ (r.1.isOk = true → ∃ σ, R σ r.2 ∧ R' σ r'.2)

/-- Runs with one meaning are alike. -/
theorem Concludes.alike {R R' : Store → VmState → Prop} {x : EStateM.Result Exit Store Unit}
    {r r' : RunResult} (h : Concludes R x r) (h' : Concludes R' x r') : Alike R R' r r' := by
  have hresult : r.1.toOption = r'.1.toOption := by
    cases x with
    | ok u σ => rw [h.1, h'.1]
    | error e σ =>
        cases e with
        | returned => rw [h.1, h'.1]
        | fault =>
            obtain ⟨f, hf⟩ := h
            obtain ⟨f', hf'⟩ := h'
            rw [hf, hf']
            rfl
  refine ⟨hresult, fun hok => ⟨finalStore x, h.ok hok, h'.ok ?_⟩⟩
  rcases hr : r.1 with f | a
  · rw [hr] at hok
    cases hok
  · rcases hr' : r'.1 with f | a'
    · rw [hr, hr'] at hresult
      cases hresult
    · rfl

/-- Programs are bound before a hash map is iterated. -/
theorem Stages.same {order' : HashOrder} {p : LoadedProject} {c c' : Compiled}
    (h : Stages order p c) (h' : Stages order' p c') : c.decls = c'.decls ∧ c.scope = c'.scope := by
  have hdecls : c.decls = c'.decls := Except.ok.inj (h.decls.symm.trans h'.decls)
  have hlayouts : c.fbLayouts = c'.fbLayouts :=
    Except.ok.inj (h.layouts.symm.trans (hdecls ▸ h'.layouts))
  have hbound : c.bound = c'.bound :=
    Except.ok.inj (h.bound.symm.trans (hlayouts ▸ hdecls ▸ h'.bound))
  refine ⟨hdecls, ?_⟩
  funext n
  rw [Compiled.scope, Compiled.scope, Compiled.start_look, Compiled.start_look, hbound]

/-- Everything in the opposite order. -/
def HashOrder.reversed : HashOrder where
  fbs l := l.reverse
  fbs_perm l := List.reverse_perm l
  named _ l := l.reverse
  named_perm _ l := List.reverse_perm l

theorem toggle_reversed : ∃ c, compileStages .reversed toggleProject = .ok c ∧ Toggles c :=
  except_of_decide (by decide +kernel)

end SoftPlc.Compiler
