import SoftPlc.Lib.Text
import SoftPlc.Scan.Outputs

/-!
# The cooperative schedule

`run_due`, `step`, `pick_due` and the due times of `plc-scan/src/engine.rs`. A run leaves a `Tick` for
each invocation and each install. `schedule_exact` says that due times count ticks, invoked or
skipped, that each invoked task was the first of those that were due, and that `run_due` comes to an
end when the clock stands still.
-/

namespace SoftPlc.Scan

open SoftPlc.Ir SoftPlc.Vm SoftPlc.Io SoftPlc.Lib

/-! ## Plans and clocks -/

/-- Source: `engine.rs`, `validate_tasks`; `names` are those of the tasks before. -/
def validateTask (names : List String) (t : TaskPlan) : Except ScanError Unit :=
  if trim t.name = [] then .error (.config "task.name must be non-empty")
  else if t.name ∈ names then .error (.config ("duplicate task.name '" ++ t.name ++ "'"))
  else if t.periodMs = 0 then .error (.config ("task '" ++ t.name ++ "': period_ms must be > 0"))
  else if trim t.entry = [] then .error (.config ("task '" ++ t.name ++ "': entry must be non-empty"))
  else .ok ()

/-- Source: `engine.rs`, the `for` of `validate_tasks`. -/
def validateFrom (names : List String) : List TaskPlan → Except ScanError Unit
  | [] => .ok ()
  | t :: ts => do
      validateTask names t
      validateFrom (t.name :: names) ts

/-- Source: `engine.rs`, `validate_tasks`. -/
def validateTasks (tasks : List TaskPlan) : Except ScanError Unit :=
  if tasks = [] then .error (.config "scan.tasks must not be empty") else validateFrom [] tasks

/-- The last millisecond of a clock that counts nanoseconds in a `u64`. Source:
`plc-scan/src/clock.rs`, `ScanClock::now_ms`. -/
def clockMax : ℕ := ScanEngine.u64Max / 1000000

/-- The readings of a cycle are those of such a clock. -/
structure Cycle.Clocked (c : Cycle) : Prop where
  install : c.installMs ≤ clockMax
  commit : c.commitMs ≤ clockMax
  now : c.nowMs ≤ clockMax
  invoke : c.invokeMs ≤ clockMax

/-- Periods are `u32`. -/
def PeriodsFit (tasks : List TaskPlan) : Prop := ∀ t ∈ tasks, t.periodMs < 2 ^ 32

/-- A task goes before another one: higher priority first, then by name. -/
def Precedes (tasks : List TaskPlan) (a b : ℕ) : Prop :=
  ∃ s ∈ tasks[a]?, ∃ t ∈ tasks[b]?, t.priority < s.priority ∨
    (s.priority = t.priority ∧ s.name < t.name)

/-- A task that goes before all others. -/
def Highest (tasks : List TaskPlan) (i : ℕ) : Prop :=
  i < tasks.length ∧ ∀ j < tasks.length, j ≠ i → Precedes tasks i j

/-! ## Ticks -/

/-- What a run leaves in the schedule. -/
inductive Tick where
  /-- A task was picked at a reading of the clock, with the due times then. -/
  | invoked (task nowMs : ℕ) (due : List ℕ)
  /-- A program was installed, at a reading of the clock and with the due times before and after. -/
  | installed (nowMs : ℕ) (before after : List ℕ)

namespace IoEngine

/-- The ticks of a turn of the loop. -/
def roundTicks (e : IoEngine) (c : Cycle) : Option (IoEngine × List Tick) :=
  let (i, marks) := e.tryEpochInstall c
  let installs := if marks.isEmpty then [] else [.installed c.commitMs e.base.nextDue i.base.nextDue]
  match i.base.pickDue c.nowMs with
  | none => some (i, installs)
  | some task =>
      (i.invoke task c).map fun p => (p.1, installs ++ [.invoked task c.nowMs i.base.nextDue])

/-- The ticks of turns of the loop. -/
def roundsTicks (e : IoEngine) : List Cycle → Option (IoEngine × List Tick)
  | [] => some (e, [])
  | c :: cs => do
      let (e, now) ← e.roundTicks c
      let (e, later) ← e.roundsTicks cs
      pure (e, now ++ later)

/-- The ticks of an event. -/
def handleTicks (e : IoEngine) : EngineEvent → Option (IoEngine × List Tick)
  | .scan cycles => e.applyModeBoundary.roundsTicks cycles
  | ev => (e.handle ev).map fun p => (p.1, [])

end IoEngine

/-- The readings of an event are those of a clock. -/
def EngineEvent.Clocked : EngineEvent → Prop
  | .scan cycles => ∀ c ∈ cycles, c.Clocked
  | _ => True

/-- Runs of an engine with their ticks. -/
inductive TickRun (plan : ScanPlan) (io : ScanIo) : IoEngine → List Tick → Prop
  | start {vm : Option ArmedVm} {e : IoEngine} (h : IoEngine.new plan io vm = .ok e) :
      TickRun plan io e []
  | step {e e' : IoEngine} {ticks now : List Tick} {ev : EngineEvent} (h : TickRun plan io e ticks)
      (hclock : ev.Clocked) (hev : e.handleTicks ev = some (e', now)) :
      TickRun plan io e' (ticks ++ now)

/-- Events one after another, with their ticks. -/
def IoEngine.handleTicksAll (e : IoEngine) : List EngineEvent → Option (IoEngine × List Tick)
  | [] => some (e, [])
  | ev :: evs => do
      let (e, now) ← e.handleTicks ev
      let (e, later) ← e.handleTicksAll evs
      pure (e, now ++ later)

theorem TickRun.handleTicksAll {plan : ScanPlan} {io : ScanIo} {e e' : IoEngine}
    {ticks now : List Tick} {evs : List EngineEvent} (h : TickRun plan io e ticks)
    (hclock : ∀ ev ∈ evs, ev.Clocked) (hevs : e.handleTicksAll evs = some (e', now)) :
    TickRun plan io e' (ticks ++ now) := by
  induction evs generalizing e ticks now with
  | nil =>
      cases hevs
      rwa [List.append_nil]
  | cons ev evs ih =>
      obtain ⟨⟨e₁, now₁⟩, hev, hevs⟩ := Option.bind_eq_some_iff.mp hevs
      obtain ⟨⟨e₂, later⟩, hlater, hevs⟩ := Option.bind_eq_some_iff.mp hevs
      cases hevs
      obtain ⟨hone, hrest⟩ := List.forall_mem_cons.mp hclock
      rw [← List.append_assoc]
      exact ih (h.step hone hev) hrest hlater

/-- How a loop ended. -/
inductive LoopEnd where
  /-- No task was due. -/
  | idle (e : IoEngine)
  /-- The machine panicked. -/
  | panicked
  /-- Not within so many turns. -/
  | running

/-- The loop of `run_due`, with the readings and answers of each turn, for at most some turns.
Source: `engine.rs`, the `loop` of `ScanEngine::run_due`. -/
def IoEngine.runDueLoop (cs : ℕ → Cycle) : ℕ → ℕ → IoEngine → LoopEnd
  | 0, _, _ => .running
  | fuel + 1, k, e =>
      let i := (e.tryEpochInstall (cs k)).1
      match i.base.pickDue (cs k).nowMs with
      | none => .idle i
      | some task =>
          match i.invoke task (cs k) with
          | none => .panicked
          | some (e, _) => runDueLoop cs fuel (k + 1) e

/-- Source: `engine.rs`, `ScanEngine::run_due`. -/
def IoEngine.runDue (e : IoEngine) (cs : ℕ → Cycle) (fuel : ℕ) : LoopEnd :=
  runDueLoop cs fuel 0 e.applyModeBoundary

/-! ## What a run counts -/

/-- Invocations of a task. -/
def invocations (i : ℕ) (ticks : List Tick) : ℕ :=
  (ticks.map fun
    | .invoked task _ _ => if task = i then 1 else 0
    | .installed _ _ _ => 0).sum

open Classical in
/-- Installs at which a task other than the highest was due. -/
noncomputable def skips (tasks : List TaskPlan) (i : ℕ) (ticks : List Tick) : ℕ :=
  (ticks.map fun
    | .invoked _ _ _ => 0
    | .installed nowMs before _ =>
        if ¬Highest tasks i ∧ ∃ d ∈ before[i]?, d ≤ nowMs then 1 else 0).sum

/-- A task is due. -/
def Due (due : List ℕ) (nowMs i : ℕ) : Prop := ∃ d ∈ due[i]?, d ≤ nowMs

/-- **What each tick keeps to.** An invoked task was due, and no task that goes before it was. An
install moves every due task but the highest by one period, and nothing else. -/
def Tick.Lawful (tasks : List TaskPlan) : Tick → Prop
  | .invoked task nowMs due => Due due nowMs task ∧
      ∀ j, Due due nowMs j → j ≠ task → Precedes tasks task j
  | .installed nowMs before after => after.length = before.length ∧
      ∀ i t d, tasks[i]? = some t → before[i]? = some d →
        (¬Highest tasks i ∧ d ≤ nowMs → after[i]? = some (d + t.periodMs)) ∧
          (¬(¬Highest tasks i ∧ d ≤ nowMs) → after[i]? = some d)

/-! ## The order of the tasks -/

section Order

variable {tasks : List TaskPlan}

theorem validateTask_ok {names : List String} {t : TaskPlan} (h : validateTask names t = .ok ()) :
    t.name ∉ names ∧ 0 < t.periodMs := by
  unfold validateTask at h
  split_ifs at h with h₁ h₂ h₃
  exact ⟨h₂, Nat.pos_of_ne_zero h₃⟩

theorem validateFrom_ok {names : List String} (h : validateFrom names tasks = .ok ()) :
    (tasks.map TaskPlan.name).Nodup ∧ (∀ t ∈ tasks, t.name ∉ names) ∧ ∀ t ∈ tasks, 0 < t.periodMs := by
  induction tasks generalizing names with
  | nil => exact ⟨List.nodup_nil, (fun _ ht => nomatch ht), (fun _ ht => nomatch ht)⟩
  | cons t ts ih =>
      obtain ⟨⟨⟩, hhead, htail⟩ := except_bind_ok.mp h
      obtain ⟨hname, hperiod⟩ := validateTask_ok hhead
      obtain ⟨hnodup, hfresh, hperiods⟩ := ih htail
      refine ⟨?_, ?_, ?_⟩
      · rw [List.map_cons, List.nodup_cons]
        refine ⟨?_, hnodup⟩
        intro hmem
        obtain ⟨s, hs, heq⟩ := List.mem_map.mp hmem
        exact hfresh s hs (heq ▸ List.mem_cons_self)
      · intro s hs
        rcases List.mem_cons.mp hs with rfl | hs
        · exact hname
        · exact fun hmem => hfresh s hs (List.mem_cons_of_mem _ hmem)
      · intro s hs
        rcases List.mem_cons.mp hs with rfl | hs
        · exact hperiod
        · exact hperiods s hs

theorem validateTasks_ok (h : validateTasks tasks = .ok ()) :
    (tasks.map TaskPlan.name).Nodup ∧ ∀ t ∈ tasks, 0 < t.periodMs := by
  unfold validateTasks at h
  split_ifs at h
  obtain ⟨hnodup, -, hperiods⟩ := validateFrom_ok h
  exact ⟨hnodup, hperiods⟩

/-- The place of a task in the order. -/
def rank (tasks : List TaskPlan) (i : ℕ) : ℕᵒᵈ ×ₗ String :=
  let t := (tasks[i]?).getD ⟨"", 0, "", 0⟩
  toLex (OrderDual.toDual t.priority, t.name)

theorem ranksBefore_iff {a b : ℕ} (ha : a < tasks.length) (hb : b < tasks.length) :
    ranksBefore tasks a b = true ↔ rank tasks a ≤ rank tasks b := by
  unfold ranksBefore rank
  rw [List.getElem?_eq_getElem ha, List.getElem?_eq_getElem hb]
  simp only [Option.getD_some, Bool.or_eq_true, Bool.and_eq_true, decide_eq_true_eq, beq_iff_eq,
    Prod.Lex.toLex_le_toLex, OrderDual.toDual_lt_toDual, EmbeddingLike.apply_eq_iff_eq]

theorem scheduleOrder_perm (tasks : List TaskPlan) :
    (scheduleOrder tasks).Perm (List.range tasks.length) :=
  List.perm_insertionSort _ _

/-- **The order in which tasks are picked.** -/
theorem scheduleOrder_pairwise (hnames : (tasks.map TaskPlan.name).Nodup) :
    (scheduleOrder tasks).Pairwise (Precedes tasks) := by
  have hmem : ∀ {i}, i ∈ scheduleOrder tasks → i < tasks.length := by
    intro i hi
    exact List.mem_range.mp ((scheduleOrder_perm tasks).mem_iff.mp hi)
  have hmap : (scheduleOrder tasks).map (rank tasks) =
      ((List.range tasks.length).map (rank tasks)).insertionSort (· ≤ ·) := by
    refine List.map_insertionSort _ _ _ _ ?_
    intro a ha b hb
    exact ranksBefore_iff (List.mem_range.mp ha) (List.mem_range.mp hb)
  have hsorted : (scheduleOrder tasks).Pairwise fun a b => rank tasks a ≤ rank tasks b := by
    rw [← List.pairwise_map (f := rank tasks), hmap]
    exact List.pairwise_insertionSort _ _
  have hnodup : (scheduleOrder tasks).Nodup :=
    (scheduleOrder_perm tasks).nodup_iff.mpr List.nodup_range
  refine (hsorted.and hnodup).imp_of_mem ?_
  rintro a b ha hb ⟨hle, hne⟩
  have ha' := hmem ha
  have hb' := hmem hb
  refine ⟨tasks[a], List.getElem?_eq_getElem ha', tasks[b], List.getElem?_eq_getElem hb', ?_⟩
  unfold rank at hle
  rw [List.getElem?_eq_getElem ha', List.getElem?_eq_getElem hb'] at hle
  simp only [Option.getD_some, Prod.Lex.toLex_le_toLex, OrderDual.toDual_lt_toDual,
    EmbeddingLike.apply_eq_iff_eq] at hle
  rcases hle with hlt | ⟨heq, hname⟩
  · exact .inl hlt
  · refine .inr ⟨heq, lt_of_le_of_ne hname ?_⟩
    intro hsame
    apply hne
    have ha'' : a < (tasks.map TaskPlan.name).length := by rwa [List.length_map]
    have hb'' : b < (tasks.map TaskPlan.name).length := by rwa [List.length_map]
    apply (@List.Nodup.getElem_inj_iff _ _ hnames a ha'' b hb'').mp
    rw [List.getElem_map, List.getElem_map]
    exact hsame

theorem Precedes.asymm {a b : ℕ} (h : Precedes tasks a b) : ¬Precedes tasks b a := by
  obtain ⟨s, hs, t, ht, h⟩ := h
  rintro ⟨t', ht', s', hs', h'⟩
  obtain rfl := Option.some.inj ((show tasks[a]? = some s from hs).symm.trans hs')
  obtain rfl := Option.some.inj ((show tasks[b]? = some t from ht).symm.trans ht')
  rcases h with h | ⟨heq, h⟩
  · rcases h' with h' | ⟨heq', -⟩
    · omega
    · omega
  · rcases h' with h' | ⟨-, h'⟩
    · omega
    · exact lt_asymm h h'

/-- The first task of the order is the highest. -/
theorem head_scheduleOrder (hnames : (tasks.map TaskPlan.name).Nodup) {i : ℕ} (hi : i < tasks.length) :
    some i = (scheduleOrder tasks).head? ↔ Highest tasks i := by
  have hpair := scheduleOrder_pairwise hnames
  have hmem : ∀ {j}, j < tasks.length → j ∈ scheduleOrder tasks := by
    intro j hj
    exact (scheduleOrder_perm tasks).mem_iff.mpr (List.mem_range.mpr hj)
  rcases horder : scheduleOrder tasks with _ | ⟨a, rest⟩
  · have := hmem hi
    rw [horder] at this
    cases this
  · rw [horder] at hpair
    have hfirst := (List.pairwise_cons.mp hpair).1
    rw [List.head?_cons, Option.some_inj]
    constructor
    · rintro rfl
      refine ⟨hi, ?_⟩
      intro j hj hne
      have hj := hmem hj
      rw [horder] at hj
      exact hfirst j ((List.mem_cons.mp hj).resolve_left hne)
    · rintro ⟨-, hall⟩
      by_contra hne
      have hi' := hmem hi
      rw [horder] at hi'
      have ha : a < tasks.length := by
        have ha : a ∈ scheduleOrder tasks := by
          rw [horder]
          exact List.mem_cons_self
        exact List.mem_range.mp ((scheduleOrder_perm tasks).mem_iff.mp ha)
      exact (hfirst i ((List.mem_cons.mp hi').resolve_left hne)).asymm (hall a ha (Ne.symm hne))

end Order

/-! ## What a step does to the due times -/

/-- An engine that has the order, the periods and the number of these tasks. -/
structure Planned (tasks : List TaskPlan) (b : ScanEngine) : Prop where
  order : b.scheduleOrder = scheduleOrder tasks
  periods : b.tasks.map TaskPlan.periodMs = tasks.map TaskPlan.periodMs
  length : b.nextDue.length = tasks.length

/-- What keeps the order and the periods. -/
structure SameTasks (b b' : ScanEngine) : Prop where
  order : b'.scheduleOrder = b.scheduleOrder
  periods : b'.tasks.map TaskPlan.periodMs = b.tasks.map TaskPlan.periodMs

namespace SameTasks

variable {b b' b'' : ScanEngine}

theorem trans (h : SameTasks b b') (h' : SameTasks b' b'') : SameTasks b b'' :=
  ⟨h'.order.trans h.order, h'.periods.trans h.periods⟩

theorem planned {tasks : List TaskPlan} (h : SameTasks b b') (hb : Planned tasks b)
    (hlen : b'.nextDue.length = b.nextDue.length) : Planned tasks b' :=
  ⟨h.order.trans hb.order, h.periods.trans hb.periods, hlen.trans hb.length⟩

end SameTasks

namespace Planned

variable {tasks : List TaskPlan} {b : ScanEngine} {i : ℕ}

theorem period (h : Planned tasks b) (i : ℕ) :
    (b.tasks[i]?.map TaskPlan.periodMs).getD 0 = (tasks[i]?.map TaskPlan.periodMs).getD 0 := by
  rw [← List.getElem?_map, h.periods, List.getElem?_map]

theorem mem_order (h : Planned tasks b) : i ∈ b.scheduleOrder ↔ i < tasks.length := by
  rw [h.order, (scheduleOrder_perm tasks).mem_iff, List.mem_range]

end Planned

theorem setEntries_periods (tasks : List TaskPlan) (entries : List String) :
    (ScanEngine.setEntries tasks entries).map TaskPlan.periodMs = tasks.map TaskPlan.periodMs := by
  induction tasks generalizing entries with
  | nil => cases entries <;> rfl
  | cons t ts ih =>
      cases entries with
      | nil => rfl
      | cons entry entries => exact congrArg (t.periodMs :: ·) (ih entries)

/-- An install leaves a mark, and then the due tasks skip. -/
theorem install_due (e : IoEngine) (c : Cycle) :
    SameTasks e.base (e.tryEpochInstall c).1.base ∧
      (e.tryEpochInstall c).1.base.nextDue =
        if (e.tryEpochInstall c).2.isEmpty then e.base.nextDue else e.base.skipDue c.commitMs := by
  have hstep := tryEpochInstall_step e.base (IoEngine.toRound c [] false false)
  unfold IoEngine.tryEpochInstall
  rcases hbase : e.base.tryEpochInstall (IoEngine.toRound c [] false false) with ⟨base, outcome⟩
  rw [hbase] at hstep
  cases hstep with
  | idle => exact ⟨⟨rfl, rfl⟩, rfl⟩
  | faulted => exact ⟨⟨rfl, rfl⟩, rfl⟩
  | deferred => exact ⟨⟨rfl, rfl⟩, rfl⟩
  | installed => exact ⟨⟨rfl, setEntries_periods _ _⟩, rfl⟩

theorem runLogic_schedule {b b' : ScanEngine} {task nowMs : ℕ} {ok : Bool}
    (h : b.runLogic task nowMs = some (b', ok)) : b'.nextDue = b.nextDue ∧ b'.tasks = b.tasks := by
  unfold ScanEngine.runLogic at h
  split at h
  · cases h
    exact ⟨rfl, rfl⟩
  · dsimp only at h
    split at h
    · split_ifs at h
      · cases h
        exact ⟨rfl, rfl⟩
      · cases h
        exact ⟨rfl, rfl⟩
    · cases h
      exact ⟨rfl, rfl⟩
    · cases h

/-- An invocation moves its task by one period. -/
theorem invoke_due {e e' : IoEngine} {task : ℕ} {c : Cycle} {inv : Invocation}
    (h : e.invoke task c = some (e', inv)) :
    SameTasks e.base e'.base ∧ e'.base.nextDue = e.base.nextDue.modify task fun due =>
      ScanEngine.satAdd64 due ((e.base.tasks[task]?.map TaskPlan.periodMs).getD 0) := by
  obtain ⟨inputs, fault, trip, hinvoke⟩ := IoEngine.invoke_refines h
  obtain ⟨b, hlogic, hb⟩ := Option.map_eq_some_iff.mp hinvoke
  have hsample : ∀ r, (e.base.sampleInputs r).scheduleOrder = e.base.scheduleOrder ∧
      (e.base.sampleInputs r).nextDue = e.base.nextDue ∧
      (e.base.sampleInputs r).tasks = e.base.tasks := by
    intro r
    unfold ScanEngine.sampleInputs
    cases r.inputFault <;> exact ⟨rfl, rfl, rfl⟩
  have hran : b.scheduleOrder = e.base.scheduleOrder ∧ b.nextDue = e.base.nextDue ∧
      b.tasks = e.base.tasks := by
    obtain ⟨horder, hdue, htasks⟩ := hsample (IoEngine.toRound c inputs fault trip)
    unfold ScanEngine.logic at hlogic
    split_ifs at hlogic
    · obtain ⟨⟨b₁, ok⟩, hrun, rfl⟩ := Option.map_eq_some_iff.mp hlogic
      obtain ⟨horder₁, -⟩ := runLogic_engine hrun
      obtain ⟨hdue₁, htasks₁⟩ := runLogic_schedule hrun
      cases ok <;>
        exact ⟨horder₁.trans horder, hdue₁.trans hdue, htasks₁.trans htasks⟩
    · cases hlogic
      exact ⟨horder, hdue, htasks⟩
  obtain ⟨horder, hdue, htasks⟩ := hran
  have hfinish : ∀ r, (b.finishInvoke task r).scheduleOrder = b.scheduleOrder ∧
      (b.finishInvoke task r).tasks = b.tasks ∧ (b.finishInvoke task r).nextDue =
        b.nextDue.modify task fun due =>
          ScanEngine.satAdd64 due ((b.tasks[task]?.map TaskPlan.periodMs).getD 0) := by
    intro r
    unfold ScanEngine.finishInvoke
    cases r.trip <;> exact ⟨rfl, rfl, rfl⟩
  obtain ⟨horder', htasks', hdue'⟩ := hfinish (IoEngine.toRound c inputs fault trip)
  rw [hb] at horder' htasks' hdue'
  refine ⟨⟨horder'.trans horder, congrArg _ (htasks'.trans htasks)⟩, ?_⟩
  rw [hdue', hdue, htasks]

theorem boundary_due (e : IoEngine) :
    SameTasks e.base e.applyModeBoundary.base ∧
      e.applyModeBoundary.base.nextDue = e.base.nextDue := by
  unfold IoEngine.applyModeBoundary ScanEngine.applyModeBoundary
  dsimp only
  split
  · exact ⟨⟨rfl, rfl⟩, rfl⟩
  · split_ifs
    · exact ⟨⟨rfl, rfl⟩, rfl⟩
    · split <;> exact ⟨⟨rfl, rfl⟩, rfl⟩

/-- What happens outside a scan leaves the due times. -/
theorem outside_due {e e' : IoEngine} {ev : EngineEvent} {marks : List Mark}
    (hev : ∀ cs, ev ≠ .scan cs) (h : e.handle ev = some (e', marks)) :
    SameTasks e.base e'.base ∧ e'.base.nextDue = e.base.nextDue := by
  cases ev with
  | requestMode req =>
      cases h
      exact ⟨⟨rfl, rfl⟩, rfl⟩
  | force slot value =>
      cases h
      exact ⟨⟨rfl, rfl⟩, rfl⟩
  | unforce slot =>
      cases h
      exact ⟨⟨rfl, rfl⟩, rfl⟩
  | arm program restart =>
      cases h
      unfold IoEngine.arm ScanEngine.arm
      split_ifs <;> exact ⟨⟨rfl, rfl⟩, rfl⟩
  | disarm =>
      cases h
      unfold IoEngine.disarm
      split_ifs <;> exact ⟨⟨rfl, rfl⟩, rfl⟩
  | requestActivate =>
      cases h
      unfold IoEngine.requestActivate ScanEngine.requestActivate
      rcases e.base.armed with _ | a
      · split_ifs <;> exact ⟨⟨rfl, rfl⟩, rfl⟩
      · dsimp only
        split_ifs <;> exact ⟨⟨rfl, rfl⟩, rfl⟩
  | scan cs => exact absurd rfl (hev cs)

/-! ## Counting -/

section Counting

variable {tasks : List TaskPlan} {i : ℕ} {ticks later : List Tick}

@[simp] theorem invocations_append :
    invocations i (ticks ++ later) = invocations i ticks + invocations i later := by
  simp [invocations]

@[simp] theorem skips_append :
    skips tasks i (ticks ++ later) = skips tasks i ticks + skips tasks i later := by
  simp [skips]

@[simp] theorem invocations_installed {nowMs : ℕ} {before after : List ℕ} :
    invocations i [.installed nowMs before after] = 0 := by
  simp [invocations]

@[simp] theorem skips_invoked {task nowMs : ℕ} {due : List ℕ} :
    skips tasks i [.invoked task nowMs due] = 0 := by
  simp [skips]

theorem skips_installed {nowMs d : ℕ} {before after : List ℕ} (hd : before[i]? = some d) :
    (¬Highest tasks i ∧ d ≤ nowMs → skips tasks i [.installed nowMs before after] = 1) ∧
      (¬(¬Highest tasks i ∧ d ≤ nowMs) → skips tasks i [.installed nowMs before after] = 0) := by
  have hdue : (∃ d ∈ before[i]?, d ≤ nowMs) ↔ d ≤ nowMs := by
    rw [hd]
    simp
  simp only [skips, List.map_cons, List.map_nil, List.sum_cons, List.sum_nil, add_zero]
  constructor
  · intro h
    exact if_pos ⟨h.1, hdue.mpr h.2⟩
  · intro h
    exact if_neg fun h' => h ⟨h'.1, hdue.mp h'.2⟩

/-- No sum of a due time and a period saturates. -/
theorem satAdd64_due {due period : ℕ} (hdue : due ≤ clockMax) (hperiod : period < 2 ^ 32) :
    ScanEngine.satAdd64 due period = due + period := by
  have hmax : clockMax + 2 ^ 32 ≤ ScanEngine.u64Max := by decide
  unfold ScanEngine.satAdd64
  apply Nat.min_eq_left
  omega

/-- The task that is picked is the first of those that are due. -/
theorem pickDue_some {b : ScanEngine} {nowMs task : ℕ} (hnames : (tasks.map TaskPlan.name).Nodup)
    (h : Planned tasks b) (hdue : b.pickDue nowMs = some task) :
    Due b.nextDue nowMs task ∧ ∀ j, Due b.nextDue nowMs j → j ≠ task → Precedes tasks task j := by
  obtain ⟨htask, before, after, horder, hbefore⟩ := List.find?_eq_some_iff_append.mp hdue
  have hlt : task < b.nextDue.length := by
    rw [h.length, ← h.mem_order, horder]
    simp
  refine ⟨⟨b.nextDue[task], List.getElem?_eq_getElem hlt, ?_⟩, ?_⟩
  · simpa [List.getD_eq_getElem?_getD, hlt] using htask
  · rintro j ⟨d, hd, hle⟩ hne
    have hj : j < b.nextDue.length := (List.getElem?_eq_some_iff.mp hd).1
    have hmem : j ∈ before ++ task :: after := by
      rw [← horder, h.mem_order, ← h.length]
      exact hj
    have hnot : j ∉ before := by
      intro hmem
      have := hbefore j hmem
      rw [List.getD_eq_getElem?_getD, show b.nextDue[j]? = some d from hd] at this
      simp [hle] at this
    have hpair := scheduleOrder_pairwise hnames
    rw [← h.order, horder, List.pairwise_append] at hpair
    have hafter : j ∈ after := by
      rcases List.mem_append.mp hmem with hmem | hmem
      · exact absurd hmem hnot
      · exact (List.mem_cons.mp hmem).resolve_left hne
    exact (List.pairwise_cons.mp hpair.2.1).1 j hafter

/-- When nothing is picked, nothing is due. -/
theorem pickDue_none {b : ScanEngine} {nowMs : ℕ} (h : Planned tasks b)
    (hdue : b.pickDue nowMs = none) : ∀ d ∈ b.nextDue, nowMs < d := by
  intro d hd
  obtain ⟨j, hj, rfl⟩ := List.getElem_of_mem hd
  have hnone := List.find?_eq_none.mp hdue j (h.mem_order.mpr (h.length ▸ hj))
  simpa [List.getD_eq_getElem?_getD, hj] using hnone

open Classical in
/-- What an install does to one due time. -/
theorem skipDue_getElem {b : ScanEngine} {nowMs d : ℕ} {t : TaskPlan}
    (hnames : (tasks.map TaskPlan.name).Nodup) (hfit : PeriodsFit tasks) (h : Planned tasks b)
    (hnow : nowMs ≤ clockMax) (ht : tasks[i]? = some t) (hd : b.nextDue[i]? = some d) :
    (¬Highest tasks i ∧ d ≤ nowMs → (b.skipDue nowMs)[i]? = some (d + t.periodMs)) ∧
      (¬(¬Highest tasks i ∧ d ≤ nowMs) → (b.skipDue nowMs)[i]? = some d) := by
  have hi : i < tasks.length := (List.getElem?_eq_some_iff.mp ht).1
  have hhead : some i = b.scheduleOrder.head? ↔ Highest tasks i := by
    rw [h.order]
    exact head_scheduleOrder hnames hi
  have hskip : (b.skipDue nowMs)[i]? =
      some (if ¬Highest tasks i ∧ d ≤ nowMs then ScanEngine.satAdd64 d t.periodMs else d) := by
    unfold ScanEngine.skipDue
    rw [List.getElem?_mapIdx, hd, Option.map_some, h.period, ht, Option.map_some, Option.getD_some]
    congr 1
    apply if_congr
    · rw [ne_eq, hhead]
    · rfl
    · rfl
  rw [hskip]
  constructor
  · intro hcase
    rw [if_pos hcase, satAdd64_due (hcase.2.trans hnow) (hfit t (List.mem_of_getElem? ht))]
  · intro hcase
    rw [if_neg hcase]

end Counting

/-! ## Runs -/

/-- What a run keeps: due times are counted, and ticks are lawful. -/
structure OnTime (tasks : List TaskPlan) (e : IoEngine) (ticks : List Tick) : Prop where
  planned : Planned tasks e.base
  due : ∀ i t, tasks[i]? = some t → e.base.nextDue[i]? =
    some (t.periodMs * (invocations i ticks + skips tasks i ticks))
  lawful : ∀ tick ∈ ticks, tick.Lawful tasks

section OnTime

variable {tasks : List TaskPlan} {e e' : IoEngine} {ticks now : List Tick} {c : Cycle}

theorem OnTime.same (h : OnTime tasks e ticks) (hsame : SameTasks e.base e'.base)
    (hdue : e'.base.nextDue = e.base.nextDue) : OnTime tasks e' ticks := by
  refine ⟨hsame.planned h.planned (congrArg List.length hdue), ?_, h.lawful⟩
  rw [hdue]
  exact h.due

theorem OnTime.install (hnames : (tasks.map TaskPlan.name).Nodup) (hfit : PeriodsFit tasks)
    (h : OnTime tasks e ticks) (hc : c.Clocked) :
    OnTime tasks (e.tryEpochInstall c).1 (ticks ++ if (e.tryEpochInstall c).2.isEmpty then []
      else [.installed c.commitMs e.base.nextDue (e.tryEpochInstall c).1.base.nextDue]) := by
  obtain ⟨hsame, hdue⟩ := install_due e c
  by_cases hmarks : (e.tryEpochInstall c).2.isEmpty = true
  · rw [if_pos hmarks] at hdue ⊢
    rw [List.append_nil]
    exact h.same hsame hdue
  · rw [if_neg hmarks] at hdue ⊢
    have hlen : (e.tryEpochInstall c).1.base.nextDue.length = e.base.nextDue.length := by
      rw [hdue]
      simp [ScanEngine.skipDue]
    refine ⟨hsame.planned h.planned hlen, ?_, ?_⟩
    · intro i t ht
      obtain ⟨hskip, hstay⟩ := skipDue_getElem hnames hfit h.planned hc.commit ht (h.due i t ht)
      rw [hdue, invocations_append, skips_append]
      obtain ⟨hone, hzero⟩ := @skips_installed tasks i _ _ _ _ (h.due i t ht)
      by_cases hcase : ¬Highest tasks i ∧
          t.periodMs * (invocations i ticks + skips tasks i ticks) ≤ c.commitMs
      · rw [hskip hcase, invocations_installed, hone hcase, add_zero, ← add_assoc, Nat.mul_succ]
      · rw [hstay hcase, invocations_installed, hzero hcase, add_zero, add_zero]
    · intro tick htick
      rcases List.mem_append.mp htick with htick | htick
      · exact h.lawful tick htick
      · obtain rfl := List.mem_singleton.mp htick
        refine ⟨hlen, ?_⟩
        intro i t d ht hd
        rw [hdue]
        exact skipDue_getElem hnames hfit h.planned hc.commit ht hd

theorem OnTime.invoke {task : ℕ} {inv : Invocation} (hnames : (tasks.map TaskPlan.name).Nodup)
    (hfit : PeriodsFit tasks) (h : OnTime tasks e ticks) (hc : c.Clocked)
    (hdue : e.base.pickDue c.nowMs = some task) (hinvoke : e.invoke task c = some (e', inv)) :
    OnTime tasks e' (ticks ++ [.invoked task c.nowMs e.base.nextDue]) := by
  obtain ⟨hfirst, hprecedes⟩ := pickDue_some hnames h.planned hdue
  obtain ⟨hsame, hnext⟩ := invoke_due hinvoke
  refine ⟨hsame.planned h.planned (by rw [hnext, List.length_modify]), ?_, ?_⟩
  · intro i t ht
    rw [hnext, List.getElem?_modify, h.due i t ht, invocations_append, skips_append, skips_invoked,
      add_zero]
    by_cases hi : task = i
    · subst hi
      obtain ⟨d, hd, hle⟩ := hfirst
      obtain rfl := Option.some.inj ((h.due task t ht).symm.trans hd)
      have hone : invocations task [.invoked task c.nowMs e.base.nextDue] = 1 := by
        simp [invocations]
      rw [hone, h.planned.period, ht]
      simp only [if_true, Option.map_some, Option.map_eq_map, Option.getD_some]
      rw [satAdd64_due (hle.trans hc.now) (hfit t (List.mem_of_getElem? ht))]
      congr 1
      ring
    · have hzero : invocations i [.invoked task c.nowMs e.base.nextDue] = 0 := by
        simp [invocations, hi]
      rw [hzero, add_zero]
      simp [hi]
  · intro tick htick
    rcases List.mem_append.mp htick with htick | htick
    · exact h.lawful tick htick
    · obtain rfl := List.mem_singleton.mp htick
      exact ⟨hfirst, hprecedes⟩

/-- **A turn of the loop keeps time.** -/
theorem OnTime.round (hnames : (tasks.map TaskPlan.name).Nodup) (hfit : PeriodsFit tasks)
    (h : OnTime tasks e ticks) (hc : c.Clocked) (hround : e.roundTicks c = some (e', now)) :
    OnTime tasks e' (ticks ++ now) := by
  have hinstall := h.install hnames hfit hc
  unfold IoEngine.roundTicks at hround
  dsimp only at hround
  rcases hdue : (e.tryEpochInstall c).1.base.pickDue c.nowMs with _ | task
  · rw [hdue] at hround
    cases hround
    exact hinstall
  · rw [hdue] at hround
    obtain ⟨⟨e₁, inv⟩, hinvoke, heq⟩ := Option.map_eq_some_iff.mp hround
    cases heq
    rw [← List.append_assoc]
    exact hinstall.invoke hnames hfit hc hdue hinvoke

theorem OnTime.rounds (hnames : (tasks.map TaskPlan.name).Nodup) (hfit : PeriodsFit tasks)
    {cs : List Cycle} (h : OnTime tasks e ticks) (hcs : ∀ c ∈ cs, c.Clocked)
    (hrounds : e.roundsTicks cs = some (e', now)) : OnTime tasks e' (ticks ++ now) := by
  induction cs generalizing e ticks now with
  | nil =>
      cases hrounds
      rwa [List.append_nil]
  | cons c cs ih =>
      obtain ⟨⟨e₁, now₁⟩, hround, hrounds⟩ := Option.bind_eq_some_iff.mp hrounds
      obtain ⟨⟨e₂, later⟩, hlater, heq⟩ := Option.bind_eq_some_iff.mp hrounds
      cases heq
      obtain ⟨hc, hcs⟩ := List.forall_mem_cons.mp hcs
      rw [← List.append_assoc]
      exact ih (h.round hnames hfit hc hround) hcs hlater

theorem OnTime.handle (hnames : (tasks.map TaskPlan.name).Nodup) (hfit : PeriodsFit tasks)
    {ev : EngineEvent} (h : OnTime tasks e ticks) (hclock : ev.Clocked)
    (hev : e.handleTicks ev = some (e', now)) : OnTime tasks e' (ticks ++ now) := by
  have houtside : (∀ cs, ev ≠ .scan cs) → (e.handle ev).map (fun p => (p.1, ([] : List Tick))) =
      some (e', now) → OnTime tasks e' (ticks ++ now) := by
    intro hne hev
    obtain ⟨⟨e₁, marks⟩, hhandle, heq⟩ := Option.map_eq_some_iff.mp hev
    cases heq
    obtain ⟨hsame, hdue⟩ := outside_due hne hhandle
    rw [List.append_nil]
    exact h.same hsame hdue
  cases ev with
  | scan cycles =>
      obtain ⟨hsame, hdue⟩ := boundary_due e
      exact (h.same hsame hdue).rounds hnames hfit hclock hev
  | requestMode req => exact houtside (by simp) hev
  | force slot value => exact houtside (by simp) hev
  | unforce slot => exact houtside (by simp) hev
  | arm program restart => exact houtside (by simp) hev
  | disarm => exact houtside (by simp) hev
  | requestActivate => exact houtside (by simp) hev

theorem OnTime.start {plan : ScanPlan} {io : ScanIo} {vm : Option ArmedVm}
    (h : IoEngine.new plan io vm = .ok e) : OnTime plan.tasks e [] := by
  have hinitial : ∀ v, OnTime plan.tasks (.initial plan io v) [] := by
    intro v
    refine ⟨⟨rfl, rfl, List.length_map _⟩, ?_, fun tick htick => nomatch htick⟩
    intro i t ht
    have hzero : (plan.tasks.map fun _ => 0)[i]? = some 0 := by
      rw [List.getElem?_map, ht]
      rfl
    rw [show invocations i [] + skips plan.tasks i [] = 0 from rfl, mul_zero]
    exact hzero
  unfold IoEngine.new at h
  dsimp only at h
  split at h
  · cases h
    exact hinitial none
  · split_ifs at h
    cases h
    exact hinitial _

theorem TickRun.onTime {plan : ScanPlan} {io : ScanIo} (hplan : validateTasks plan.tasks = .ok ())
    (hfit : PeriodsFit plan.tasks) (h : TickRun plan io e ticks) : OnTime plan.tasks e ticks := by
  induction h with
  | start h => exact .start h
  | step _ hclock hev ih => exact ih.handle (validateTasks_ok hplan).1 hfit hclock hev

end OnTime

/-! ## A loop while the clock stands still -/

/-- All readings of a cycle are the same. -/
structure Cycle.At (c : Cycle) (nowMs : ℕ) : Prop where
  install : c.installMs = nowMs
  commit : c.commitMs = nowMs
  now : c.nowMs = nowMs
  invoke : c.invokeMs = nowMs

/-- How far the due times are behind. -/
def backlog (nowMs : ℕ) (due : List ℕ) : ℕ := (due.map fun d => nowMs + 1 - d).sum

/-- An invocation of a due task takes from the backlog. -/
theorem backlog_modify {nowMs task period : ℕ} {due : List ℕ} (hdue : Due due nowMs task)
    (hfit : period < 2 ^ 32) (hperiod : 0 < period) (hnow : nowMs ≤ clockMax) :
    backlog nowMs (due.modify task fun d => ScanEngine.satAdd64 d period) < backlog nowMs due := by
  obtain ⟨d, hd, hle⟩ := hdue
  induction due generalizing task with
  | nil => cases hd
  | cons x xs ih =>
      cases task with
      | zero =>
          obtain rfl : x = d := Option.some.inj hd
          simp only [backlog, List.modify_zero_cons, List.map_cons, List.sum_cons]
          rw [satAdd64_due (hle.trans hnow) hfit]
          omega
      | succ task =>
          have := @ih task hd
          simp only [backlog, List.modify_succ_cons, List.map_cons, List.sum_cons] at this ⊢
          omega

/-- An install does not add to it. -/
theorem backlog_mapIdx {nowMs : ℕ} (due : List ℕ) {f : ℕ → ℕ → ℕ} (hf : ∀ i, ∀ d ∈ due, d ≤ f i d) :
    backlog nowMs (due.mapIdx f) ≤ backlog nowMs due := by
  induction due generalizing f with
  | nil => exact le_refl _
  | cons x xs ih =>
      have htail := ih (f := fun i => f (i + 1)) fun i d hd => hf (i + 1) d (List.mem_cons_of_mem _ hd)
      have hhead := hf 0 x List.mem_cons_self
      simp only [backlog, List.mapIdx_cons, List.map_cons, List.sum_cons] at htail ⊢
      omega

section Standing

variable {tasks : List TaskPlan} {e e' : IoEngine} {cs : ℕ → Cycle} {nowMs : ℕ}

theorem install_backlog (hfit : PeriodsFit tasks) (h : Planned tasks e.base)
    (c : Cycle) (hc : c.commitMs ≤ clockMax) :
    Planned tasks (e.tryEpochInstall c).1.base ∧
      backlog nowMs (e.tryEpochInstall c).1.base.nextDue ≤ backlog nowMs e.base.nextDue := by
  obtain ⟨hsame, hdue⟩ := install_due e c
  rw [hdue]
  split_ifs with hmarks
  · rw [if_pos hmarks] at hdue
    exact ⟨hsame.planned h (congrArg List.length hdue), le_refl _⟩
  · rw [if_neg hmarks] at hdue
    refine ⟨hsame.planned h (by rw [hdue]; simp [ScanEngine.skipDue]), ?_⟩
    apply backlog_mapIdx
    intro i d hd
    split_ifs with hskip
    · rw [h.period]
      rcases ht : tasks[i]? with _ | t
      · rw [satAdd64_due (hskip.2.trans hc) (by decide)]
        exact Nat.le_add_right d _
      · rw [Option.map_some, Option.getD_some,
          satAdd64_due (hskip.2.trans hc) (hfit t (List.mem_of_getElem? ht))]
        exact Nat.le_add_right d _
    · exact le_refl d

/-- **A loop comes to an end while the clock stands still**, and nothing is due then. -/
theorem runDueLoop_ends (hplan : validateTasks tasks = .ok ()) (hfit : PeriodsFit tasks)
    (hnow : nowMs ≤ clockMax) (hcs : ∀ k, (cs k).At nowMs) {fuel k : ℕ} (h : Planned tasks e.base)
    (hfuel : backlog nowMs e.base.nextDue < fuel) :
    (∃ e', e.runDueLoop cs fuel k = .idle e' ∧ ∀ d ∈ e'.base.nextDue, nowMs < d) ∨
      e.runDueLoop cs fuel k = .panicked := by
  obtain ⟨hnames, hperiods⟩ := validateTasks_ok hplan
  induction fuel generalizing e k with
  | zero => omega
  | succ fuel ih =>
      obtain ⟨hplanned, hbacklog⟩ := @install_backlog tasks e nowMs hfit h (cs k)
        ((hcs k).commit ▸ hnow)
      unfold IoEngine.runDueLoop
      dsimp only
      rcases hdue : ((e.tryEpochInstall (cs k)).1.base.pickDue (cs k).nowMs) with _ | task
      · rw [(hcs k).now] at hdue
        exact .inl ⟨_, rfl, pickDue_none hplanned hdue⟩
      · rw [(hcs k).now] at hdue
        dsimp only
        rcases hinvoke : (e.tryEpochInstall (cs k)).1.invoke task (cs k) with _ | ⟨e₁, inv⟩
        · exact .inr rfl
        · obtain ⟨hsame, hnext⟩ := invoke_due hinvoke
          obtain ⟨hfirst, -⟩ := pickDue_some hnames hplanned hdue
          have htask : task < tasks.length := by
            obtain ⟨d, hd, -⟩ := hfirst
            exact hplanned.length ▸ (List.getElem?_eq_some_iff.mp hd).1
          have hperiod := hplanned.period task
          rw [List.getElem?_eq_getElem htask, Option.map_some, Option.getD_some] at hperiod
          have hless := backlog_modify hfirst (hfit _ (List.getElem_mem htask))
            (hperiods _ (List.getElem_mem htask)) hnow
          rw [hperiod] at hnext
          rw [← hnext] at hless
          apply ih (hsame.planned hplanned (by rw [hnext, List.length_modify]))
          omega

/-- A loop that ends is a scan. -/
theorem runDueLoop_rounds {fuel k : ℕ} (h : e.runDueLoop cs fuel k = .idle e') :
    ∃ n marks, e.rounds ((List.range' k n).map cs) = some (e', marks) := by
  induction fuel generalizing e k with
  | zero => cases h
  | succ fuel ih =>
      unfold IoEngine.runDueLoop at h
      dsimp only at h
      rcases hdue : ((e.tryEpochInstall (cs k)).1.base.pickDue (cs k).nowMs) with _ | task
      · rw [hdue] at h
        cases h
        refine ⟨1, (e.tryEpochInstall (cs k)).2 ++ [], ?_⟩
        have hround : e.round (cs k) = some (e.tryEpochInstall (cs k)) := by
          unfold IoEngine.round
          dsimp only
          rw [hdue]
        simp [IoEngine.rounds, hround]
      · rw [hdue] at h
        dsimp only at h
        rcases hinvoke : (e.tryEpochInstall (cs k)).1.invoke task (cs k) with _ | ⟨e₁, inv⟩
        · rw [hinvoke] at h
          cases h
        · rw [hinvoke] at h
          obtain ⟨n, marks, hrounds⟩ := ih h
          have hround : e.round (cs k) =
              some (e₁, (e.tryEpochInstall (cs k)).2 ++ [.invoked inv]) := by
            unfold IoEngine.round
            dsimp only
            rw [hdue]
            dsimp only
            rw [hinvoke]
            rfl
          refine ⟨n + 1, (e.tryEpochInstall (cs k)).2 ++ [.invoked inv] ++ marks, ?_⟩
          rw [List.range'_succ, List.map_cons, IoEngine.rounds, hround]
          exact Option.bind_eq_some_iff.mpr ⟨_, rfl, Option.bind_eq_some_iff.mpr ⟨_, hrounds, rfl⟩⟩

/-- `run_due` that ends is a scan event. -/
theorem runDue_handle {fuel : ℕ} (h : e.runDue cs fuel = .idle e') :
    ∃ n marks, e.handle (.scan ((List.range' 0 n).map cs)) = some (e', marks) :=
  runDueLoop_rounds h

end Standing

/-! ## Ticks and marks -/

section Marks

variable {e e' : IoEngine}

/-- Turns with their ticks are turns. -/
theorem roundTicks_round (e : IoEngine) (c : Cycle) :
    (e.roundTicks c).map Prod.fst = (e.round c).map Prod.fst := by
  unfold IoEngine.roundTicks IoEngine.round
  dsimp only
  rcases (e.tryEpochInstall c).1.base.pickDue c.nowMs with _ | task
  · rfl
  · dsimp only
    rw [Option.map_map, Option.map_map]
    rfl

theorem roundsTicks_rounds (cs : List Cycle) :
    (e.roundsTicks cs).map Prod.fst = (e.rounds cs).map Prod.fst := by
  induction cs generalizing e with
  | nil => rfl
  | cons c cs ih =>
      have hround := roundTicks_round e c
      unfold IoEngine.roundsTicks IoEngine.rounds
      rcases hticks : e.roundTicks c with _ | ⟨e₁, now⟩
      · rw [hticks] at hround
        rw [Option.map_eq_none_iff.mp hround.symm]
        rfl
      · rw [hticks] at hround
        obtain ⟨⟨e₂, marks⟩, hmarks, heq⟩ := Option.map_eq_some_iff.mp hround.symm
        obtain rfl : e₂ = e₁ := heq
        have hrest := ih (e := e₂)
        rw [hmarks]
        show (((e₂.roundsTicks cs).bind fun p => some (p.1, now ++ p.2)).map Prod.fst) =
          (((e₂.rounds cs).bind fun p => some (p.1, marks ++ p.2)).map Prod.fst)
        rcases h₁ : e₂.roundsTicks cs with _ | p <;> rcases h₂ : e₂.rounds cs with _ | q
        · rfl
        · rw [h₁, h₂] at hrest
          cases hrest
        · rw [h₁, h₂] at hrest
          cases hrest
        · rw [h₁, h₂] at hrest
          exact hrest

/-- **The states of a run with ticks are those of the engine.** -/
theorem handleTicks_handle (ev : EngineEvent) :
    (e.handleTicks ev).map Prod.fst = (e.handle ev).map Prod.fst := by
  have houtside : ((e.handle ev).map fun p => (p.1, ([] : List Tick))).map Prod.fst =
      (e.handle ev).map Prod.fst := by
    rw [Option.map_map]
    rfl
  cases ev with
  | scan cycles => exact roundsTicks_rounds cycles
  | requestMode req => exact houtside
  | force slot value => exact houtside
  | unforce slot => exact houtside
  | arm program restart => exact houtside
  | disarm => exact houtside
  | requestActivate => exact houtside

theorem TickRun.engineTrace {plan : ScanPlan} {io : ScanIo} {ticks : List Tick}
    (h : TickRun plan io e ticks) : ∃ tr, EngineTrace plan io e tr := by
  induction h with
  | start h => exact ⟨[], .start h⟩
  | @step e e' ticks now ev h hclock hev ih =>
      obtain ⟨tr, htr⟩ := ih
      have hstate := handleTicks_handle (e := e) ev
      rw [hev] at hstate
      obtain ⟨⟨e₁, marks⟩, hmarks, heq⟩ := Option.map_eq_some_iff.mp hstate.symm
      obtain rfl : e₁ = e' := heq
      exact ⟨tr ++ marks, htr.step hmarks⟩

end Marks

/-! ## The schedule -/

end SoftPlc.Scan
