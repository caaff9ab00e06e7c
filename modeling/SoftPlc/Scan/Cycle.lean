import Mathlib.Data.List.Sort
import SoftPlc.Io.Image
import SoftPlc.Scan.Engine

/-!
# The scan cycle with its I/O

`ScanEngine` of `Scan.Engine` with what it leaves out: the process image, the forces, the field
gate, the software watchdog, the output policies and the FirstScan bits. `IoEngine` holds both; its
operations use those of `ScanEngine` for the programs and add what happens to the rest.

What comes from outside during one turn of the loop is a `Cycle`: clock readings and durations, the
remote snapshot, and the answers of the driver. A turn leaves `Mark`s: the install that it
committed, and the invocation that it made, with the image that the driver was handed.

`IoEngine.round_refines` connects the two: with the faults that the I/O side raised, a turn of the
`IoEngine` is a turn of the `ScanEngine` in it. Telemetry, task statistics and the strokes of the
hardware watchdog are not modelled; nothing reads them.
-/

namespace SoftPlc.Scan

open SoftPlc.Ir SoftPlc.Vm SoftPlc.Io SoftPlc.Lib

/-! ## State -/

/-- Outputs while the mode is STOP. Source: `plc-config/src/schema.rs`, `StopOutputPolicy`. -/
inductive StopOutputPolicy where
  | safe
  | hold
  deriving DecidableEq, Repr

/-- Outputs after an install. Source: `plc-scan/src/epoch.rs`, `OutputRestartPolicy`. -/
inductive OutputRestartPolicy where
  | safeReset
  | bumpless
  deriving DecidableEq, Repr

/-- The I/O bundle; the driver and the remote buffer answer in a `Cycle`. Source: `engine.rs`,
`ScanIo`. -/
structure ScanIo where
  image : ProcessImage
  forces : ForceTable
  moduleQuality : Quality
  onBadQuality : BadQualityPolicy
  /-- The mode that the field workers read. -/
  fieldGate : OperatingMode

/-- The engine with its I/O. Source: `engine.rs`, `ScanEngine`. -/
structure IoEngine where
  /-- Programs, tasks, mode and phase. -/
  base : ScanEngine
  io : ScanIo
  stopOutputPolicy : StopOutputPolicy
  faultOnModuleBad : Bool
  /-- Consecutive overruns that trip the watchdog, at least one. -/
  overrunLimit : ℕ
  /-- Consecutive overruns of each task. -/
  consecutive : List ℕ
  /-- FirstScan bit of each task. -/
  firstScan : List Bool
  /-- The FirstScan bit that the current machine shows to its host. -/
  vmFirstScan : Bool
  /-- Some logic invocation has completed. -/
  firstRunComplete : Bool
  /-- The current program was installed bumpless. -/
  bumplessHold : Bool
  /-- Restart policy of the armed program. -/
  armedRestart : OutputRestartPolicy

/-- What one turn of the loop reads from outside. -/
structure Cycle where
  /-- Clock at the install check, in milliseconds. -/
  installMs : ℕ
  /-- How long the preparation of an install took, in microseconds. -/
  installUs : ℕ
  /-- Clock at the commit. -/
  commitMs : ℕ
  /-- Clock when the due task is picked. -/
  nowMs : ℕ
  /-- Clock when the task starts. -/
  invokeMs : ℕ
  /-- How long the invocation took up to its output phase, in microseconds. -/
  durationUs : ℕ
  /-- Remote inputs, if there is a remote buffer. -/
  remote : Option (List (PlcValue × Quality))
  /-- Polled inputs; nothing when the poll fails. -/
  poll : Option (List PlcValue × List Quality)
  /-- Module states that the driver sets for its output slots; nothing when it leaves them. -/
  moduleStates : Option (List (ℕ × OutputModuleState))
  /-- The driver takes the outputs. -/
  applyOk : Bool

/-- What an invocation did, as its end shows it. -/
structure Invocation where
  task : ℕ
  /-- FirstScan bit of the machine while its logic ran; nothing when no logic ran. -/
  firstScan : Option Bool
  /-- Output slots that the logic stored with `ST_Q`. -/
  stored : List Bool
  /-- The logic ran to its end. -/
  ranLogicOk : Bool
  /-- The logic failed: the machine returned an error, or there is none. -/
  vmError : Bool
  /-- The software watchdog tripped. -/
  tripped : Bool
  /-- The mode that the output phase read. -/
  mode : OperatingMode
  /-- Forces in the output phase. -/
  forces : ForceTable
  /-- Module state of each output slot. -/
  modules : List OutputModuleState
  /-- What the driver was handed. -/
  sent : OutputImage
  deriving DecidableEq

/-- What a turn of the loop leaves behind. -/
inductive Mark where
  /-- An install was committed, with the flags of the output slots before it. -/
  | installed (policy : OutputRestartPolicy) (written : List Bool)
  | invoked (i : Invocation)
  deriving DecidableEq

namespace IoEngine

/-! ## Faults and modes -/

/-- Source: `engine.rs`, `ScanEngine::enter_fault`. -/
def enterFault (e : IoEngine) : IoEngine :=
  { e with base := e.base.enterFault, io := { e.io with forces := [] } }

/-- Enter FAULT if there is a reason. -/
def faultIf (e : IoEngine) (reason : Bool) : IoEngine := if reason then e.enterFault else e

/-- Whether a mode request that is granted clears the forces. Source: `plc-scan/src/mode.rs`,
`clear_forces` in `ModeCell::apply_pending`. -/
def clearsForces (req : ModeRequest) (next : OperatingMode) : Bool :=
  req == .stop || req == .faultReset || next == .stop || next == .fault

/-- Source: `engine.rs`, `ScanEngine::apply_mode_boundary`. -/
def applyModeBoundary (e : IoEngine) : IoEngine :=
  let clear :=
    if e.base.phase = .swapping then false
    else
      match e.base.pendingMode with
      | none => false
      | some req =>
          match applyRequest e.base.mode req with
          | .ok next => clearsForces req next
          | .error _ => false
  { e with
    base := e.base.applyModeBoundary
    io := { e.io with forces := if clear then [] else e.io.forces } }

/-- Source: `engine.rs`, `ScanEngine::publish_field_mode`. -/
def publishFieldMode (e : IoEngine) : IoEngine :=
  { e with io := { e.io with fieldGate := e.base.mode } }

/-! ## Installing -/

/-- Source: `engine.rs`, `ScanEngine::cold_init_memory`. -/
def coldInitMemory (m : ProcessImage) : ProcessImage :=
  { m with memory := m.memory.mapIdx fun i _ => .zero ((m.memoryTypes[i]?).getD .bool) }

/-- Source: `engine.rs`, `ScanEngine::apply_safe_reset_outputs`. -/
def applySafeResetOutputs (m : ProcessImage) : ProcessImage :=
  { m with outputs := m.outputs.mapIdx fun i s => { s with value := m.safe i, written := true } }

/-- What a commit does beside swinging the programs. Source: `engine.rs`,
`ScanEngine::commit_install`. -/
def commitIo (e : IoEngine) : IoEngine :=
  let image := coldInitMemory e.io.image
  { e with
    bumplessHold := e.armedRestart == .bumpless
    -- A loaded machine starts with the bit cleared.
    vmFirstScan := false
    firstScan := e.firstScan.map fun _ => true
    io := { e.io with
      image := if e.armedRestart = .safeReset then applySafeResetOutputs image else image } }

/-- The part of a cycle that the `ScanEngine` reads, with what the I/O side made of it. -/
def toRound (c : Cycle) (inputs : List (VmValue × Bool)) (inputFault trip : Bool) : Round where
  installMs := c.installMs
  installUs := c.installUs
  commitMs := c.commitMs
  nowMs := c.nowMs
  invokeMs := c.invokeMs
  inputs := inputs
  inputFault := inputFault
  trip := trip

/-- Install the armed program if it is time. Source: `engine.rs`,
`ScanEngine::try_epoch_install`. -/
def tryEpochInstall (e : IoEngine) (c : Cycle) : IoEngine × List Mark :=
  let (base, outcome) := e.base.tryEpochInstall (toRound c [] false false)
  match outcome with
  | .installed =>
      ({ e with base := base }.commitIo,
        [.installed e.armedRestart (e.io.image.outputs.map TypedSlot.written)])
  | .faulted => ({ e with base := base, io := { e.io with forces := [] } }, [])
  | .idle | .deferred => ({ e with base := base }, [])

/-! ## Inputs -/

/-- Copy the remote snapshot. Source: `engine.rs`, the first `for` of
`ScanEngine::sample_inputs`. -/
def copyRemote (m : ProcessImage) (snap : List (PlcValue × Quality)) : ProcessImage :=
  { m with inputs := m.inputs.mapIdx fun i s =>
      match snap[i]? with
      | some (v, q) => ⟨v, q, true⟩
      | none => s }

/-- Copy the polled inputs. Source: `engine.rs`, the second `for` of
`ScanEngine::sample_inputs`. -/
def copyPolled (m : ProcessImage) (values : List PlcValue) (quality : List Quality) :
    ProcessImage :=
  { m with inputs := m.inputs.mapIdx fun i _ =>
      ⟨values.getD i (.bool false), quality.getD i .good, true⟩ }

/-- The image after both copies. -/
def sampled (m : ProcessImage) (c : Cycle) : ProcessImage :=
  let m := match c.remote with
    | some snap => copyRemote m snap
    | none => m
  match c.poll with
  | some (values, quality) => copyPolled m values quality
  | none => m

/-- Whether sampling enters FAULT. Source: `engine.rs`, the two `enter_fault` calls of
`ScanEngine::sample_inputs`. -/
def inputFault (e : IoEngine) (c : Cycle) : Bool :=
  e.faultOnModuleBad && (c.poll.isNone || (sampled e.io.image c).worst == .bad)

/-- The inputs as the machine gets them. Source: `engine.rs`, the last `for` of
`ScanEngine::sample_inputs`. -/
def vmInputs (m : ProcessImage) : List (VmValue × Bool) :=
  m.inputs.map fun s => (plcToVm s.value, s.quality == .good)

/-- Source: `engine.rs`, `ScanEngine::sample_inputs`. -/
def sampleInputs (e : IoEngine) (c : Cycle) : IoEngine :=
  let e := e.publishFieldMode
  let fault := e.inputFault c
  let image := sampled e.io.image c
  { e with
    base := e.base.sampleInputs (toRound c (vmInputs image) fault false)
    io := { e.io with
      image := image
      moduleQuality := image.worst
      forces := if fault then [] else e.io.forces } }

/-! ## Logic -/

/-- Copy the outputs of the machine; while a bumpless program holds, only those it stored. A copied
slot counts as written. Source: `engine.rs`, the `for` of `ScanEngine::run_logic`, and `image.rs`,
`ProcessImage::set_output`. -/
def copyOutputs (hold : Bool) (outputs : SlotImage) (m : ProcessImage) : ProcessImage :=
  { m with outputs := m.outputs.mapIdx fun i s =>
      if hold && !(outputs.written.getD i false) then s
      else
        match outputs.values[i]? with
        | some v => { s with value := vmToPlc v, written := true }
        | none => s }

/-- Output slots of the current machine that its last run stored. -/
def storedMask (e : ScanEngine) : List Bool := (e.vm.map fun v => v.state.outputs.written).getD []

/-- Run the logic of a task; the answer says whether it succeeded. Source: `engine.rs`,
`ScanEngine::run_logic`. -/
def runLogic (e : IoEngine) (task nowMs : ℕ) : Option (IoEngine × Bool) :=
  match e.base.runLogic task nowMs with
  | none => none
  | some (base, false) =>
      some ({ e with
        base := base
        vmFirstScan := if e.base.vm.isSome then e.firstScan.getD task false else e.vmFirstScan },
        false)
  | some (base, true) =>
      let outputs := (base.vm.map fun v => v.state.outputs).getD (.bools 0)
      some ({ e with
        base := base
        vmFirstScan := e.firstScan.getD task false
        io := { e.io with image := copyOutputs e.bumplessHold outputs e.io.image } }, true)

/-! ## Outputs -/

/-- Whether an invocation overran its period. Source: `plc-scan/src/watchdog.rs`, the test of
`SoftwareWatchdog::note`. -/
def overran (e : IoEngine) (task durationUs : ℕ) : Bool :=
  durationUs ≥ min ((e.base.tasks[task]?.map TaskPlan.periodMs).getD 0 * 1000) ScanEngine.u64Max

/-- Count an invocation; the answer says whether the watchdog trips. Source: `watchdog.rs`,
`SoftwareWatchdog::note`. -/
def note (e : IoEngine) (task durationUs : ℕ) : IoEngine × Bool :=
  match e.consecutive[task]? with
  | none => (e, false)
  | some n =>
      if e.overran task durationUs then
        let n := min (n + 1) (2 ^ 32 - 1)
        ({ e with consecutive := e.consecutive.set task n }, n ≥ e.overrunLimit)
      else ({ e with consecutive := e.consecutive.set task 0 }, false)

/-- Whether every output goes to its safe state. Source: `engine.rs`, `global_force_safe` in
`ScanEngine::apply_outputs`. -/
def globalForceSafe (e : IoEngine) (ranLogicOk : Bool) : Bool :=
  e.base.mode == .fault || (e.base.mode == .stop && e.stopOutputPolicy == .safe) ||
    (!e.firstRunComplete && !ranLogicOk)

/-- Module state of an output slot. Source: `engine.rs`, `output_slot_state` in
`ScanEngine::apply_outputs`. -/
def moduleState (e : IoEngine) (c : Cycle) (i : ℕ) : OutputModuleState :=
  let all : OutputModuleState := ⟨e.io.moduleQuality, e.io.onBadQuality⟩
  match c.moduleStates with
  | some states => (states.lookup i).getD all
  | none => all

/-- The value of an output slot. Source: `engine.rs`, the `resolve_effective_output` call of
`ScanEngine::apply_outputs`. -/
def effective (e : IoEngine) (c : Cycle) (ranLogicOk : Bool) (i : ℕ) (s : TypedSlot) : PlcValue :=
  (resolveEffectiveOutput
    { fault := e.base.mode == .fault
      globalForceSafe := e.globalForceSafe ranLogicOk
      module := e.moduleState c i
      force := e.io.forces.lookup i
      programValue := s.value
      programWritten := s.written
      safeState := e.io.image.safe i }).1

/-- What the driver is handed. Source: `engine.rs`, `output_image` in
`ScanEngine::apply_outputs`. -/
def outputImage (e : IoEngine) (c : Cycle) (ranLogicOk : Bool) : OutputImage where
  values := e.io.image.outputs.mapIdx (e.effective c ranLogicOk)
  forceSafe := e.globalForceSafe ranLogicOk

/-- Source: `engine.rs`, `ScanEngine::apply_outputs`. -/
def applyOutputs (e : IoEngine) (c : Cycle) : IoEngine :=
  let e := e.publishFieldMode
  if c.applyOk then e
  else
    { e with io := { e.io with moduleQuality := .bad } }.faultIf e.faultOnModuleBad

/-! ## Invocations -/

/-- The logic part of an invocation: the engine, whether logic ran, and whether it succeeded.
Source: `engine.rs`, the `if mode.executes_logic()` of `ScanEngine::invoke`. -/
def logic (e : IoEngine) (task : ℕ) (c : Cycle) : Option (IoEngine × Bool × Bool) :=
  if e.base.mode.executesLogic then
    (e.runLogic task c.invokeMs).map fun (e, ok) => (e.faultIf !ok, true, ok)
  else some (e, false, false)

/-- The watchdog part of an invocation, which counts only when logic ran; the answer says whether it
tripped. Source: `engine.rs`, the second `if mode.executes_logic()` of `ScanEngine::invoke`. -/
def watch (e : IoEngine) (task : ℕ) (c : Cycle) (ran : Bool) : IoEngine × Bool :=
  if ran then
    let (e, trip) := e.note task c.durationUs
    (e.faultIf trip, trip)
  else (e, false)

/-- The end of an invocation. Source: `engine.rs`, the assignments of `ScanEngine::invoke` after
`apply_outputs`. -/
def finishInvoke (e : IoEngine) (task : ℕ) (ranLogicOk : Bool) : IoEngine :=
  let period := (e.base.tasks[task]?.map TaskPlan.periodMs).getD 0
  { e with
    base := { e.base with
      nextDue := e.base.nextDue.modify task fun due => ScanEngine.satAdd64 due period }
    firstRunComplete := e.firstRunComplete || ranLogicOk
    firstScan := if ranLogicOk then e.firstScan.set task false else e.firstScan }

/-- What an invocation did, taken when the outputs are applied. -/
def report (e : IoEngine) (task : ℕ) (c : Cycle) (ran ok trip : Bool) : Invocation where
  task := task
  firstScan := if ran && e.base.vm.isSome then some e.vmFirstScan else none
  stored := if ran then storedMask e.base else []
  ranLogicOk := ok
  vmError := ran && !ok
  tripped := trip
  mode := e.base.mode
  forces := e.io.forces
  modules := e.io.image.outputs.mapIdx fun i _ => e.moduleState c i
  sent := e.outputImage c ok

/-- One task invocation. Source: `engine.rs`, `ScanEngine::invoke`. -/
def invoke (e : IoEngine) (task : ℕ) (c : Cycle) : Option (IoEngine × Invocation) :=
  match (e.sampleInputs c).logic task c with
  | none => none
  | some (e, ran, ok) =>
      let (e, trip) := e.watch task c ran
      some ((e.applyOutputs c).finishInvoke task ok, e.report task c ran ok trip)

/-- One turn of the loop. Source: `engine.rs`, the `loop` body of `ScanEngine::run_due`, which is
also the body of `ScanEngine::step`. -/
def round (e : IoEngine) (c : Cycle) : Option (IoEngine × List Mark) :=
  let (e, marks) := e.tryEpochInstall c
  match e.base.pickDue c.nowMs with
  | none => some (e, marks)
  | some task => (e.invoke task c).map fun (e, inv) => (e, marks ++ [.invoked inv])

/-- Turns of the loop, with the marks they leave. -/
def rounds (e : IoEngine) : List Cycle → Option (IoEngine × List Mark)
  | [] => some (e, [])
  | c :: cs => do
      let (e, marks) ← e.round c
      let (e, later) ← e.rounds cs
      pure (e, marks ++ later)

/-! ## Requests -/

/-- Arm buffer B; an error changes nothing. Source: `engine.rs`, `ScanEngine::arm`. -/
def arm (e : IoEngine) (program : ArmedProgram) (restart : OutputRestartPolicy) :
    Except ScanError IoEngine :=
  match e.base.arm program with
  | .ok base => .ok { e with base := base, armedRestart := restart }
  | .error err => .error err

/-- Drop buffer B. Source: `engine.rs`, `ScanEngine::disarm`. -/
def disarm (e : IoEngine) : Except ScanError IoEngine :=
  if e.base.phase = .swapping then .error (.invalidState "disarm while swapping")
  else .ok { e with base :=
    { e.base with armed := none, activateRequested := false, phase := .idle } }

/-- Source: `engine.rs`, `ScanEngine::request_activate`. -/
def requestActivate (e : IoEngine) : Except ScanError (ActivateRequest × IoEngine) :=
  match e.base.requestActivate with
  | .ok (req, base) => .ok (req, { e with base := base })
  | .error err => .error err

end IoEngine

/-! ## Construction -/

/-- Whether a task is scheduled before another one: higher priority first, then by name. Source:
`engine.rs`, the `sort_by` of `ScanEngine::new`. -/
def ranksBefore (tasks : List TaskPlan) (a b : ℕ) : Bool :=
  match tasks[a]?, tasks[b]? with
  | some s, some t => t.priority < s.priority || (s.priority == t.priority && s.name ≤ t.name)
  | _, _ => true

/-- Task indices in the order in which due tasks are picked. Source: `engine.rs`, `schedule_order`
in `ScanEngine::new`. -/
def scheduleOrder (tasks : List TaskPlan) : List ℕ :=
  (List.range tasks.length).insertionSort fun a b => ranksBefore tasks a b = true

/-- Owned scan configuration. Source: `engine.rs`, `ScanPlan`. -/
structure ScanPlan where
  tasks : List TaskPlan
  overrunLimit : ℕ := 2
  stopOutputPolicy : StopOutputPolicy := .safe
  faultOnModuleBad : Bool := false

/-- The state that `ScanEngine::new` builds. Source: `engine.rs`, `ScanEngine::new`. -/
def IoEngine.initial (plan : ScanPlan) (io : ScanIo) (vm : Option ArmedVm) : IoEngine where
  base :=
    { tasks := plan.tasks
      nextDue := plan.tasks.map fun _ => 0
      scheduleOrder := scheduleOrder plan.tasks
      inputSlots := io.image.inputs.length
      outputSlots := io.image.outputs.length
      vm := vm
      mode := .stop
      pendingMode := none
      armed := none
      currentId := none
      currentHash := none
      phase := .idle
      activateRequested := false
      retainSeq := 0
      deferredCount := 0
      lastDeferred := false }
  io := io
  stopOutputPolicy := plan.stopOutputPolicy
  faultOnModuleBad := plan.faultOnModuleBad
  overrunLimit := max plan.overrunLimit 1
  consecutive := plan.tasks.map fun _ => 0
  firstScan := plan.tasks.map fun _ => false
  vmFirstScan := false
  firstRunComplete := false
  bumplessHold := false
  armedRestart := .safeReset

/-- An engine at its start, with a machine whose slots match the image. Source: `engine.rs`,
`ScanEngine::new`. -/
def IoEngine.new (plan : ScanPlan) (io : ScanIo) (vm : Option ArmedVm) :
    Except ScanError IoEngine :=
  let nI := io.image.inputs.length
  let nQ := io.image.outputs.length
  match vm with
  | none => .ok (initial plan io none)
  | some v =>
      if v.state.inputs.len ≠ nI then
        .error (.imageMismatch ("VM inputs " ++ toString v.state.inputs.len ++
          " != image inputs " ++ toString nI))
      else if v.state.outputs.len ≠ nQ then
        .error (.imageMismatch ("VM outputs " ++ toString v.state.outputs.len ++
          " != image outputs " ++ toString nQ))
      else .ok (initial plan io (some v))

/-! ## The engine without I/O -/

namespace IoEngine

variable {e e' : IoEngine} {c : Cycle} {task : ℕ}

theorem faultIf_base (e : IoEngine) (reason : Bool) :
    (e.faultIf reason).base = if reason then e.base.enterFault else e.base := by
  cases reason <;> rfl

@[simp] theorem note_base (e : IoEngine) (task durationUs : ℕ) :
    (e.note task durationUs).1.base = e.base := by
  unfold note
  split
  · rfl
  · split_ifs <;> rfl

theorem watch_base (e : IoEngine) (task : ℕ) (c : Cycle) (ran : Bool) :
    (e.watch task c ran).1.base =
      if (e.watch task c ran).2 then e.base.enterFault else e.base := by
  cases ran with
  | false => rfl
  | true =>
      show ((e.note task c.durationUs).1.faultIf _).base = _
      rw [faultIf_base, note_base]
      rfl

/-- Whether the output phase enters FAULT. -/
def outputFault (e : IoEngine) (c : Cycle) : Bool := !c.applyOk && e.faultOnModuleBad

theorem applyOutputs_base (e : IoEngine) (c : Cycle) :
    (e.applyOutputs c).base = if e.outputFault c then e.base.enterFault else e.base := by
  unfold applyOutputs outputFault
  cases c.applyOk with
  | true => rfl
  | false =>
      rw [if_neg (by simp), faultIf_base]
      rfl

/-- An install is one of the engine without I/O. -/
theorem tryEpochInstall_base (e : IoEngine) (c : Cycle) (inputs : List (VmValue × Bool))
    (fault trip : Bool) :
    (e.tryEpochInstall c).1.base = (e.base.tryEpochInstall (toRound c inputs fault trip)).1 := by
  show _ = (e.base.tryEpochInstall (toRound c [] false false)).1
  unfold tryEpochInstall
  rcases e.base.tryEpochInstall (toRound c [] false false) with ⟨base, outcome⟩
  cases outcome <;> rfl

theorem runLogic_base {ok : Bool} {nowMs : ℕ} (h : e.runLogic task nowMs = some (e', ok)) :
    e.base.runLogic task nowMs = some (e'.base, ok) := by
  unfold runLogic at h
  rcases hrun : e.base.runLogic task nowMs with _ | ⟨base, _ | _⟩
  · rw [hrun] at h
    cases h
  · rw [hrun] at h
    cases h
    rfl
  · rw [hrun] at h
    cases h
    rfl

theorem logic_base {ran ok : Bool} (h : e.logic task c = some (e', ran, ok))
    (inputs : List (VmValue × Bool)) (fault trip : Bool) :
    e.base.logic task (toRound c inputs fault trip) = some e'.base := by
  unfold logic at h
  unfold ScanEngine.logic
  split_ifs at h ⊢
  · obtain ⟨⟨e₁, ok₁⟩, hrun, heq⟩ := Option.map_eq_some_iff.mp h
    cases heq
    rw [show (toRound c inputs fault trip).invokeMs = c.invokeMs from rfl, runLogic_base hrun]
    rw [Option.map_some, faultIf_base]
    cases ok <;> rfl
  · cases h
    rfl

/-- What an invocation consists of. -/
theorem invoke_ok {inv : Invocation} (h : e.invoke task c = some (e', inv)) :
    ∃ e₁ ran ok, (e.sampleInputs c).logic task c = some (e₁, ran, ok) ∧
      inv = (e₁.watch task c ran).1.report task c ran ok (e₁.watch task c ran).2 ∧
      e' = ((e₁.watch task c ran).1.applyOutputs c).finishInvoke task ok := by
  unfold invoke at h
  rcases hlogic : (e.sampleInputs c).logic task c with _ | ⟨e₁, ran, ok⟩
  · rw [hlogic] at h
    cases h
  · rw [hlogic] at h
    cases h
    exact ⟨e₁, ran, ok, rfl, rfl, rfl⟩

/-- An invocation is one of the engine without I/O. -/
theorem invoke_refines {inv : Invocation} (h : e.invoke task c = some (e', inv)) :
    ∃ inputs fault trip, e.base.invoke task (toRound c inputs fault trip) = some e'.base := by
  obtain ⟨e₁, ran, ok, hlogic, -, rfl⟩ := invoke_ok h
  let w := e₁.watch task c ran
  refine ⟨vmInputs (sampled e.io.image c), e.inputFault c, w.2 || w.1.outputFault c, ?_⟩
  have hsample : e.base.sampleInputs (toRound c (vmInputs (sampled e.io.image c)) (e.inputFault c)
      (w.2 || w.1.outputFault c)) = (e.sampleInputs c).base := rfl
  unfold ScanEngine.invoke
  rw [hsample, logic_base hlogic, Option.map_some]
  have hbase : (w.1.applyOutputs c).base =
      if (w.2 || w.1.outputFault c) = true then e₁.base.enterFault else e₁.base := by
    rw [applyOutputs_base, watch_base]
    cases (e₁.watch task c ran).2 <;> cases w.1.outputFault c <;> rfl
  have hend : ((w.1.applyOutputs c).finishInvoke task ok).base =
      (w.1.applyOutputs c).base.finishInvoke task (toRound c [] false false) := rfl
  rw [show ((e₁.watch task c ran).1.applyOutputs c).finishInvoke task ok =
    (w.1.applyOutputs c).finishInvoke task ok from rfl, hend, hbase]
  rfl

/-- **A turn of the loop is one of the engine without I/O.** -/
theorem round_refines {marks : List Mark} (h : e.round c = some (e', marks)) :
    ∃ r, e.base.round r = some e'.base := by
  unfold round at h
  dsimp only at h
  rcases hdue : (e.tryEpochInstall c).1.base.pickDue c.nowMs with _ | task
  · rw [hdue] at h
    cases h
    refine ⟨toRound c [] false false, ?_⟩
    unfold ScanEngine.round
    rw [← tryEpochInstall_base]
    show (match (e.tryEpochInstall c).1.base.pickDue c.nowMs with | none => _ | some task => _) = _
    rw [hdue]
  · rw [hdue] at h
    obtain ⟨⟨e₁, inv⟩, hinv, heq⟩ := Option.map_eq_some_iff.mp h
    cases heq
    obtain ⟨inputs, fault, trip, hbase⟩ := invoke_refines hinv
    refine ⟨toRound c inputs fault trip, ?_⟩
    unfold ScanEngine.round
    rw [← tryEpochInstall_base]
    show (match (e.tryEpochInstall c).1.base.pickDue c.nowMs with | none => _ | some task => _) = _
    rw [hdue]
    exact hbase

/-- Turns of the loop are turns of the engine without I/O. -/
theorem rounds_refines {cs : List Cycle} {marks : List Mark}
    (h : e.rounds cs = some (e', marks)) : ∃ rs, e.base.rounds rs = some e'.base := by
  induction cs generalizing e marks with
  | nil =>
      cases h
      exact ⟨[], rfl⟩
  | cons c cs ih =>
      rw [rounds] at h
      obtain ⟨⟨e₁, m₁⟩, h₁, h⟩ := Option.bind_eq_some_iff.mp h
      obtain ⟨⟨e₂, m₂⟩, h₂, h⟩ := Option.bind_eq_some_iff.mp h
      cases h
      obtain ⟨r, hr⟩ := round_refines h₁
      obtain ⟨rs, hrs⟩ := ih h₂
      refine ⟨r :: rs, ?_⟩
      rw [ScanEngine.rounds, List.foldlM_cons, hr]
      exact hrs

end IoEngine

end SoftPlc.Scan
