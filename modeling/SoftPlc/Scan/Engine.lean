import SoftPlc.Vm.RetainImage

/-!
# The scan engine

`plc-scan/src/engine.rs` as far as programs are concerned: which machine is current, which program
is armed, when the armed one is installed, and when the current one runs. One turn of the loop of
`run_due` is `ScanEngine.round`: install if it is time, then run the task that is due.

What comes from outside is part of a `Round`: clock readings, how long an install took, the sampled
inputs, and the faults that the input or output side raises. The process image, telemetry and the
output policies are not modelled. A panic of the machine ends the scan thread, so a round has no
result then.
-/

namespace SoftPlc.Scan

open SoftPlc.Ir SoftPlc.Vm SoftPlc.Retain SoftPlc.Lib

/-! ## Modes and phases -/

/-- Operator mode. Source: `plc-types/src/mode.rs`, `OperatingMode`. -/
inductive OperatingMode where
  | stop
  | run
  | fault
  | sim
  deriving DecidableEq, Repr

/-- Whether cyclic logic executes. Source: `mode.rs`, `OperatingMode::executes_logic`. -/
def OperatingMode.executesLogic : OperatingMode → Bool
  | .run | .sim => true
  | _ => false

/-- Pending operator request. Source: `plc-scan/src/mode.rs`, `ModeRequest`. -/
inductive ModeRequest where
  | stop
  | run
  | sim
  | faultReset
  deriving DecidableEq, Repr

/-- Errors of the engine. Source: `plc-scan/src/error.rs`, `ScanError`. -/
inductive ScanError where
  | config (message : String)
  | imageMismatch (reason : String)
  | invalidState (context : String)
  deriving DecidableEq, Repr

/-- Transition table. Source: `plc-scan/src/mode.rs`, `apply_request`. -/
def applyRequest : OperatingMode → ModeRequest → Except ScanError OperatingMode
  | .fault, .stop => .error (.invalidState "STOP while FAULT (FAULT_RESET first)")
  | _, .stop => .ok .stop
  | .stop, .run | .sim, .run | .run, .run => .ok .run
  | .stop, .sim | .sim, .sim => .ok .sim
  | .fault, .faultReset => .ok .stop
  | .fault, .run => .error (.invalidState "RUN while FAULT (FAULT_RESET first)")
  | .fault, .sim => .error (.invalidState "SIM while FAULT")
  | .run, .sim => .error (.invalidState "SIM from RUN")
  | _, .faultReset => .error (.invalidState "FAULT_RESET while not FAULT")

/-- Program phase. Source: `plc-types/src/mode.rs`, `ProgramPhase`. -/
inductive ProgramPhase where
  | idle
  | validating
  | armed
  | swapping
  deriving DecidableEq, Repr

/-! ## State -/

/-- One cyclic task. Source: `engine.rs`, `TaskPlan`. -/
structure TaskPlan where
  name : String
  periodMs : ℕ
  entry : String
  priority : ℕ
  deriving DecidableEq, Repr

/-- One precomputed retain copy. Source: `plc-scan/src/epoch.rs`, `RetainCopy`. -/
structure RetainCopy where
  srcOffset : ℕ
  dstOffset : ℕ
  len : ℕ
  deriving DecidableEq, Repr

/-- Buffer B. Source: `epoch.rs`, `ArmedProgram`. -/
structure ArmedProgram where
  vm : ArmedVm
  programId : String
  compatibilityHash : String
  /-- Entry symbol of each task. -/
  taskEntries : List String
  retainCopies : List RetainCopy
  deriving DecidableEq, Repr

/-- Source: `epoch.rs`, `ActivateRequest`. -/
inductive ActivateRequest where
  | pending
  | noOp
  deriving DecidableEq, Repr

/-- Source: `epoch.rs`, `InstallOutcome`. -/
inductive InstallOutcome where
  | idle
  | installed
  | deferred
  | faulted
  deriving DecidableEq, Repr

/-- The engine. Source: `engine.rs`, `ScanEngine`, with the cells of `mode.rs`, `hooks.rs` and
`retain_signal.rs` that it shares. -/
structure ScanEngine where
  /-- Task table. -/
  tasks : List TaskPlan
  /-- When each task is due next. -/
  nextDue : List ℕ
  /-- Task indices, highest priority first. -/
  scheduleOrder : List ℕ
  /-- Slots of the process image. -/
  inputSlots : ℕ
  outputSlots : ℕ
  /-- Current machine. -/
  vm : Option ArmedVm
  mode : OperatingMode
  pendingMode : Option ModeRequest
  armed : Option ArmedProgram
  currentId : Option String
  currentHash : Option String
  phase : ProgramPhase
  activateRequested : Bool
  /-- Number of dirty notifications, modulo `2 ^ 64`. -/
  retainSeq : ℕ
  deferredCount : ℕ
  lastDeferred : Bool
  deriving DecidableEq, Repr

/-- What one turn of the loop reads from outside. -/
structure Round where
  /-- Clock at the install check, in milliseconds. -/
  installMs : ℕ
  /-- How long the preparation of an install took, in microseconds. -/
  installUs : ℕ
  /-- Clock at the commit. -/
  commitMs : ℕ
  /-- Clock when the due task is picked. -/
  nowMs : ℕ
  /-- Clock when the task starts. -/
  invokeMs : ℕ
  /-- Sampled inputs with their quality. -/
  inputs : List (VmValue × Bool)
  /-- The input side raises FAULT. -/
  inputFault : Bool
  /-- The watchdog or the output side raises FAULT. -/
  trip : Bool
  deriving DecidableEq, Repr

namespace ScanEngine

/-- Largest `u64`. -/
def u64Max : ℕ := 2 ^ 64 - 1

/-- Source: `u64::saturating_add`. -/
def satAdd64 (a b : ℕ) : ℕ := min (a + b) u64Max

/-! ## Arming -/

/-- Arm buffer B. Source: `engine.rs`, `ScanEngine::arm`. -/
def arm (e : ScanEngine) (program : ArmedProgram) : Except ScanError ScanEngine :=
  if e.phase = .swapping then .error (.invalidState "arm while swapping")
  else if program.taskEntries.length ≠ e.tasks.length then
    .error (.config ("armed task_entries " ++ toString program.taskEntries.length ++
      " != plan tasks " ++ toString e.tasks.length))
  else if program.vm.state.inputs.len ≠ e.inputSlots then
    .error (.imageMismatch ("armed VM inputs " ++ toString program.vm.state.inputs.len ++
      " != image inputs " ++ toString e.inputSlots))
  else if program.vm.state.outputs.len ≠ e.outputSlots then
    .error (.imageMismatch ("armed VM outputs " ++ toString program.vm.state.outputs.len ++
      " != image outputs " ++ toString e.outputSlots))
  else
    .ok
      { e with
        armed := some
          { program with vm := ⟨program.vm.image, program.vm.state.coldResetNonRetain⟩ }
        phase := .armed
        activateRequested := false }

/-- Whether an id and a hash are those of the current program. Source: `engine.rs`, the test of
`ScanEngine::request_activate`. -/
def isCurrent (e : ScanEngine) (id hash : String) : Bool :=
  e.currentId == some id && e.currentHash == some hash

/-- Request a swap; a program with the id and the hash of the current one is dropped. Source:
`engine.rs`, `ScanEngine::request_activate`. -/
def requestActivate (e : ScanEngine) : Except ScanError (ActivateRequest × ScanEngine) :=
  if e.phase = .swapping then .error (.invalidState "activate while swapping")
  else
    match e.armed with
    | none => .error (.invalidState "activate while not armed")
    | some armed =>
        if e.isCurrent armed.programId armed.compatibilityHash then
          .ok (.noOp, { e with armed := none, activateRequested := false, phase := .idle })
        else .ok (.pending, { e with activateRequested := true })

/-! ## Installing -/

/-- The task that is due, highest priority first. Source: `engine.rs`, `ScanEngine::pick_due`. -/
def pickDue (e : ScanEngine) (nowMs : ℕ) : Option ℕ :=
  e.scheduleOrder.find? fun i => e.nextDue.getD i 0 ≤ nowMs

/-- Budget of an install. Source: `engine.rs`, `ScanEngine::min_task_period_us`. -/
def minTaskPeriodUs (e : ScanEngine) : ℕ :=
  min ((e.tasks.map TaskPlan.periodMs).min?.getD 1 * 1000) u64Max

/-- Source: `engine.rs`, `ScanEngine::enter_fault`. -/
def enterFault (e : ScanEngine) : ScanEngine := { e with mode := .fault }

/-- Perform copies until one fails. Source: `engine.rs`, the `for` of
`ScanEngine::blit_retain_into`. -/
def blitCopies (src : ByteSegment) :
    List RetainCopy → ByteSegment → ByteSegment × Except VmError Unit
  | [], dst => (dst, .ok ())
  | c :: rest, dst =>
      match dst.blitFrom c.dstOffset src c.srcOffset c.len with
      | .ok dst' => blitCopies src rest dst'
      | .error e => (dst, .error e)

/-- Copy the kept retain values of the current machine. Source: `engine.rs`,
`ScanEngine::blit_retain_into`. -/
def blitRetainInto (armed : ArmedProgram) (current : Option ArmedVm) :
    ArmedProgram × Except VmError Unit :=
  match current with
  | none => (armed, .ok ())
  | some cur =>
      let (retain, result) :=
        blitCopies cur.state.retain armed.retainCopies armed.vm.state.retain
      ({ armed with vm := ⟨armed.vm.image, armed.vm.state.withRetain retain⟩ }, result)

/-- Tasks with new entries. Source: `engine.rs`, the second `for` of
`ScanEngine::commit_install`. -/
def setEntries : List TaskPlan → List String → List TaskPlan
  | t :: tasks, entry :: entries => { t with entry := entry } :: setEntries tasks entries
  | tasks, _ => tasks

/-- When the tasks are due after an install: those that were due, other than the highest, skip a
period. Source: `engine.rs`, the first `for` of `ScanEngine::commit_install`. -/
def skipDue (e : ScanEngine) (nowMs : ℕ) : List ℕ :=
  e.nextDue.mapIdx fun i due =>
    if some i ≠ e.scheduleOrder.head? ∧ due ≤ nowMs then
      satAdd64 due ((e.tasks[i]?.map TaskPlan.periodMs).getD 0)
    else due

/-- Swing buffer B to current. Source: `engine.rs`, `ScanEngine::commit_install`. -/
def commitInstall (e : ScanEngine) (armed : ArmedProgram) (nowMs : ℕ) : ScanEngine :=
  { e with
    nextDue := e.skipDue nowMs
    tasks := setEntries e.tasks armed.taskEntries
    currentId := some armed.programId
    currentHash := some armed.compatibilityHash
    vm := some armed.vm
    activateRequested := false
    phase := .idle
    lastDeferred := false }

/-- Install the armed program if it is time. Source: `engine.rs`,
`ScanEngine::try_epoch_install`. -/
def tryEpochInstall (e : ScanEngine) (r : Round) : ScanEngine × InstallOutcome :=
  if !e.activateRequested then (e, .idle)
  else
    match e.armed with
    | none => (e, .idle)
    | some armed =>
        match e.pickDue r.installMs with
        | none => (e, .idle)
        | some due =>
            if some due ≠ e.scheduleOrder.head? then (e, .idle)
            else
              let (armed, prepare) := blitRetainInto armed e.vm
              match prepare with
              | .error _ =>
                  ({ e.enterFault with
                      armed := some armed, activateRequested := false, phase := .idle }, .faulted)
              | .ok () =>
                  if r.installUs ≥ e.minTaskPeriodUs then
                    ({ e with
                        armed := some armed, phase := .armed, activateRequested := false,
                        lastDeferred := true,
                        deferredCount := satAdd64 e.deferredCount 1 }, .deferred)
                  else ({ e with armed := none }.commitInstall armed r.commitMs, .installed)

/-! ## Running -/

end ScanEngine

/-- Put sampled inputs into an image. Source: `engine.rs`, the last `for` of
`ScanEngine::sample_inputs`. -/
def sampleInto (s : SlotImage) (xs : List (VmValue × Bool)) : SlotImage where
  values := s.values.mapIdx fun i v => (xs[i]?.map Prod.fst).getD v
  qualityGood := s.qualityGood.mapIdx fun i g => (xs[i]?.map Prod.snd).getD g
  written := s.written.mapIdx fun i w => w || decide (i < xs.length)
  quality_length := by simp [s.quality_length]
  written_length := by simp [s.written_length]

namespace ScanEngine

/-- Source: `engine.rs`, `ScanEngine::sample_inputs`. -/
def sampleInputs (e : ScanEngine) (r : Round) : ScanEngine :=
  let e := if r.inputFault then e.enterFault else e
  { e with
    vm := e.vm.map fun vm =>
      ⟨vm.image, { vm.state with inputs := sampleInto vm.state.inputs r.inputs }⟩ }

/-- Run the entry of a task on the current machine; the answer says whether the run succeeded.
Source: `engine.rs`, `ScanEngine::run_logic`. -/
def runLogic (e : ScanEngine) (task nowMs : ℕ) : Option (ScanEngine × Bool) :=
  match e.vm with
  | none => some (e, false)
  | some vm =>
      let entry := (e.tasks[task]?.map TaskPlan.entry).getD ""
      match runEntry vm.image entry nowMs vm.state with
      | (.ok _, s) =>
          if s.retainDirty then
            some ({ e with
              vm := some ⟨vm.image, { s with retainDirty := false }⟩
              retainSeq := (e.retainSeq + 1) % 2 ^ 64 }, true)
          else some ({ e with vm := some ⟨vm.image, s⟩ }, true)
      | (.error (.err _), s) => some ({ e with vm := some ⟨vm.image, s⟩ }, false)
      | (.error (.panic _), _) => none

/-- Run the logic of a task if the mode asks for it; a failed run enters FAULT. Source: `engine.rs`,
the `if mode.executes_logic()` of `ScanEngine::invoke`. -/
def logic (e : ScanEngine) (task : ℕ) (r : Round) : Option ScanEngine :=
  if e.mode.executesLogic then
    (e.runLogic task r.invokeMs).map fun (e, ok) => if ok then e else e.enterFault
  else some e

/-- The end of an invocation: faults raised after the logic, and the next due time. Source:
`engine.rs`, the rest of `ScanEngine::invoke`. -/
def finishInvoke (e : ScanEngine) (task : ℕ) (r : Round) : ScanEngine :=
  let e := if r.trip then e.enterFault else e
  let period := (e.tasks[task]?.map TaskPlan.periodMs).getD 0
  { e with nextDue := e.nextDue.modify task fun due => satAdd64 due period }

/-- One task invocation. Source: `engine.rs`, `ScanEngine::invoke`. -/
def invoke (e : ScanEngine) (task : ℕ) (r : Round) : Option ScanEngine :=
  ((e.sampleInputs r).logic task r).map fun e => e.finishInvoke task r

/-- Apply a pending mode request. Source: `engine.rs`, `ScanEngine::apply_mode_boundary`. -/
def applyModeBoundary (e : ScanEngine) : ScanEngine :=
  match e.pendingMode with
  | none => e
  | some req =>
      if e.phase = .swapping then { e with pendingMode := none }
      else
        match applyRequest e.mode req with
        | .ok mode => { e with pendingMode := none, mode := mode }
        | .error _ => { e with pendingMode := none }

/-- One turn of the loop. Source: `engine.rs`, the `loop` body of `ScanEngine::run_due`, which is
also the body of `ScanEngine::step`. -/
def round (e : ScanEngine) (r : Round) : Option ScanEngine :=
  let e := (e.tryEpochInstall r).1
  match e.pickDue r.nowMs with
  | none => some e
  | some task => e.invoke task r

/-- Turns of the loop: one for `ScanEngine::step`, and as many as tasks are due for
`ScanEngine::run_due`. -/
def rounds (e : ScanEngine) (rs : List Round) : Option ScanEngine := rs.foldlM round e

end ScanEngine

end SoftPlc.Scan
