import SoftPlc.Scan.Outputs
import SoftPlc.Scan.Reach

/-!
# Uploads on the whole runtime

`Runtime` of `Scan.Loader` with what it leaves out: the engine with its I/O, the tag dictionaries
and the report of the last arm. `IoRuntime` holds both. `IoRuntime.upload` is `Runtime::upload` of
`plc-runtime/src/loader.rs`: one call from the bytes of a package to buffer B. What the bytes parse
to is a parameter `validate`, which stands for `plc_package::validate` under the signature policy of
the runtime.

* `upload_unchanged_iff`: when a failed upload leaves everything as it was. It does not when
  `ScanEngine::arm` refuses the package, since only a failed `prepare_arm` is rolled back.
* `phase_invariant`: the phase agrees with buffer B in every run in which that does not happen.
-/

namespace SoftPlc.Scan

open SoftPlc.Ir SoftPlc.Vm SoftPlc.Retain SoftPlc.Io SoftPlc.Lib

/-! ## Packages and reports -/

/-- Image region of a tag. Source: `plc-package/src/manifest.rs`, `TagKind`. -/
inductive TagKind where
  | i
  | q
  | m
  | r
  | internal
  deriving DecidableEq, Repr

/-- One entry of the tag dictionary. Source: `manifest.rs`, `TagEntry`. -/
structure TagEntry where
  name : String
  ty : IrType
  kind : TagKind
  slot : Option ℕ
  deriving DecidableEq, Repr

/-- Source: `manifest.rs`, `RestartPolicy`. -/
inductive RestartPolicy where
  | safeReset
  | bumpless
  deriving DecidableEq, Repr

/-- A validated package. Source: `plc-package/src/format.rs`, `ParsedPackage`, after
`validate`, which leaves one module. -/
structure ParsedPackage where
  manifest : Manifest
  restartPolicy : RestartPolicy
  tagDictionary : List TagEntry
  module : IrModule

/-- Result of an arm. Source: `loader.rs`, `ArmReport`. -/
structure ArmReport where
  programId : String
  compatibilityHash : String
  retain : MapReport
  restartPolicy : RestartPolicy
  bumplessHonored : Bool
  bumplessDowngraded : Bool
  deriving DecidableEq, Repr

/-- Everything that an arm prepares. Source: `loader.rs`, `PreparedArm`. -/
structure PreparedUpload where
  arm : PreparedArm
  restart : OutputRestartPolicy
  report : ArmReport
  tags : List TagEntry

/-- The policy of the install, whether bumpless is honoured and whether it is downgraded. Source:
`loader.rs`, `resolve_restart`. -/
def resolveRestart (policy : RestartPolicy) (hash : String) (currentHash : Option String) :
    OutputRestartPolicy × Bool × Bool :=
  match policy with
  | .safeReset => (.safeReset, false, false)
  | .bumpless => if currentHash = some hash then (.bumpless, true, false)
      else (.safeReset, false, true)

/-- Counts of the remap. Source: `loader.rs`, the first result of `install_shadow_retain`. -/
def shadowReport (force : Bool) (layout : RetainLayout) : Option RetainSnapshot → MapReport
  | none => {}
  | some snap => ((mapRetain snap.layout snap.bytes layout force).toOption.map
      MappedRetain.report).getD {}

/-- Load a validated package. Source: `loader.rs`, `build_prepared`. -/
def buildPrepared (force : Bool) (parsed : ParsedPackage) (ctx : ArmContext)
    (currentHash : Option String) : Except RuntimeError PreparedUpload := do
  let arm ← Scan.prepareArm force ⟨parsed.manifest, some parsed.module⟩ ctx
  let (restart, honored, downgraded) :=
    resolveRestart parsed.restartPolicy parsed.manifest.compatibilityHash currentHash
  .ok
    { arm := arm
      restart := restart
      report :=
        { programId := parsed.manifest.id
          compatibilityHash := parsed.manifest.compatibilityHash
          retain := shadowReport force arm.layout ctx.retain
          restartPolicy := parsed.restartPolicy
          bumplessHonored := honored
          bumplessDowngraded := downgraded }
      tags := parsed.tagDictionary }

/-! ## State -/

/-- The runtime with its I/O. Source: `loader.rs`, `Runtime`. -/
structure IoRuntime where
  engine : IoEngine
  currentLayout : Option RetainLayout
  armedLayout : Option RetainLayout
  lastArm : Option ArmReport
  currentInfo : Option ProgramInfo
  armedInfo : Option ProgramInfo
  currentTags : List TagEntry
  armedTags : List TagEntry
  retainSnap : Option RetainSnapshotBuffer
  lastRetainSeq : ℕ

namespace IoRuntime

/-- The runtime without I/O, tags and report. -/
def toRuntime (rt : IoRuntime) : Runtime :=
  ⟨rt.engine.base, rt.currentLayout, rt.armedLayout, rt.currentInfo, rt.armedInfo, rt.retainSnap,
    rt.lastRetainSeq⟩

/-- Replace that part. -/
def withRuntime (rt : IoRuntime) (r : Runtime) : IoRuntime :=
  { rt with
    engine := { rt.engine with base := r.engine }
    currentLayout := r.currentLayout
    armedLayout := r.armedLayout
    currentInfo := r.currentInfo
    armedInfo := r.armedInfo
    retainSnap := r.retainSnap
    lastRetainSeq := r.lastRetainSeq }

@[simp] theorem toRuntime_withRuntime (rt : IoRuntime) (r : Runtime) :
    (rt.withRuntime r).toRuntime = r := rfl

/-! ## Operations -/

/-- Source: `loader.rs`, `Runtime::sync_layouts_after_step`. -/
def syncLayoutsAfterStep (rt : IoRuntime) : IoRuntime :=
  let synced := rt.withRuntime rt.toRuntime.syncLayoutsAfterStep
  if rt.engine.base.armed.isNone && rt.engine.base.currentId.isSome && rt.armedLayout.isSome then
    { synced with currentTags := rt.armedTags, armedTags := [] }
  else synced

/-- What an arm captures. Source: `loader.rs`, the result of `Runtime::begin_arm`. -/
def armContext (rt : IoRuntime) : ArmContext :=
  ⟨rt.engine.base.tasks.map TaskPlan.name, rt.toRuntime.snapshotRetain⟩

/-- Store the phase. Source: `hooks.rs`, `EpochHooks::set_phase`. -/
def setPhase (rt : IoRuntime) (phase : ProgramPhase) : IoRuntime :=
  { rt with engine := { rt.engine with base := { rt.engine.base with phase := phase } } }

/-- Source: `loader.rs`, `Runtime::begin_arm`. -/
def beginArm (rt : IoRuntime) : Except RuntimeError (ArmContext × IoRuntime) :=
  if rt.engine.base.phase = .swapping then .error (.conflict "upload while swapping")
  else if rt.engine.base.activateRequested then .error (.conflict "upload while activate pending")
  else
    let rt := rt.syncLayoutsAfterStep.setPhase .validating
    .ok (rt.armContext, rt)

/-- Source: `loader.rs`, `Runtime::abort_arm`. -/
def abortArm (rt : IoRuntime) : IoRuntime :=
  if rt.engine.base.phase ≠ .validating then rt
  else rt.setPhase (if rt.engine.base.armed.isSome then .armed else .idle)

/-- Source: `loader.rs`, `Runtime::commit_arm`. -/
def commitArm (rt : IoRuntime) (prepared : PreparedUpload) :
    Except RuntimeError (ArmReport × IoRuntime) :=
  if rt.engine.base.phase = .swapping then .error (.conflict "upload while swapping")
  else do
    let engine ← liftTo .scan (rt.engine.arm prepared.arm.program prepared.restart)
    .ok (prepared.report,
      { rt with
        engine := engine
        armedLayout := some prepared.arm.layout
        armedInfo := some prepared.arm.info
        armedTags := prepared.tags
        lastArm := some prepared.report })

/-- Source: `loader.rs`, `Runtime::disarm`; the uploader is not modelled. -/
def disarm (rt : IoRuntime) : Except RuntimeError IoRuntime := do
  let engine ← liftTo .scan rt.engine.disarm
  .ok
    { rt with
      engine := engine, armedLayout := none, lastArm := none, armedInfo := none, armedTags := [] }

/-- Source: `loader.rs`, `Runtime::activate`. -/
def activate (rt : IoRuntime) : Except RuntimeError (ActivateRequest × IoRuntime) := do
  let (req, engine) ← liftTo .scan rt.engine.requestActivate
  match req with
  | .noOp =>
      .ok (.noOp, { rt with
        engine := engine, armedLayout := none, lastArm := none, armedInfo := none, armedTags := [] })
  | .pending => .ok (.pending, { rt with engine := engine })

/-- Source: `loader.rs`, `Runtime::publish_retain_if_dirty`. -/
def publishRetainIfDirty (rt : IoRuntime) : IoRuntime :=
  rt.withRuntime rt.toRuntime.publishRetainIfDirty

/-- One cycle for `Runtime::step`, those of all due tasks for `Runtime::run_due`; a panic has no
result. Source: `loader.rs`, `Runtime::step` and `Runtime::run_due`. -/
def scan (rt : IoRuntime) (cycles : List Cycle) : Option IoRuntime := do
  let (engine, _) ← rt.engine.applyModeBoundary.rounds cycles
  pure { rt with engine := engine }.syncLayoutsAfterStep.publishRetainIfDirty

section Upload

variable (validate : List UInt8 → Except RuntimeError ParsedPackage) (force : Bool)

/-- Source: `loader.rs`, `Runtime::prepare_arm`; the hash of the current program is the one that the
context holds. -/
def prepareArm (bytes : List UInt8) (ctx : ArmContext) (currentHash : Option String) :
    Except RuntimeError PreparedUpload := do
  let parsed ← validate bytes
  buildPrepared force parsed ctx currentHash

/-- Validate and arm a package. Source: `loader.rs`, `Runtime::upload`. -/
def upload (rt : IoRuntime) (bytes : List UInt8) : Except RuntimeError ArmReport × IoRuntime :=
  match rt.beginArm with
  | .error e => (.error e, rt)
  | .ok (ctx, rt) =>
      match prepareArm validate force bytes ctx rt.engine.base.currentHash with
      | .ok prepared =>
          match rt.commitArm prepared with
          | .ok (report, rt) => (.ok report, rt)
          | .error e => (.error e, rt)
      | .error e => (.error e, rt.abortArm)

end Upload

/-! ## Failed uploads -/

/-- What a failed upload must not change. -/
structure Unchanged (rt rt' : IoRuntime) : Prop where
  phase : rt'.engine.base.phase = rt.engine.base.phase
  mode : rt'.engine.base.mode = rt.engine.base.mode
  currentId : rt'.engine.base.currentId = rt.engine.base.currentId
  /-- Id and machine of the armed program, with the rest of it. -/
  armed : rt'.engine.base.armed = rt.engine.base.armed
  currentLayout : rt'.currentLayout = rt.currentLayout
  armedLayout : rt'.armedLayout = rt.armedLayout
  currentTags : rt'.currentTags = rt.currentTags
  armedTags : rt'.armedTags = rt.armedTags
  lastArm : rt'.lastArm = rt.lastArm
  forces : rt'.engine.io.forces = rt.engine.io.forces

/-- No layout is left of an armed program that is gone. -/
def Settled (rt : IoRuntime) : Prop := rt.engine.base.armed = none → rt.armedLayout = none

/-- The phase that goes with buffer B. -/
def restPhase (rt : IoRuntime) : ProgramPhase :=
  if rt.engine.base.armed.isSome then .armed else .idle

theorem sync_of_settled {rt : IoRuntime} (h : rt.Settled) : rt.syncLayoutsAfterStep = rt := by
  unfold syncLayoutsAfterStep
  rw [show rt.toRuntime.syncLayoutsAfterStep = rt.toRuntime from sync_of_armedLayout h]
  rcases ha : rt.engine.base.armed with _ | a
  · rw [if_neg (by simp [h ha])]
    rfl
  · rfl

theorem sync_armedLayout (rt : IoRuntime) :
    rt.syncLayoutsAfterStep.armedLayout =
      if rt.engine.base.armed.isNone then none else rt.armedLayout := by
  have hcore : rt.syncLayoutsAfterStep.armedLayout =
      rt.toRuntime.syncLayoutsAfterStep.armedLayout := by
    unfold syncLayoutsAfterStep
    dsimp only
    split_ifs <;> rfl
  rw [hcore]
  show _ = if rt.toRuntime.engine.armed.isNone then none else rt.toRuntime.armedLayout
  unfold Runtime.syncLayoutsAfterStep
  split_ifs
  · show (Runtime.core (Runtime.resizeRetainSnapshot _)).armedLayout = none
    rw [core_resizeRetainSnapshot]
    rfl
  · rfl
  · rfl

theorem unchanged_setPhase_iff (rt : IoRuntime) (phase : ProgramPhase) :
    Unchanged rt (rt.setPhase phase) ↔ rt.engine.base.phase = phase := by
  constructor
  · intro h
    exact h.phase.symm
  · rintro rfl
    exact ⟨rfl, rfl, rfl, rfl, rfl, rfl, rfl, rfl, rfl, rfl⟩

section Failures

variable {validate : List UInt8 → Except RuntimeError ParsedPackage} {force : Bool}
  {rt rt' : IoRuntime} {bytes : List UInt8} {err : RuntimeError}

/-- `prepare_arm` takes the bytes. -/
def accepts (validate : List UInt8 → Except RuntimeError ParsedPackage) (force : Bool)
    (rt : IoRuntime) (bytes : List UInt8) : Bool :=
  (prepareArm validate force bytes rt.armContext rt.engine.base.currentHash).isOk

/-- What a failed upload does once it has begun: the phase is set back if `prepare_arm` failed, and
stays at validating if `ScanEngine::arm` did. -/
theorem upload_failed (hphase : rt.engine.base.phase ≠ .swapping)
    (hpending : rt.engine.base.activateRequested = false)
    (h : rt.upload validate force bytes = (.error err, rt')) :
    rt' = rt.syncLayoutsAfterStep.setPhase
      (if accepts validate force rt.syncLayoutsAfterStep bytes then .validating
        else rt.syncLayoutsAfterStep.restPhase) := by
  unfold upload beginArm at h
  rw [if_neg hphase, if_neg (by simp [hpending])] at h
  dsimp only at h
  unfold accepts
  rcases hprep : prepareArm validate force bytes
      (rt.syncLayoutsAfterStep.setPhase .validating).armContext
      (rt.syncLayoutsAfterStep.setPhase .validating).engine.base.currentHash with e | p
  · rw [hprep] at h
    cases h
    rw [show prepareArm validate force bytes rt.syncLayoutsAfterStep.armContext
      rt.syncLayoutsAfterStep.engine.base.currentHash = .error err from hprep]
    rfl
  · rw [hprep] at h
    dsimp only at h
    rcases hcommit : (rt.syncLayoutsAfterStep.setPhase .validating).commitArm p with e | ⟨report, r⟩
    · rw [hcommit] at h
      cases h
      rw [show prepareArm validate force bytes rt.syncLayoutsAfterStep.armContext
        rt.syncLayoutsAfterStep.engine.base.currentHash = .ok p from hprep]
      rfl
    · rw [hcommit] at h
      cases h

/-- **A failed upload changes nothing** exactly when a swap is in progress, or no layout is left of
an armed program that is gone and the phase is already the one the upload ends with: the phase of
buffer B when `prepare_arm` rejects the bytes, and validating when it accepts them, so that
`ScanEngine::arm` is what failed. -/
theorem upload_unchanged_iff (hpending : rt.engine.base.activateRequested = false)
    (h : rt.upload validate force bytes = (.error err, rt')) :
    Unchanged rt rt' ↔ rt.engine.base.phase = .swapping ∨
      (rt.Settled ∧ rt.engine.base.phase =
        if accepts validate force rt bytes then .validating else rt.restPhase) := by
  by_cases hphase : rt.engine.base.phase = .swapping
  · have hsame : rt' = rt := by
      unfold upload beginArm at h
      rw [if_pos hphase] at h
      cases h
      rfl
    rw [hsame]
    exact ⟨fun _ => .inl hphase, fun _ => ⟨rfl, rfl, rfl, rfl, rfl, rfl, rfl, rfl, rfl, rfl⟩⟩
  · have hrt' := upload_failed hphase hpending h
    constructor
    · intro hsame
      have hsettled : rt.Settled := by
        intro hnone
        rw [← hsame.armedLayout, hrt']
        show rt.syncLayoutsAfterStep.armedLayout = none
        rw [sync_armedLayout, hnone]
        rfl
      rw [sync_of_settled hsettled] at hrt'
      rw [hrt', unchanged_setPhase_iff] at hsame
      exact .inr ⟨hsettled, hsame⟩
    · rintro (hswap | ⟨hsettled, hrest⟩)
      · exact absurd hswap hphase
      · rw [sync_of_settled hsettled] at hrt'
        rw [hrt', unchanged_setPhase_iff]
        exact hrest

/-- A package of one task that does nothing, for a device with some outputs. -/
def idleParsed (outputSlots : ℕ) : ParsedPackage where
  manifest := ⟨"idle", "hash of idle", primitiveAbi, [("main", "task.main")], []⟩
  restartPolicy := .safeReset
  tagDictionary := []
  module := { taskModule [.simple .halt 0] 0 with outputSlots := outputSlots }

/-- A device with one task and one output. -/
def oneDevice : IoRuntime := ⟨.initial oneTask (oneOutput (.int 50)) none, none, none, none, none,
  none, [], [], none, 0⟩

/-- Bytes that do not parse change nothing. -/
theorem upload_unchanged_bad_magic :
    Unchanged oneDevice
      (oneDevice.upload (fun _ => .error (.package "bad magic")) false [0]).2 := by
  apply (upload_unchanged_iff rfl (Prod.ext rfl rfl)).mpr
  refine .inr ⟨fun _ => rfl, ?_⟩
  decide

/-- A package without outputs is refused by a device with one, which is left in the phase
validating. -/
theorem upload_stays_validating :
    ∃ err rt', oneDevice.upload (fun _ => .ok (idleParsed 0)) false [0] = (.error err, rt') ∧
      oneDevice.engine.base.activateRequested = false ∧
      oneDevice.engine.base.phase = .idle ∧ rt'.engine.base.phase = .validating ∧
      ¬ Unchanged oneDevice rt' := by
  have hphase : (oneDevice.upload (fun _ => .ok (idleParsed 0)) false [0]).2.engine.base.phase =
      .validating := by decide +kernel
  have herr : (oneDevice.upload (fun _ => .ok (idleParsed 0)) false [0]).1.isOk = false := by
    decide +kernel
  rcases hup : oneDevice.upload (fun _ => .ok (idleParsed 0)) false [0] with ⟨err | report, rt'⟩
  · rw [hup] at hphase
    refine ⟨err, rt', rfl, rfl, rfl, hphase, fun hsame => ?_⟩
    have := hsame.phase
    rw [hphase] at this
    cases this
  · rw [hup] at herr
    cases herr

end Failures

/-! ## Runs -/

/-- Calls of the runtime, and what reaches the engine from elsewhere. -/
inductive Call where
  | upload (bytes : List UInt8)
  | disarm
  | activate
  /-- `Runtime::step` and `Runtime::run_due`. -/
  | scan (cycles : List Cycle)
  | requestMode (req : ModeRequest)
  | force (slot : ℕ) (value : PlcValue)
  | unforce (slot : ℕ)

section Runs

variable (validate : List UInt8 → Except RuntimeError ParsedPackage) (force : Bool)

/-- What a call leaves; one that fails with an error leaves what it has changed before. -/
def call (rt : IoRuntime) : Call → Option IoRuntime
  | .upload bytes => some (rt.upload validate force bytes).2
  | .disarm => some (rt.disarm.toOption.getD rt)
  | .activate => some ((rt.activate.toOption.map Prod.snd).getD rt)
  | .scan cycles => rt.scan cycles
  | .requestMode req => some { rt with
      engine := { rt.engine with base := { rt.engine.base with pendingMode := some req } } }
  | .force slot value => some { rt with
      engine := { rt.engine with io := { rt.engine.io with
        forces := rt.engine.io.forces.force slot value } } }
  | .unforce slot => some { rt with
      engine := { rt.engine with io := { rt.engine.io with
        forces := rt.engine.io.forces.unforce slot } } }

/-- A runtime without a program. Source: `loader.rs`, `Runtime::new`. -/
def new (plan : ScanPlan) (io : ScanIo) : IoRuntime :=
  ⟨.initial plan io none, none, none, none, none, none, [], [], none, 0⟩

/-- States that are reached by calls which meet a condition in the state before them. -/
inductive Reached (cond : IoRuntime → Call → Prop) : IoRuntime → Prop
  | start (plan : ScanPlan) (io : ScanIo) : Reached cond (new plan io)
  | step {rt rt' : IoRuntime} {c : Call} (h : Reached cond rt) (hcond : cond rt c)
      (hcall : rt.call validate force c = some rt') : Reached cond rt'

/-- A package that an upload gets as far as `ScanEngine::arm` has the slots of the device. -/
def Fits (rt : IoRuntime) (c : Call) : Prop :=
  ∀ bytes parsed, c = .upload bytes → rt.engine.base.activateRequested = false →
    validate bytes = .ok parsed → accepts validate force rt bytes = true →
    parsed.module.inputSlots = rt.engine.base.inputSlots ∧
      parsed.module.outputSlots = rt.engine.base.outputSlots

end Runs

/-- Phase, request, layout and identity agree with the engine. -/
structure InPhase (rt : IoRuntime) : Prop where
  armed : rt.engine.base.phase = .armed ↔ rt.engine.base.armed.isSome
  idle : rt.engine.base.phase = .idle ↔ rt.engine.base.armed = none
  between : rt.engine.base.phase ≠ .validating ∧ rt.engine.base.phase ≠ .swapping
  requested : rt.engine.base.activateRequested = true → rt.engine.base.armed.isSome
  /-- A current program has its layout and its identity. -/
  current : ∀ vm, rt.engine.base.vm = some vm → ∃ layout info,
    rt.currentLayout = some layout ∧ layout.retainSize = vm.state.retain.len ∧
      rt.currentInfo = some info ∧ rt.engine.base.currentId = some info.id

/-- The service that a runtime belongs to, with no arm in progress. -/
def toPlc (rt : IoRuntime) : Plc := ⟨rt.toRuntime, fun _ => none, none⟩

/-- What every run keeps. -/
structure Sound (force : Bool) (rt : IoRuntime) : Prop where
  good : Good force rt.toPlc
  phase : rt.engine.base.phase = rt.restPhase
  requested : rt.engine.base.activateRequested = true → rt.engine.base.armed.isSome

theorem Sound.inPhase {force : Bool} {rt : IoRuntime} (h : Sound force rt) : InPhase rt := by
  have hphase := h.phase
  unfold restPhase at hphase
  refine ⟨?_, ?_, ?_, h.requested, ?_⟩
  · rw [hphase]
    rcases rt.engine.base.armed with _ | a <;> simp
  · rw [hphase]
    rcases rt.engine.base.armed with _ | a <;> simp
  · rw [hphase]
    rcases rt.engine.base.armed with _ | a <;> simp
  · intro vm hvm
    have hlayout : rt.currentLayout.isSome = true := by
      have hsome := h.good.paired.vm
      rw [show rt.toPlc.runtime.engine.vm = some vm from hvm] at hsome
      exact hsome.symm
    have hinfo : rt.currentInfo.isSome = true := h.good.currentInfo.trans hlayout
    obtain ⟨layout, hlayout⟩ := Option.isSome_iff_exists.mp hlayout
    obtain ⟨info, hinfo⟩ := Option.isSome_iff_exists.mp hinfo
    refine ⟨layout, info, hlayout, (h.good.paired.len vm layout hvm hlayout).symm, hinfo, ?_⟩
    have hid : rt.engine.base.currentId = rt.currentInfo.map ProgramInfo.id := h.good.currentId
    rw [hid, hinfo]
    rfl

theorem sound_new (force : Bool) (plan : ScanPlan) (io : ScanIo) : Sound force (new plan io) := by
  refine ⟨?_, rfl, fun h => by cases h⟩
  exact good_start force plan.tasks (scheduleOrder plan.tasks) io.image.inputs.length
    io.image.outputs.length

section Steps

variable {validate : List UInt8 → Except RuntimeError ParsedPackage} {force : Bool}
  {rt rt' : IoRuntime}

theorem toRuntime_sync (rt : IoRuntime) :
    rt.syncLayoutsAfterStep.toRuntime = rt.toRuntime.syncLayoutsAfterStep := by
  unfold syncLayoutsAfterStep
  dsimp only
  split_ifs
  · rfl
  · rfl

/-- **A scan is one of the runtime without I/O.** -/
theorem scan_refines {cycles : List Cycle} (h : rt.scan cycles = some rt') :
    ∃ rs, rt.toRuntime.scan rs = some rt'.toRuntime := by
  unfold scan at h
  obtain ⟨⟨engine, marks⟩, hrounds, h⟩ := Option.bind_eq_some_iff.mp h
  cases h
  obtain ⟨rs, hrs⟩ := IoEngine.rounds_refines hrounds
  refine ⟨rs, ?_⟩
  unfold Runtime.scan publishRetainIfDirty
  rw [toRuntime_withRuntime, toRuntime_sync]
  rw [show rt.toRuntime.engine.applyModeBoundary.rounds rs = some engine.base from hrs]
  rfl

theorem Sound.scan (h : Sound force rt) {cycles : List Cycle} (hscan : rt.scan cycles = some rt') :
    Sound force rt' := by
  obtain ⟨rs, hrs⟩ := scan_refines hscan
  have hgood := h.good.scan (show rt.toPlc.runtime.scan rs = some rt'.toRuntime from hrs)
  have hphase := h.phase
  obtain ⟨e, ⟨hheld, -, heq⟩ | ⟨a, l, hswung, -, -, heq⟩⟩ := scan_cases h.good hrs
  · have he : rt'.engine.base = e := by
      show rt'.toRuntime.core.engine = e
      rw [heq, core_publishRetainIfDirty]
      rfl
    have harmed : rt'.engine.base.armed.isSome = rt.engine.base.armed.isSome := by
      have hsome := congrArg Option.isSome hheld.armed
      rw [Option.isSome_map, Option.isSome_map] at hsome
      rw [he]
      exact hsome
    refine ⟨hgood, ?_, ?_⟩
    · unfold restPhase at hphase ⊢
      rw [harmed, ← hphase, he]
      rcases hheld.phase with hp | ⟨hp, -, hne⟩
      · exact hp
      · rw [show e.phase = .armed from hp, hphase, if_pos]
        exact Option.isSome_iff_ne_none.mpr hne
    · intro hreq
      rw [harmed]
      rw [he] at hreq
      exact h.requested (hheld.requested hreq)
  · have he : rt'.engine.base = e := by
      show rt'.toRuntime.core.engine = e
      rw [heq, core_publishRetainIfDirty, core_resizeRetainSnapshot]
      rfl
    refine ⟨hgood, ?_, ?_⟩
    · unfold restPhase
      rw [he, hswung.idle, hswung.armed]
      rfl
    · intro hreq
      rw [he] at hreq
      have := hswung.done
      rw [show e.activateRequested = true from hreq] at this
      cases this

theorem Sound.disarm (h : Sound force rt) (hdisarm : rt.disarm = .ok rt') : Sound force rt' := by
  obtain ⟨engine, hengine, heq⟩ := except_bind_ok.mp hdisarm
  cases heq
  have hengine := liftTo_ok.mp hengine
  unfold IoEngine.disarm at hengine
  split_ifs at hengine
  cases hengine
  have hg := h.good
  refine ⟨⟨⟨hg.paired.vm, hg.paired.len, (fun b hb => nomatch hb), by simp [toPlc, toRuntime]⟩,
    fun _ => rfl, rfl, hg.currentId, hg.currentHash, hg.currentInfo, fun _ => rfl, hg.snapshot⟩,
    rfl, fun hreq => by cases hreq⟩

theorem Sound.activate (h : Sound force rt) {req : ActivateRequest}
    (hactivate : rt.activate = .ok (req, rt')) : Sound force rt' := by
  obtain ⟨⟨r, engine⟩, hengine, heq⟩ := except_bind_ok.mp hactivate
  have hengine := liftTo_ok.mp hengine
  unfold IoEngine.requestActivate ScanEngine.requestActivate at hengine
  have hg := h.good
  split_ifs at hengine
  rcases harmed : rt.engine.base.armed with _ | a
  · rw [harmed] at hengine
    cases hengine
  · rw [harmed] at hengine
    dsimp only at hengine
    split_ifs at hengine
    · cases hengine
      cases heq
      refine ⟨⟨⟨hg.paired.vm, hg.paired.len, (fun b hb => nomatch hb), by simp [toPlc, toRuntime]⟩,
        fun _ => rfl, rfl, hg.currentId, hg.currentHash, hg.currentInfo, fun _ => rfl, hg.snapshot⟩,
        rfl, fun hreq => by cases hreq⟩
    · cases hengine
      cases heq
      refine ⟨⟨⟨hg.paired.vm, hg.paired.len, ?_, hg.paired.phase⟩, (fun hne => nomatch hne), ?_,
        hg.currentId, hg.currentHash, hg.currentInfo, fun hne => absurd rfl hne, hg.snapshot⟩, ?_,
        fun _ => rfl⟩
      · exact fun b hb => hg.paired.armed b (harmed.trans hb)
      · exact hg.armedInfo.trans (congrArg (Option.map ArmedProgram.info) harmed)
      · have hphase := h.phase
        unfold restPhase at hphase
        rw [harmed] at hphase
        exact hphase

theorem mapM_length {α β : Type} {f : α → Except RuntimeError β} {xs : List α} {ys : List β}
    (h : xs.mapM f = .ok ys) : ys.length = xs.length := by
  induction xs generalizing ys with
  | nil =>
      cases h
      rfl
  | cons x xs ih =>
      rw [List.mapM_cons] at h
      obtain ⟨y, -, h⟩ := except_bind_ok.mp h
      obtain ⟨zs, hzs, h⟩ := except_bind_ok.mp h
      cases h
      rw [List.length_cons, List.length_cons, ih hzs]

/-- A prepared program has an entry for each task and the slots of its module. -/
theorem prepared_slots {bytes : List UInt8} {ctx : ArmContext} {hash : Option String}
    {p : PreparedUpload} (h : prepareArm validate force bytes ctx hash = .ok p) :
    ∃ parsed, validate bytes = .ok parsed ∧
      Scan.prepareArm force ⟨parsed.manifest, some parsed.module⟩ ctx = .ok p.arm ∧
      p.arm.program.taskEntries.length = ctx.taskNames.length ∧
      p.arm.program.vm.state.inputs.len = parsed.module.inputSlots ∧
      p.arm.program.vm.state.outputs.len = parsed.module.outputSlots := by
  obtain ⟨parsed, hvalid, h⟩ := except_bind_ok.mp h
  obtain ⟨arm, harm, h⟩ := except_bind_ok.mp h
  cases h
  refine ⟨parsed, hvalid, harm, ?_⟩
  unfold Scan.prepareArm at harm
  dsimp only at harm
  split_ifs at harm
  obtain ⟨entries, hentries, harm⟩ := except_bind_ok.mp harm
  obtain ⟨vm, hvm, harm⟩ := except_bind_ok.mp harm
  obtain ⟨layout, -, harm⟩ := except_bind_ok.mp harm
  obtain ⟨⟨retain, copies⟩, -, harm⟩ := except_bind_ok.mp harm
  cases harm
  cases load_ok (liftTo_ok.mp hvm)
  exact ⟨mapM_length hentries, SlotImage.len_bools _, SlotImage.len_bools _⟩

theorem Sound.settled (h : Sound force rt) : rt.Settled := h.good.armedLayout

/-- An arm of a program that fits. -/
theorem arm_of_fits {e : ScanEngine} {program : ArmedProgram} (hphase : e.phase ≠ .swapping)
    (hentries : program.taskEntries.length = e.tasks.length)
    (hin : program.vm.state.inputs.len = e.inputSlots)
    (hout : program.vm.state.outputs.len = e.outputSlots) :
    e.arm program = .ok { e with
      armed := some
        { program with vm := ⟨program.vm.image, program.vm.state.coldResetNonRetain⟩ }
      phase := .armed, activateRequested := false } := by
  unfold ScanEngine.arm
  rw [if_neg hphase, if_neg (not_not.mpr hentries), if_neg (not_not.mpr hin),
    if_neg (not_not.mpr hout)]

/-- An upload whose package fits keeps the invariant. -/
theorem Sound.upload (h : Sound force rt) {bytes : List UInt8}
    (hfits : Fits validate force rt (.upload bytes)) :
    Sound force (rt.upload validate force bytes).2 := by
  have hswap : rt.engine.base.phase ≠ .swapping := h.good.paired.phase
  by_cases hreq : rt.engine.base.activateRequested = true
  · have hsame : (rt.upload validate force bytes).2 = rt := by
      unfold IoRuntime.upload beginArm
      rw [if_neg hswap, if_pos hreq]
    rw [hsame]
    exact h
  · have hreq : rt.engine.base.activateRequested = false := by simpa using hreq
    unfold IoRuntime.upload beginArm
    rw [if_neg hswap, if_neg (by simp [hreq]), sync_of_settled h.settled]
    dsimp only
    rcases hprep : prepareArm validate force bytes (rt.setPhase .validating).armContext
        (rt.setPhase .validating).engine.base.currentHash with e | p
    · -- The phase goes back to that of buffer B, where it was.
      show Sound force (rt.setPhase rt.restPhase)
      rw [← h.phase]
      exact h
    · obtain ⟨parsed, hvalid, harm, hentries, hin, hout⟩ := prepared_slots hprep
      have haccepts : accepts validate force rt bytes = true := by
        show (prepareArm validate force bytes (rt.setPhase .validating).armContext
          (rt.setPhase .validating).engine.base.currentHash).isOk = true
        rw [hprep]
        rfl
      obtain ⟨hinputs, houtputs⟩ := hfits bytes parsed rfl hreq hvalid haccepts
      have hphase : (rt.setPhase .validating).engine.base.phase ≠ .swapping := by simp [setPhase]
      have hbase := arm_of_fits hphase (hentries.trans (List.length_map _)) (hin.trans hinputs)
        (hout.trans houtputs)
      -- The arm of the service makes the same steps on the runtime without I/O.
      have hgood := (h.good.begins hreq ⟨parsed.manifest, some parsed.module⟩).armFinish
      unfold Plc.armFinish at hgood
      dsimp only at hgood
      rw [show Scan.prepareArm force ⟨parsed.manifest, some parsed.module⟩
        ⟨rt.toPlc.runtime.engine.tasks.map TaskPlan.name, rt.toPlc.runtime.snapshotRetain⟩ =
          .ok p.arm from harm] at hgood
      dsimp only at hgood
      unfold Runtime.commitArm at hgood
      unfold commitArm IoEngine.arm
      dsimp only
      rw [hbase, if_neg hphase]
      have hbase' : ({ rt.toPlc.runtime.engine with phase := .validating } : ScanEngine).arm
          p.arm.program = _ := hbase
      rw [if_neg (show ProgramPhase.validating ≠ .swapping by decide), hbase'] at hgood
      exact ⟨hgood, rfl, fun hreq => by cases hreq⟩

/-- A call that fits keeps the invariant. -/
theorem Sound.call (h : Sound force rt) {c : Call} (hfits : Fits validate force rt c)
    (hcall : rt.call validate force c = some rt') : Sound force rt' := by
  have hg := h.good
  cases c with
  | upload bytes =>
      cases hcall
      exact h.upload hfits
  | disarm =>
      cases hcall
      rcases hdis : rt.disarm with e | r
      · exact h
      · exact h.disarm hdis
  | activate =>
      cases hcall
      rcases hact : rt.activate with e | ⟨req, r⟩
      · exact h
      · exact h.activate hact
  | scan cycles => exact h.scan hcall
  | requestMode req =>
      cases hcall
      exact ⟨⟨⟨hg.paired.vm, hg.paired.len, hg.paired.armed, hg.paired.phase⟩, hg.armedLayout,
        hg.armedInfo, hg.currentId, hg.currentHash, hg.currentInfo, hg.quiet, hg.snapshot⟩, h.phase,
        h.requested⟩
  | force slot value =>
      cases hcall
      exact ⟨hg, h.phase, h.requested⟩
  | unforce slot =>
      cases hcall
      exact ⟨hg, h.phase, h.requested⟩

/-- **The phase agrees with buffer B** in every run whose uploads fit the device: armed with a
program in it, idle without one, and a request, a layout and an identity only for what is there. -/
theorem phase_invariant (h : Reached validate force (Fits validate force) rt) : InPhase rt := by
  have hsound : Sound force rt := by
    induction h with
    | start plan io => exact sound_new force plan io
    | step _ hfits hcall ih => exact ih.call hfits hcall
  exact hsound.inPhase

/-- What a device with one output has after an upload and an activate. -/
def uploaded (slots : ℕ) : IoRuntime :=
  let rt := ((new oneTask (oneOutput (.int 50))).upload (fun _ => .ok (idleParsed slots)) false
    [0]).2
  (rt.activate.toOption.map Prod.snd).getD rt

theorem fits_of_not_upload {c : Call} (h : ∀ bytes, c ≠ .upload bytes) :
    Fits validate force rt c := by
  intro bytes parsed hc
  exact absurd hc (h bytes)

/-- A program that fits is uploaded, activated and installed. -/
theorem phase_invariant_installed :
    ∃ rt, Reached (fun _ => .ok (idleParsed 1)) false (Fits (fun _ => .ok (idleParsed 1)) false)
        rt ∧ rt.engine.base.currentId = some "idle" ∧ InPhase rt := by
  have hscan : ((uploaded 1).scan [cycleAt 0]).map (fun rt => rt.engine.base.currentId) =
      some (some "idle") := by decide +kernel
  obtain ⟨rt, hrt, hid⟩ := Option.map_eq_some_iff.mp hscan
  have hstart : Reached (fun _ => .ok (idleParsed 1)) false
      (Fits (fun _ => .ok (idleParsed 1)) false) (new oneTask (oneOutput (.int 50))) := .start _ _
  have hupload := hstart.step (c := .upload [0])
    (by
      intro bytes parsed _ _ hparsed _
      cases hparsed
      exact ⟨rfl, rfl⟩) rfl
  have hactivate := hupload.step (c := .activate) (fits_of_not_upload (by simp)) rfl
  have hreached := hactivate.step (c := .scan [cycleAt 0]) (fits_of_not_upload (by simp)) hrt
  exact ⟨rt, hreached, hid, phase_invariant hreached⟩

/-- A package with the wrong slots leaves the phase at validating. -/
theorem phase_left_validating :
    ∃ rt, Reached (fun _ => .ok (idleParsed 0)) false (fun _ _ => True) rt ∧
      rt.engine.base.phase = .validating ∧ ¬ InPhase rt := by
  have hstart : Reached (fun _ => .ok (idleParsed 0)) false (fun _ _ => True)
      (new oneTask (oneOutput (.int 50))) := .start _ _
  have hupload := hstart.step (c := .upload [0]) trivial rfl
  have hphase : ((new oneTask (oneOutput (.int 50))).upload (fun _ => .ok (idleParsed 0)) false
      [0]).2.engine.base.phase = .validating := by decide +kernel
  exact ⟨_, hupload, hphase, fun h => h.between.1 hphase⟩

end Steps

end IoRuntime

end SoftPlc.Scan
