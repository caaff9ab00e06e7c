import SoftPlc.Retain.Store
import SoftPlc.Scan.Engine

/-!
# The loader, the program store and the flusher

`plc-runtime/src/loader.rs` in front of the scan engine: preparing a package for the arm, keeping
the retain layouts of the current and of the armed program, and handing retain images to the
flusher (`plc-retain/src/snapshot.rs`). Above it the handlers of `plc-api/src/routes/programs.rs`
and `flush_retain` of `soft-plc-runtime/src/supervisor.rs`.

`Plc` is what they share. An `Event` is what one holder of the runtime lock does, and an arm is two
of them, because it gives the lock up while it validates and loads the package.

A package is what its bytes parse to. Signatures, section framing and the cross checks of
`plc-package/src/validate.rs` are behind `Package.validated`.
-/

namespace SoftPlc.Scan

open SoftPlc.Ir SoftPlc.Vm SoftPlc.Retain SoftPlc.Lib

/-! ## Packages -/

/-- Package manifest. Source: `plc-package/src/manifest.rs`, `Manifest`. -/
structure Manifest where
  id : String
  compatibilityHash : String
  primitiveAbi : ℕ
  /-- Task name to entry symbol. -/
  taskEntries : List (String × String)
  retainSymbols : List RetainSymbol
  deriving DecidableEq, Repr

/-- A package whose manifest parses. -/
structure Package where
  manifest : Manifest
  /-- The module, when the package passes `validate`. -/
  validated : Option IrModule
  deriving DecidableEq, Repr

/-- Source: `plc-runtime/src/error.rs`, `RuntimeError`. -/
inductive RuntimeError where
  | package (message : String)
  | retain (e : RetainError)
  | scan (e : ScanError)
  | vm (e : VmError)
  | conflict (context : String)
  | arm (message : String)
  deriving DecidableEq, Repr

/-- Use the result of another layer. Source: the `From` instances of `RuntimeError`. -/
def liftTo {ε α : Type} (wrap : ε → RuntimeError) : Except ε α → Except RuntimeError α
  | .ok a => .ok a
  | .error e => .error (wrap e)

/-- Source: `loader.rs`, `RetainSnapshot`. -/
structure RetainSnapshot where
  layout : RetainLayout
  bytes : List UInt8

/-- What an arm copies under the lock. Source: `loader.rs`, `ArmContext`. -/
structure ArmContext where
  taskNames : List String
  retain : Option RetainSnapshot

/-- Source: `loader.rs`, `ProgramInfo`. -/
structure ProgramInfo where
  id : String
  compatibilityHash : String
  deriving DecidableEq, Repr

/-- Source: `loader.rs`, `PreparedArm`. -/
structure PreparedArm where
  program : ArmedProgram
  layout : RetainLayout
  info : ProgramInfo

/-- Source: `plc-fb-primitives/src/lib.rs`, `PRIMITIVE_ABI`. -/
def primitiveAbi : ℕ := 1

/-- The copies that an install makes: every symbol with its name and type in the old layout.
Source: `loader.rs`, the `for` of `install_shadow_retain`. -/
def keepCopies (old new : RetainLayout) : List RetainCopy :=
  new.symbols.filterMap fun s =>
    match old.get s.name with
    | some o => if o.ty = s.ty then some ⟨o.offset, s.offset, o.ty.byteWidth⟩ else none
    | none => none

/-- Fill the retain segment of a new machine from a snapshot of the current one. Source:
`loader.rs`, `install_shadow_retain`. -/
def installShadowRetain (retain : ByteSegment) (newLayout : RetainLayout)
    (snapshot : Option RetainSnapshot) (forceIncompat : Bool) :
    Except RuntimeError (ByteSegment × List RetainCopy) :=
  match snapshot with
  | none => .ok (retain, [])
  | some snap => do
      let mapped ← liftTo .retain (mapRetain snap.layout snap.bytes newLayout forceIncompat)
      let retain ← liftTo .vm (retain.loadRetainImage mapped.image newLayout)
      .ok (retain, keepCopies snap.layout newLayout)

/-- The entry symbol of a task. Source: `loader.rs`, the `for` of `build_prepared`. -/
def taskEntry (m : Manifest) (name : String) : Except RuntimeError String :=
  match m.taskEntries.find? fun e => e.1 == name with
  | some e => .ok e.2
  | none => .error (.arm ("package missing task_entries for '" ++ name ++ "'"))

/-- Validate and load a package. Source: `loader.rs`, `Runtime::prepare_arm` and
`build_prepared`. -/
def prepareArm (force : Bool) (pkg : Package) (ctx : ArmContext) :
    Except RuntimeError PreparedArm := do
  match pkg.validated with
  | none => .error (.package "validation failed")
  | some module =>
      if pkg.manifest.primitiveAbi ≠ primitiveAbi then
        .error (.arm ("primitive_abi " ++ toString pkg.manifest.primitiveAbi ++ " != runtime " ++
          toString primitiveAbi))
      else do
        let taskEntries ← ctx.taskNames.mapM (taskEntry pkg.manifest)
        let vm ← liftTo .vm (ArmedVm.load module {})
        let layout ← liftTo .package
          (RetainLayout.new vm.state.retain.len pkg.manifest.retainSymbols)
        let (retain, copies) ← installShadowRetain vm.state.retain layout ctx.retain force
        .ok
          { program :=
              { vm := ⟨vm.image, vm.state.withRetain retain⟩
                programId := pkg.manifest.id
                compatibilityHash := pkg.manifest.compatibilityHash
                taskEntries := taskEntries
                retainCopies := copies }
            layout := layout
            info := ⟨pkg.manifest.id, pkg.manifest.compatibilityHash⟩ }

/-! ## Snapshots for the flusher -/

/-- Double buffer of retain bytes; reader and writer hold the runtime lock. Source:
`plc-retain/src/snapshot.rs`, `RetainSnapshotBuffer`. -/
structure RetainSnapshotBuffer where
  slots : Slot → List UInt8
  size : ℕ
  /-- Publishes so far, `0` when none. -/
  seq : ℕ
  published : Slot
  /-- The sequence that was read last. -/
  lastTake : ℕ

namespace RetainSnapshotBuffer

/-- Source: `snapshot.rs`, `RetainSnapshotBuffer::new`. -/
def new (size : ℕ) : RetainSnapshotBuffer := ⟨fun _ => List.replicate size 0, size, 0, .zero, 0⟩

/-- Copy an image into the back slot and publish it. Source: `snapshot.rs`,
`RetainSnapshotBuffer::publish`. -/
def publish (b : RetainSnapshotBuffer) (image : List UInt8) : RetainSnapshotBuffer :=
  let back := b.published.other
  let bytes := image.take b.size ++ List.replicate (b.size - image.length) 0
  { b with
    slots := fun s => if s = back then bytes else b.slots s
    published := back
    seq := max ((b.seq + 1) % 2 ^ 64) 1 }

/-- Something was published since the last read. Source: `snapshot.rs`, the test of
`RetainSnapshotBuffer::read`. -/
def unread (b : RetainSnapshotBuffer) : Bool := b.seq != 0 && b.seq != b.lastTake

/-- Read the published image into a destination of a length, if it is new. Source: `snapshot.rs`,
`RetainSnapshotBuffer::read`. -/
def read (b : RetainSnapshotBuffer) (dstLen : ℕ) : Option (List UInt8 × RetainSnapshotBuffer) :=
  if b.unread then
    let bytes := (b.slots b.published).take (min dstLen b.size)
    some (bytes ++ List.replicate (dstLen - bytes.length) 0, { b with lastTake := b.seq })
  else none

end RetainSnapshotBuffer

/-! ## The runtime -/

/-- Dual-buffer loader. Source: `loader.rs`, `Runtime`. -/
structure Runtime where
  engine : ScanEngine
  currentLayout : Option RetainLayout
  armedLayout : Option RetainLayout
  currentInfo : Option ProgramInfo
  armedInfo : Option ProgramInfo
  retainSnap : Option RetainSnapshotBuffer
  lastRetainSeq : ℕ

namespace Runtime

/-- Source: `loader.rs`, `Runtime::resize_retain_snapshot`. -/
def resizeRetainSnapshot (rt : Runtime) : Runtime :=
  let size := (rt.currentLayout.map RetainLayout.retainSize).getD 0
  if size = 0 then { rt with retainSnap := none }
  else if (rt.retainSnap.map RetainSnapshotBuffer.size) = some size then rt
  else { rt with retainSnap := some (.new size), lastRetainSeq := 0 }

/-- Source: `loader.rs`, `Runtime::sync_layouts_after_step`. -/
def syncLayoutsAfterStep (rt : Runtime) : Runtime :=
  if rt.engine.armed.isNone then
    if rt.engine.currentId.isSome && rt.armedLayout.isSome then
      resizeRetainSnapshot
        { rt with
          currentLayout := rt.armedLayout, armedLayout := none
          currentInfo := rt.armedInfo, armedInfo := none }
    else { rt with armedLayout := none }
  else rt

/-- Source: `loader.rs`, `Runtime::publish_retain_if_dirty`. -/
def publishRetainIfDirty (rt : Runtime) : Runtime :=
  let seq := rt.engine.retainSeq
  if seq = 0 ∨ seq = rt.lastRetainSeq then rt
  else
    match rt.retainSnap, rt.engine.vm with
    | some buf, some vm =>
        { rt with retainSnap := some (buf.publish vm.state.retain.bytes), lastRetainSeq := seq }
    | _, _ => rt

/-- Scan: one round for `Runtime::step`, those of all due tasks for `Runtime::run_due`. Source:
`loader.rs`, `Runtime::step` and `Runtime::run_due`. -/
def scan (rt : Runtime) (rs : List Round) : Option Runtime := do
  let engine ← rt.engine.applyModeBoundary.rounds rs
  pure { rt with engine := engine }.syncLayoutsAfterStep.publishRetainIfDirty

/-- Copy the current retain segment. Source: `loader.rs`, `Runtime::snapshot_retain`. -/
def snapshotRetain (rt : Runtime) : Option RetainSnapshot :=
  match rt.currentLayout, rt.engine.vm with
  | some layout, some vm => some ⟨layout, vm.state.retain.bytes⟩
  | _, _ => none

/-- Source: `loader.rs`, `Runtime::begin_arm`. -/
def beginArm (rt : Runtime) : Except RuntimeError (ArmContext × Runtime) :=
  if rt.engine.phase = .swapping then .error (.conflict "upload while swapping")
  else if rt.engine.activateRequested then .error (.conflict "upload while activate pending")
  else
    let rt := rt.syncLayoutsAfterStep
    let rt := { rt with engine := { rt.engine with phase := .validating } }
    .ok (⟨rt.engine.tasks.map TaskPlan.name, rt.snapshotRetain⟩, rt)

/-- Source: `loader.rs`, `Runtime::abort_arm`. -/
def abortArm (rt : Runtime) : Runtime :=
  if rt.engine.phase ≠ .validating then rt
  else
    let phase := if rt.engine.armed.isSome then ProgramPhase.armed else .idle
    { rt with engine := { rt.engine with phase := phase } }

/-- Source: `loader.rs`, `Runtime::commit_arm`. -/
def commitArm (rt : Runtime) (prepared : PreparedArm) : Except RuntimeError Runtime :=
  if rt.engine.phase = .swapping then .error (.conflict "upload while swapping")
  else do
    let engine ← liftTo .scan (rt.engine.arm prepared.program)
    .ok
      { rt with
        engine := engine, armedLayout := some prepared.layout, armedInfo := some prepared.info }

/-- Source: `loader.rs`, `Runtime::activate`. -/
def activate (rt : Runtime) : Except RuntimeError (ActivateRequest × Runtime) := do
  let (req, engine) ← liftTo .scan rt.engine.requestActivate
  match req with
  | .noOp =>
      .ok (.noOp, { rt with engine := engine, armedLayout := none, armedInfo := none })
  | .pending => .ok (.pending, { rt with engine := engine })

/-- Restore a retain image at boot and publish it. Source: `loader.rs`,
`Runtime::load_retain_image`, and `supervisor.rs`, `restore_retain`. -/
def restoreRetain (rt : Runtime) (image : List UInt8) : Runtime :=
  match rt.currentLayout, rt.engine.vm with
  | some layout, some vm =>
      match vm.state.retain.loadRetainImage image layout with
      | .ok retain =>
          { rt with
            engine := { rt.engine with vm := some ⟨vm.image, vm.state.withRetain retain⟩ }
            retainSnap := rt.retainSnap.map fun buf => buf.publish retain.bytes }
      | .error _ => rt
  | _, _ => rt

end Runtime

/-! ## The service -/

/-- What the handlers, the scan thread and the flusher share. Source: `plc-api/src/state.rs`,
`AppState`. -/
structure Plc where
  runtime : Runtime
  /-- The program store. -/
  store : String → Option Package
  /-- The arm in progress, if the arm lock is held. -/
  arming : Option (Package × ArmContext)

/-- What `RetainStore::flush` is called with. -/
structure FlushCall where
  id : String
  layout : RetainLayout
  image : List UInt8

/-- What an event answers. -/
inductive Response where
  | none
  | refused (e : RuntimeError)
  /-- `200` of an arm. -/
  | armed
  | activated (req : ActivateRequest)
  | flushed (call : FlushCall)

/-- What one holder of the runtime lock does. -/
inductive Event where
  /-- `POST /programs`. -/
  | upload (pkg : Package)
  /-- `POST /programs/{id}/arm`, up to `begin_arm`, with what the request read from the store before
  it took the arm lock. -/
  | armBegin (pkg : Package)
  /-- The rest of an arm. -/
  | armFinish
  /-- `POST /programs/{id}/activate`. -/
  | activate (id : String)
  /-- The scan thread. -/
  | scan (rs : List Round)
  /-- The flusher. -/
  | flushRetain
  /-- Retain restore at boot. -/
  | restoreRetain (image : List UInt8)
  /-- `POST /mode`. -/
  | requestMode (req : ModeRequest)

namespace Plc

variable (force : Bool)

/-- A package with the id and the hash is armed. Source: `programs.rs`, the first test of `arm`. -/
def isArmed (plc : Plc) (m : Manifest) : Bool :=
  match plc.runtime.armedInfo with
  | some info => info.id == m.id && info.compatibilityHash == m.compatibilityHash
  | none => false

/-- Source: `programs.rs`, `arm` from the arm lock up to `begin_arm`. -/
def armBegin (plc : Plc) (pkg : Package) : Response × Plc :=
  match plc.arming with
  -- The lock is held: the request waits, and this event is not the one that serves it.
  | some _ => (.none, plc)
  | none =>
      if plc.isArmed pkg.manifest then (.armed, plc)
      else
        match plc.runtime.beginArm with
        | .error e => (.refused e, plc)
        | .ok (ctx, rt) => (.none, { plc with runtime := rt, arming := some (pkg, ctx) })

/-- Source: `programs.rs`, `arm` from `prepare_arm` on. -/
def armFinish (plc : Plc) : Response × Plc :=
  match plc.arming with
  | none => (.none, plc)
  | some (pkg, ctx) =>
      match prepareArm force pkg ctx with
      | .error e => (.refused e, { plc with runtime := plc.runtime.abortArm, arming := none })
      | .ok prepared =>
          match plc.runtime.commitArm prepared with
          | .error e => (.refused e, { plc with runtime := plc.runtime.abortArm, arming := none })
          | .ok rt => (.armed, { plc with runtime := rt, arming := none })

/-- A whole arm request, with no other event in between. Source: `programs.rs`, `arm`. -/
def arm (plc : Plc) (id : String) : Response × Plc :=
  match plc.arming, plc.store id with
  | some _, _ => (.none, plc)
  | none, none => (.refused (.package ("program '" ++ id ++ "'")), plc)
  | none, some pkg =>
      match plc.armBegin pkg with
      | (.none, plc) => plc.armFinish force
      | out => out

/-- Source: `programs.rs`, `activate`. -/
def activate (plc : Plc) (id : String) : Response × Plc :=
  match plc.arming, plc.runtime.armedInfo with
  -- The lock is held.
  | some _, _ => (.none, plc)
  | none, none => (.refused (.conflict "activate while not armed"), plc)
  | none, some info =>
      if info.id ≠ id then
        (.refused (.conflict ("armed program is '" ++ info.id ++ "', not '" ++ id ++ "'")), plc)
      else if plc.runtime.engine.phase = .validating then
        (.refused (.conflict "activate while validating"), plc)
      else if plc.runtime.engine.phase = .swapping then
        (.refused (.conflict "activate while swapping"), plc)
      else if plc.runtime.engine.activateRequested then
        (.refused (.conflict "activate already requested"), plc)
      else
        match plc.runtime.activate with
        | .error e => (.refused e, plc)
        | .ok (req, rt) => (.activated req, { plc with runtime := rt })

/-- Source: `supervisor.rs`, `flush_retain`. -/
def flushRetain (plc : Plc) : Response × Plc :=
  match plc.runtime.currentInfo, plc.runtime.currentLayout, plc.runtime.retainSnap with
  | some info, some layout, some buf =>
      match buf.read layout.retainSize with
      | some (image, buf) =>
          (.flushed ⟨info.id, layout, image⟩,
            { plc with runtime := { plc.runtime with retainSnap := some buf } })
      | none => (.none, plc)
  | _, _, _ => (.none, plc)

/-- What an event does. A scan that panics has no result. -/
def handle (plc : Plc) : Event → Option (Response × Plc)
  | .upload pkg =>
      some (.none,
        { plc with store := fun id => if id = pkg.manifest.id then some pkg else plc.store id })
  | .armBegin pkg => some (plc.armBegin pkg)
  | .armFinish => some (plc.armFinish force)
  | .activate id => some (plc.activate id)
  | .scan rs => (plc.runtime.scan rs).map fun rt => (.none, { plc with runtime := rt })
  | .flushRetain => some plc.flushRetain
  | .restoreRetain image =>
      some (.none, { plc with runtime := plc.runtime.restoreRetain image })
  | .requestMode req =>
      some (.none,
        { plc with runtime :=
            { plc.runtime with engine := { plc.runtime.engine with pendingMode := some req } } })

/-- A device with tasks and no program. Source: `engine.rs`, `ScanEngine::new`, and `loader.rs`,
`Runtime::new`. -/
def start (tasks : List TaskPlan) (scheduleOrder : List ℕ) (inputSlots outputSlots : ℕ) : Plc where
  runtime :=
    { engine :=
        { tasks := tasks
          nextDue := tasks.map fun _ => 0
          scheduleOrder := scheduleOrder
          inputSlots := inputSlots
          outputSlots := outputSlots
          vm := none
          mode := .stop
          pendingMode := none
          armed := none
          currentId := none
          currentHash := none
          phase := .idle
          activateRequested := false
          retainSeq := 0
          deferredCount := 0
          lastDeferred := false }
      currentLayout := none
      armedLayout := none
      currentInfo := none
      armedInfo := none
      retainSnap := none
      lastRetainSeq := 0 }
  store := fun _ => none
  arming := none

/-- Histories: what happened since the start, the latest first. -/
inductive History : Plc → List (Event × Response × Plc) → Prop
  /-- A device with tasks and no program. -/
  | start (tasks : List TaskPlan) (scheduleOrder : List ℕ) (inputSlots outputSlots : ℕ) :
      History (Plc.start tasks scheduleOrder inputSlots outputSlots) []
  /-- One more event. -/
  | step {plc plc' : Plc} {ev : Event} {res : Response} {past : List (Event × Response × Plc)}
      (h : History plc past) (hev : plc.handle force ev = some (res, plc')) :
      History plc' ((ev, res, plc) :: past)

/-- Events one after the other, from states that meet a condition. -/
def runWhile (cond : Plc → Bool) (plc : Plc) (evs : List Event) : Option Plc :=
  evs.foldlM (fun plc ev => if cond plc then (plc.handle force ev).map Prod.snd else none) plc

/-- Running events extends a history by states that meet the condition. -/
theorem History.runWhile {force : Bool} {cond : Plc → Bool} {plc plc' : Plc}
    {past : List (Event × Response × Plc)} {evs : List Event} (h : History force plc past)
    (hpast : ∀ x ∈ past, cond x.2.2 = true) (hrun : plc.runWhile force cond evs = some plc') :
    ∃ past', History force plc' past' ∧ ∀ x ∈ past', cond x.2.2 = true := by
  induction evs generalizing plc past with
  | nil =>
      cases hrun
      exact ⟨past, h, hpast⟩
  | cons ev evs ih =>
      rw [Plc.runWhile, List.foldlM_cons] at hrun
      obtain ⟨plc₁, hev, hrun⟩ := Option.bind_eq_some_iff.mp hrun
      split_ifs at hev with hcond
      obtain ⟨⟨res, plc₁'⟩, hhandle, rfl⟩ := Option.map_eq_some_iff.mp hev
      refine ih (h.step hhandle) ?_ hrun
      intro x hx
      rcases List.mem_cons.mp hx with rfl | hx
      · exact hcond
      · exact hpast x hx

end Plc

end SoftPlc.Scan
