import SoftPlc.Lib.Since
import SoftPlc.Scan.Cycle
import SoftPlc.Scan.Swap

/-!
# Outputs and FirstScan over whole runs

A run of the engine is a sequence of requests and scans from its construction on, and its trace the
installs and invocations in order (`EngineTrace`). What one invocation does is said once
(`Invoked`), and so is what a turn of the loop and a request can do (`EngineStep`); the results
follow by induction over the trace.

* `outputs_fail_safe`: in FAULT, in STOP with the safe policy, and until the first logic invocation
  has completed, the driver is handed the safe states.
* `unstored_output_iff`: a slot that the current program never stored goes to its safe state exactly
  when that is BOOL FALSE or the program was installed bumpless.
* `first_scan_iff`: the FirstScan bit of a task is set from an install to the first invocation of
  that task that completes.
-/

namespace SoftPlc.Scan

open SoftPlc.Ir SoftPlc.Vm SoftPlc.Io SoftPlc.Lib

/-! ## Runs -/

/-- What happens to an engine from outside. -/
inductive EngineEvent where
  | requestMode (req : ModeRequest)
  | force (slot : ℕ) (value : PlcValue)
  | unforce (slot : ℕ)
  | arm (program : ArmedProgram) (restart : OutputRestartPolicy)
  | disarm
  | requestActivate
  /-- `ScanEngine::step` for one cycle, `ScanEngine::run_due` for as many as tasks are due. -/
  | scan (cycles : List Cycle)

namespace IoEngine

/-- What an event does; a request that is refused does nothing, and a scan that panics has no
result. -/
def handle (e : IoEngine) : EngineEvent → Option (IoEngine × List Mark)
  | .requestMode req => some ({ e with base := { e.base with pendingMode := some req } }, [])
  | .force slot value =>
      some ({ e with io := { e.io with forces := e.io.forces.force slot value } }, [])
  | .unforce slot => some ({ e with io := { e.io with forces := e.io.forces.unforce slot } }, [])
  | .arm program restart => some ((e.arm program restart).toOption.getD e, [])
  | .disarm => some (e.disarm.toOption.getD e, [])
  | .requestActivate => some ((e.requestActivate.toOption.map Prod.snd).getD e, [])
  | .scan cycles => e.applyModeBoundary.rounds cycles

/-- Events one after another, with the marks they leave. -/
def handleAll (e : IoEngine) : List EngineEvent → Option (IoEngine × List Mark)
  | [] => some (e, [])
  | ev :: evs => do
      let (e, marks) ← e.handle ev
      let (e, later) ← e.handleAll evs
      pure (e, marks ++ later)

end IoEngine

/-- Runs of an engine with their traces, from its construction on. -/
inductive EngineTrace (plan : ScanPlan) (io : ScanIo) : IoEngine → List Mark → Prop
  /-- Construction. -/
  | start {vm : Option ArmedVm} {e : IoEngine} (h : IoEngine.new plan io vm = .ok e) :
      EngineTrace plan io e []
  /-- One more event. -/
  | step {e e' : IoEngine} {tr marks : List Mark} {ev : EngineEvent} (h : EngineTrace plan io e tr)
      (hev : e.handle ev = some (e', marks)) : EngineTrace plan io e' (tr ++ marks)

theorem EngineTrace.handleAll {plan : ScanPlan} {io : ScanIo} {e e' : IoEngine}
    {tr marks : List Mark} {evs : List EngineEvent} (h : EngineTrace plan io e tr)
    (hevs : e.handleAll evs = some (e', marks)) : EngineTrace plan io e' (tr ++ marks) := by
  induction evs generalizing e tr marks with
  | nil =>
      cases hevs
      rwa [List.append_nil]
  | cons ev evs ih =>
      rw [IoEngine.handleAll] at hevs
      obtain ⟨⟨e₁, m₁⟩, h₁, hevs⟩ := Option.bind_eq_some_iff.mp hevs
      obtain ⟨⟨e₂, m₂⟩, h₂, hevs⟩ := Option.bind_eq_some_iff.mp hevs
      cases hevs
      rw [← List.append_assoc]
      exact ih (h.step h₁) h₂

/-! ## A device -/

/-- One task of 10 ms. -/
def oneTask : ScanPlan where
  tasks := [⟨"main", 10, "task.main", 1⟩]

/-- One output with a safe state. -/
def oneOutput (safe : PlcValue) : ScanIo where
  image := ⟨[], [.zero .int], [], [], [safe]⟩
  forces := []
  moduleQuality := .good
  onBadQuality := .forceSafe
  fieldGate := .stop

/-- A program with one output that it never stores. -/
def idleProgram : ArmedProgram where
  vm :=
    let m := { taskModule [.simple .halt 0] 0 with outputSlots := 1 }
    ⟨.ofModule m 1000, .cold m 0⟩
  programId := "idle"
  compatibilityHash := "hash of idle"
  taskEntries := ["task.main"]
  retainCopies := []

/-- A cycle that takes no time, with a driver that answers. -/
def cycleAt (ms : ℕ) : Cycle := ⟨ms, 0, ms, ms, ms, 0, none, some ([], []), none, true⟩

/-- Install the program with a policy and scan at these times. -/
def installEvents (restart : OutputRestartPolicy) (times : List ℕ) : List EngineEvent :=
  [.requestMode .run, .arm idleProgram restart, .requestActivate, .scan (times.map cycleAt)]

/-- What events leave behind on the device. -/
def deviceMarks (safe : PlcValue) (evs : List EngineEvent) : Option (List Mark) :=
  ((IoEngine.initial oneTask (oneOutput safe) none).handleAll evs).map Prod.snd

theorem deviceMarks_trace {safe : PlcValue} {evs : List EngineEvent} {tr : List Mark}
    (h : deviceMarks safe evs = some tr) : ∃ e, EngineTrace oneTask (oneOutput safe) e tr := by
  obtain ⟨⟨e, marks⟩, hevs, rfl⟩ := Option.map_eq_some_iff.mp h
  have hstart : EngineTrace oneTask (oneOutput safe) (.initial oneTask (oneOutput safe) none) [] :=
    .start (show IoEngine.new oneTask (oneOutput safe) none = _ from rfl)
  exact ⟨e, hstart.handleAll hevs⟩

/-- What the device does when it is started without a program. -/
def noProgram (safe : PlcValue) : Invocation where
  task := 0
  firstScan := none
  stored := []
  ranLogicOk := false
  vmError := true
  tripped := false
  mode := .fault
  forces := []
  modules := [⟨.good, .forceSafe⟩]
  sent := ⟨[safe], true⟩

/-- What an invocation of the program that never stores its output does. -/
def idleScan (first : Bool) (value : PlcValue) : Invocation where
  task := 0
  firstScan := some first
  stored := [false]
  ranLogicOk := true
  vmError := false
  tripped := false
  mode := .run
  forces := []
  modules := [⟨.good, .forceSafe⟩]
  sent := ⟨[value], false⟩

/-! ## What a step changes -/

/-- The outputs of the current machine. -/
def vmOutputs (e : IoEngine) : Option SlotImage := e.base.vm.map fun v => v.state.outputs

/-- The armed program has not stored any output. -/
def ColdArmed (e : IoEngine) : Prop :=
  ∀ a, e.base.armed = some a → a.vm.state.outputs = .bools e.base.outputSlots

/-- What no step changes. -/
structure SamePlan (e e' : IoEngine) : Prop where
  safe : e'.io.image.outputSafe = e.io.image.outputSafe
  policy : e'.stopOutputPolicy = e.stopOutputPolicy
  order : e'.base.scheduleOrder = e.base.scheduleOrder
  slots : e'.base.outputSlots = e.base.outputSlots
  count : e'.io.image.outputs.length = e.io.image.outputs.length
  bits : e'.firstScan.length = e.firstScan.length

theorem SamePlan.refl (e : IoEngine) : SamePlan e e := ⟨rfl, rfl, rfl, rfl, rfl, rfl⟩

theorem SamePlan.trans {e₁ e₂ e₃ : IoEngine} (h : SamePlan e₁ e₂) (h' : SamePlan e₂ e₃) :
    SamePlan e₁ e₃ :=
  ⟨h'.safe.trans h.safe, h'.policy.trans h.policy, h'.order.trans h.order, h'.slots.trans h.slots,
    h'.count.trans h.count, h'.bits.trans h.bits⟩

/-- A step that leaves the outputs of the machine and of the image and the bits alone. -/
structure Still (e e' : IoEngine) : Prop where
  safe : e'.io.image.outputSafe = e.io.image.outputSafe
  policy : e'.stopOutputPolicy = e.stopOutputPolicy
  order : e'.base.scheduleOrder = e.base.scheduleOrder
  slots : e'.base.outputSlots = e.base.outputSlots
  vm : vmOutputs e' = vmOutputs e
  armed : ColdArmed e → ColdArmed e'
  outputs : e'.io.image.outputs = e.io.image.outputs
  firstScan : e'.firstScan = e.firstScan
  vmBit : e'.vmFirstScan = e.vmFirstScan
  complete : e'.firstRunComplete = e.firstRunComplete
  hold : e'.bumplessHold = e.bumplessHold

namespace Still

theorem refl (e : IoEngine) : Still e e := ⟨rfl, rfl, rfl, rfl, rfl, id, rfl, rfl, rfl, rfl, rfl⟩

theorem trans {e₁ e₂ e₃ : IoEngine} (h : Still e₁ e₂) (h' : Still e₂ e₃) : Still e₁ e₃ :=
  ⟨h'.safe.trans h.safe, h'.policy.trans h.policy, h'.order.trans h.order, h'.slots.trans h.slots,
    h'.vm.trans h.vm, h'.armed ∘ h.armed, h'.outputs.trans h.outputs,
    h'.firstScan.trans h.firstScan, h'.vmBit.trans h.vmBit, h'.complete.trans h.complete,
    h'.hold.trans h.hold⟩

theorem samePlan {e e' : IoEngine} (h : Still e e') : SamePlan e e' :=
  ⟨h.safe, h.policy, h.order, h.slots, congrArg List.length h.outputs,
    congrArg List.length h.firstScan⟩

/-- A step of the engine without I/O that leaves its programs alone. -/
theorem of_base {e : IoEngine} {b : ScanEngine} (order : b.scheduleOrder = e.base.scheduleOrder)
    (slots : b.outputSlots = e.base.outputSlots)
    (vm : (b.vm.map fun v => v.state.outputs) = vmOutputs e)
    (armed : ColdArmed e → ∀ a, b.armed = some a → a.vm.state.outputs = .bools b.outputSlots) :
    Still e { e with base := b } :=
  ⟨rfl, rfl, order, slots, vm, armed, rfl, rfl, rfl, rfl, rfl⟩

theorem faultIf (e : IoEngine) (reason : Bool) : Still e (e.faultIf reason) := by
  cases reason with
  | false => exact .refl e
  | true => exact ⟨rfl, rfl, rfl, rfl, rfl, id, rfl, rfl, rfl, rfl, rfl⟩

theorem note (e : IoEngine) (task durationUs : ℕ) : Still e (e.note task durationUs).1 := by
  unfold IoEngine.note
  split
  · exact .refl e
  · split_ifs
    · exact ⟨rfl, rfl, rfl, rfl, rfl, id, rfl, rfl, rfl, rfl, rfl⟩
    · exact ⟨rfl, rfl, rfl, rfl, rfl, id, rfl, rfl, rfl, rfl, rfl⟩

theorem watch (e : IoEngine) (task : ℕ) (c : Cycle) (ran : Bool) :
    Still e (e.watch task c ran).1 := by
  cases ran with
  | false => exact .refl e
  | true => exact (note e task c.durationUs).trans (faultIf _ _)

theorem applyOutputs (e : IoEngine) (c : Cycle) : Still e (e.applyOutputs c) := by
  unfold IoEngine.applyOutputs
  dsimp only
  split_ifs
  · exact ⟨rfl, rfl, rfl, rfl, rfl, id, rfl, rfl, rfl, rfl, rfl⟩
  · refine Still.trans ?_ (faultIf _ _)
    exact ⟨rfl, rfl, rfl, rfl, rfl, id, rfl, rfl, rfl, rfl, rfl⟩

theorem sampleInputs (e : IoEngine) (c : Cycle) : Still e (e.sampleInputs c) := by
  have himage : (IoEngine.sampled e.io.image c).outputs = e.io.image.outputs ∧
      (IoEngine.sampled e.io.image c).outputSafe = e.io.image.outputSafe := by
    unfold IoEngine.sampled
    rcases c.remote with _ | snap <;> rcases c.poll with _ | ⟨values, quality⟩ <;> exact ⟨rfl, rfl⟩
  have hbase : ∀ (b : ScanEngine) (r : Round),
      (b.sampleInputs r).scheduleOrder = b.scheduleOrder ∧
      (b.sampleInputs r).outputSlots = b.outputSlots ∧ (b.sampleInputs r).armed = b.armed ∧
      (b.sampleInputs r).vm.map (fun v => v.state.outputs) = b.vm.map fun v => v.state.outputs := by
    intro b r
    unfold ScanEngine.sampleInputs
    rcases hb : b.vm with _ | v <;> cases r.inputFault <;> simp [ScanEngine.enterFault, hb]
  obtain ⟨horder, hslots, harmed, hvm⟩ := hbase e.base (IoEngine.toRound c
    (IoEngine.vmInputs (IoEngine.sampled e.io.image c)) (e.inputFault c) false)
  refine ⟨himage.2, rfl, horder, hslots, hvm, fun hcold a ha => ?_, himage.1, rfl, rfl, rfl, rfl⟩
  exact (hcold a (harmed.symm.trans ha)).trans (congrArg SlotImage.bools hslots.symm)

theorem applyModeBoundary (e : IoEngine) : Still e e.applyModeBoundary := by
  have hbase : e.base.applyModeBoundary.scheduleOrder = e.base.scheduleOrder ∧
      e.base.applyModeBoundary.outputSlots = e.base.outputSlots ∧
      e.base.applyModeBoundary.armed = e.base.armed ∧
      e.base.applyModeBoundary.vm = e.base.vm := by
    unfold ScanEngine.applyModeBoundary
    rcases e.base.pendingMode with _ | req
    · simp
    · dsimp only
      split_ifs
      · simp
      · rcases applyRequest e.base.mode req with _ | mode <;> simp
  obtain ⟨horder, hslots, harmed, hvm⟩ := hbase
  refine ⟨rfl, rfl, horder, hslots, congrArg (Option.map _) hvm, fun hcold a ha => ?_, rfl, rfl,
    rfl, rfl, rfl⟩
  exact (hcold a (harmed.symm.trans ha)).trans (congrArg SlotImage.bools hslots.symm)

theorem arm {e e' : IoEngine} {program : ArmedProgram} {restart : OutputRestartPolicy}
    (h : e.arm program restart = .ok e') : Still e e' := by
  unfold IoEngine.arm ScanEngine.arm at h
  split_ifs at h with hphase hentries hin hout
  cases h
  refine ⟨rfl, rfl, rfl, rfl, rfl, fun _ a ha => ?_, rfl, rfl, rfl, rfl, rfl⟩
  cases ha
  exact congrArg SlotImage.bools (not_not.mp hout)

theorem disarm {e e' : IoEngine} (h : e.disarm = .ok e') : Still e e' := by
  unfold IoEngine.disarm at h
  split_ifs at h
  cases h
  refine of_base rfl rfl rfl fun _ a ha => ?_
  cases ha

theorem requestActivate {e e' : IoEngine} {req : ActivateRequest}
    (h : e.requestActivate = .ok (req, e')) : Still e e' := by
  unfold IoEngine.requestActivate ScanEngine.requestActivate at h
  split_ifs at h
  rcases harmed : e.base.armed with _ | armed
  · rw [harmed] at h
    cases h
  · rw [harmed] at h
    dsimp only at h
    split_ifs at h
    · cases h
      refine of_base rfl rfl rfl fun _ a ha => ?_
      cases ha
    · cases h
      exact of_base rfl rfl rfl fun hcold a ha => hcold a (harmed.trans ha)

end Still

/-- What the logic of a task did to the outputs. -/
structure RanLogic (e e' : IoEngine) (task : ℕ) (ok : Bool) : Prop where
  safe : e'.io.image.outputSafe = e.io.image.outputSafe
  policy : e'.stopOutputPolicy = e.stopOutputPolicy
  order : e'.base.scheduleOrder = e.base.scheduleOrder
  slots : e'.base.outputSlots = e.base.outputSlots
  armed : ColdArmed e → ColdArmed e'
  firstScan : e'.firstScan = e.firstScan
  complete : e'.firstRunComplete = e.firstRunComplete
  hold : e'.bumplessHold = e.bumplessHold
  /-- The machine has the bit of the task. -/
  bit : (vmOutputs e').isSome → e'.vmFirstScan = e.firstScan.getD task false
  /-- Slots that were not stored keep their value. -/
  vm : ∀ o, vmOutputs e = some o → ∃ o', vmOutputs e' = some o' ∧
    ∀ i, o'.written.getD i false = false → o'.values[i]? = o.values[i]?
  /-- A run that succeeds copies the outputs, and one that fails leaves the image. -/
  outputs : e'.io.image.outputs =
    if ok then ((vmOutputs e').elim e.io.image fun o =>
      IoEngine.copyOutputs e.bumplessHold o e.io.image).outputs
    else e.io.image.outputs

/-- What a run of the current machine changes. -/
theorem runLogic_engine {b b' : ScanEngine} {task nowMs : ℕ} {ok : Bool}
    (h : b.runLogic task nowMs = some (b', ok)) :
    b'.scheduleOrder = b.scheduleOrder ∧ b'.outputSlots = b.outputSlots ∧ b'.armed = b.armed ∧
      ((b.vm = none ∧ b'.vm = none ∧ ok = false) ∨ ∃ v v' name, b.vm = some v ∧ b'.vm = some v' ∧
        v'.state.outputs = (runEntry v.image name nowMs v.state).2.outputs) := by
  unfold ScanEngine.runLogic at h
  rcases hvm : b.vm with _ | v
  · simp only [hvm] at h
    cases h
    exact ⟨rfl, rfl, rfl, .inl ⟨rfl, hvm, rfl⟩⟩
  · simp only [hvm] at h
    rcases hrun : runEntry v.image ((b.tasks[task]?.map TaskPlan.entry).getD "") nowMs v.state with
      ⟨(_ | _) | res, s⟩
    · rw [hrun] at h
      cases h
      exact ⟨rfl, rfl, rfl, .inr ⟨v, _, _, rfl, rfl, by rw [hrun]⟩⟩
    · rw [hrun] at h
      cases h
    · rw [hrun] at h
      dsimp only at h
      split_ifs at h
      · cases h
        exact ⟨rfl, rfl, rfl, .inr ⟨v, _, _, rfl, rfl, by rw [hrun]⟩⟩
      · cases h
        exact ⟨rfl, rfl, rfl, .inr ⟨v, _, _, rfl, rfl, by rw [hrun]⟩⟩

theorem runLogic_ran {e e' : IoEngine} {task nowMs : ℕ} {ok : Bool}
    (h : e.runLogic task nowMs = some (e', ok)) : RanLogic e e' task ok := by
  obtain ⟨horder, hslots, harmed, hvm⟩ := runLogic_engine (IoEngine.runLogic_base h)
  have hcold : ColdArmed e → ColdArmed e' := by
    intro hcold a ha
    rw [hcold a (harmed.symm.trans ha), hslots]
  have hkeep : ∀ o, vmOutputs e = some o → ∃ o', vmOutputs e' = some o' ∧
      ∀ i, o'.written.getD i false = false → o'.values[i]? = o.values[i]? := by
    intro o ho
    rcases hvm with ⟨hnone, -, -⟩ | ⟨v, v', name, hv, hv', hout⟩
    · simp [vmOutputs, hnone] at ho
    · have heq : v.state.outputs = o := by simpa [vmOutputs, hv] using ho
      refine ⟨v'.state.outputs, by simp [vmOutputs, hv'], fun i => ?_⟩
      rw [hout, ← heq]
      exact (runEntry_outputs v.image name nowMs v.state i).2
  unfold IoEngine.runLogic at h
  rcases hrun : e.base.runLogic task nowMs with _ | ⟨base, _ | _⟩
  · rw [hrun] at h
    cases h
  · rw [hrun] at h
    cases h
    dsimp only at hvm
    refine ⟨rfl, rfl, horder, hslots, hcold, rfl, rfl, rfl, fun hsome => ?_, hkeep, rfl⟩
    rcases hvm with ⟨-, hnone, -⟩ | ⟨v, v', name, hv, -, -⟩
    · simp [vmOutputs, hnone] at hsome
    · simp [hv]
  · rw [hrun] at h
    cases h
    dsimp only at hvm
    refine ⟨rfl, rfl, horder, hslots, hcold, rfl, rfl, rfl, fun _ => rfl, hkeep, ?_⟩
    rcases hvm with ⟨-, -, hfalse⟩ | ⟨v, v', name, -, hv', -⟩
    · cases hfalse
    · simp [vmOutputs, hv']

namespace RanLogic

variable {e e₁ e₂ : IoEngine} {task : ℕ} {ok : Bool}

theorem samePlan (h : RanLogic e e₁ task ok) : SamePlan e e₁ := by
  refine ⟨h.safe, h.policy, h.order, h.slots, ?_, congrArg List.length h.firstScan⟩
  rw [h.outputs]
  cases ok with
  | false => rfl
  | true => rcases vmOutputs e₁ with _ | o <;> simp [IoEngine.copyOutputs]

theorem of_still (h : Still e e₁) (h' : RanLogic e₁ e₂ task ok) : RanLogic e e₂ task ok := by
  refine ⟨h'.safe.trans h.safe, h'.policy.trans h.policy, h'.order.trans h.order,
    h'.slots.trans h.slots, h'.armed ∘ h.armed, h'.firstScan.trans h.firstScan,
    h'.complete.trans h.complete, h'.hold.trans h.hold, ?_, ?_, ?_⟩
  · intro hsome
    rw [h'.bit hsome, h.firstScan]
  · intro o ho
    exact h'.vm o (h.vm.trans ho)
  · rw [h'.outputs]
    unfold IoEngine.copyOutputs
    rcases vmOutputs e₂ with _ | o <;> simp only [Option.elim_none, Option.elim_some, h.outputs,
      h.hold]

theorem still (h : RanLogic e e₁ task ok) (h' : Still e₁ e₂) : RanLogic e e₂ task ok := by
  refine ⟨h'.safe.trans h.safe, h'.policy.trans h.policy, h'.order.trans h.order,
    h'.slots.trans h.slots, h'.armed ∘ h.armed, h'.firstScan.trans h.firstScan,
    h'.complete.trans h.complete, h'.hold.trans h.hold, ?_, ?_, ?_⟩
  · intro hsome
    rw [h'.vmBit, h.bit (by rwa [← h'.vm])]
  · intro o ho
    rw [h'.vm]
    exact h.vm o ho
  · rw [h'.outputs, h'.vm]
    exact h.outputs

end RanLogic

/-! ## What an invocation does -/

/-- What an invocation did up to its output phase, which found the engine in state `w`. -/
structure Invoked (e : IoEngine) (task : ℕ) (w : IoEngine) (ran ok trip : Bool) : Prop where
  logic : (ran = true ∧ RanLogic e w task ok) ∨ (ran = false ∧ ok = false ∧ Still e w)
  /-- A failed run and a tripped watchdog enter FAULT. -/
  fault : (ran && !ok) = true ∨ trip = true → w.base.mode = .fault
  /-- In RUN and SIM the logic has succeeded. -/
  succeeded : w.base.mode.executesLogic = true → ok = true

namespace Invoked

variable {e w : IoEngine} {task : ℕ} {ran ok trip : Bool}

theorem samePlan (h : Invoked e task w ran ok trip) : SamePlan e w := by
  rcases h.logic with ⟨-, h⟩ | ⟨-, -, h⟩
  · exact h.samePlan
  · exact h.samePlan

theorem armed (h : Invoked e task w ran ok trip) (hcold : ColdArmed e) : ColdArmed w := by
  rcases h.logic with ⟨-, h⟩ | ⟨-, -, h⟩
  · exact h.armed hcold
  · exact h.armed hcold

theorem firstScan (h : Invoked e task w ran ok trip) : w.firstScan = e.firstScan := by
  rcases h.logic with ⟨-, h⟩ | ⟨-, -, h⟩
  · exact h.firstScan
  · exact h.firstScan

theorem complete (h : Invoked e task w ran ok trip) :
    w.firstRunComplete = e.firstRunComplete := by
  rcases h.logic with ⟨-, h⟩ | ⟨-, -, h⟩
  · exact h.complete
  · exact h.complete

theorem hold (h : Invoked e task w ran ok trip) : w.bumplessHold = e.bumplessHold := by
  rcases h.logic with ⟨-, h⟩ | ⟨-, -, h⟩
  · exact h.hold
  · exact h.hold

end Invoked

theorem watch_mode (e : IoEngine) (task : ℕ) (c : Cycle) (ran : Bool) :
    (e.watch task c ran).1.base.mode =
      if (e.watch task c ran).2 then .fault else e.base.mode := by
  rw [IoEngine.watch_base]
  split_ifs <;> rfl

/-- **What an invocation does.** -/
theorem invoke_spec {e e' : IoEngine} {task : ℕ} {c : Cycle} {inv : Invocation}
    (h : e.invoke task c = some (e', inv)) :
    ∃ w ran ok trip, Invoked e task w ran ok trip ∧ inv = w.report task c ran ok trip ∧
      e' = (w.applyOutputs c).finishInvoke task ok := by
  obtain ⟨e₁, ran, ok, hlogic, hinv, he'⟩ := IoEngine.invoke_ok h
  refine ⟨_, ran, ok, _, ⟨?_, ?_, ?_⟩, hinv, he'⟩
  · unfold IoEngine.logic at hlogic
    split_ifs at hlogic with hmode
    · obtain ⟨⟨r, okr⟩, hrun, heq⟩ := Option.map_eq_some_iff.mp hlogic
      cases heq
      have hran := (runLogic_ran hrun).of_still (Still.sampleInputs e c)
      exact .inl ⟨rfl, (hran.still (Still.faultIf r _)).still (Still.watch _ task c true)⟩
    · cases hlogic
      exact .inr ⟨rfl, rfl, (Still.sampleInputs e c).trans (Still.watch _ task c false)⟩
  · rw [watch_mode]
    rintro (hfailed | htrip)
    · unfold IoEngine.logic at hlogic
      split_ifs at hlogic with hmode
      · obtain ⟨⟨r, okr⟩, -, heq⟩ := Option.map_eq_some_iff.mp hlogic
        cases heq
        have hok : ok = false := by simpa using hfailed
        rw [hok, ite_eq_left_iff]
        exact fun _ => rfl
      · cases hlogic
        cases hfailed
    · rw [if_pos htrip]
  · rw [watch_mode]
    unfold IoEngine.logic at hlogic
    split_ifs at hlogic with hmode
    · obtain ⟨⟨r, okr⟩, -, heq⟩ := Option.map_eq_some_iff.mp hlogic
      cases heq
      cases ok with
      | true => exact fun _ => rfl
      | false =>
          rw [show (r.faultIf !false).base.mode = .fault from rfl, ite_self]
          intro hrun
          cases hrun
    · cases hlogic
      intro hrun
      exact absurd hrun hmode

/-- What the end of an invocation changes. -/
structure Finished (w e' : IoEngine) (task : ℕ) (ok : Bool) : Prop where
  plan : SamePlan w e'
  vm : vmOutputs e' = vmOutputs w
  armed : ColdArmed w → ColdArmed e'
  outputs : e'.io.image.outputs = w.io.image.outputs
  firstScan : e'.firstScan = if ok then w.firstScan.set task false else w.firstScan
  complete : e'.firstRunComplete = (w.firstRunComplete || ok)
  hold : e'.bumplessHold = w.bumplessHold

theorem finishInvoke_finished (w : IoEngine) (c : Cycle) (task : ℕ) (ok : Bool) :
    Finished w ((w.applyOutputs c).finishInvoke task ok) task ok := by
  have hstill := Still.applyOutputs w c
  have hbits : ((w.applyOutputs c).finishInvoke task ok).firstScan =
      if ok then w.firstScan.set task false else w.firstScan := by
    rw [← hstill.firstScan]
    rfl
  refine ⟨⟨hstill.safe, hstill.policy, hstill.order, hstill.slots,
    congrArg List.length hstill.outputs, ?_⟩, hstill.vm, hstill.armed, hstill.outputs, hbits, ?_,
    hstill.hold⟩
  · rw [hbits]
    cases ok <;> simp
  · rw [← hstill.complete]
    rfl

/-! ## What an install does -/

/-- What a committed install changes. -/
structure Installed (e e' : IoEngine) (policy : OutputRestartPolicy) : Prop where
  plan : SamePlan e e'
  /-- The program starts with cold outputs. -/
  vm : ColdArmed e → vmOutputs e' = some (.bools e.base.outputSlots)
  armed : ColdArmed e'
  /-- A bumpless install leaves the image. -/
  outputs : policy = .bumpless → e'.io.image.outputs = e.io.image.outputs
  /-- A safe reset writes the safe states. -/
  reset : policy = .safeReset → ∀ i s, e'.io.image.outputs[i]? = some s →
    s.value = e.io.image.safe i ∧ s.written = true
  firstScan : e'.firstScan = e.firstScan.map fun _ => true
  complete : e'.firstRunComplete = e.firstRunComplete
  hold : e'.bumplessHold = (policy == .bumpless)

theorem blitRetainInto_outputs {a a' : ArmedProgram} {vm : Option ArmedVm}
    {res : Except VmError Unit} (h : ScanEngine.blitRetainInto a vm = (a', res)) :
    a'.vm.state.outputs = a.vm.state.outputs := by
  unfold ScanEngine.blitRetainInto at h
  rcases vm with _ | cur
  · cases h
    rfl
  · cases h
    rfl

/-- What a commit does to the image. -/
theorem commitIo_image (e : IoEngine) (b : ScanEngine) :
    let image := ({ e with base := b } : IoEngine).commitIo.io.image
    image.outputSafe = e.io.image.outputSafe ∧
      image.outputs.length = e.io.image.outputs.length ∧
      (e.armedRestart = .bumpless → image.outputs = e.io.image.outputs) ∧
      (e.armedRestart = .safeReset → ∀ i s, image.outputs[i]? = some s →
        s.value = e.io.image.safe i ∧ s.written = true) := by
  unfold IoEngine.commitIo IoEngine.applySafeResetOutputs IoEngine.coldInitMemory
  rcases hpolicy : e.armedRestart with _ | _
  · refine ⟨rfl, List.length_mapIdx, fun h => (nomatch h), ?_⟩
    intro _ i s hs
    simp only [if_true, List.getElem?_mapIdx] at hs
    obtain ⟨s', -, rfl⟩ := Option.map_eq_some_iff.mp hs
    exact ⟨rfl, rfl⟩
  · exact ⟨rfl, rfl, fun _ => rfl, fun h => (nomatch h)⟩

/-- **What an install check does**: it commits an install, or it leaves the outputs alone. -/
theorem tryEpochInstall_spec (e : IoEngine) (c : Cycle) :
    (∃ policy, (e.tryEpochInstall c).2 =
        [.installed policy (e.io.image.outputs.map TypedSlot.written)] ∧
      Installed e (e.tryEpochInstall c).1 policy) ∨
    ((e.tryEpochInstall c).2 = [] ∧ Still e (e.tryEpochInstall c).1) := by
  unfold IoEngine.tryEpochInstall
  have hstep := tryEpochInstall_step e.base (IoEngine.toRound c [] false false)
  generalize e.base.tryEpochInstall (IoEngine.toRound c [] false false) = result at hstep
  -- A program that stays armed keeps its outputs.
  have hkept : ∀ {a a' : ArmedProgram} {res : Except VmError Unit}, e.base.armed = some a →
      ScanEngine.blitRetainInto a e.base.vm = (a', res) → ColdArmed e →
      a'.vm.state.outputs = .bools e.base.outputSlots := by
    intro a a' res ha hblit hcold
    rw [blitRetainInto_outputs hblit, hcold a ha]
  rcases hstep with _ | ⟨ha, hblit⟩ | ⟨-, ha, hblit⟩ | ⟨-, ha, hblit⟩
  · exact .inr ⟨rfl, .refl e⟩
  · refine .inr ⟨rfl, rfl, rfl, rfl, rfl, rfl, fun hcold a heq => ?_, rfl, rfl, rfl, rfl, rfl⟩
    cases heq
    exact hkept ha hblit hcold
  · refine .inr ⟨rfl, Still.of_base rfl rfl rfl fun hcold a heq => ?_⟩
    cases heq
    exact hkept ha hblit hcold
  · obtain ⟨hsafe, hcount, houtputs, hreset⟩ := commitIo_image e _
    refine .inl ⟨e.armedRestart, rfl, ⟨hsafe, rfl, rfl, rfl, hcount, ?_⟩, fun hcold => ?_,
      fun a heq => ?_, houtputs, hreset, rfl, rfl, rfl⟩
    · exact List.length_map _
    · exact congrArg some (hkept ha hblit hcold)
    · cases heq

/-! ## The invariant rule -/

/-- One step inside a run: one that leaves the outputs alone, an install, or an invocation of a
scheduled task. -/
inductive EngineStep : IoEngine → List Mark → IoEngine → Prop
  | still {e e' : IoEngine} (h : Still e e') : EngineStep e [] e'
  | install {e e' : IoEngine} {policy : OutputRestartPolicy} (h : Installed e e' policy) :
      EngineStep e [.installed policy (e.io.image.outputs.map TypedSlot.written)] e'
  | invoke {e e' : IoEngine} (task : ℕ) (c : Cycle) {inv : Invocation}
      (htask : task ∈ e.base.scheduleOrder) (h : e.invoke task c = some (e', inv)) :
      EngineStep e [.invoked inv] e'

/-- A request is a step. -/
theorem handle_step {e e' : IoEngine} {ev : EngineEvent} {marks : List Mark}
    (hnot : ∀ cs, ev ≠ .scan cs) (hev : e.handle ev = some (e', marks)) : EngineStep e marks e' := by
  cases ev with
  | requestMode req =>
      cases hev
      exact .still (.of_base rfl rfl rfl id)
  | force slot value =>
      cases hev
      exact .still ⟨rfl, rfl, rfl, rfl, rfl, id, rfl, rfl, rfl, rfl, rfl⟩
  | unforce slot =>
      cases hev
      exact .still ⟨rfl, rfl, rfl, rfl, rfl, id, rfl, rfl, rfl, rfl, rfl⟩
  | arm program restart =>
      cases hev
      rcases harm : e.arm program restart with err | e₁
      · exact .still (.refl e)
      · exact .still (.arm harm)
  | disarm =>
      cases hev
      rcases hdis : e.disarm with err | e₁
      · exact .still (.refl e)
      · exact .still (.disarm hdis)
  | requestActivate =>
      cases hev
      rcases hreq : e.requestActivate with err | ⟨req, e₁⟩
      · exact .still (.refl e)
      · exact .still (.requestActivate hreq)
  | scan cs => exact absurd rfl (hnot cs)

/-- An install check is a step. -/
theorem check_step (e : IoEngine) (c : Cycle) :
    EngineStep e (e.tryEpochInstall c).2 (e.tryEpochInstall c).1 := by
  rcases tryEpochInstall_spec e c with ⟨policy, hmarks, hspec⟩ | ⟨hmarks, hspec⟩
  · rw [hmarks]
    exact .install hspec
  · rw [hmarks]
    exact .still hspec

section Rule

variable {I : IoEngine → List Mark → Prop}
  (hI : ∀ {e e' tr marks}, I e tr → EngineStep e marks e' → I e' (tr ++ marks))

include hI

theorem round_rule {e e' : IoEngine} {c : Cycle} {tr marks : List Mark} (h : I e tr)
    (hround : e.round c = some (e', marks)) : I e' (tr ++ marks) := by
  have hinstall : I (e.tryEpochInstall c).1 (tr ++ (e.tryEpochInstall c).2) := hI h (check_step e c)
  unfold IoEngine.round at hround
  dsimp only at hround
  rcases hdue : (e.tryEpochInstall c).1.base.pickDue c.nowMs with _ | task
  · rw [hdue] at hround
    cases hround
    exact hinstall
  · rw [hdue] at hround
    obtain ⟨⟨e₁, inv⟩, hinv, heq⟩ := Option.map_eq_some_iff.mp hround
    cases heq
    rw [← List.append_assoc]
    exact hI hinstall (.invoke task c (List.mem_of_find?_eq_some hdue) hinv)

theorem rounds_rule {e e' : IoEngine} {cs : List Cycle} {tr marks : List Mark} (h : I e tr)
    (hrounds : e.rounds cs = some (e', marks)) : I e' (tr ++ marks) := by
  induction cs generalizing e tr marks with
  | nil =>
      cases hrounds
      rwa [List.append_nil]
  | cons c cs ih =>
      rw [IoEngine.rounds] at hrounds
      obtain ⟨⟨e₁, m₁⟩, h₁, hrounds⟩ := Option.bind_eq_some_iff.mp hrounds
      obtain ⟨⟨e₂, m₂⟩, h₂, hrounds⟩ := Option.bind_eq_some_iff.mp hrounds
      cases hrounds
      rw [← List.append_assoc]
      exact ih (round_rule hI h h₁) h₂

theorem handle_rule {e e' : IoEngine} {ev : EngineEvent} {tr marks : List Mark} (h : I e tr)
    (hev : e.handle ev = some (e', marks)) : I e' (tr ++ marks) := by
  by_cases hscan : ∃ cs, ev = .scan cs
  · obtain ⟨cs, rfl⟩ := hscan
    have hmode : I e.applyModeBoundary tr := by
      simpa using hI h (.still (.applyModeBoundary e))
    exact rounds_rule hI hmode hev
  · exact hI h (handle_step (fun cs hcs => hscan ⟨cs, hcs⟩) hev)

/-- **What holds at the construction and is kept by every step holds in every run.** -/
theorem EngineTrace.rule {plan : ScanPlan} {io : ScanIo} {e : IoEngine} {tr : List Mark}
    (h : EngineTrace plan io e tr) (start : ∀ vm, I (.initial plan io vm) []) : I e tr := by
  induction h with
  | start h =>
      unfold IoEngine.new at h
      rename_i vm e
      rcases vm with _ | v
      · cases h
        exact start none
      · dsimp only at h
        split_ifs at h
        cases h
        exact start (some v)
  | step h hev ih => exact handle_rule hI ih hev

end Rule

variable {plan : ScanPlan} {io : ScanIo} {e e' : IoEngine} {tr marks : List Mark}

/-- A step keeps the plan. -/
theorem EngineStep.samePlan (h : EngineStep e marks e') : SamePlan e e' := by
  cases h with
  | still h => exact h.samePlan
  | install h => exact h.plan
  | invoke task c _ h =>
      obtain ⟨w, ran, ok, trip, hinv, -, rfl⟩ := invoke_spec h
      exact hinv.samePlan.trans (finishInvoke_finished w _ _ ok).plan

/-! ## Fail-safe outputs -/

/-- With a safe request every output goes to its safe state. -/
theorem outputImage_safe {c : Cycle} {ok : Bool} (h : e.globalForceSafe ok = true) :
    e.outputImage c ok =
      ⟨(List.range e.io.image.outputs.length).map e.io.image.safe, true⟩ := by
  have hvalues : e.io.image.outputs.mapIdx (e.effective c ok) =
      (List.range e.io.image.outputs.length).map e.io.image.safe := by
    apply List.ext_getElem (by simp)
    intro i hi _
    rw [List.getElem_mapIdx, List.getElem_map, List.getElem_range]
    exact resolve_of_globalSafe h
  unfold IoEngine.outputImage
  rw [hvalues, h]

/-- Some logic invocation of a trace has completed. -/
def Completed (tr : List Mark) : Prop := ∃ inv, Mark.invoked inv ∈ tr ∧ inv.ranLogicOk = true

theorem completed_snoc {inv : Invocation} :
    Completed (tr ++ [.invoked inv]) ↔ Completed tr ∨ inv.ranLogicOk = true := by
  constructor
  · rintro ⟨i, hmem, hok⟩
    rcases List.mem_append.mp hmem with hmem | hmem
    · exact .inl ⟨i, hmem, hok⟩
    · cases List.mem_singleton.mp hmem
      exact .inr hok
  · rintro (⟨i, hmem, hok⟩ | hok)
    · exact ⟨i, List.mem_append_left _ hmem, hok⟩
    · exact ⟨inv, by simp, hok⟩

/-- What the outputs of an invocation after the trace `pre` are, when they have to be safe, and that
failures make it so. -/
def FailSafe (plan : ScanPlan) (io : ScanIo) (pre : List Mark) (inv : Invocation) : Prop :=
  (inv.mode = .fault ∨ (inv.mode = .stop ∧ plan.stopOutputPolicy = .safe) ∨
      ¬ Completed (pre ++ [.invoked inv]) →
    inv.sent = ⟨(List.range io.image.outputs.length).map io.image.safe, true⟩) ∧
  (inv.vmError = true ∨ inv.tripped = true → inv.mode = .fault)

/-- What a run keeps between the engine and its trace for the safe outputs. -/
structure Started (plan : ScanPlan) (io : ScanIo) (e : IoEngine) (tr : List Mark) : Prop where
  same : SamePlan (.initial plan io none) e
  complete : e.firstRunComplete = true ↔ Completed tr
  safe : EachAt Mark.invoked (FailSafe plan io) tr

theorem Started.step (h : Started plan io e tr) (hstep : EngineStep e marks e') :
    Started plan io e' (tr ++ marks) := by
  have hplan := h.same.trans hstep.samePlan
  cases hstep with
  | still hs =>
      rw [List.append_nil]
      exact ⟨hplan, by rw [hs.complete, h.complete], h.safe⟩
  | install hs =>
      refine ⟨hplan, ?_, h.safe.snoc fun b hb => by cases hb⟩
      rw [hs.complete, h.complete]
      simp [Completed]
  | invoke task c htask hs =>
      obtain ⟨w, ran, ok, trip, hinv, rfl, rfl⟩ := invoke_spec hs
      have hcomplete := h.complete
      rw [← hinv.complete] at hcomplete
      refine ⟨hplan, ?_, h.safe.snoc fun b hb => ?_⟩
      · rw [(finishInvoke_finished w _ _ ok).complete, completed_snoc, ← hcomplete, Bool.or_eq_true]
        rfl
      · cases hb
        refine ⟨fun hsafe => ?_, hinv.fault⟩
        have hw := h.same.trans hinv.samePlan
        have hglobal : w.globalForceSafe ok = true := by
          unfold IoEngine.globalForceSafe
          rcases hsafe with hmode | ⟨hmode, hpolicy⟩ | hnever
          · rw [show w.base.mode = .fault from hmode]
            rfl
          · rw [show w.base.mode = .stop from hmode, hw.policy]
            simp [IoEngine.initial, hpolicy]
          · rw [completed_snoc, ← hcomplete, not_or] at hnever
            have hok : ok ≠ true := hnever.2
            simp [hnever.1, hok]
        show w.outputImage _ ok = _
        rw [outputImage_safe hglobal, hw.count]
        unfold ProcessImage.safe
        rw [hw.safe]
        rfl

/-- **Outputs fail safe.** In FAULT, in STOP with the safe policy, and as long as no logic
invocation has completed, the driver is handed the safe state of every output; and an invocation
that fails or trips the watchdog ends in FAULT. -/
theorem outputs_fail_safe {pre post : List Mark} {inv : Invocation}
    (h : EngineTrace plan io e (pre ++ .invoked inv :: post)) :
    (inv.mode = .fault ∨ (inv.mode = .stop ∧ plan.stopOutputPolicy = .safe) ∨
        ¬ Completed (pre ++ [.invoked inv]) →
      inv.sent.forceSafe = true ∧
        inv.sent.values = (List.range io.image.outputs.length).map io.image.safe) ∧
    (inv.vmError = true ∨ inv.tripped = true → inv.mode = .fault) := by
  have hstart : ∀ vm, Started plan io (.initial plan io vm) [] := by
    intro vm
    refine ⟨⟨rfl, rfl, rfl, rfl, rfl, rfl⟩, ?_, .nil⟩
    simp [IoEngine.initial, Completed]
  obtain ⟨hsafe, hfault⟩ := (h.rule Started.step hstart).safe pre inv post rfl
  refine ⟨fun hwhen => ?_, hfault⟩
  rw [hsafe hwhen]
  exact ⟨rfl, rfl⟩

/-- RUN without a program enters FAULT, and the forced output goes to its safe state. -/
theorem outputs_fail_safe_no_program :
    ∃ e, EngineTrace oneTask (oneOutput (.int 50)) e [.invoked (noProgram (.int 50))] ∧
      (noProgram (.int 50)).mode = .fault ∧
      (noProgram (.int 50)).sent.values = [.int 50] := by
  have hmarks : deviceMarks (.int 50) [.force 0 (.int 7), .requestMode .run, .scan [cycleAt 0]] =
      some [.invoked (noProgram (.int 50))] := by decide +kernel
  obtain ⟨e, htrace⟩ := deviceMarks_trace hmarks
  obtain ⟨hsafe, hfault⟩ := @outputs_fail_safe _ _ e [] [] _ htrace
  have hmode := hfault (.inl rfl)
  exact ⟨e, htrace, hmode, (hsafe (.inl hmode)).2⟩

/-! ## FirstScan -/

/-- An install. -/
def Mark.installs : Mark → Bool
  | .installed _ _ => true
  | .invoked _ => false

/-- A logic invocation of a task that completed. -/
def Mark.completes (task : ℕ) : Mark → Bool
  | .installed _ _ => false
  | .invoked inv => inv.task == task && inv.ranLogicOk

/-- An install has been committed, and since the last one no invocation of the task has completed. -/
def FirstScanDue (task : ℕ) (tr : List Mark) : Prop :=
  Since (fun m => m.installs) (fun m => !m.installs && !m.completes task) tr

/-- What a run keeps between the bits and the trace. -/
structure Scanned (plan : ScanPlan) (io : ScanIo) (e : IoEngine) (tr : List Mark) : Prop where
  same : SamePlan (.initial plan io none) e
  stored : ∀ task < plan.tasks.length, e.firstScan.getD task false = true ↔ FirstScanDue task tr
  shown : EachAt Mark.invoked
    (fun pre inv => ∀ b, inv.firstScan = some b → (b = true ↔ FirstScanDue inv.task pre)) tr

theorem mem_scheduleOrder {tasks : List TaskPlan} {task : ℕ} (h : task ∈ scheduleOrder tasks) :
    task < tasks.length := by
  unfold scheduleOrder at h
  rw [List.mem_insertionSort, List.mem_range] at h
  exact h

theorem Scanned.step (h : Scanned plan io e tr) (hstep : EngineStep e marks e') :
    Scanned plan io e' (tr ++ marks) := by
  have hplan := h.same.trans hstep.samePlan
  have hbits : e.firstScan.length = plan.tasks.length := by
    rw [h.same.bits]
    exact List.length_map _
  cases hstep with
  | still hs =>
      rw [List.append_nil]
      exact ⟨hplan, by rw [hs.firstScan]; exact h.stored, h.shown⟩
  | install hs =>
      refine ⟨hplan, fun task htask => ?_, h.shown.snoc fun b hb => by cases hb⟩
      rw [hs.firstScan, FirstScanDue, since_snoc]
      simp [Mark.installs, hbits, htask]
  | invoke task c htask hs =>
      obtain ⟨w, ran, ok, trip, hinv, rfl, rfl⟩ := invoke_spec hs
      refine ⟨hplan, fun other hother => ?_, h.shown.snoc fun b hb => ?_⟩
      · rw [(finishInvoke_finished w _ _ ok).firstScan, hinv.firstScan, FirstScanDue, since_snoc]
        show _ ↔ false = true ∨ (!(task == other && ok)) = true ∧ FirstScanDue other tr
        rw [← h.stored other hother]
        cases ok with
        | false => simp
        | true =>
            by_cases hsame : task = other
            · simp [hsame, hbits, hother]
            · simp [hsame]
      · cases hb
        intro b hb
        have htask := mem_scheduleOrder (h.same.order ▸ htask)
        show b = true ↔ FirstScanDue task tr
        rw [← h.stored task htask]
        change (if ran && w.base.vm.isSome then some w.vmFirstScan else none) = some b at hb
        split_ifs at hb with hran
        cases hb
        rw [Bool.and_eq_true] at hran
        rcases hinv.logic with ⟨-, hlogic⟩ | ⟨hnot, -, -⟩
        · rw [hlogic.bit (by simpa [vmOutputs] using hran.2)]
        · rw [hnot] at hran
          cases hran.1

/-- **FirstScan is one per task.** The bit of a task is set exactly when an install has been
committed and no invocation of that task has completed since the last one, and that is the bit the
machine shows while the logic of the task runs. -/
theorem first_scan_iff (h : EngineTrace plan io e tr) :
    (∀ task < plan.tasks.length, e.firstScan.getD task false = true ↔ FirstScanDue task tr) ∧
    ∀ pre inv post, tr = pre ++ .invoked inv :: post →
      ∀ b, inv.firstScan = some b → (b = true ↔ FirstScanDue inv.task pre) := by
  have hstart : ∀ vm, Scanned plan io (.initial plan io vm) [] := by
    intro vm
    refine ⟨⟨rfl, rfl, rfl, rfl, rfl, rfl⟩, fun task htask => ?_, .nil⟩
    simp [IoEngine.initial, FirstScanDue, not_since_nil, htask]
  have hscanned := h.rule Scanned.step hstart
  exact ⟨hscanned.stored, hscanned.shown⟩

/-- The first scan after an install shows the bit, and the second one does not. -/
theorem first_scan_twice :
    ∃ e, EngineTrace oneTask (oneOutput (.int 50)) e
        [.installed .safeReset [false], .invoked (idleScan true (.bool false)),
          .invoked (idleScan false (.bool false))] ∧
      FirstScanDue 0 [.installed .safeReset [false]] ∧
      ¬ FirstScanDue 0
        [.installed .safeReset [false], .invoked (idleScan true (.bool false))] := by
  have hmarks : deviceMarks (.int 50) (installEvents .safeReset [0, 10]) =
      some [.installed .safeReset [false], .invoked (idleScan true (.bool false)),
        .invoked (idleScan false (.bool false))] := by decide +kernel
  obtain ⟨e, htrace⟩ := deviceMarks_trace hmarks
  obtain ⟨-, hshown⟩ := first_scan_iff htrace
  refine ⟨e, htrace, ?_, ?_⟩
  · exact (hshown [_] _ [_] rfl true rfl).mp rfl
  · exact fun hdue => absurd ((hshown [_, _] _ [] rfl false rfl).mpr hdue) (by decide)

/-! ## Outputs that were never stored -/

/-- An invocation that stored an output slot. -/
def Mark.stores (i : ℕ) : Mark → Bool
  | .installed _ _ => false
  | .invoked inv => inv.stored.getD i false

/-- An install with a policy; for a bumpless one the slot held no value before. -/
def Mark.installsUnheld (policy : OutputRestartPolicy) (i : ℕ) : Mark → Bool
  | .installed p written => p == policy && !(policy == .bumpless && written.getD i false)
  | .invoked _ => false

/-- The last install had a policy, and no invocation since then has stored the slot. -/
def Unstored (policy : OutputRestartPolicy) (i : ℕ) (tr : List Mark) : Prop :=
  Since (fun m => m.installsUnheld policy i) (fun m => !m.installs && !m.stores i) tr

/-- What holds of a slot that was not stored: it is BOOL FALSE in the machine, and after a bumpless
install it has no value in the image. -/
structure Untouched (e : IoEngine) (policy : OutputRestartPolicy) (i : ℕ) : Prop where
  hold : e.bumplessHold = (policy == .bumpless)
  vm : ∃ o, vmOutputs e = some o ∧ o.values[i]? = some (.bool false)
  image : policy = .bumpless → ∀ s, e.io.image.outputs[i]? = some s → s.written = false

/-- What an invocation hands to the driver for a slot that was never stored. -/
def SendsUnstored (io : ScanIo) (pre : List Mark) (inv : Invocation) : Prop :=
  ∀ policy i, Unstored policy i (pre ++ [.invoked inv]) → inv.mode.executesLogic = true →
    (inv.modules[i]?.map OutputModuleState.quality) = some .good → inv.forces.lookup i = none →
    (inv.sent.values[i]? = some (io.image.safe i) ↔
      policy = .bumpless ∨ io.image.safe i = .bool false)

/-- What a run keeps for slots that were never stored. -/
structure Tracked (plan : ScanPlan) (io : ScanIo) (e : IoEngine) (tr : List Mark) : Prop where
  same : SamePlan (.initial plan io none) e
  cold : ColdArmed e
  untouched : ∀ policy, ∀ i < io.image.outputs.length, Unstored policy i tr → Untouched e policy i
  sends : EachAt Mark.invoked (SendsUnstored io) tr

theorem EngineStep.coldArmed (h : EngineStep e marks e') (hcold : ColdArmed e) :
    ColdArmed e' := by
  cases h with
  | still h => exact h.armed hcold
  | install h => exact h.armed
  | invoke task c _ h =>
      obtain ⟨w, ran, ok, trip, hinv, -, rfl⟩ := invoke_spec h
      exact (finishInvoke_finished w _ _ ok).armed (hinv.armed hcold)

/-- A slot of the image after the outputs of the machine were copied. -/
theorem copyOutputs_getElem? {hold : Bool} {o : SlotImage} {m : ProcessImage} {i : ℕ}
    (hstored : o.written.getD i false = false) (hvalue : o.values[i]? = some (.bool false)) :
    (IoEngine.copyOutputs hold o m).outputs[i]? = m.outputs[i]?.map fun s =>
      if hold then s else { s with value := .bool false, written := true } := by
  simp only [IoEngine.copyOutputs, List.getElem?_mapIdx, hstored, hvalue, vmToPlc, Bool.not_false,
    Bool.and_true]

/-- What the logic leaves of a slot that it does not store. -/
theorem Untouched.ranLogic {w : IoEngine} {task i : ℕ} {ok : Bool} {policy : OutputRestartPolicy}
    (h : Untouched e policy i) (hlogic : RanLogic e w task ok)
    (hstored : (IoEngine.storedMask w.base).getD i false = false) :
    Untouched w policy i ∧ (ok = true → policy = .safeReset → ∀ s,
      w.io.image.outputs[i]? = some s → s.written = true ∧ s.value = .bool false) := by
  obtain ⟨o, ho, hvalue⟩ := h.vm
  obtain ⟨o', ho', hkeep⟩ := hlogic.vm o ho
  have hmask : IoEngine.storedMask w.base = o'.written := by
    obtain ⟨v, hv, rfl⟩ := Option.map_eq_some_iff.mp ho'
    simp [IoEngine.storedMask, hv]
  rw [hmask] at hstored
  have hvalue' : o'.values[i]? = some (.bool false) := (hkeep i hstored).trans hvalue
  have hout := hlogic.outputs
  rw [ho', Option.elim_some] at hout
  refine ⟨⟨hlogic.hold.trans h.hold, ⟨o', ho', hvalue'⟩, fun hpolicy s hs => ?_⟩, ?_⟩
  · cases ok with
    | false =>
        rw [hout] at hs
        exact h.image hpolicy s hs
    | true =>
        rw [hout, if_pos rfl, copyOutputs_getElem? hstored hvalue', h.hold, hpolicy] at hs
        simp only [beq_self_eq_true, if_true, Option.map_id'] at hs
        exact h.image hpolicy s hs
  · rintro rfl rfl s hs
    rw [hout, if_pos rfl, copyOutputs_getElem? hstored hvalue', h.hold] at hs
    obtain ⟨s', -, rfl⟩ := Option.map_eq_some_iff.mp hs
    exact ⟨rfl, rfl⟩

theorem Untouched.of_eq {i : ℕ} {policy : OutputRestartPolicy} (h : Untouched e policy i)
    (hold : e'.bumplessHold = e.bumplessHold) (vm : vmOutputs e' = vmOutputs e)
    (outputs : e'.io.image.outputs = e.io.image.outputs) : Untouched e' policy i :=
  ⟨hold.trans h.hold, vm ▸ h.vm, outputs ▸ h.image⟩

/-- What the driver is handed for an output in RUN or SIM, with a good module and no force. -/
theorem sent_of_program {w : IoEngine} {c : Cycle} {i : ℕ} {s : TypedSlot}
    (hmode : w.base.mode.executesLogic = true) (hs : w.io.image.outputs[i]? = some s)
    (hgood : (w.moduleState c i).quality = .good) (hforce : w.io.forces.lookup i = none) :
    (w.outputImage c true).values[i]? = some (if s.written then s.value else w.io.image.safe i) := by
  have hfault : (w.base.mode == .fault) = false ∧ (w.base.mode == .stop) = false := by
    rcases hm : w.base.mode with _ | _ | _ | _
    · rw [hm] at hmode
      cases hmode
    · exact ⟨rfl, rfl⟩
    · rw [hm] at hmode
      cases hmode
    · exact ⟨rfl, rfl⟩
  have hglobal : w.globalForceSafe true = false := by
    simp [IoEngine.globalForceSafe, hfault]
  show (w.io.image.outputs.mapIdx (w.effective c true))[i]? = _
  rw [List.getElem?_mapIdx, hs, Option.map_some]
  exact congrArg some (resolve_of_program hglobal hfault.1 hforce hgood)

/-- Before an invocation that does not store a slot, the slot was not stored either. -/
theorem Unstored.of_invoked {policy : OutputRestartPolicy} {i : ℕ} {inv : Invocation}
    (h : Unstored policy i (tr ++ [.invoked inv])) :
    inv.stored.getD i false = false ∧ Unstored policy i tr := by
  rcases since_snoc.mp h with hstart | ⟨hnot, h⟩
  · cases hstart
  · exact ⟨by simpa [Mark.installs, Mark.stores] using hnot, h⟩

/-- An install leaves the slots that it does not hold untouched. -/
theorem Installed.untouched {p policy : OutputRestartPolicy} {i : ℕ} (h : Installed e e' p)
    (hcold : ColdArmed e) (hi : i < e.base.outputSlots)
    (hun : Unstored policy i
      (tr ++ [.installed p (e.io.image.outputs.map TypedSlot.written)])) :
    Untouched e' policy i := by
  rcases since_snoc.mp hun with hun | ⟨hnot, -⟩
  · simp only [Mark.installsUnheld, Bool.and_eq_true, beq_iff_eq, Bool.not_eq_true'] at hun
    obtain ⟨rfl, hheld⟩ := hun
    refine ⟨h.hold, ⟨_, h.vm hcold, List.getElem?_replicate_of_lt hi⟩, ?_⟩
    rintro rfl s hslot
    rw [h.outputs rfl] at hslot
    simpa [hslot] using hheld
  · simp [Mark.installs] at hnot

/-- What an invocation hands to the driver for a slot that was never stored. -/
theorem Invoked.sends {w : IoEngine} {task i : ℕ} {c : Cycle} {ran ok trip : Bool}
    {policy : OutputRestartPolicy} (h : Invoked e task w ran ok trip)
    (hbefore : Untouched e policy i)
    (hstored : (w.report task c ran ok trip).stored.getD i false = false)
    (hmode : w.base.mode.executesLogic = true)
    (hgood : ((w.report task c ran ok trip).modules[i]?.map OutputModuleState.quality) =
      some .good) (hforce : w.io.forces.lookup i = none) :
    (w.outputImage c ok).values[i]? = some (w.io.image.safe i) ↔
      policy = .bumpless ∨ w.io.image.safe i = .bool false := by
  obtain rfl := h.succeeded hmode
  rcases h.logic with ⟨rfl, hlogic⟩ | ⟨-, hfalse, -⟩
  · obtain ⟨hafter, hreset⟩ := hbefore.ranLogic hlogic hstored
    -- The slot exists, since it has a module state.
    have hslot : ∃ s, w.io.image.outputs[i]? = some s ∧ (w.moduleState c i).quality = .good := by
      simp only [IoEngine.report, List.getElem?_mapIdx, Option.map_map] at hgood
      obtain ⟨s, hs, hq⟩ := Option.map_eq_some_iff.mp hgood
      exact ⟨s, hs, hq⟩
    obtain ⟨s, hs, hq⟩ := hslot
    rw [sent_of_program hmode hs hq hforce]
    cases policy with
    | bumpless => simp [hafter.image rfl s hs]
    | safeReset =>
        obtain ⟨hwritten, hvalue⟩ := hreset rfl rfl s hs
        simp [hwritten, hvalue, eq_comm]
  · cases hfalse

theorem Tracked.step (h : Tracked plan io e tr) (hstep : EngineStep e marks e') :
    Tracked plan io e' (tr ++ marks) := by
  have hplan := h.same.trans hstep.samePlan
  have hcold := hstep.coldArmed h.cold
  cases hstep with
  | still hs =>
      rw [List.append_nil]
      refine ⟨hplan, hcold, fun policy i hi hun => ?_, h.sends⟩
      exact (h.untouched policy i hi hun).of_eq hs.hold hs.vm hs.outputs
  | install hs =>
      refine ⟨hplan, hcold, fun policy i hi hun => ?_, h.sends.snoc fun b hb => by cases hb⟩
      exact hs.untouched h.cold (by rwa [h.same.slots]) hun
  | invoke task c htask hs =>
      obtain ⟨w, ran, ok, trip, hinv, rfl, rfl⟩ := invoke_spec hs
      have hfin := finishInvoke_finished w c task ok
      have hw := h.same.trans hinv.samePlan
      refine ⟨hplan, hcold, fun policy i hi hun => ?_, h.sends.snoc fun b hb => ?_⟩
      · obtain ⟨hstored, hun⟩ := hun.of_invoked
        have hbefore := h.untouched policy i hi hun
        have hafter : Untouched w policy i := by
          rcases hinv.logic with ⟨rfl, hlogic⟩ | ⟨-, -, hstill⟩
          · exact (hbefore.ranLogic hlogic hstored).1
          · exact hbefore.of_eq hstill.hold hstill.vm hstill.outputs
        exact hafter.of_eq hfin.hold hfin.vm hfin.outputs
      · cases hb
        intro policy i hun hmode hgood hforce
        obtain ⟨hstored, hun⟩ := hun.of_invoked
        have hcount : w.io.image.outputs.length = io.image.outputs.length := hw.count
        have hi : i < io.image.outputs.length := by
          by_contra hge
          rw [List.getElem?_eq_none (by simpa [IoEngine.report, hcount] using hge)] at hgood
          cases hgood
        have hsafe : io.image.safe i = w.io.image.safe i := by
          unfold ProcessImage.safe
          rw [hw.safe]
          rfl
        rw [hsafe]
        exact hinv.sends (h.untouched policy i hi hun) hstored hmode hgood hforce

/-- **An output that the program never stored** goes to its safe state exactly when that is BOOL
FALSE or the program was installed bumpless: otherwise the BOOL FALSE of the fresh machine is copied
as if the program had stored it. -/
theorem unstored_output_iff {pre post : List Mark} {inv : Invocation}
    {policy : OutputRestartPolicy} {i : ℕ}
    (h : EngineTrace plan io e (pre ++ .invoked inv :: post))
    (hunstored : Unstored policy i (pre ++ [.invoked inv]))
    (hmode : inv.mode = .run ∨ inv.mode = .sim)
    (hgood : (inv.modules[i]?.map OutputModuleState.quality) = some .good)
    (hforce : inv.forces.lookup i = none) :
    inv.sent.values[i]? = some (io.image.safe i) ↔
      policy = .bumpless ∨ io.image.safe i = .bool false := by
  have hstart : ∀ vm, Tracked plan io (.initial plan io vm) [] := by
    intro vm
    refine ⟨⟨rfl, rfl, rfl, rfl, rfl, rfl⟩, ?_, ?_, .nil⟩
    · intro a ha
      cases ha
    · intro policy i _ hun
      exact absurd hun (not_since_nil _ _)
  have hexec : inv.mode.executesLogic = true := by
    rcases hmode with hmode | hmode <;> rw [hmode] <;> rfl
  exact (h.rule Tracked.step hstart).sends pre inv post rfl policy i hunstored hexec hgood hforce

/-- The program stores nothing: an install and one scan. -/
theorem unstored_idle (policy : OutputRestartPolicy) (value : PlcValue) :
    Unstored policy 0 [.installed policy [false], .invoked (idleScan true value)] := by
  refine ⟨[], .installed policy [false], [.invoked (idleScan true value)], rfl, ?_, ?_⟩
  · simp [Mark.installsUnheld]
  · intro m hm
    cases List.mem_singleton.mp hm
    rfl

/-- After a bumpless install the safe state reaches the driver. -/
theorem unstored_output_bumpless :
    ∃ e, EngineTrace oneTask (oneOutput (.int 50)) e
        [.installed .bumpless [false], .invoked (idleScan true (.int 50))] ∧
      (idleScan true (.int 50)).sent.values[0]? = some ((oneOutput (.int 50)).image.safe 0) := by
  have hmarks : deviceMarks (.int 50) (installEvents .bumpless [0]) =
      some [.installed .bumpless [false], .invoked (idleScan true (.int 50))] := by decide +kernel
  obtain ⟨e, htrace⟩ := deviceMarks_trace hmarks
  refine ⟨e, htrace, (@unstored_output_iff _ _ e [_] [] _ _ 0 htrace
    (unstored_idle .bumpless (.int 50)) (.inl rfl) rfl rfl).mpr (.inl rfl)⟩

/-- After a safe reset an output with safe state 50 gets BOOL FALSE, although the program never
stored it. -/
theorem unstored_output_lost :
    ∃ e inv, EngineTrace oneTask (oneOutput (.int 50)) e
        [.installed .safeReset [false], .invoked inv] ∧
      Unstored .safeReset 0 [.installed .safeReset [false], .invoked inv] ∧
      inv.mode = .run ∧ inv.modules[0]? = some ⟨.good, .forceSafe⟩ ∧
      inv.forces.lookup 0 = none ∧
      (oneOutput (.int 50)).image.safe 0 = .int 50 ∧ inv.sent.values[0]? = some (.bool false) := by
  have hmarks : deviceMarks (.int 50) (installEvents .safeReset [0]) =
      some [.installed .safeReset [false], .invoked (idleScan true (.bool false))] := by
    decide +kernel
  obtain ⟨e, htrace⟩ := deviceMarks_trace hmarks
  exact ⟨e, _, htrace, unstored_idle .safeReset (.bool false), rfl, rfl, rfl, rfl, rfl⟩

end SoftPlc.Scan
