import SoftPlc.Scan.Outputs

/-!
# A failed input poll

`sample_inputs` of `plc-scan/src/engine.rs` sets the module quality to bad when the driver does not
answer, and a few lines later computes it again from the qualities of the input slots, which the
failed poll has not touched. `failed_poll_iff` says when the failure is seen all the same.
-/

namespace SoftPlc.Scan

open SoftPlc.Ir SoftPlc.Vm SoftPlc.Io SoftPlc.Lib

namespace IoEngine

/-- The engine that the output phase of an invocation finds. Source: `engine.rs`,
`ScanEngine::invoke` up to its `apply_outputs` call. -/
def outputPhase (e : IoEngine) (task : ℕ) (c : Cycle) : Option IoEngine :=
  ((e.sampleInputs c).logic task c).map fun p => (p.1.watch task c p.2.1).1

/-- Source: `engine.rs`, `io_degraded` in `ScanEngine::status`. -/
def ioDegraded (e : IoEngine) : Bool := e.io.moduleQuality == .bad

/-- The image when the driver is polled. Source: `engine.rs`, the first `for` of
`ScanEngine::sample_inputs`. -/
def polledOver (m : ProcessImage) (c : Cycle) : ProcessImage :=
  match c.remote with
  | some snap => copyRemote m snap
  | none => m

/-- The driver does not say how the module of an output is. -/
def NoOverride (c : Cycle) (i : ℕ) : Prop := (c.moduleStates.bind (·.lookup i)) = none

end IoEngine

/-- A failed poll is seen: the output phase finds the module bad, outputs that are not forced go to
their safe states, and the status says so. -/
structure Degraded (c : Cycle) (w e' : IoEngine) (inv : Invocation) : Prop where
  quality : w.io.moduleQuality = .bad
  outputs : w.io.onBadQuality = .forceSafe → ∀ i < w.io.image.outputs.length,
    IoEngine.NoOverride c i → w.io.forces.lookup i = none →
      inv.sent.values[i]? = some (w.io.image.safe i)
  status : e'.ioDegraded = true

variable {e e' w : IoEngine} {task : ℕ} {c : Cycle} {inv : Invocation}

/-! ## The module quality -/

theorem faultIf_quality (e : IoEngine) (reason : Bool) :
    (e.faultIf reason).io.moduleQuality = e.io.moduleQuality := by
  cases reason <;> rfl

theorem logic_quality {ran ok : Bool} (h : e.logic task c = some (e', ran, ok)) :
    e'.io.moduleQuality = e.io.moduleQuality := by
  unfold IoEngine.logic at h
  split_ifs at h
  · obtain ⟨⟨e₁, ok₁⟩, hrun, heq⟩ := Option.map_eq_some_iff.mp h
    cases heq
    apply (faultIf_quality _ _).trans
    unfold IoEngine.runLogic at hrun
    split at hrun
    · cases hrun
    · cases hrun
      rfl
    · cases hrun
      rfl
  · cases h
    rfl

theorem watch_quality (e : IoEngine) (task : ℕ) (c : Cycle) (ran : Bool) :
    (e.watch task c ran).1.io.moduleQuality = e.io.moduleQuality := by
  cases ran with
  | false => rfl
  | true =>
      apply (faultIf_quality _ _).trans
      dsimp only [IoEngine.note]
      split
      · rfl
      · split_ifs <;> rfl

/-- The output phase finds the quality that sampling computed last. -/
theorem outputPhase_quality (h : e.outputPhase task c = some w) :
    w.io.moduleQuality = (IoEngine.sampled e.io.image c).worst := by
  obtain ⟨⟨e₁, ran, ok⟩, hlogic, rfl⟩ := Option.map_eq_some_iff.mp h
  apply (watch_quality _ _ _ _).trans
  exact logic_quality hlogic

/-- An invocation goes through its output phase. -/
theorem outputPhase_of_invoke (h : e.invoke task c = some (e', inv)) :
    ∃ w ran ok trip, e.outputPhase task c = some w ∧ inv = w.report task c ran ok trip ∧
      e' = (w.applyOutputs c).finishInvoke task ok := by
  obtain ⟨e₁, ran, ok, hlogic, hinv, he'⟩ := IoEngine.invoke_ok h
  refine ⟨_, ran, ok, _, ?_, hinv, he'⟩
  unfold IoEngine.outputPhase
  rw [hlogic]
  rfl

theorem worst_eq_bad_iff {m : ProcessImage} : m.worst = .bad ↔ ∃ s ∈ m.inputs, s.quality = .bad := by
  unfold ProcessImage.worst
  constructor
  · intro h
    split_ifs at h with hbad
    simpa using hbad
  · intro h
    rw [if_pos (by simpa using h)]

/-! ## What a bad module does -/

/-- An output of a bad module without a force goes to its safe state. -/
theorem resolve_of_bad {x : EffectiveOutputInput} (hbad : x.module = ⟨.bad, .forceSafe⟩)
    (hforce : x.force = none) : (resolveEffectiveOutput x).1 = x.safeState := by
  simp only [resolveEffectiveOutput, hbad, hforce, beq_self_eq_true, Bool.and_self, if_true]
  split_ifs <;> rfl

theorem sent_of_bad {ok : Bool} {i : ℕ} (hbad : w.io.moduleQuality = .bad)
    (hpolicy : w.io.onBadQuality = .forceSafe) (hi : i < w.io.image.outputs.length)
    (hdriver : IoEngine.NoOverride c i) (hforce : w.io.forces.lookup i = none) :
    (w.outputImage c ok).values[i]? = some (w.io.image.safe i) := by
  have hmodule : w.moduleState c i = ⟨.bad, .forceSafe⟩ := by
    unfold IoEngine.moduleState
    dsimp only
    rcases hstates : c.moduleStates with _ | states
    · rw [hbad, hpolicy]
    · have hnone : states.lookup i = none := by
        simpa [IoEngine.NoOverride, hstates] using hdriver
      dsimp only
      rw [hnone, hbad, hpolicy]
      rfl
  show (w.io.image.outputs.mapIdx (w.effective c ok))[i]? = _
  rw [List.getElem?_mapIdx, List.getElem?_eq_getElem hi, Option.map_some]
  exact congrArg some (resolve_of_bad hmodule hforce)

/-- A module that the output phase finds bad stays bad. -/
theorem quality_after_outputs {ok : Bool} (h : w.io.moduleQuality = .bad) :
    ((w.applyOutputs c).finishInvoke task ok).ioDegraded = true := by
  have hquality : (w.applyOutputs c).io.moduleQuality = .bad := by
    unfold IoEngine.applyOutputs
    dsimp only
    split_ifs
    · exact h
    · rw [faultIf_quality]
  show ((w.applyOutputs c).io.moduleQuality == .bad) = true
  rw [hquality]
  rfl

/-- **A failed poll is seen in the same scan** exactly when some input slot, after the remote snapshot
was copied, has been bad already. -/
theorem failed_poll_iff (hpoll : c.poll = none) (h : e.invoke task c = some (e', inv)) :
    (∃ w, e.outputPhase task c = some w ∧ Degraded c w e' inv) ↔
      ∃ s ∈ (IoEngine.polledOver e.io.image c).inputs, s.quality = .bad := by
  have hsampled : IoEngine.sampled e.io.image c = IoEngine.polledOver e.io.image c := by
    unfold IoEngine.sampled
    rw [hpoll]
    rfl
  rw [← hsampled, ← worst_eq_bad_iff]
  obtain ⟨w, ran, ok, trip, hphase, rfl, rfl⟩ := outputPhase_of_invoke h
  have hquality := outputPhase_quality hphase
  constructor
  · rintro ⟨w', hphase', hdegraded⟩
    obtain rfl := Option.some.inj (hphase.symm.trans hphase')
    rw [← hquality]
    exact hdegraded.quality
  · intro hworst
    have hbad := hquality.trans hworst
    refine ⟨w, hphase, hbad, ?_, quality_after_outputs hbad⟩
    intro hpolicy i hi hdriver hforce
    exact sent_of_bad hbad hpolicy hi hdriver hforce

/-! ## A driver that stops answering -/

/-- One input, and one output with the safe state 50. -/
def sensorAndValve : ScanIo where
  image := ⟨[.zero .bool], [.zero .int], [], [], [.int 50]⟩
  forces := []
  moduleQuality := .good
  onBadQuality := .forceSafe
  fieldGate := .stop

/-- A program with one input that never stores its output. -/
def watchProgram : ArmedProgram where
  vm :=
    let m := { taskModule [.simple .halt 0] 0 with inputSlots := 1, outputSlots := 1 }
    ⟨.ofModule m 1000, .cold m 0⟩
  programId := "watch"
  compatibilityHash := "hash of watch"
  taskEntries := ["task.main"]
  retainCopies := []

/-- A cycle whose poll answers with a quality, or not at all. -/
def pollCycle (ms : ℕ) (answer : Option Quality) : Cycle :=
  ⟨ms, 0, ms, ms, ms, 0, none, answer.map fun q => ([.bool false], [q]), none, true⟩

/-- The program runs, and its first scan polls the input with a quality. -/
def watchEvents (quality : Quality) : List EngineEvent :=
  [.requestMode .run, .arm watchProgram .safeReset, .requestActivate,
    .scan [pollCycle 0 (some quality)]]

/-- What is seen of an invocation. -/
structure PollReport where
  quality : Option Quality
  sent : List PlcValue
  degraded : Bool
  worst : Quality
  deriving DecidableEq

/-- The invocation after the first scan, in which the driver does not answer. -/
def pollReport (quality : Quality) : Option PollReport := do
  let (e, _) ← (IoEngine.initial oneTask sensorAndValve none).handleAll (watchEvents quality)
  let (e', inv) ← e.invoke 0 (pollCycle 10 none)
  pure ⟨(e.outputPhase 0 (pollCycle 10 none)).map fun w => w.io.moduleQuality, inv.sent.values,
    e'.ioDegraded, (IoEngine.polledOver e.io.image (pollCycle 10 none)).worst⟩

theorem pollReport_run {quality : Quality} {r : PollReport} (h : pollReport quality = some r) :
    ∃ e tr e' inv, EngineTrace oneTask sensorAndValve e tr ∧
      e.invoke 0 (pollCycle 10 none) = some (e', inv) ∧
      r = ⟨(e.outputPhase 0 (pollCycle 10 none)).map fun w => w.io.moduleQuality, inv.sent.values,
        e'.ioDegraded, (IoEngine.polledOver e.io.image (pollCycle 10 none)).worst⟩ := by
  obtain ⟨⟨e, tr⟩, hevs, hrest⟩ := Option.bind_eq_some_iff.mp h
  obtain ⟨⟨e', inv⟩, hinvoke, hreport⟩ := Option.bind_eq_some_iff.mp hrest
  cases hreport
  have hstart : EngineTrace oneTask sensorAndValve (.initial oneTask sensorAndValve none) [] :=
    .start (show IoEngine.new oneTask sensorAndValve none = _ from rfl)
  exact ⟨e, tr, e', inv, hstart.handleAll hevs, hinvoke, rfl⟩

/-- **A poll that fails after a good one is not seen**: the module counts as good, and the driver gets
BOOL FALSE where the safe state is 50. -/
theorem failed_poll_unseen :
    ∃ e tr e' inv w, EngineTrace oneTask sensorAndValve e tr ∧
      (pollCycle 10 none).poll = none ∧ e.invoke 0 (pollCycle 10 none) = some (e', inv) ∧
      e.outputPhase 0 (pollCycle 10 none) = some w ∧ w.io.moduleQuality = .good ∧
      inv.sent.values = [.bool false] ∧ e'.ioDegraded = false := by
  have hreport : pollReport .good = some ⟨some .good, [.bool false], false, .good⟩ := by
    decide +kernel
  obtain ⟨e, tr, e', inv, htrace, hinvoke, heq⟩ := pollReport_run hreport
  simp only [PollReport.mk.injEq] at heq
  obtain ⟨hquality, hsent, hdegraded, -⟩ := heq
  obtain ⟨w, hw, hgood⟩ := Option.map_eq_some_iff.mp hquality.symm
  exact ⟨e, tr, e', inv, w, htrace, rfl, hinvoke, hw, hgood, hsent.symm, hdegraded.symm⟩

/-- After a bad one it is. -/
theorem failed_poll_after_bad :
    ∃ e tr e' inv, EngineTrace oneTask sensorAndValve e tr ∧
      e.invoke 0 (pollCycle 10 none) = some (e', inv) ∧
      ∃ w, e.outputPhase 0 (pollCycle 10 none) = some w ∧ Degraded (pollCycle 10 none) w e' inv := by
  have hreport : pollReport .bad = some ⟨some .bad, [.int 50], true, .bad⟩ := by decide +kernel
  obtain ⟨e, tr, e', inv, htrace, hinvoke, heq⟩ := pollReport_run hreport
  simp only [PollReport.mk.injEq] at heq
  obtain ⟨-, -, -, hworst⟩ := heq
  have hbad := worst_eq_bad_iff.mp hworst.symm
  exact ⟨e, tr, e', inv, htrace, hinvoke, (failed_poll_iff rfl hinvoke).mpr hbad⟩

end SoftPlc.Scan
