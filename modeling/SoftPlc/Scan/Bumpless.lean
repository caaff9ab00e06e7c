import SoftPlc.Scan.Loop

/-!
# The end of a bumpless hold

After a bumpless install `run_logic` of `plc-scan/src/engine.rs` copies only the outputs that the
invocation stored. The field `bumpless_hold` says that this ends with the first scan of each task;
nothing clears it before the next install. `bumpless_hold_ends` says which runs do not notice.
-/

namespace SoftPlc.Scan

open SoftPlc.Ir SoftPlc.Vm SoftPlc.Io SoftPlc.Lib

/-! ## What is said of a run after an install -/

/-- The value of an output in the image. -/
def imageValue (e : IoEngine) (i : ℕ) : Option PlcValue :=
  (e.io.image.outputs[i]?).map TypedSlot.value

/-- The value of an output in the current machine, as the image would have it. -/
def machineValue (e : IoEngine) (i : ℕ) : Option PlcValue :=
  (vmOutputs e).bind fun o => (o.values[i]?).map vmToPlc

/-- An invocation that completed and stored an output slot. -/
def Mark.delivers (i : ℕ) : Mark → Bool
  | .installed _ _ => false
  | .invoked inv => inv.ranLogicOk && inv.stored.getD i false

/-- Every task has completed an invocation. -/
def AllCompleted (tasks : ℕ) (tr : List Mark) : Prop :=
  ∀ task < tasks, ∃ m ∈ tr, m.completes task = true

/-- No task has stored an output slot. -/
def NeverStored (i : ℕ) (tr : List Mark) : Prop := ∀ m ∈ tr, m.stores i = false

/-- The last invocation that stored an output slot completed. -/
def LastDelivered (i : ℕ) (tr : List Mark) : Prop :=
  Since (fun m => m.delivers i = true) (fun m => m.stores i = false) tr

/-- **The end of the hold**, after an install in state `e` and the invocations of `tr`: until every
task has completed one, an output that no task stored keeps the value it had before the install;
after a further one that completes, every output of the image is that of the machine. -/
structure HoldEnds (tasks : ℕ) (e : IoEngine) (tr : List Mark) (e' : IoEngine) : Prop where
  held : ¬AllCompleted tasks tr → ∀ i, NeverStored i tr → imageValue e' i = imageValue e i
  ended : ∀ pre inv, tr = pre ++ [.invoked inv] → AllCompleted tasks pre → inv.ranLogicOk = true →
    ∀ i < e.io.image.outputs.length, imageValue e' i = machineValue e' i

/-- What such an invocation needs to find of an output: it was stored, last by an invocation that
completed, or it was never stored and had before the install the value that a machine starts with. -/
def Settled (e : IoEngine) (i : ℕ) (tr : List Mark) : Prop :=
  LastDelivered i tr ∨ (NeverStored i tr ∧ imageValue e i = some (.bool false))

/-! ## What every step keeps -/

theorem neverStored_append {i : ℕ} {tr marks : List Mark} :
    NeverStored i (tr ++ marks) ↔ NeverStored i tr ∧ NeverStored i marks := by
  simp only [NeverStored, List.mem_append, or_imp, forall_and]

/-- What a run after a bumpless install in state `e` keeps of one output. -/
structure HeldSlot (e : IoEngine) (i : ℕ) (e' : IoEngine) (tr : List Mark) : Prop where
  hold : e'.bumplessHold = true
  slot : i < e'.io.image.outputs.length
  machine : (vmOutputs e').isSome
  kept : NeverStored i tr → imageValue e' i = imageValue e i ∧ machineValue e' i = some (.bool false)
  delivered : LastDelivered i tr → imageValue e' i = machineValue e' i

section Steps

variable {e₀ e e' w : IoEngine} {i task : ℕ} {tr marks : List Mark} {c : Cycle} {ran ok trip : Bool}

theorem HeldSlot.of_eq (h : HeldSlot e₀ i e tr) (hold : e'.bumplessHold = e.bumplessHold)
    (vm : vmOutputs e' = vmOutputs e) (outputs : e'.io.image.outputs = e.io.image.outputs) :
    HeldSlot e₀ i e' tr := by
  have himage : imageValue e' i = imageValue e i := by
    unfold imageValue
    rw [outputs]
  have hmachine : machineValue e' i = machineValue e i := by
    unfold machineValue
    rw [vm]
  refine ⟨hold.trans h.hold, outputs ▸ h.slot, vm ▸ h.machine, ?_, ?_⟩
  · intro hnever
    rw [himage, hmachine]
    exact h.kept hnever
  · intro hlast
    rw [himage, hmachine]
    exact h.delivered hlast

/-- The machine after its logic ran: an output that was not stored keeps its value, and one that was
stored by a run that succeeded is copied. -/
theorem ranLogic_slot (h : RanLogic e w task ok) (hhold : e.bumplessHold = true)
    (hi : i < e.io.image.outputs.length) (hvm : (vmOutputs e).isSome) :
    let stored := (IoEngine.storedMask w.base).getD i false
    (stored = false → imageValue w i = imageValue e i ∧ machineValue w i = machineValue e i) ∧
      (stored = true → ok = true → imageValue w i = machineValue w i) ∧
      (ok = false → imageValue w i = imageValue e i) := by
  obtain ⟨o, ho⟩ := Option.isSome_iff_exists.mp hvm
  obtain ⟨o', ho', hkeep⟩ := h.vm o ho
  have hmask : IoEngine.storedMask w.base = o'.written := by
    obtain ⟨v, hv, rfl⟩ := Option.map_eq_some_iff.mp ho'
    simp [IoEngine.storedMask, hv]
  have hout := h.outputs
  rw [ho', Option.elim_some, hhold] at hout
  have hslot := List.getElem?_eq_getElem hi
  refine ⟨?_, ?_, ?_⟩
  · intro hnot
    rw [hmask] at hnot
    constructor
    · unfold imageValue
      rw [hout]
      cases ok with
      | false => rfl
      | true => simp only [if_true, IoEngine.copyOutputs, List.getElem?_mapIdx, hnot, hslot,
          Bool.not_false, Bool.and_self, Option.map_some]
    · unfold machineValue
      rw [ho, ho', Option.bind_some, Option.bind_some, hkeep i hnot]
  · rintro hstored rfl
    rw [hmask] at hstored
    -- A stored slot exists in the machine.
    have hlen : i < o'.values.length := by
      rw [← o'.written_length]
      by_contra hge
      rw [List.getD_eq_getElem?_getD, List.getElem?_eq_none (Nat.le_of_not_lt hge)] at hstored
      cases hstored
    unfold imageValue machineValue
    rw [hout, ho']
    simp only [if_true, IoEngine.copyOutputs, List.getElem?_mapIdx, hstored, hslot,
      List.getElem?_eq_getElem hlen, Bool.not_true, Bool.and_false, Bool.false_eq_true, if_false,
      Option.map_some, Option.bind_some]
  · rintro rfl
    unfold imageValue
    rw [hout]
    rfl

/-- An invocation up to its output phase. -/
theorem HeldSlot.invoked (h : HeldSlot e₀ i e tr) (hinv : Invoked e task w ran ok trip) :
    HeldSlot e₀ i w (tr ++ [.invoked (w.report task c ran ok trip)]) := by
  rcases hinv.logic with ⟨rfl, hlogic⟩ | ⟨rfl, rfl, hstill⟩
  · obtain ⟨hnot, hdelivered, -⟩ := ranLogic_slot hlogic h.hold h.slot h.machine
    obtain ⟨o, ho⟩ := Option.isSome_iff_exists.mp h.machine
    obtain ⟨o', ho', -⟩ := hlogic.vm o ho
    refine ⟨hinv.hold.trans h.hold, ?_, Option.isSome_iff_exists.mpr ⟨o', ho'⟩, ?_, ?_⟩
    · rw [hinv.samePlan.count]
      exact h.slot
    · intro hnever
      obtain ⟨hbefore, hnow⟩ := neverStored_append.mp hnever
      have hstored : (IoEngine.storedMask w.base).getD i false = false :=
        hnow _ (List.mem_singleton_self _)
      obtain ⟨himage, hmachine⟩ := hnot hstored
      rw [himage, hmachine]
      exact h.kept hbefore
    · intro hlast
      rcases since_snoc.mp hlast with hnow | ⟨hnow, hbefore⟩
      · have hboth : (ok && (IoEngine.storedMask w.base).getD i false) = true := hnow
        rw [Bool.and_eq_true] at hboth
        exact hdelivered hboth.2 hboth.1
      · obtain ⟨himage, hmachine⟩ := hnot hnow
        rw [himage, hmachine]
        exact h.delivered hbefore
  · -- Without logic nothing is stored.
    have hsame := h.of_eq hstill.hold hstill.vm hstill.outputs
    refine ⟨hsame.hold, hsame.slot, hsame.machine, ?_, ?_⟩
    · intro hnever
      exact hsame.kept (neverStored_append.mp hnever).1
    · intro hlast
      rcases since_snoc.mp hlast with hnow | ⟨-, hbefore⟩
      · cases hnow
      · exact hsame.delivered hbefore

theorem HeldSlot.step (h : HeldSlot e₀ i e tr) (hstep : EngineStep e marks e')
    (hsame : ∀ m ∈ marks, m.installs = false) : HeldSlot e₀ i e' (tr ++ marks) := by
  cases hstep with
  | still hs =>
      rw [List.append_nil]
      exact h.of_eq hs.hold hs.vm hs.outputs
  | install hs => cases hsame _ (List.mem_singleton_self _)
  | invoke task c _ hs =>
      obtain ⟨w, ran, ok, trip, hinv, rfl, rfl⟩ := invoke_spec hs
      have hfin := finishInvoke_finished w c task ok
      exact (h.invoked hinv).of_eq hfin.hold hfin.vm hfin.outputs

theorem HeldSlot.run (h : HeldSlot e₀ i e []) (hrun : LoopRun e tr e')
    (hsame : ∀ m ∈ tr, m.installs = false) : HeldSlot e₀ i e' tr := by
  induction hrun with
  | refl => exact h
  | step _ hstep ih =>
      have hbefore := ih fun m hm => hsame m (List.mem_append_left _ hm)
      exact hbefore.step hstep.engineStep fun m hm => hsame m (List.mem_append_right _ hm)

end Steps

/-! ## Runs -/

/-- What a run has before an install. -/
structure Ready (io : ScanIo) (e : IoEngine) : Prop where
  cold : ColdArmed e
  slots : e.base.outputSlots = io.image.outputs.length
  count : e.io.image.outputs.length = io.image.outputs.length

theorem ready_of_run {plan : ScanPlan} {io : ScanIo} {e₀ e : IoEngine} {vm : Option ArmedVm}
    {tr : List Mark} (hnew : IoEngine.new plan io vm = .ok e₀) (h : LoopRun e₀ tr e) : Ready io e := by
  have hstart : Ready io e₀ := by
    unfold IoEngine.new at hnew
    rcases vm with _ | v
    · cases hnew
      exact ⟨(fun a ha => nomatch ha), rfl, rfl⟩
    · dsimp only at hnew
      split_ifs at hnew
      cases hnew
      exact ⟨(fun a ha => nomatch ha), rfl, rfl⟩
  induction h with
  | refl => exact hstart
  | step _ hstep ih =>
      have hplan := hstep.engineStep.samePlan
      exact ⟨hstep.engineStep.coldArmed ih.cold, hplan.slots.trans ih.slots,
        hplan.count.trans ih.count⟩

/-- A bumpless install leaves the image, and its machine starts with BOOL FALSE in every output. -/
theorem heldSlot_installed {io : ScanIo} {e e₁ : IoEngine} {i : ℕ} (h : Ready io e)
    (hinstall : Installed e e₁ .bumpless) (hi : i < e.io.image.outputs.length) :
    HeldSlot e i e₁ [] := by
  have houtputs := hinstall.outputs rfl
  have hmachine := hinstall.vm h.cold
  have hslots : i < e.base.outputSlots := by
    rw [h.slots, ← h.count]
    exact hi
  refine ⟨hinstall.hold, houtputs ▸ hi, ?_, ?_, ?_⟩
  · rw [hmachine]
    rfl
  · intro _
    unfold imageValue machineValue
    rw [houtputs, hmachine]
    refine ⟨rfl, ?_⟩
    simp only [Option.bind_some, SlotImage.bools, List.getElem?_replicate_of_lt hslots,
      Option.map_some, vmToPlc]
  · intro hlast
    exact absurd hlast (not_since_nil _ _)

/-- An install check that leaves an install mark committed that install. -/
theorem installed_of_check {e e₁ : IoEngine} {c : Cycle} {policy : OutputRestartPolicy}
    {written : List Bool} (h : e.tryEpochInstall c = (e₁, [.installed policy written])) :
    Installed e e₁ policy := by
  rcases tryEpochInstall_spec e c with ⟨p, hmarks, hspec⟩ | ⟨hmarks, -⟩
  · rw [h] at hmarks hspec
    cases hmarks
    exact hspec
  · rw [h] at hmarks
    cases hmarks

/-- **Bumpless hold.** In every run after a bumpless install in which each further invocation that
completes finds every output settled, the hold ends as it should. -/
theorem bumpless_hold_ends {plan : ScanPlan} {io : ScanIo} {vm : Option ArmedVm}
    {e₀ e e₁ e' : IoEngine} {before tr : List Mark} {c : Cycle} {written : List Bool}
    (hnew : IoEngine.new plan io vm = .ok e₀) (hbefore : LoopRun e₀ before e)
    (hinstall : e.tryEpochInstall c = (e₁, [.installed .bumpless written]))
    (hrun : LoopRun e₁ tr e') (hsame : ∀ m ∈ tr, m.installs = false)
    (hsettled : ∀ pre inv post, tr = pre ++ .invoked inv :: post →
      AllCompleted plan.tasks.length pre → inv.ranLogicOk = true →
        ∀ i < io.image.outputs.length, Settled e i (pre ++ [.invoked inv])) :
    HoldEnds plan.tasks.length e tr e' := by
  have hready := ready_of_run hnew hbefore
  have hslot : ∀ i < e.io.image.outputs.length, HeldSlot e i e' tr := fun i hi =>
    (heldSlot_installed hready (installed_of_check hinstall) hi).run hrun hsame
  refine ⟨?_, ?_⟩
  · intro _ i hnever
    by_cases hi : i < e.io.image.outputs.length
    · exact ((hslot i hi).kept hnever).1
    · -- There is no such output.
      have hlen : e'.io.image.outputs.length = e.io.image.outputs.length := by
        have hafter := (hbefore.step (hinstall ▸ LoopStep.check e c)).trans hrun
        rw [(ready_of_run hnew hafter).count, hready.count]
      unfold imageValue
      rw [List.getElem?_eq_none (by omega), List.getElem?_eq_none (by omega)]
  · intro pre inv hsplit hall hok i hi
    rw [hready.count] at hi
    rcases hsettled pre inv [] hsplit hall hok i hi with hlast | ⟨hnever, hvalue⟩
    · rw [← hsplit] at hlast
      exact (hslot i (hready.count ▸ hi)).delivered hlast
    · rw [← hsplit] at hnever
      obtain ⟨himage, hmachine⟩ := (hslot i (hready.count ▸ hi)).kept hnever
      rw [himage, hmachine, hvalue]

/-! ## A program that stores nothing -/

/-- One output that holds a BOOL before the install. -/
def heldOutput (b : Bool) : ScanIo where
  image := ⟨[], [⟨.bool b, .good, true⟩], [], [], [.bool false]⟩
  forces := []
  moduleQuality := .good
  onBadQuality := .forceSafe
  fieldGate := .stop

/-- A bumpless install of the program that stores nothing, and what is seen two scans later. -/
structure HoldReport where
  marks : List Mark
  installed : List Mark
  scans : List Mark
  before : Option PlcValue
  image : Option PlcValue
  machine : Option PlcValue
  deriving DecidableEq

/-- The engine before and after the install, and two scans later. -/
def holdScenario (b : Bool) : Option ((IoEngine × IoEngine × IoEngine) × HoldReport) :=
  ((IoEngine.initial oneTask (heldOutput b) none).handleAll
    [.requestMode .run, .arm idleProgram .bumpless, .requestActivate]).bind fun p =>
      let e := p.1.applyModeBoundary
      let install := e.tryEpochInstall (cycleAt 0)
      (install.1.rounds [cycleAt 0, cycleAt 10]).map fun q =>
        ((e, install.1, q.1),
          ⟨p.2, install.2, q.2, imageValue e 0, imageValue q.1 0, machineValue q.1 0⟩)

/-- The two scans of a program that stores nothing. -/
def heldScans (b : Bool) : List Mark :=
  [.invoked (idleScan true (.bool b)), .invoked (idleScan false (.bool b))]

theorem holdScenario_run {b : Bool} {image machine : Option PlcValue}
    (h : (holdScenario b).map Prod.snd =
      some ⟨[], [.installed .bumpless [true]], heldScans b, some (.bool b), image, machine⟩) :
    ∃ e₀ vm before e e₁ e', IoEngine.new oneTask (heldOutput b) vm = .ok e₀ ∧
      LoopRun e₀ before e ∧ e.tryEpochInstall (cycleAt 0) = (e₁, [.installed .bumpless [true]]) ∧
      LoopRun e₁ (heldScans b) e' ∧ imageValue e 0 = some (.bool b) ∧ imageValue e' 0 = image ∧
      machineValue e' 0 = machine := by
  obtain ⟨⟨⟨e, e₁, e'⟩, r⟩, hrun, hreport⟩ := Option.map_eq_some_iff.mp h
  obtain ⟨⟨a, marks⟩, hevs, hrest⟩ := Option.bind_eq_some_iff.mp hrun
  obtain ⟨⟨z, scans⟩, hscans, hpair⟩ := Option.map_eq_some_iff.mp hrest
  cases hpair
  simp only [HoldReport.mk.injEq] at hreport
  obtain ⟨-, hinstalled, rfl, hvalue, himage, hmachine⟩ := hreport
  have hstart : EngineTrace oneTask (heldOutput b) (.initial oneTask (heldOutput b) none) [] :=
    .start (show IoEngine.new oneTask (heldOutput b) none = _ from rfl)
  obtain ⟨e₀, ⟨vm, hnew⟩, hbefore⟩ := (hstart.handleAll hevs).loopRun
  refine ⟨e₀, vm, _, _, _, _, hnew, hbefore.step (.boundary a), ?_, rounds_loopRun hscans, hvalue,
    himage, hmachine⟩
  rw [← hinstalled]

/-- The first scan completes the only task. -/
theorem first_scan_completes (b : Bool) :
    AllCompleted 1 [.invoked (idleScan true (.bool b))] := by
  intro task htask
  obtain rfl : task = 0 := by omega
  exact ⟨_, List.mem_singleton_self _, rfl⟩

/-- **A bumpless hold that does not end**: the only task has completed two scans, and the image still
holds the TRUE of the program before, while the machine has FALSE. -/
theorem bumpless_hold_stays :
    ∃ e₀ vm before e e₁ e', IoEngine.new oneTask (heldOutput true) vm = .ok e₀ ∧
      LoopRun e₀ before e ∧ e.tryEpochInstall (cycleAt 0) = (e₁, [.installed .bumpless [true]]) ∧
      LoopRun e₁ (heldScans true) e' ∧ imageValue e' 0 = some (.bool true) ∧
      machineValue e' 0 = some (.bool false) ∧
      ¬HoldEnds oneTask.tasks.length e (heldScans true) e' := by
  have hreport : (holdScenario true).map Prod.snd = some ⟨[], [.installed .bumpless [true]],
      heldScans true, some (.bool true), some (.bool true), some (.bool false)⟩ := by
    decide +kernel
  obtain ⟨e₀, vm, before, e, e₁, e', hnew, hbefore, hinstall, hrun, hvalue, himage, hmachine⟩ :=
    holdScenario_run hreport
  refine ⟨e₀, vm, before, e, e₁, e', hnew, hbefore, hinstall, hrun, himage, hmachine, ?_⟩
  intro hends
  have hslot : 0 < e.io.image.outputs.length := by
    by_contra hnone
    unfold imageValue at hvalue
    rw [List.getElem?_eq_none (by omega)] at hvalue
    cases hvalue
  have hsame := hends.ended [.invoked (idleScan true (.bool true))]
    (idleScan false (.bool true)) rfl (first_scan_completes true) rfl 0 hslot
  rw [himage, hmachine] at hsame
  cases hsame

/-- From FALSE the same program is not noticed. -/
theorem bumpless_hold_ends_false :
    ∃ e e₁ e', e.tryEpochInstall (cycleAt 0) = (e₁, [.installed .bumpless [true]]) ∧
      LoopRun e₁ (heldScans false) e' ∧
      HoldEnds oneTask.tasks.length e (heldScans false) e' := by
  have hreport : (holdScenario false).map Prod.snd = some ⟨[], [.installed .bumpless [true]],
      heldScans false, some (.bool false), some (.bool false), some (.bool false)⟩ := by
    decide +kernel
  obtain ⟨e₀, vm, before, e, e₁, e', hnew, hbefore, hinstall, hrun, hvalue, -, -⟩ :=
    holdScenario_run hreport
  refine ⟨e, e₁, e', hinstall, hrun, bumpless_hold_ends hnew hbefore hinstall hrun ?_ ?_⟩
  · intro m hm
    rcases List.mem_cons.mp hm with rfl | hm
    · rfl
    · cases List.mem_singleton.mp hm
      rfl
  · intro pre inv post hsplit _ _ i hi
    obtain rfl : i = 0 := by
      have : i < 1 := hi
      omega
    refine .inr ⟨?_, hvalue⟩
    intro m hm
    have hmem : m ∈ heldScans false := by
      rw [hsplit, List.append_cons]
      exact List.mem_append_left _ hm
    rcases List.mem_cons.mp hmem with rfl | hmem
    · rfl
    · cases List.mem_singleton.mp hmem
      rfl

end SoftPlc.Scan
