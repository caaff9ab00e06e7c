import SoftPlc.Scan.Outputs

/-!
# The first pass after a safe reset

An install with `OutputRestartPolicy::SafeReset` writes the safe state of every output into the image
(`apply_safe_reset_outputs` of `plc-scan/src/engine.rs`). The next logic pass copies the outputs of
the machine over it before the driver is handed anything. `safe_reset_pass_iff` says what follows for
the first completed pass: a free output is at its safe state exactly when something else puts it
there, the watchdog, a bad module or the program itself.
-/

namespace SoftPlc.Scan

open SoftPlc.Ir SoftPlc.Vm SoftPlc.Io SoftPlc.Lib

/-! ## Invocations in a run -/

/-- A run that left a trace is about to invoke a task, in this state of the engine. -/
inductive Invoking (plan : ScanPlan) (io : ScanIo) : IoEngine → List Mark → ℕ → Cycle → Prop
  /-- Some turns of a scan, and the install check of the next one. -/
  | scan {e e₁ : IoEngine} {tr marks : List Mark} {cs : List Cycle} {c : Cycle} {task : ℕ}
      (h : EngineTrace plan io e tr) (hrounds : e.applyModeBoundary.rounds cs = some (e₁, marks))
      (hdue : (e₁.tryEpochInstall c).1.base.pickDue c.nowMs = some task) :
      Invoking plan io (e₁.tryEpochInstall c).1 (tr ++ marks ++ (e₁.tryEpochInstall c).2) task c

/-- What every step of a run keeps holds where a task is invoked. -/
theorem Invoking.rule {plan : ScanPlan} {io : ScanIo} {I : IoEngine → List Mark → Prop}
    (hI : ∀ {e e' tr marks}, I e tr → EngineStep e marks e' → I e' (tr ++ marks)) {e : IoEngine}
    {tr : List Mark} {task : ℕ} {c : Cycle} (h : Invoking plan io e tr task c)
    (start : ∀ vm, I (.initial plan io vm) []) : I e tr := by
  obtain ⟨h, hrounds, -⟩ := h
  rename_i e₀ e₁ tr marks cs
  have hmode : I e₀.applyModeBoundary tr := by
    simpa using hI (h.rule hI start) (.still (.applyModeBoundary e₀))
  have hturns := rounds_rule hI hmode hrounds
  exact hI hturns (check_step e₁ c)

/-! ## The first pass -/

/-- A safe reset. -/
def Mark.resets : Mark → Bool
  | .installed policy _ => policy == .safeReset
  | .invoked _ => false

/-- An invocation whose logic completed. -/
def Mark.passes : Mark → Bool
  | .installed _ _ => false
  | .invoked inv => inv.ranLogicOk

/-- The last install was a safe reset, and no logic has completed since. -/
def FirstPass (tr : List Mark) : Prop :=
  Since (fun m => m.resets) (fun m => !m.installs && !m.passes) tr

/-- What the program leaves in an output slot of its machine when the task runs. Source: `engine.rs`,
`vm.outputs().get` in `ScanEngine::run_logic`. -/
def programValue (e : IoEngine) (task : ℕ) (c : Cycle) (i : ℕ) : Option PlcValue :=
  match (e.sampleInputs c).base.vm with
  | none => none
  | some v =>
      let entry := (e.base.tasks[task]?.map TaskPlan.entry).getD ""
      ((runEntry v.image entry c.invokeMs v.state).2.outputs.values[i]?).map vmToPlc

/-- Something puts an output at its safe state in a pass: the watchdog trips, its module is bad and
asks for the safe state, or the program leaves no other value. -/
def PassSafe (e : IoEngine) (task : ℕ) (c : Cycle) (i : ℕ) : Prop :=
  (e.note task c.durationUs).2 = true ∨
    (((e.sampleInputs c).moduleState c i).quality = .bad ∧
      ((e.sampleInputs c).moduleState c i).onBadQuality = .forceSafe) ∨
    ∀ v ∈ programValue e task c i, v = e.io.image.safe i

section Invariant

variable {plan : ScanPlan} {io : ScanIo} {e e' : IoEngine} {tr marks : List Mark} {task : ℕ}
  {c : Cycle}

/-- The image until a pass completes. -/
structure Reset (e : IoEngine) : Prop where
  hold : e.bumplessHold = false
  image : ∀ i s, e.io.image.outputs[i]? = some s →
    s.value = e.io.image.safe i ∧ s.written = true

theorem Reset.of_eq (h : Reset e) (hold : e'.bumplessHold = e.bumplessHold)
    (outputs : e'.io.image.outputs = e.io.image.outputs)
    (safe : e'.io.image.outputSafe = e.io.image.outputSafe) : Reset e' := by
  refine ⟨hold.trans h.hold, ?_⟩
  intro i s hs
  rw [outputs] at hs
  unfold ProcessImage.safe
  rw [safe]
  exact h.image i s hs

/-- An invocation that does not complete a pass leaves the image. -/
theorem Reset.invoked {w : IoEngine} {ran trip : Bool} (h : Reset e)
    (hinv : Invoked e task w ran false trip) : Reset w := by
  rcases hinv.logic with ⟨-, hlogic⟩ | ⟨-, -, hstill⟩
  · exact h.of_eq hlogic.hold hlogic.outputs hlogic.safe
  · exact h.of_eq hstill.hold hstill.outputs hstill.safe

/-- What a run keeps until a pass completes. -/
structure Pending (plan : ScanPlan) (io : ScanIo) (e : IoEngine) (tr : List Mark) : Prop where
  same : SamePlan (.initial plan io none) e
  reset : FirstPass tr → Reset e

theorem Pending.step (h : Pending plan io e tr) (hstep : EngineStep e marks e') :
    Pending plan io e' (tr ++ marks) := by
  refine ⟨h.same.trans hstep.samePlan, ?_⟩
  cases hstep with
  | still hs =>
      rw [List.append_nil]
      exact fun hfirst => (h.reset hfirst).of_eq hs.hold hs.outputs hs.safe
  | install hs =>
      intro hfirst
      rcases since_snoc.mp hfirst with hreset | ⟨hnot, -⟩
      · have hpolicy := beq_iff_eq.mp hreset
        refine ⟨by rw [hs.hold, hpolicy]; rfl, ?_⟩
        intro i s hslot
        unfold ProcessImage.safe
        rw [hs.plan.safe]
        exact hs.reset hpolicy i s hslot
      · simp [Mark.installs] at hnot
  | invoke task c htask hs =>
      intro hfirst
      rcases since_snoc.mp hfirst with hreset | ⟨hnot, hbefore⟩
      · cases hreset
      · obtain ⟨w, ran, ok, trip, hinv, rfl, rfl⟩ := invoke_spec hs
        have hok : ok = false := by
          simp only [Mark.installs, Mark.passes, Bool.not_false, Bool.true_and,
            Bool.not_eq_eq_eq_not, Bool.not_true] at hnot
          exact hnot
        subst hok
        have hfin := finishInvoke_finished w c task false
        exact ((h.reset hbefore).invoked hinv).of_eq hfin.hold hfin.outputs hfin.plan.safe

/-! ## What a pass sends -/

/-- What the driver is handed for a free output. -/
theorem sent_of_free {w : IoEngine} {ok : Bool} {i : ℕ} {s : TypedSlot}
    (hs : w.io.image.outputs[i]? = some s) (hforce : w.io.forces.lookup i = none) :
    (w.outputImage c ok).values[i]? = some (
      if w.globalForceSafe ok || w.base.mode == .fault then w.io.image.safe i
      else if (w.moduleState c i).quality == .bad && (w.moduleState c i).onBadQuality == .forceSafe then
        w.io.image.safe i
      else if s.written then s.value else w.io.image.safe i) := by
  show (w.io.image.outputs.mapIdx (w.effective c ok))[i]? = _
  rw [List.getElem?_mapIdx, hs, Option.map_some]
  unfold IoEngine.effective resolveEffectiveOutput
  dsimp only
  rw [hforce]
  dsimp only
  split_ifs <;> rfl

/-- Until a pass completes, free outputs are at their safe states. -/
theorem Reset.sends {w : IoEngine} {ok : Bool} {i : ℕ} (h : Reset w)
    (hi : i < w.io.image.outputs.length) (hforce : w.io.forces.lookup i = none) :
    (w.outputImage c ok).values[i]? = some (w.io.image.safe i) := by
  have hs : w.io.image.outputs[i]? = some w.io.image.outputs[i] := List.getElem?_eq_getElem hi
  rw [sent_of_free hs hforce, (h.image i _ hs).1, ite_self, ite_self, ite_self]

/-- A run of the current machine that succeeded. -/
theorem runLogic_true {b b' : ScanEngine} {nowMs : ℕ} (h : b.runLogic task nowMs = some (b', true)) :
    ∃ v v', b.vm = some v ∧ b'.vm = some v' ∧ b'.mode = b.mode ∧ b'.tasks = b.tasks ∧
      v'.state.outputs =
        (runEntry v.image ((b.tasks[task]?.map TaskPlan.entry).getD "") nowMs v.state).2.outputs := by
  unfold ScanEngine.runLogic at h
  rcases hvm : b.vm with _ | v
  · simp only [hvm] at h
    cases h
  · simp only [hvm] at h
    rcases hrun : runEntry v.image ((b.tasks[task]?.map TaskPlan.entry).getD "") nowMs v.state with
      ⟨(_ | _) | res, s⟩
    · rw [hrun] at h
      cases h
    · rw [hrun] at h
      cases h
    · rw [hrun] at h
      dsimp only at h
      split_ifs at h
      · cases h
        exact ⟨v, _, rfl, rfl, rfl, rfl, by rw [hrun]⟩
      · cases h
        exact ⟨v, _, rfl, rfl, rfl, rfl, by rw [hrun]⟩

theorem note_congr {w : IoEngine} (hconsecutive : w.consecutive = e.consecutive)
    (htasks : w.base.tasks = e.base.tasks) (hlimit : w.overrunLimit = e.overrunLimit)
    (durationUs : ℕ) : (w.note task durationUs).2 = (e.note task durationUs).2 := by
  unfold IoEngine.note IoEngine.overran
  rw [hconsecutive, htasks, hlimit]
  split
  · rfl
  · split_ifs <;> rfl

/-- The state in which the outputs of a completed pass are applied. -/
structure Passed (e w : IoEngine) (task : ℕ) (c : Cycle) : Prop where
  safe : w.io.image.outputSafe = e.io.image.outputSafe
  count : w.io.image.outputs.length = e.io.image.outputs.length
  /-- FAULT comes from the watchdog. -/
  fault : w.base.mode = .fault ↔ (e.note task c.durationUs).2 = true
  mode : w.base.mode ≠ .stop
  module : ∀ i, w.moduleState c i = (e.sampleInputs c).moduleState c i
  outputs : ∀ i s, w.io.image.outputs[i]? = some s → ∃ s', e.io.image.outputs[i]? = some s' ∧
    s = (programValue e task c i).elim s' fun v => { s' with value := v, written := true }

theorem sampleInputs_tasks (e : IoEngine) (c : Cycle) :
    (e.sampleInputs c).base.tasks = e.base.tasks := by
  unfold IoEngine.sampleInputs ScanEngine.sampleInputs
  dsimp only
  split_ifs <;> rfl

/-- The logic of a pass that succeeds. -/
theorem runLogic_passed {r : IoEngine} (hhold : e.bumplessHold = false)
    (h : (e.sampleInputs c).runLogic task c.invokeMs = some (r, true)) :
    r.base.mode = (e.sampleInputs c).base.mode ∧
      (r.note task c.durationUs).2 = (e.note task c.durationUs).2 ∧
      (∀ i, r.moduleState c i = (e.sampleInputs c).moduleState c i) ∧
      ∀ i s, r.io.image.outputs[i]? = some s → ∃ s', e.io.image.outputs[i]? = some s' ∧
        s = (programValue e task c i).elim s' fun v => { s' with value := v, written := true } := by
  have hsample := Still.sampleInputs e c
  unfold IoEngine.runLogic at h
  rcases hbase : (e.sampleInputs c).base.runLogic task c.invokeMs with _ | ⟨base, _ | _⟩
  · rw [hbase] at h
    cases h
  · rw [hbase] at h
    cases h
  · rw [hbase] at h
    cases h
    obtain ⟨v, v', hv, hv', hmode, htasks, houtputs⟩ := runLogic_true hbase
    rw [sampleInputs_tasks] at houtputs
    have htrip := htasks.trans (sampleInputs_tasks e c)
    refine ⟨hmode, ?_, fun _ => rfl, ?_⟩
    · apply note_congr
      · rfl
      · exact htrip
      · rfl
    intro i s hs
    have hvalue : programValue e task c i = v'.state.outputs.values[i]?.map vmToPlc := by
      unfold programValue
      rw [hv, houtputs]
    have hfree : (e.sampleInputs c).bumplessHold = false := hsample.hold.trans hhold
    simp only [IoEngine.copyOutputs, hfree, Bool.false_and, Bool.false_eq_true, if_false,
      List.getElem?_mapIdx, hv', Option.map_some, Option.getD_some, hsample.outputs] at hs
    obtain ⟨s', hs', rfl⟩ := Option.map_eq_some_iff.mp hs
    refine ⟨s', hs', ?_⟩
    rw [hvalue]
    cases v'.state.outputs.values[i]? with
    | none => rfl
    | some x => rfl

theorem note_io (e : IoEngine) (task durationUs : ℕ) : (e.note task durationUs).1.io = e.io := by
  unfold IoEngine.note
  split
  · rfl
  · split_ifs <;> rfl

theorem watch_moduleState (e : IoEngine) (i : ℕ) :
    (e.watch task c true).1.moduleState c i = e.moduleState c i := by
  show ((e.note task c.durationUs).1.faultIf _).moduleState c i = _
  unfold IoEngine.moduleState IoEngine.faultIf IoEngine.enterFault
  split_ifs <;> rw [← note_io e task c.durationUs]

theorem invoke_passed {inv : Invocation} (h : e.invoke task c = some (e', inv))
    (hok : inv.ranLogicOk = true) (hhold : e.bumplessHold = false) :
    ∃ w trip, inv = w.report task c true true trip ∧ Passed e w task c := by
  obtain ⟨e₁, ran, ok, hlogic, rfl, -⟩ := IoEngine.invoke_ok h
  obtain rfl : ok = true := hok
  unfold IoEngine.logic at hlogic
  split_ifs at hlogic with hexec
  · obtain ⟨⟨r, okr⟩, hrun, heq⟩ := Option.map_eq_some_iff.mp hlogic
    cases heq
    obtain ⟨hmode, htrip, hmodule, houtputs⟩ := runLogic_passed hhold hrun
    have hran := (runLogic_ran hrun).of_still (Still.sampleInputs e c)
    have hwatch := Still.watch r task c true
    have hsame := hran.samePlan.trans hwatch.samePlan
    have hlast : (r.watch task c true).1.base.mode =
        if (e.note task c.durationUs).2 then .fault else (e.sampleInputs c).base.mode := by
      rw [watch_mode, ← hmode, ← htrip]
      rfl
    have hexecutes : (e.sampleInputs c).base.mode ≠ .fault ∧ (e.sampleInputs c).base.mode ≠ .stop := by
      constructor
      · intro heq
        rw [heq] at hexec
        cases hexec
      · intro heq
        rw [heq] at hexec
        cases hexec
    refine ⟨(r.watch task c true).1, _, rfl, hsame.safe, hsame.count, ?_, ?_, ?_, ?_⟩
    · rw [hlast]
      split_ifs with ht
      · exact ⟨fun _ => ht, fun _ => rfl⟩
      · exact ⟨fun heq => absurd heq hexecutes.1, fun heq => absurd heq ht⟩
    · rw [hlast]
      split_ifs
      · decide
      · exact hexecutes.2
    · intro i
      rw [watch_moduleState, hmodule]
    · intro i s hs
      rw [hwatch.outputs] at hs
      exact houtputs i s hs
  · cases hlogic

/-- A free output in a completed pass. -/
theorem Passed.sends_iff {w : IoEngine} {i : ℕ} (h : Passed e w task c) (hreset : Reset e)
    (hi : i < w.io.image.outputs.length) (hforce : w.io.forces.lookup i = none) :
    (w.outputImage c true).values[i]? = some (e.io.image.safe i) ↔ PassSafe e task c i := by
  have hs : w.io.image.outputs[i]? = some w.io.image.outputs[i] := List.getElem?_eq_getElem hi
  obtain ⟨s', hs', hslot⟩ := h.outputs i _ hs
  obtain ⟨hvalue, hwritten⟩ := hreset.image i s' hs'
  have hsafe : w.io.image.safe i = e.io.image.safe i := by
    unfold ProcessImage.safe
    rw [h.safe]
  have hstop : (w.base.mode == .stop) = false := beq_eq_false_iff_ne.mpr h.mode
  rw [sent_of_free hs hforce, hsafe, h.module i, Option.some.injEq]
  unfold PassSafe
  rw [← h.fault]
  simp only [IoEngine.globalForceSafe, hstop, Bool.false_and, Bool.or_false, Bool.not_true,
    Bool.and_false, Bool.or_self, beq_iff_eq, Bool.and_eq_true]
  split_ifs with hfault hbad hsome
  · exact ⟨fun _ => .inl hfault, fun _ => rfl⟩
  · exact ⟨fun _ => .inr (.inl hbad), fun _ => rfl⟩
  · rw [hslot]
    cases hprogram : programValue e task c i with
    | none => simp [hvalue]
    | some v => simp [hfault, hbad]
  · rw [hslot] at hsome
    cases hprogram : programValue e task c i with
    | none =>
        rw [hprogram] at hsome
        exact absurd hwritten hsome
    | some v =>
        rw [hprogram] at hsome
        exact absurd rfl hsome

/-- **The first pass after a safe reset.** Until the first logic pass after a safe reset has
completed, and in that pass, every free output is handed to the driver at its safe state exactly when
in that pass something puts it there. -/
theorem safe_reset_pass_iff {inv : Invocation} (h : Invoking plan io e tr task c)
    (hfirst : FirstPass tr) (hinv : e.invoke task c = some (e', inv)) :
    (∀ i < io.image.outputs.length, inv.forces.lookup i = none →
        inv.sent.values[i]? = some (io.image.safe i)) ↔
      (inv.ranLogicOk = true → ∀ i < io.image.outputs.length, inv.forces.lookup i = none →
        PassSafe e task c i) := by
  have hstart : ∀ vm, Pending plan io (.initial plan io vm) [] := by
    intro vm
    exact ⟨⟨rfl, rfl, rfl, rfl, rfl, rfl⟩, fun hnil => absurd hnil (not_since_nil _ _)⟩
  obtain ⟨hplan, hreset⟩ := h.rule Pending.step hstart
  have hbefore := hreset hfirst
  have hsafe : ∀ i, e.io.image.safe i = io.image.safe i := by
    intro i
    unfold ProcessImage.safe
    rw [hplan.safe]
    rfl
  have hcount : e.io.image.outputs.length = io.image.outputs.length := hplan.count
  by_cases hok : inv.ranLogicOk = true
  · obtain ⟨w, trip, rfl, hpassed⟩ := invoke_passed hinv hok hbefore.hold
    have hslots : w.io.image.outputs.length = io.image.outputs.length := hpassed.count.trans hcount
    have hiff : ∀ i < io.image.outputs.length, w.io.forces.lookup i = none →
        ((w.outputImage c true).values[i]? = some (io.image.safe i) ↔ PassSafe e task c i) := by
      intro i hi hforce
      rw [← hsafe]
      exact hpassed.sends_iff hbefore (by rwa [hslots]) hforce
    constructor
    · exact fun hsent _ i hi hforce => (hiff i hi hforce).mp (hsent i hi hforce)
    · exact fun hpass i hi hforce => (hiff i hi hforce).mpr (hpass hok i hi hforce)
  · refine ⟨fun _ hpass => absurd hpass hok, ?_⟩
    intro _ i hi hforce
    obtain ⟨w, ran, ok, trip, hinvoked, rfl, -⟩ := invoke_spec hinv
    obtain rfl : ok = false := Bool.not_eq_true _ ▸ hok
    have hw := hplan.trans hinvoked.samePlan
    have hslots : w.io.image.outputs.length = io.image.outputs.length := hw.count
    have hsent : (w.outputImage c false).values[i]? = some (w.io.image.safe i) :=
      (hbefore.invoked hinvoked).sends (by rwa [hslots]) hforce
    refine hsent.trans ?_
    unfold ProcessImage.safe
    rw [hw.safe]
    rfl

end Invariant

/-! ## A program that stores its output -/

/-- `PUSHI_DINT n; ST_Q 0; HALT`. -/
def storeProgram (n : ℕ) : ArmedProgram :=
  let m := { taskModule [.withImm32 .pushIDint 0 n, .simple .stQ 0, .simple .halt 0] 0 with
    outputSlots := 1 }
  { idleProgram with
    vm := ⟨.ofModule m 1000, .cold m 0⟩
    programId := "store"
    compatibilityHash := "hash of store" }

/-- The device, whose output has the safe state 50, before the scan that installs the program. -/
def storeArmed (n : ℕ) : Option (IoEngine × List Mark) :=
  (IoEngine.initial oneTask (oneOutput (.dint 50)) none).handleAll
    [.requestMode .run, .arm (storeProgram n) .safeReset, .requestActivate]

/-- The device where its task is invoked for the first time. -/
def storeInstalled (n : ℕ) : Option (IoEngine × List Mark) :=
  (storeArmed n).map fun x => x.1.applyModeBoundary.tryEpochInstall (cycleAt 0)

theorem storeInstalled_invoking {n : ℕ} {e : IoEngine} {tr : List Mark}
    (h : storeInstalled n = some (e, tr)) (hmarks : (storeArmed n).map Prod.snd = some [])
    (hdue : e.base.pickDue 0 = some 0) :
    Invoking oneTask (oneOutput (.dint 50)) e tr 0 (cycleAt 0) := by
  obtain ⟨⟨e₀, marks⟩, hevents, rfl⟩ := Option.map_eq_some_iff.mp hmarks
  have hstart : EngineTrace oneTask (oneOutput (.dint 50))
      (.initial oneTask (oneOutput (.dint 50)) none) [] :=
    .start (show IoEngine.new oneTask (oneOutput (.dint 50)) none = _ from rfl)
  have htrace := hstart.handleAll hevents
  unfold storeInstalled at h
  rw [hevents] at h
  obtain ⟨he, htr⟩ := Prod.mk.inj (Option.some.inj h)
  subst he htr
  exact .scan htrace (show e₀.applyModeBoundary.rounds [] = some (_, []) from rfl) hdue

/-- What the first invocation of the program shows. -/
def StoreShows (n : ℕ) (x : IoEngine × List Mark) : Prop :=
  x.2 = [.installed .safeReset [false]] ∧ x.1.base.pickDue 0 = some 0 ∧
    ((x.1.invoke 0 (cycleAt 0)).map fun y =>
      (y.2.ranLogicOk, y.2.forces.lookup 0, y.2.sent.values[0]?)) = some (true, none, some (.dint n)) ∧
    programValue x.1 0 (cycleAt 0) 0 = some (.dint n) ∧ x.1.io.image.safe 0 = .dint 50

instance (n : ℕ) : DecidablePred (StoreShows n) :=
  fun _ => inferInstanceAs (Decidable (_ ∧ _ ∧ _ ∧ _ ∧ _))

theorem firstPass_installed : FirstPass [.installed .safeReset [false]] :=
  ⟨[], _, [], rfl, rfl, by simp⟩

/-- A program whose first pass leaves the safe state. -/
theorem first_pass_of_safe_program :
    ∃ e tr e' inv, Invoking oneTask (oneOutput (.dint 50)) e tr 0 (cycleAt 0) ∧ FirstPass tr ∧
      e.invoke 0 (cycleAt 0) = some (e', inv) ∧ inv.ranLogicOk = true ∧
      inv.sent.values[0]? = some ((oneOutput (.dint 50)).image.safe 0) := by
  obtain ⟨⟨e, tr⟩, hinstalled, rfl, hdue, hinvoked, hvalue, hsafe⟩ :
      ∃ x, storeInstalled 50 = some x ∧ StoreShows 50 x := option_of_decide (by decide +kernel)
  have hinvoking := storeInstalled_invoking hinstalled (by decide +kernel) hdue
  obtain ⟨⟨e', inv⟩, hinv, hreport⟩ := Option.map_eq_some_iff.mp hinvoked
  obtain ⟨hok, hreport⟩ := Prod.mk.inj hreport
  obtain ⟨hforce, -⟩ := Prod.mk.inj hreport
  refine ⟨e, _, e', inv, hinvoking, firstPass_installed, hinv, hok, ?_⟩
  refine (safe_reset_pass_iff hinvoking firstPass_installed hinv).mpr ?_ 0 (by decide) hforce
  intro _ i hi _
  obtain rfl : i = 0 := Nat.lt_one_iff.mp hi
  refine .inr (.inr ?_)
  rw [hvalue, hsafe]
  rintro v ⟨⟩
  rfl

/-- The program stores 7. Its first pass after the safe reset hands 7 to the driver. -/
theorem first_pass_sends_program :
    ∃ e tr e' inv, Invoking oneTask (oneOutput (.dint 50)) e tr 0 (cycleAt 0) ∧ FirstPass tr ∧
      e.invoke 0 (cycleAt 0) = some (e', inv) ∧ inv.ranLogicOk = true ∧
      inv.forces.lookup 0 = none ∧ (oneOutput (.dint 50)).image.safe 0 = .dint 50 ∧
      inv.sent.values[0]? = some (.dint 7) := by
  obtain ⟨⟨e, tr⟩, hinstalled, rfl, hdue, hinvoked, -⟩ :
      ∃ x, storeInstalled 7 = some x ∧ StoreShows 7 x := option_of_decide (by decide +kernel)
  obtain ⟨⟨e', inv⟩, hinv, hreport⟩ := Option.map_eq_some_iff.mp hinvoked
  obtain ⟨hok, hreport⟩ := Prod.mk.inj hreport
  obtain ⟨hforce, hsent⟩ := Prod.mk.inj hreport
  exact ⟨e, _, e', inv, storeInstalled_invoking hinstalled (by decide +kernel) hdue,
    firstPass_installed, hinv, hok, hforce, rfl, hsent⟩

end SoftPlc.Scan
