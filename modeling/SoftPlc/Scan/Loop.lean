import SoftPlc.Scan.Outputs

/-!
# Runs between two states

`EngineTrace` of `Scan.Outputs` starts at the construction and counts a scan as one event. `LoopRun`
starts anywhere and stops between any two operations of a scan, so that it can start right after an
install. Every trace is such a run (`EngineTrace.loopRun`).
-/

namespace SoftPlc.Scan

open SoftPlc.Ir SoftPlc.Vm SoftPlc.Io SoftPlc.Lib

/-- One operation of the engine: a request, or a part of a scan. Source: `engine.rs`, the calls of
`ScanEngine::run_due` and `ScanEngine::step`. -/
inductive LoopStep : IoEngine → List Mark → IoEngine → Prop
  /-- A request from outside. -/
  | outside {e e' : IoEngine} {marks : List Mark} {ev : EngineEvent} (hev : ∀ cs, ev ≠ .scan cs)
      (h : e.handle ev = some (e', marks)) : LoopStep e marks e'
  /-- The start of a scan. -/
  | boundary (e : IoEngine) : LoopStep e [] e.applyModeBoundary
  /-- The install check of a turn. -/
  | check (e : IoEngine) (c : Cycle) : LoopStep e (e.tryEpochInstall c).2 (e.tryEpochInstall c).1
  /-- The invocation of the task that is due. -/
  | invoke {e e' : IoEngine} {c : Cycle} {task : ℕ} {inv : Invocation}
      (hdue : e.base.pickDue c.nowMs = some task) (h : e.invoke task c = some (e', inv)) :
      LoopStep e [.invoked inv] e'

/-- Operations one after another, with the marks they leave. -/
inductive LoopRun (e₀ : IoEngine) : List Mark → IoEngine → Prop
  | refl : LoopRun e₀ [] e₀
  | step {e e' : IoEngine} {tr marks : List Mark} (h : LoopRun e₀ tr e)
      (hstep : LoopStep e marks e') : LoopRun e₀ (tr ++ marks) e'

variable {e e' e'' : IoEngine} {tr tr' marks : List Mark} {c : Cycle}

theorem LoopStep.engineStep (h : LoopStep e marks e') : EngineStep e marks e' := by
  cases h with
  | outside hev h => exact handle_step hev h
  | boundary => exact .still (.applyModeBoundary e)
  | check c => exact check_step e c
  | invoke hdue h => exact .invoke _ _ (List.mem_of_find?_eq_some hdue) h

namespace LoopRun

theorem trans (h : LoopRun e tr e') (h' : LoopRun e' tr' e'') : LoopRun e (tr ++ tr') e'' := by
  induction h' with
  | refl => rwa [List.append_nil]
  | step _ hstep ih =>
      rw [← List.append_assoc]
      exact ih.step hstep

theorem one (h : LoopStep e marks e') : LoopRun e marks e' := refl.step h

/-- **What the first state has and every step keeps, every state has.** -/
theorem rule {I : IoEngine → List Mark → Prop}
    (hI : ∀ {e e' tr marks}, I e tr → EngineStep e marks e' → I e' (tr ++ marks))
    (h : LoopRun e tr e') {past : List Mark} (start : I e past) : I e' (past ++ tr) := by
  induction h with
  | refl => rwa [List.append_nil]
  | step _ hstep ih =>
      rw [← List.append_assoc]
      exact hI ih hstep.engineStep

end LoopRun

theorem round_loopRun (h : e.round c = some (e', marks)) : LoopRun e marks e' := by
  have hcheck := LoopRun.one (.check e c)
  unfold IoEngine.round at h
  dsimp only at h
  rcases hdue : (e.tryEpochInstall c).1.base.pickDue c.nowMs with _ | task
  · rw [hdue] at h
    cases h
    exact hcheck
  · rw [hdue] at h
    obtain ⟨⟨e₁, inv⟩, hinv, heq⟩ := Option.map_eq_some_iff.mp h
    cases heq
    exact hcheck.step (.invoke hdue hinv)

theorem rounds_loopRun {cs : List Cycle} (h : e.rounds cs = some (e', marks)) :
    LoopRun e marks e' := by
  induction cs generalizing e marks with
  | nil =>
      cases h
      exact .refl
  | cons c cs ih =>
      rw [IoEngine.rounds] at h
      obtain ⟨⟨e₁, m₁⟩, h₁, h⟩ := Option.bind_eq_some_iff.mp h
      obtain ⟨⟨e₂, m₂⟩, h₂, h⟩ := Option.bind_eq_some_iff.mp h
      cases h
      exact (round_loopRun h₁).trans (ih h₂)

/-- **Every trace is a run from the construction on.** -/
theorem EngineTrace.loopRun {plan : ScanPlan} {io : ScanIo} (h : EngineTrace plan io e tr) :
    ∃ e₀, (∃ vm, IoEngine.new plan io vm = .ok e₀) ∧ LoopRun e₀ tr e := by
  induction h with
  | @start vm e h => exact ⟨e, ⟨vm, h⟩, .refl⟩
  | @step e e' tr marks ev _ hev ih =>
      obtain ⟨e₀, hstart, hrun⟩ := ih
      refine ⟨e₀, hstart, ?_⟩
      by_cases hscan : ∃ cs, ev = .scan cs
      · obtain ⟨cs, rfl⟩ := hscan
        have hturns : LoopRun e.applyModeBoundary marks e' := rounds_loopRun hev
        have hmode : LoopRun e₀ tr e.applyModeBoundary := by
          simpa using hrun.step (.boundary e)
        exact hmode.trans hturns
      · exact hrun.step (.outside (fun cs hcs => hscan ⟨cs, hcs⟩) hev)

end SoftPlc.Scan
