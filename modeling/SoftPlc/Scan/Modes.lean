import SoftPlc.Scan.Outputs

/-!
# The operator mode over whole runs

The mode cell of `plc-scan/src/mode.rs` is written at the mode boundary and by every fault path of
`plc-scan/src/engine.rs`. A run is cut here into the pieces that write it at most once (`Stage`), and
`mode_discipline` says what each piece of each run may do.

A request that is written during a scan is read at the next boundary, so it is an event after the
scan.
-/

namespace SoftPlc.Scan

open SoftPlc.Ir SoftPlc.Vm SoftPlc.Io SoftPlc.Lib

/-! ## Pieces of a run -/

/-- A piece of a run that writes the mode at most once. -/
inductive Stage where
  /-- What happens outside a scan. -/
  | outside (ev : EngineEvent)
  /-- `ScanEngine::apply_mode_boundary`. -/
  | boundary
  /-- `ScanEngine::try_epoch_install`. -/
  | install
  /-- `ScanEngine::sample_inputs`. -/
  | sample
  /-- The first `if mode.executes_logic()` of `ScanEngine::invoke`, and whether logic ran. -/
  | logic (ran : Bool)
  /-- The second one. -/
  | watch
  /-- `ScanEngine::apply_outputs`. -/
  | outputs
  /-- The rest of `ScanEngine::invoke`. -/
  | finish

/-- The last state of a piece-wise run. -/
def lastOf {σ : Type} (s : σ) (stages : List (Stage × σ)) : σ := (stages.getLast?.map Prod.snd).getD s

namespace IoEngine

/-- The states after the pieces of an invocation. Source: `engine.rs`, `ScanEngine::invoke`. -/
def invokeStages (e : IoEngine) (task : ℕ) (c : Cycle) : Option (List (Stage × IoEngine)) :=
  match (e.sampleInputs c).logic task c with
  | none => none
  | some (l, ran, ok) =>
      let w := (l.watch task c ran).1
      let o := w.applyOutputs c
      some [(.sample, e.sampleInputs c), (.logic ran, l), (.watch, w), (.outputs, o),
        (.finish, o.finishInvoke task ok)]

/-- The states after the pieces of a turn of the loop. -/
def roundStages (e : IoEngine) (c : Cycle) : Option (List (Stage × IoEngine)) :=
  let i := (e.tryEpochInstall c).1
  match i.base.pickDue c.nowMs with
  | none => some [(.install, i)]
  | some task => (i.invokeStages task c).map fun stages => (.install, i) :: stages

/-- The states after the pieces of some turns of the loop. -/
def roundsStages (e : IoEngine) : List Cycle → Option (List (Stage × IoEngine))
  | [] => some []
  | c :: cs => do
      let stages ← e.roundStages c
      let later ← (lastOf e stages).roundsStages cs
      pure (stages ++ later)

/-- The boundary takes a mode request and refuses it. Source: `mode.rs`,
`ModeCell::reject_pending` and the error branch of `ModeCell::apply_pending`. -/
def rejects (e : IoEngine) : Bool :=
  match e.base.pendingMode with
  | none => false
  | some req => e.base.phase == .swapping || (applyRequest e.base.mode req).toOption.isNone

end IoEngine

/-- The engine with its counter of rejected mode requests. Source: `mode.rs`, `ModeCell`. -/
structure ModedEngine where
  engine : IoEngine
  /-- A `u64`. -/
  modeRejected : ℕ

namespace ModedEngine

def mode (s : ModedEngine) : OperatingMode := s.engine.base.mode

def forces (s : ModedEngine) : ForceTable := s.engine.io.forces

def pending (s : ModedEngine) : Option ModeRequest := s.engine.base.pendingMode

/-- Source: `engine.rs`, `ScanEngine::apply_mode_boundary`. -/
def applyModeBoundary (s : ModedEngine) : ModedEngine where
  engine := s.engine.applyModeBoundary
  modeRejected := if s.engine.rejects then (s.modeRejected + 1) % 2 ^ 64 else s.modeRejected

/-- The states after the pieces of an event; a scan that panics has no result. -/
def handle (s : ModedEngine) : EngineEvent → Option (List (Stage × ModedEngine))
  | .scan cycles =>
      let b := s.applyModeBoundary
      (b.engine.roundsStages cycles).map fun stages =>
        (.boundary, b) :: stages.map fun p => (p.1, ⟨p.2, b.modeRejected⟩)
  | ev => (s.engine.handle ev).map fun p => [(.outside ev, ⟨p.1, s.modeRejected⟩)]

end ModedEngine

/-- One piece of a run. -/
structure Moved where
  before : ModedEngine
  stage : Stage
  after : ModedEngine

/-- Pieces one after another. -/
def movedAlong (s : ModedEngine) : List (Stage × ModedEngine) → List Moved
  | [] => []
  | (stage, t) :: rest => ⟨s, stage, t⟩ :: movedAlong t rest

/-- Runs of an engine from its construction on, piece by piece. -/
inductive ModeRun (plan : ScanPlan) (io : ScanIo) : ModedEngine → List Moved → Prop
  | start {vm : Option ArmedVm} {e : IoEngine} (h : IoEngine.new plan io vm = .ok e) :
      ModeRun plan io ⟨e, 0⟩ []
  | step {s : ModedEngine} {moves : List Moved} {ev : EngineEvent} {stages : List (Stage × ModedEngine)}
      (h : ModeRun plan io s moves) (hev : s.handle ev = some stages) :
      ModeRun plan io (lastOf s stages) (moves ++ movedAlong s stages)

/-- The request that is pending after a piece: the last writer wins, and a boundary takes it. -/
def Stage.noted (pending : Option ModeRequest) : Stage → Option ModeRequest
  | .outside (.requestMode req) => some req
  | .boundary => none
  | _ => pending

/-- Events one after another, with their pieces. -/
def ModedEngine.handleAll (s : ModedEngine) : List EngineEvent → Option (ModedEngine × List Moved)
  | [] => some (s, [])
  | ev :: evs => do
      let stages ← s.handle ev
      let (t, later) ← (lastOf s stages).handleAll evs
      pure (t, movedAlong s stages ++ later)

theorem ModeRun.handleAll {plan : ScanPlan} {io : ScanIo} {s t : ModedEngine}
    {moves later : List Moved} {evs : List EngineEvent} (h : ModeRun plan io s moves)
    (hevs : s.handleAll evs = some (t, later)) : ModeRun plan io t (moves ++ later) := by
  induction evs generalizing s moves later with
  | nil =>
      cases hevs
      rwa [List.append_nil]
  | cons ev evs ih =>
      obtain ⟨stages, hev, hevs⟩ := Option.bind_eq_some_iff.mp hevs
      obtain ⟨⟨t', later'⟩, hlater, hevs⟩ := Option.bind_eq_some_iff.mp hevs
      cases hevs
      rw [← List.append_assoc]
      exact ih (h.step hev) hlater

/-- The last request that was written since the boundary before. -/
def lastRequest (moves : List Moved) : Option ModeRequest :=
  moves.foldl (fun pending m => m.stage.noted pending) none

/-- The state after the pieces of a run. -/
def endOf (start : ModedEngine) (moves : List Moved) : ModedEngine :=
  (moves.getLast?.map Moved.after).getD start

/-! ## The pieces are those of the engine -/

section Stages

variable {e e' : IoEngine} {c : Cycle}

@[simp] theorem lastOf_nil {σ : Type} (s : σ) : lastOf s [] = s := rfl

@[simp] theorem lastOf_append {σ : Type} (s : σ) (xs ys : List (Stage × σ)) :
    lastOf s (xs ++ ys) = lastOf (lastOf s xs) ys := by
  unfold lastOf
  rcases List.eq_nil_or_concat ys with rfl | ⟨zs, z, rfl⟩
  · simp
  · simp [← List.append_assoc]

@[simp] theorem lastOf_cons {σ : Type} (s : σ) (p : Stage × σ) (ps : List (Stage × σ)) :
    lastOf s (p :: ps) = lastOf p.2 ps := lastOf_append s [p] ps

theorem invokeStages_last {task : ℕ} {stages : List (Stage × IoEngine)}
    (h : e.invokeStages task c = some stages) :
    ∃ inv, e.invoke task c = some (lastOf e stages, inv) := by
  unfold IoEngine.invokeStages at h
  unfold IoEngine.invoke
  rcases hlogic : (e.sampleInputs c).logic task c with _ | ⟨l, ran, ok⟩
  · rw [hlogic] at h
    cases h
  · rw [hlogic] at h
    cases h
    exact ⟨_, rfl⟩

theorem roundStages_last {stages : List (Stage × IoEngine)} (h : e.roundStages c = some stages) :
    ∃ marks, e.round c = some (lastOf e stages, marks) := by
  unfold IoEngine.roundStages at h
  unfold IoEngine.round
  dsimp only at h ⊢
  rcases hdue : (e.tryEpochInstall c).1.base.pickDue c.nowMs with _ | task
  · rw [hdue] at h
    cases h
    exact ⟨_, rfl⟩
  · rw [hdue] at h
    obtain ⟨rest, hrest, rfl⟩ := Option.map_eq_some_iff.mp h
    obtain ⟨inv, hinv⟩ := invokeStages_last hrest
    refine ⟨(e.tryEpochInstall c).2 ++ [.invoked inv], ?_⟩
    rw [lastOf_cons]
    dsimp only
    rw [hinv]
    rfl

theorem roundsStages_last {cs : List Cycle} {stages : List (Stage × IoEngine)}
    (h : e.roundsStages cs = some stages) : ∃ marks, e.rounds cs = some (lastOf e stages, marks) := by
  induction cs generalizing e stages with
  | nil =>
      cases h
      exact ⟨[], rfl⟩
  | cons c cs ih =>
      obtain ⟨now, hnow, h⟩ := Option.bind_eq_some_iff.mp h
      obtain ⟨later, hlater, h⟩ := Option.bind_eq_some_iff.mp h
      cases h
      obtain ⟨marks₁, h₁⟩ := roundStages_last hnow
      obtain ⟨marks₂, h₂⟩ := ih hlater
      refine ⟨marks₁ ++ marks₂, ?_⟩
      rw [IoEngine.rounds, h₁, lastOf_append]
      exact Option.bind_eq_some_iff.mpr ⟨_, rfl, Option.bind_eq_some_iff.mpr ⟨_, h₂, rfl⟩⟩

theorem lastOf_map (n : ℕ) (stages : List (Stage × IoEngine)) :
    lastOf (⟨e, n⟩ : ModedEngine) (stages.map fun p => (p.1, ⟨p.2, n⟩)) = ⟨lastOf e stages, n⟩ := by
  induction stages generalizing e with
  | nil => rfl
  | cons p ps ih =>
      rw [List.map_cons, lastOf_cons, lastOf_cons]
      exact ih

/-- **The pieces of an event end where the event does.** -/
theorem handle_last {s : ModedEngine} {ev : EngineEvent} {stages : List (Stage × ModedEngine)}
    (h : s.handle ev = some stages) : ∃ marks, s.engine.handle ev = some ((lastOf s stages).engine, marks) := by
  have houtside : (s.engine.handle ev).map (fun p => [(Stage.outside ev, (⟨p.1, s.modeRejected⟩ : ModedEngine))]) =
      some stages → ∃ marks, s.engine.handle ev = some ((lastOf s stages).engine, marks) := by
    intro h
    obtain ⟨⟨e, marks⟩, he, rfl⟩ := Option.map_eq_some_iff.mp h
    exact ⟨marks, he⟩
  cases ev with
  | scan cycles =>
      obtain ⟨rest, hrest, rfl⟩ := Option.map_eq_some_iff.mp h
      obtain ⟨marks, hrounds⟩ := roundsStages_last hrest
      refine ⟨marks, ?_⟩
      rw [lastOf_cons, lastOf_map]
      exact hrounds
  | requestMode req => exact houtside h
  | force slot value => exact houtside h
  | unforce slot => exact houtside h
  | arm program restart => exact houtside h
  | disarm => exact houtside h
  | requestActivate => exact houtside h

end Stages

/-! ## What a piece may do -/

/-- **The mode discipline** of one piece of a run. -/
structure Moved.Disciplined (m : Moved) : Prop where
  /-- FAULT is left only at a boundary, by a reset, and to STOP. -/
  fault : m.before.mode = .fault → m.after.mode ≠ .fault →
    m.stage = .boundary ∧ m.before.pending = some .faultReset ∧ m.after.mode = .stop
  /-- SIM is entered only from STOP. -/
  sim : m.after.mode = .sim → m.before.mode ≠ .sim → m.before.mode = .stop
  /-- Logic runs only in RUN and SIM. -/
  logic : m.stage = .logic true → m.before.mode = .run ∨ m.before.mode = .sim
  /-- A request that is taken at a boundary is applied, or counted as rejected. -/
  taken : m.stage = .boundary → ∀ req ∈ m.before.pending, m.after.pending = none ∧
    ((applyRequest m.before.mode req = .ok m.after.mode ∧
        m.after.modeRejected = m.before.modeRejected) ∨
      (m.after.mode = m.before.mode ∧ m.after.forces = m.before.forces ∧
        m.after.modeRejected = (m.before.modeRejected + 1) % 2 ^ 64))
  /-- Nothing else is counted. -/
  counted : ¬(m.stage = .boundary ∧ m.before.pending.isSome) →
    m.after.modeRejected = m.before.modeRejected
  /-- There are no forces after a transition into STOP or FAULT. -/
  forces : m.after.mode ≠ m.before.mode → m.after.mode = .stop ∨ m.after.mode = .fault →
    m.after.forces = []

/-- Between boundaries the mode changes only to FAULT, and the forces go with it. -/
structure FaultOnly (e e' : IoEngine) : Prop where
  pending : e'.base.pendingMode = e.base.pendingMode
  mode : e'.base.mode = e.base.mode ∨ (e'.base.mode = .fault ∧ e'.io.forces = [])

namespace FaultOnly

variable {e e' e'' : IoEngine} {c : Cycle}

theorem refl (e : IoEngine) : FaultOnly e e := ⟨rfl, .inl rfl⟩

theorem faultIf (e : IoEngine) (reason : Bool) : FaultOnly e (e.faultIf reason) := by
  cases reason with
  | false => exact .refl e
  | true => exact ⟨rfl, .inr ⟨rfl, rfl⟩⟩

/-- A first part that leaves the mode. -/
theorem of_same (hpending : e'.base.pendingMode = e.base.pendingMode)
    (hmode : e'.base.mode = e.base.mode) (h : FaultOnly e' e'') : FaultOnly e e'' := by
  refine ⟨h.pending.trans hpending, ?_⟩
  rw [← hmode]
  exact h.mode

theorem install (e : IoEngine) (c : Cycle) : FaultOnly e (e.tryEpochInstall c).1 := by
  have hstep := tryEpochInstall_step e.base (IoEngine.toRound c [] false false)
  unfold IoEngine.tryEpochInstall
  rcases hbase : e.base.tryEpochInstall (IoEngine.toRound c [] false false) with ⟨base, outcome⟩
  rw [hbase] at hstep
  cases hstep with
  | idle => exact ⟨rfl, .inl rfl⟩
  | installed => exact ⟨rfl, .inl rfl⟩
  | deferred => exact ⟨rfl, .inl rfl⟩
  | faulted => exact ⟨rfl, .inr ⟨rfl, rfl⟩⟩

theorem sample (e : IoEngine) (c : Cycle) : FaultOnly e (e.sampleInputs c) := by
  unfold IoEngine.sampleInputs ScanEngine.sampleInputs IoEngine.toRound
  dsimp only
  cases (e.publishFieldMode).inputFault c with
  | false => exact ⟨rfl, .inl rfl⟩
  | true => exact ⟨rfl, .inr ⟨rfl, rfl⟩⟩

theorem runLogic {task nowMs : ℕ} {ok : Bool} (h : e.runLogic task nowMs = some (e', ok)) :
    e'.base.pendingMode = e.base.pendingMode ∧ e'.base.mode = e.base.mode := by
  have hbase : ∀ {b b' : ScanEngine}, b.runLogic task nowMs = some (b', ok) →
      b'.pendingMode = b.pendingMode ∧ b'.mode = b.mode := by
    intro b b' hb
    unfold ScanEngine.runLogic at hb
    split at hb
    · cases hb
      exact ⟨rfl, rfl⟩
    · dsimp only at hb
      split at hb
      · split_ifs at hb
        · cases hb
          exact ⟨rfl, rfl⟩
        · cases hb
          exact ⟨rfl, rfl⟩
      · cases hb
        exact ⟨rfl, rfl⟩
      · cases hb
  exact hbase (IoEngine.runLogic_base h)

theorem logic {task : ℕ} {ran ok : Bool} (h : e.logic task c = some (e', ran, ok)) :
    FaultOnly e e' ∧ (ran = true → e.base.mode.executesLogic = true) := by
  unfold IoEngine.logic at h
  split_ifs at h with hexec
  · obtain ⟨⟨e₁, ok₁⟩, hrun, heq⟩ := Option.map_eq_some_iff.mp h
    cases heq
    obtain ⟨hpending, hmode⟩ := runLogic hrun
    exact ⟨of_same hpending hmode (.faultIf e₁ _), fun _ => hexec⟩
  · cases h
    exact ⟨.refl e, fun hran => nomatch hran⟩

theorem watch (e : IoEngine) (task : ℕ) (c : Cycle) (ran : Bool) :
    FaultOnly e (e.watch task c ran).1 := by
  cases ran with
  | false => exact .refl e
  | true =>
      have hnote := IoEngine.note_base e task c.durationUs
      have htrip : FaultOnly (e.note task c.durationUs).1 (e.watch task c true).1 := .faultIf _ _
      exact of_same (congrArg ScanEngine.pendingMode hnote) (congrArg ScanEngine.mode hnote) htrip

theorem outputs (e : IoEngine) (c : Cycle) : FaultOnly e (e.applyOutputs c) := by
  unfold IoEngine.applyOutputs
  dsimp only
  split_ifs
  · exact ⟨rfl, .inl rfl⟩
  · refine of_same ?_ ?_ (.faultIf _ _)
    · rfl
    · rfl

end FaultOnly

/-! ## The discipline -/

section Discipline

variable {m : Moved} {s s' : ModedEngine} {stage : Stage}

/-- A piece other than a boundary keeps the discipline if it only enters FAULT. -/
theorem Moved.Disciplined.of_faultOnly (h : FaultOnly m.before.engine m.after.engine)
    (hstage : m.stage ≠ .boundary) (hcount : m.after.modeRejected = m.before.modeRejected)
    (hlogic : m.stage = .logic true → m.before.mode.executesLogic = true) : m.Disciplined where
  fault hbefore hafter := by
    rcases h.mode with hmode | ⟨hmode, -⟩
    · exact absurd (hmode.trans hbefore) hafter
    · exact absurd hmode hafter
  sim hafter hbefore := by
    rcases h.mode with hmode | ⟨hmode, -⟩
    · exact absurd (hmode.symm.trans hafter) hbefore
    · exact absurd (hmode.symm.trans hafter) (by decide)
  logic hran := by
    have hexec := hlogic hran
    cases hmode : m.before.mode with
    | stop => rw [hmode] at hexec; cases hexec
    | run => exact .inl rfl
    | fault => rw [hmode] at hexec; cases hexec
    | sim => exact .inr rfl
  taken hboundary := absurd hboundary hstage
  counted _ := hcount
  forces hchanged _ := by
    rcases h.mode with hmode | ⟨-, hforces⟩
    · exact absurd hmode hchanged
    · exact hforces

/-- Grants of the transition table. -/
theorem applyRequest_ok {mode next : OperatingMode} {req : ModeRequest}
    (h : applyRequest mode req = .ok next) :
    (mode = .fault → req = .faultReset ∧ next = .stop) ∧ next ≠ .fault ∧
      (next = .sim → mode ≠ .sim → mode = .stop) ∧
      (next = .stop → IoEngine.clearsForces req next = true) := by
  cases mode <;> cases req <;> cases h <;> decide

/-- What a boundary does without a request. -/
theorem applyModeBoundary_none (h : s.pending = none) : s.applyModeBoundary = s := by
  obtain ⟨e, n⟩ := s
  have hpending : e.base.pendingMode = none := h
  unfold ModedEngine.applyModeBoundary IoEngine.applyModeBoundary ScanEngine.applyModeBoundary
    IoEngine.rejects
  simp only [hpending, ite_self, Bool.false_eq_true, if_false]

/-- What a boundary does with a request. -/
theorem applyModeBoundary_some {req : ModeRequest} (h : s.pending = some req) :
    s.applyModeBoundary.pending = none ∧
      ((∃ next, applyRequest s.mode req = .ok next ∧ s.applyModeBoundary.mode = next ∧
          s.applyModeBoundary.modeRejected = s.modeRejected ∧
          (IoEngine.clearsForces req next = true → s.applyModeBoundary.forces = [])) ∨
        (s.applyModeBoundary.mode = s.mode ∧ s.applyModeBoundary.forces = s.forces ∧
          s.applyModeBoundary.modeRejected = (s.modeRejected + 1) % 2 ^ 64)) := by
  have hpending : s.engine.base.pendingMode = some req := h
  unfold ModedEngine.mode ModedEngine.forces ModedEngine.pending ModedEngine.applyModeBoundary
    IoEngine.applyModeBoundary ScanEngine.applyModeBoundary IoEngine.rejects
  simp only [hpending]
  by_cases hphase : s.engine.base.phase = .swapping
  · simp [hphase]
  · simp only [hphase, if_false]
    rcases hreq : applyRequest s.engine.base.mode req with err | next
    · simp [Except.toOption]
    · refine ⟨rfl, .inl ⟨next, rfl, rfl, ?_, ?_⟩⟩
      · simp [hphase, Except.toOption]
      · intro hclear
        simp [hclear]

theorem disciplined_boundary (s : ModedEngine) :
    Moved.Disciplined ⟨s, .boundary, s.applyModeBoundary⟩ := by
  rcases hpending : s.pending with _ | req
  · -- Nothing is taken.
    rw [applyModeBoundary_none hpending]
    refine ⟨fun hbefore hafter => absurd hbefore hafter, fun hafter hbefore => absurd hafter hbefore,
      (fun hlogic => nomatch hlogic), ?_, fun _ => rfl, fun hchanged => absurd rfl hchanged⟩
    intro _ req hreq
    rw [show s.pending = some req from hreq] at hpending
    cases hpending
  · obtain ⟨hnone, hcase⟩ := applyModeBoundary_some hpending
    have htaken : ∀ r ∈ s.pending, r = req := by
      intro r hr
      rw [hpending] at hr
      exact (Option.some.inj hr).symm
    rcases hcase with ⟨next, hgrant, hmode, hcount, hclear⟩ | ⟨hmode, hforces, hcount⟩
    · obtain ⟨hfault, hnot, hsim, hstop⟩ := applyRequest_ok hgrant
      refine ⟨?_, ?_, (fun hlogic => nomatch hlogic), ?_, fun _ => hcount, ?_⟩
      · intro hbefore _
        obtain ⟨rfl, rfl⟩ := hfault hbefore
        exact ⟨rfl, hpending, hmode⟩
      · intro hafter hbefore
        exact hsim (hmode.symm.trans hafter) hbefore
      · intro _ r hr
        obtain rfl := htaken r hr
        exact ⟨hnone, .inl ⟨hgrant.trans (congrArg Except.ok hmode.symm), hcount⟩⟩
      · intro _ hafter
        rcases hafter with hafter | hafter
        · exact hclear (hstop (hmode.symm.trans hafter))
        · exact absurd (hmode.symm.trans hafter) hnot
    · refine ⟨?_, ?_, (fun hlogic => nomatch hlogic), ?_, ?_, ?_⟩
      · intro hbefore hafter
        exact absurd (hmode.trans hbefore) hafter
      · intro hafter hbefore
        exact absurd (hmode.symm.trans hafter) hbefore
      · intro _ r _
        exact ⟨hnone, .inr ⟨hmode, hforces, hcount⟩⟩
      · intro hnot
        exact absurd ⟨rfl, by rw [hpending]; rfl⟩ hnot
      · intro hchanged
        exact absurd hmode hchanged

/-- Each of some pieces one after another. -/
def AllAlong (P : Moved → Prop) (s : ModedEngine) (stages : List (Stage × ModedEngine)) : Prop :=
  ∀ m ∈ movedAlong s stages, P m

theorem allAlong_nil {P : Moved → Prop} : AllAlong P s [] := fun _ hm => nomatch hm

theorem allAlong_cons {P : Moved → Prop} {t : ModedEngine} {rest : List (Stage × ModedEngine)} :
    AllAlong P s ((stage, t) :: rest) ↔ P ⟨s, stage, t⟩ ∧ AllAlong P t rest := by
  unfold AllAlong
  rw [movedAlong, List.forall_mem_cons]

theorem movedAlong_append (xs ys : List (Stage × ModedEngine)) :
    movedAlong s (xs ++ ys) = movedAlong s xs ++ movedAlong (lastOf s xs) ys := by
  induction xs generalizing s with
  | nil => rfl
  | cons x xs ih =>
      rw [List.cons_append, movedAlong, movedAlong, ih, lastOf_cons, List.cons_append]

/-- The pieces of an engine, beside a counter that stands. -/
def counting (n : ℕ) (stages : List (Stage × IoEngine)) : List (Stage × ModedEngine) :=
  stages.map fun p => (p.1, ⟨p.2, n⟩)

/-- A piece keeps the discipline and notes requests. -/
def Moved.Lawful (m : Moved) : Prop :=
  m.Disciplined ∧ m.after.pending = m.stage.noted m.before.pending

theorem lawful_of_faultOnly {e e' : IoEngine} {n : ℕ} (h : FaultOnly e e') (hstage : stage ≠ .boundary)
    (houtside : ∀ ev, stage ≠ .outside ev)
    (hlogic : stage = .logic true → e.base.mode.executesLogic = true) :
    Moved.Lawful ⟨⟨e, n⟩, stage, ⟨e', n⟩⟩ := by
  refine ⟨.of_faultOnly h hstage rfl hlogic, ?_⟩
  have hnoted : stage.noted e.base.pendingMode = e.base.pendingMode := by
    unfold Stage.noted
    split
    · exact absurd rfl (houtside _)
    · exact absurd rfl hstage
    · rfl
  exact h.pending.trans hnoted.symm

theorem lawful_invoke {e : IoEngine} {c : Cycle} {task n : ℕ} {stages : List (Stage × IoEngine)}
    (h : e.invokeStages task c = some stages) : AllAlong Moved.Lawful ⟨e, n⟩ (counting n stages) := by
  unfold IoEngine.invokeStages at h
  rcases hlogic : (e.sampleInputs c).logic task c with _ | ⟨l, ran, ok⟩
  · rw [hlogic] at h
    cases h
  · rw [hlogic] at h
    cases h
    obtain ⟨honly, hexec⟩ := FaultOnly.logic hlogic
    refine allAlong_cons.mpr ⟨lawful_of_faultOnly (.sample e c) (by simp) (by simp) (by simp), ?_⟩
    refine allAlong_cons.mpr ⟨lawful_of_faultOnly honly (by simp) (by simp) ?_, ?_⟩
    · intro hran
      exact hexec (Stage.logic.inj hran)
    refine allAlong_cons.mpr
      ⟨lawful_of_faultOnly (.watch l task c ran) (by simp) (by simp) (by simp), ?_⟩
    refine allAlong_cons.mpr ⟨lawful_of_faultOnly (.outputs _ c) (by simp) (by simp) (by simp), ?_⟩
    exact allAlong_cons.mpr
      ⟨lawful_of_faultOnly ⟨rfl, .inl rfl⟩ (by simp) (by simp) (by simp), allAlong_nil⟩

theorem lawful_round {e : IoEngine} {c : Cycle} {n : ℕ} {stages : List (Stage × IoEngine)}
    (h : e.roundStages c = some stages) : AllAlong Moved.Lawful ⟨e, n⟩ (counting n stages) := by
  unfold IoEngine.roundStages at h
  dsimp only at h
  have hinstall : Moved.Lawful ⟨⟨e, n⟩, .install, ⟨(e.tryEpochInstall c).1, n⟩⟩ :=
    lawful_of_faultOnly (.install e c) (by simp) (by simp) (by simp)
  split at h
  · cases h
    exact allAlong_cons.mpr ⟨hinstall, allAlong_nil⟩
  · obtain ⟨rest, hrest, rfl⟩ := Option.map_eq_some_iff.mp h
    exact allAlong_cons.mpr ⟨hinstall, lawful_invoke hrest⟩

theorem lawful_rounds {e : IoEngine} {cs : List Cycle} {n : ℕ} {stages : List (Stage × IoEngine)}
    (h : e.roundsStages cs = some stages) : AllAlong Moved.Lawful ⟨e, n⟩ (counting n stages) := by
  induction cs generalizing e stages with
  | nil =>
      cases h
      exact allAlong_nil
  | cons c cs ih =>
      obtain ⟨now, hnow, h⟩ := Option.bind_eq_some_iff.mp h
      obtain ⟨later, hlater, h⟩ := Option.bind_eq_some_iff.mp h
      cases h
      intro m hm
      rw [counting, List.map_append, movedAlong_append, lastOf_map] at hm
      rcases List.mem_append.mp hm with hm | hm
      · exact lawful_round hnow m hm
      · exact ih hlater m hm

/-- Events outside a scan keep the mode, the forces apart. -/
theorem outside_mode {e e' : IoEngine} {ev : EngineEvent} {marks : List Mark}
    (hev : ∀ cs, ev ≠ .scan cs) (h : e.handle ev = some (e', marks)) :
    e'.base.mode = e.base.mode ∧
      e'.base.pendingMode = (Stage.outside ev).noted e.base.pendingMode := by
  cases ev with
  | requestMode req =>
      cases h
      exact ⟨rfl, rfl⟩
  | force slot value =>
      cases h
      exact ⟨rfl, rfl⟩
  | unforce slot =>
      cases h
      exact ⟨rfl, rfl⟩
  | arm program restart =>
      cases h
      unfold IoEngine.arm ScanEngine.arm
      split_ifs <;> exact ⟨rfl, rfl⟩
  | disarm =>
      cases h
      unfold IoEngine.disarm
      split_ifs <;> exact ⟨rfl, rfl⟩
  | requestActivate =>
      cases h
      unfold IoEngine.requestActivate ScanEngine.requestActivate
      rcases e.base.armed with _ | a
      · split_ifs <;> exact ⟨rfl, rfl⟩
      · dsimp only
        split_ifs <;> exact ⟨rfl, rfl⟩
  | scan cs => exact absurd rfl (hev cs)

/-- **Every event keeps the discipline**, piece by piece. -/
theorem lawful_handle {ev : EngineEvent} {stages : List (Stage × ModedEngine)}
    (h : s.handle ev = some stages) : AllAlong Moved.Lawful s stages := by
  have houtside : (∀ cs, ev ≠ .scan cs) → (s.engine.handle ev).map (fun p =>
      [(Stage.outside ev, (⟨p.1, s.modeRejected⟩ : ModedEngine))]) = some stages →
      AllAlong Moved.Lawful s stages := by
    intro hev h
    obtain ⟨⟨e, marks⟩, he, rfl⟩ := Option.map_eq_some_iff.mp h
    obtain ⟨hmode, hpending⟩ := outside_mode hev he
    refine allAlong_cons.mpr ⟨⟨⟨?_, ?_, (fun hlogic => nomatch hlogic),
      (fun hboundary => nomatch hboundary), fun _ => rfl, ?_⟩, ?_⟩, allAlong_nil⟩
    · intro hbefore hafter
      exact absurd (hmode.trans hbefore) hafter
    · intro hafter hbefore
      exact absurd (hmode.symm.trans hafter) hbefore
    · intro hchanged
      exact absurd hmode hchanged
    · exact hpending
  cases ev with
  | scan cycles =>
      obtain ⟨rest, hrest, rfl⟩ := Option.map_eq_some_iff.mp h
      refine allAlong_cons.mpr ⟨⟨disciplined_boundary s, ?_⟩, lawful_rounds hrest⟩
      show s.applyModeBoundary.pending = none
      rcases hpending : s.pending with _ | req
      · rw [applyModeBoundary_none hpending]
        exact hpending
      · exact (applyModeBoundary_some hpending).1
  | requestMode req => exact houtside (by simp) h
  | force slot value => exact houtside (by simp) h
  | unforce slot => exact houtside (by simp) h
  | arm program restart => exact houtside (by simp) h
  | disarm => exact houtside (by simp) h
  | requestActivate => exact houtside (by simp) h

/-- What a run from a state keeps. -/
structure Kept (start s : ModedEngine) (moves : List Moved) : Prop where
  each : EachAt id (fun pre m => m.before = endOf start pre ∧ m.Disciplined ∧
    m.before.pending = lastRequest pre) moves
  here : s = endOf start moves
  pending : s.pending = lastRequest moves

theorem Kept.along {start : ModedEngine} {moves : List Moved} (h : Kept start s moves)
    {stages : List (Stage × ModedEngine)} (hall : AllAlong Moved.Lawful s stages) :
    Kept start (lastOf s stages) (moves ++ movedAlong s stages) := by
  induction stages generalizing s moves with
  | nil =>
      rw [movedAlong, List.append_nil]
      exact h
  | cons p rest ih =>
      obtain ⟨⟨hlaw, hnoted⟩, hrest⟩ := allAlong_cons.mp hall
      have hnext : Kept start p.2 (moves ++ [⟨s, p.1, p.2⟩]) := by
        refine ⟨h.each.snoc ?_, ?_, ?_⟩
        · rintro m rfl
          exact ⟨h.here, hlaw, h.pending⟩
        · simp [endOf]
        · rw [lastRequest, List.foldl_append]
          refine hnoted.trans (congrArg p.1.noted ?_)
          exact h.pending
      rw [lastOf_cons, movedAlong, List.append_cons]
      exact ih hnext hrest

theorem ModeRun.kept {plan : ScanPlan} {io : ScanIo} {moves : List Moved}
    (h : ModeRun plan io s moves) : ∃ vm, Kept ⟨.initial plan io vm, 0⟩ s moves := by
  induction h with
  | @start vm e h =>
      refine ⟨vm, ?_⟩
      unfold IoEngine.new at h
      split at h
      · cases h
        exact ⟨.nil, rfl, rfl⟩
      · dsimp only at h
        split_ifs at h
        cases h
        exact ⟨.nil, rfl, rfl⟩
  | step h hev ih =>
      obtain ⟨vm, hkept⟩ := ih
      exact ⟨vm, hkept.along (lawful_handle hev)⟩

/-- **Mode discipline over whole runs.** Every run starts in STOP; each of its pieces goes on where
the one before ended and keeps the discipline, and what a boundary takes is the last request that was
written since the boundary before. -/
theorem mode_discipline {plan : ScanPlan} {io : ScanIo} {moves : List Moved}
    (h : ModeRun plan io s moves) :
    ∃ start : ModedEngine, start.mode = .stop ∧ s = endOf start moves ∧
      EachAt id (fun pre m => m.before = endOf start pre ∧ m.Disciplined ∧
        m.before.pending = lastRequest pre) moves := by
  obtain ⟨vm, hkept⟩ := h.kept
  exact ⟨_, rfl, hkept.here, hkept.each⟩

/-- The pieces of a run are those of a run of the engine. -/
theorem ModeRun.engineTrace {plan : ScanPlan} {io : ScanIo} {moves : List Moved}
    (h : ModeRun plan io s moves) : ∃ tr, EngineTrace plan io s.engine tr := by
  induction h with
  | start h => exact ⟨[], .start h⟩
  | step h hev ih =>
      obtain ⟨tr, htr⟩ := ih
      obtain ⟨marks, hhandle⟩ := handle_last hev
      exact ⟨tr ++ marks, htr.step hhandle⟩

end Discipline

/-- A device without a program is sent into RUN: the first scan ends in FAULT, and the run keeps the
discipline. -/
theorem mode_discipline_no_program :
    ∃ s moves, ModeRun oneTask (oneOutput (.int 5)) s moves ∧ s.mode = .fault ∧
      ∃ start : ModedEngine, start.mode = .stop ∧ s = endOf start moves ∧
        EachAt id (fun pre m => m.before = endOf start pre ∧ m.Disciplined ∧
          m.before.pending = lastRequest pre) moves := by
  let e : IoEngine := .initial oneTask (oneOutput (.int 5)) none
  have hmode : (ModedEngine.handleAll ⟨e, 0⟩ [.requestMode .run, .scan [cycleAt 0]]).map
      (fun p => p.1.mode) = some .fault := by decide +kernel
  obtain ⟨⟨s, moves⟩, hevs, hfault⟩ := Option.map_eq_some_iff.mp hmode
  have hrun := (@ModeRun.start oneTask (oneOutput (.int 5)) none e rfl).handleAll hevs
  exact ⟨s, _, hrun, hfault, mode_discipline hrun⟩

end SoftPlc.Scan
