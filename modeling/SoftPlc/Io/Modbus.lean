import SoftPlc.Scan.Outputs

/-!
# The Modbus bridge

The scan thread and the Modbus worker share two cells: the field gate, which holds the mode, and a
mailbox for each module, which holds the output values (`plc-io-modbus/src/driver.rs`). The scan
thread stores the gate at the start of the input phase and of the output phase, and then the
mailboxes; a poll of the worker loads the gate, clones the mailbox and writes the values to the
field. A run interleaves the steps of the two in any order, and its trace lists them.

The gate and the mailbox are stored at different moments, so that a poll can see the gate of one
invocation and the values of another. `field_write_iff` says when it does: the values that a poll
writes were simulated exactly when the mailbox was last stored in SIM between the gate load and the
clone, or was not stored in between and the gate load fell between the first gate store of an
invocation after SIM and its mailbox store.
-/

namespace SoftPlc.Io

open SoftPlc.Scan SoftPlc.Lib

/-! ## State -/

/-- What one invocation publishes. -/
structure Publication where
  /-- The mode at the start of the input phase. -/
  inputMode : OperatingMode
  /-- The mode of the output phase. -/
  outputMode : OperatingMode
  image : OutputImage
  /-- In SIM the logic has completed, and nothing asks for safe states. -/
  live : outputMode = .sim → image.forceSafe = false

/-- One output point of a module. Source: `plc-io-modbus/src/validate.rs`, `PlannedPoint`. -/
structure PlannedPoint where
  /-- Place in the mailbox. -/
  outputPos : Option ℕ
  safe : PlcValue

/-- A module. Source: `driver.rs`, `ModuleShare` and `ModRt`. -/
structure ModuleShare where
  /-- Output slots of the image in the order of the mailbox. -/
  outputSlots : List ℕ
  points : List PlannedPoint
  onBad : BadQualityPolicy

/-- Source: `driver.rs`, `Mail`, with the mode of the output phase that stored it. -/
structure Mail where
  armed : Bool
  forceSafe : Bool
  values : List PlcValue
  origin : Option OperatingMode

/-- Where the scan thread is. -/
inductive ScanPos where
  /-- Between invocations. -/
  | idle
  /-- The gate is stored for the input phase. -/
  | inputs (p : Publication)
  /-- The gate is stored for the output phase, and the next mailbox is that of a module. -/
  | outputs (p : Publication) (k : ℕ)

/-- Where the worker is. -/
inductive WorkerPos where
  /-- Between polls. -/
  | idle
  /-- The gate let a poll of a module pass. -/
  | passed (k : ℕ)
  /-- The mailbox is cloned, and the next point to write is known. -/
  | writing (k : ℕ) (mail : Mail) (force : Bool) (next : ℕ)

/-- The bridge with both threads. Source: `driver.rs`, `ModbusBridge`. -/
structure Bridge where
  gate : OperatingMode
  mails : List Mail
  /-- Status of each module, which only the worker writes. -/
  quality : List Quality
  scan : ScanPos
  worker : WorkerPos

/-- What happens to the shared cells and to the field. -/
inductive FieldEvent where
  /-- The scan thread stored the gate. -/
  | gate (m : OperatingMode)
  /-- The scan thread stored the mailbox of a module in an output phase. -/
  | stored (k : ℕ) (m : OperatingMode)
  /-- A poll of a module loaded the gate. -/
  | loaded (k : ℕ) (m : OperatingMode)
  /-- A poll of a module cloned its mailbox. -/
  | cloned (k : ℕ)
  /-- A poll of a module wrote a value, taken from a mailbox stored in a mode or from the safe
  state of the point. -/
  | wrote (k : ℕ) (value : PlcValue) (origin : Option OperatingMode)

/-! ## Steps -/

/-- The mail of a module. Source: `driver.rs`, the `for` of `ModbusBridge::apply_outputs`. -/
def ModuleShare.mail (share : ModuleShare) (p : Publication) : Mail where
  armed := true
  forceSafe := p.image.forceSafe
  values := share.outputSlots.map fun slot => (p.image.values[slot]?).getD (.bool false)
  origin := some p.outputMode

/-- The value of a point, and the mode of the mailbox it comes from. Source: `driver.rs`,
`selected`. -/
def selected (point : PlannedPoint) (mail : Mail) (force : Bool) :
    PlcValue × Option OperatingMode :=
  if force then (point.safe, none)
  else
    match point.outputPos.bind fun pos => mail.values[pos]? with
    | some v => (v, mail.origin)
    | none => (point.safe, none)

/-- What the two threads can do next. -/
inductive FieldAct where
  /-- Scan: start an invocation. -/
  | beginInvoke (p : Publication)
  /-- Scan: start its output phase. -/
  | beginOutputs
  /-- Scan: store the next mailbox, or end the invocation. -/
  | applyOutputs
  /-- Worker: connect, read the inputs and load the gate; `ok` says that reading succeeded. -/
  | poll (k : ℕ) (ok : Bool)
  /-- Worker: clone the mailbox. -/
  | clone
  /-- Worker: write the next point. -/
  | write
  /-- Worker: end the poll, after all points or an error. -/
  | endPoll (ok : Bool)

variable (shares : List ModuleShare)

/-- One step of one thread. Source: `engine.rs`, the `publish_field_mode` calls of
`ScanEngine::sample_inputs` and `ScanEngine::apply_outputs`; `driver.rs`,
`ModbusBridge::apply_outputs`, `ModRt::poll` and `ModRt::write_outputs`. -/
def Bridge.step (b : Bridge) : FieldAct → Option (Bridge × List FieldEvent)
  | .beginInvoke p =>
      match b.scan with
      | .idle => some ({ b with gate := p.inputMode, scan := .inputs p }, [.gate p.inputMode])
      | _ => none
  | .beginOutputs =>
      match b.scan with
      | .inputs p =>
          some ({ b with gate := p.outputMode, scan := .outputs p 0 }, [.gate p.outputMode])
      | _ => none
  | .applyOutputs =>
      match b.scan with
      | .outputs p k =>
          match shares[k]? with
          | some share =>
              some ({ b with mails := b.mails.set k (share.mail p), scan := .outputs p (k + 1) },
                [.stored k p.outputMode])
          | none => some ({ b with scan := .idle }, [])
      | _ => none
  | .poll k ok =>
      match b.worker with
      | .idle =>
          if ok then
            let b := { b with quality := b.quality.set k .good }
            if b.gate = .sim then some (b, [.loaded k b.gate])
            else some ({ b with worker := .passed k }, [.loaded k b.gate])
          else some ({ b with quality := b.quality.set k .bad }, [])
      | _ => none
  | .clone =>
      match b.worker with
      | .passed k =>
          match b.mails[k]?, shares[k]? with
          | some mail, some share =>
              let bad := b.quality.getD k .good == .bad
              if !mail.armed || (bad && share.onBad == .holdLast) then
                some ({ b with worker := .idle }, [.cloned k])
              else
                let force := mail.forceSafe || (bad && share.onBad == .forceSafe)
                some ({ b with worker := .writing k mail force 0 }, [.cloned k])
          | _, _ => some ({ b with worker := .idle }, [.cloned k])
      | _ => none
  | .write =>
      match b.worker with
      | .writing k mail force next =>
          match shares[k]?.bind fun share => share.points[next]? with
          | some point =>
              let (value, origin) := selected point mail force
              some ({ b with worker := .writing k mail force (next + 1) },
                [.wrote k value origin])
          | none => none
      | _ => none
  | .endPoll ok =>
      match b.worker with
      | .writing k _ _ _ =>
          some ({ b with
            quality := if ok then b.quality else b.quality.set k .bad
            worker := .idle }, [])
      | _ => none

/-- The bridge at its start: the gate in STOP, and no mail. Source: `driver.rs`,
`ModbusBridge::new` and `split_module`. -/
def Bridge.new : Bridge where
  gate := .stop
  mails := shares.map fun share =>
    ⟨false, false, share.outputSlots.map fun _ => .bool false, none⟩
  quality := shares.map fun _ => .bad
  scan := .idle
  worker := .idle

/-- Interleavings of the two threads with their traces. -/
inductive FieldTrace : Bridge → List FieldEvent → Prop
  | start : FieldTrace (.new shares) []
  | step {b b' : Bridge} {tr evs : List FieldEvent} {a : FieldAct} (h : FieldTrace b tr)
      (hstep : b.step shares a = some (b', evs)) : FieldTrace b' (tr ++ evs)

/-! ## Histories -/

namespace FieldEvent

/-- A gate store. -/
def isGate : FieldEvent → Bool
  | .gate _ => true
  | _ => false

/-- A store of the mailbox of a module. -/
def stores (k : ℕ) : FieldEvent → Bool
  | .stored j _ => j == k
  | _ => false

/-- An event of the scan thread. -/
def isScan : FieldEvent → Bool
  | .gate _ | .stored _ _ => true
  | _ => false

/-- A write to the field. -/
def isWrite : FieldEvent → Bool
  | .wrote _ _ _ => true
  | _ => false

end FieldEvent

/-- The mailbox of a module was last stored in SIM. -/
def SimMail (k : ℕ) (tr : List FieldEvent) : Prop :=
  Since (fun e => e = .stored k .sim) (fun e => e.stores k = false) tr

/-- The mailbox of a module was stored in SIM, and the gate has not been stored since. -/
def FreshSim (k : ℕ) (tr : List FieldEvent) : Prop :=
  Since (fun e => e = .stored k .sim) (fun e => e.isGate = false) tr

/-- The mailbox of a module was last stored in SIM, and a later invocation has stored the gate
already. -/
def Restarted (k : ℕ) (tr : List FieldEvent) : Prop :=
  ∃ pre post, tr = pre ++ .stored k .sim :: post ∧ (∀ e ∈ post, e.stores k = false) ∧
    ∃ m, .gate m ∈ post

/-- The last poll is one of a module: it loaded the gate after `pre` and cloned the mailbox after
the scan thread had done `mid`. -/
def PolledAt (k : ℕ) (tr pre mid : List FieldEvent) : Prop :=
  ∃ m post, tr = pre ++ .loaded k m :: (mid ++ .cloned k :: post) ∧ (∀ e ∈ mid, e.isScan = true) ∧
    ∀ e ∈ post, (e.isScan || e.isWrite) = true

/-- A poll does not see simulated values: between the gate load and the clone the mailbox was not
last stored in SIM, and if it was not stored at all, the gate load did not fall between the gate
store and the mailbox store of an invocation after SIM. -/
def Clean (k : ℕ) (pre mid : List FieldEvent) : Prop :=
  ¬ SimMail k mid ∧ ((∀ e ∈ mid, e.stores k = false) → ¬ Restarted k pre)

/-- The mailbox holds simulated values at the clone exactly when the poll is not clean. -/
theorem simMail_iff_not_clean {k : ℕ} {pre mid : List FieldEvent} {m : OperatingMode}
    (hgate : ¬ FreshSim k pre) :
    SimMail k (pre ++ .loaded k m :: mid) ↔ ¬ Clean k pre mid := by
  have hstale : SimMail k pre ↔ Restarted k pre := by
    constructor
    · rintro ⟨a, x, b, hpre, rfl, hb⟩
      refine ⟨a, b, hpre, hb, ?_⟩
      by_contra hnone
      refine hgate ⟨a, _, b, hpre, rfl, fun e he => ?_⟩
      cases e with
      | gate g => exact absurd ⟨g, he⟩ hnone
      | _ => rfl
    · rintro ⟨a, b, hpre, hb, -⟩
      exact ⟨a, _, b, hpre, rfl, hb⟩
  have happend : SimMail k (pre ++ .loaded k m :: mid) ↔
      SimMail k mid ∨ ((∀ e ∈ mid, e.stores k = false) ∧ SimMail k pre) := by
    unfold SimMail
    rw [List.append_cons, since_append, since_snoc]
    simp [FieldEvent.stores]
  rw [happend, hstale]
  unfold Clean
  tauto

/-! ## Invariants -/

/-- What a run keeps between the cells and the trace. -/
structure Cells (b : Bridge) (tr : List FieldEvent) : Prop where
  /-- In the output phase the gate holds its mode. -/
  phase : ∀ p k, b.scan = .outputs p k → b.gate = p.outputMode
  gate : ∀ k, FreshSim k tr → b.gate = .sim
  mail : ∀ k mail, b.mails[k]? = some mail → (mail.origin = some .sim ↔ SimMail k tr)

/-- What a run keeps between the worker and the trace. -/
def Polls (worker : WorkerPos) (tr : List FieldEvent) : Prop :=
  match worker with
  | .idle => True
  | .passed k => ∃ pre mid m, tr = pre ++ .loaded k m :: mid ∧ (∀ e ∈ mid, e.isScan = true) ∧
      ¬ FreshSim k pre
  | .writing k mail _ _ => ∃ pre mid, PolledAt k tr pre mid ∧
      (mail.origin = some .sim ↔ ¬ Clean k pre mid)

/-- An event of the worker leaves the histories of the cells. -/
theorem simMail_snoc {k : ℕ} {tr : List FieldEvent} {e : FieldEvent} (he : e.isScan = false) :
    SimMail k (tr ++ [e]) ↔ SimMail k tr := by
  unfold SimMail
  rw [since_snoc]
  cases e <;> simp_all [FieldEvent.stores, FieldEvent.isScan]

theorem freshSim_snoc {k : ℕ} {tr : List FieldEvent} {e : FieldEvent} (he : e.isScan = false) :
    FreshSim k (tr ++ [e]) ↔ FreshSim k tr := by
  unfold FreshSim
  rw [since_snoc]
  cases e <;> simp_all [FieldEvent.isGate, FieldEvent.isScan]

/-- A step of the worker keeps the cells. -/
theorem Cells.worker {b b' : Bridge} {tr evs : List FieldEvent} (h : Cells b tr)
    (hgate : b'.gate = b.gate) (hmails : b'.mails = b.mails) (hscan : b'.scan = b.scan)
    (hevs : evs = [] ∨ ∃ e, evs = [e] ∧ e.isScan = false) : Cells b' (tr ++ evs) := by
  rcases hevs with rfl | ⟨e, rfl, he⟩
  · rw [List.append_nil]
    exact ⟨by rw [hgate, hscan]; exact h.phase, by rw [hgate]; exact h.gate,
      by rw [hmails]; exact h.mail⟩
  · refine ⟨by rw [hgate, hscan]; exact h.phase, fun k hk => ?_, fun k mail hk => ?_⟩
    · rw [hgate]
      exact h.gate k ((freshSim_snoc he).mp hk)
    · rw [simMail_snoc he]
      rw [hmails] at hk
      exact h.mail k mail hk

/-- A gate store keeps the cells. -/
theorem Cells.storeGate {b b' : Bridge} {tr : List FieldEvent} {m : OperatingMode} (h : Cells b tr)
    (hgate : b'.gate = m) (hmails : b'.mails = b.mails)
    (hscan : ∀ p k, b'.scan = .outputs p k → p.outputMode = m) : Cells b' (tr ++ [.gate m]) := by
  refine ⟨fun p k hp => hgate.trans (hscan p k hp).symm, fun k hk => ?_, fun k mail hk => ?_⟩
  · rcases since_snoc.mp hk with hk | ⟨hk, -⟩
    · cases hk
    · cases hk
  · rw [hmails] at hk
    rw [h.mail k mail hk]
    unfold SimMail
    rw [since_snoc]
    simp [FieldEvent.stores]

/-- A mailbox store keeps the cells. -/
theorem Cells.storeMail {b b' : Bridge} {tr : List FieldEvent} {m : OperatingMode} {k : ℕ}
    {mail : Mail} (h : Cells b tr) (horigin : mail.origin = some m) (hbefore : b.gate = m)
    (hgate : b'.gate = b.gate) (hmails : b'.mails = b.mails.set k mail)
    (hscan : ∀ p j, b'.scan = .outputs p j → p.outputMode = m) :
    Cells b' (tr ++ [.stored k m]) := by
  refine ⟨fun p j hp => (hgate.trans hbefore).trans (hscan p j hp).symm, fun j hj => ?_, ?_⟩
  · rw [hgate]
    rcases since_snoc.mp hj with hj | ⟨-, hj⟩
    · cases hj
      exact hbefore
    · exact h.gate j hj
  · intro j mail' hj
    unfold SimMail
    rw [hmails, List.getElem?_set] at hj
    rw [since_snoc]
    by_cases hk : k = j
    · subst hk
      rw [if_pos rfl] at hj
      split_ifs at hj
      cases hj
      simp [horigin, FieldEvent.stores]
    · rw [if_neg hk] at hj
      rw [h.mail j mail' hj]
      simp [hk, FieldEvent.stores, SimMail]

/-! ## Steps keep the invariants -/

/-- An event of the scan thread leaves the worker where it is. -/
theorem Polls.scan {worker : WorkerPos} {tr : List FieldEvent} {e : FieldEvent}
    (h : Polls worker tr) (he : e.isScan = true) : Polls worker (tr ++ [e]) := by
  cases worker with
  | idle => trivial
  | passed k =>
      obtain ⟨pre, mid, m, rfl, hmid, hfresh⟩ := h
      refine ⟨pre, mid ++ [e], m, by simp, fun x hx => ?_, hfresh⟩
      rcases List.mem_append.mp hx with hx | hx
      · exact hmid x hx
      · rw [List.mem_singleton.mp hx]
        exact he
  | writing k mail force next =>
      obtain ⟨pre, mid, ⟨m, post, rfl, hmid, hpost⟩, horigin⟩ := h
      refine ⟨pre, mid, ⟨m, post ++ [e], by simp, hmid, fun x hx => ?_⟩, horigin⟩
      rcases List.mem_append.mp hx with hx | hx
      · exact hpost x hx
      · rw [List.mem_singleton.mp hx, he]
        rfl

/-- A poll that clones the mailbox. -/
theorem Polls.clone {b : Bridge} {k : ℕ} {tr : List FieldEvent} {mail : Mail}
    (h : Polls (.passed k) tr) (hcells : Cells b tr) (hmail : b.mails[k]? = some mail)
    (force : Bool) : Polls (.writing k mail force 0) (tr ++ [.cloned k]) := by
  obtain ⟨pre, mid, m, rfl, hmid, hfresh⟩ := h
  refine ⟨pre, mid, ⟨m, [], by simp, hmid, fun x hx => absurd hx List.not_mem_nil⟩, ?_⟩
  rw [hcells.mail k mail hmail, simMail_iff_not_clean hfresh]

/-- What a run keeps. -/
structure Watched (b : Bridge) (tr : List FieldEvent) : Prop where
  cells : Cells b tr
  polls : Polls b.worker tr
  /-- A written value is simulated exactly when its poll is not clean. -/
  writes : ∀ before k v m after, tr = before ++ .wrote k v (some m) :: after →
    ∃ pre mid, PolledAt k before pre mid ∧ (m = .sim ↔ ¬ Clean k pre mid)

/-- The writes of a trace that did not grow by a write. -/
theorem Watched.writes_snoc {b : Bridge} {tr : List FieldEvent} {e : FieldEvent}
    (h : Watched b tr) (he : e.isWrite = false) :
    ∀ before k v m after, tr ++ [e] = before ++ .wrote k v (some m) :: after →
      ∃ pre mid, PolledAt k before pre mid ∧ (m = .sim ↔ ¬ Clean k pre mid) := by
  intro before k v m after hsplit
  rcases snoc_split hsplit with ⟨-, rfl, -⟩ | ⟨rest, -, htr⟩
  · cases he
  · exact h.writes before k v m rest htr

variable {shares : List ModuleShare}

/-- The mode of a value that comes from a mailbox is that of the mailbox. -/
theorem selected_origin {point : PlannedPoint} {mail : Mail} {force : Bool} {m : OperatingMode}
    (h : (selected point mail force).2 = some m) : mail.origin = some m := by
  unfold selected at h
  split_ifs at h
  rcases hpos : point.outputPos.bind fun pos => mail.values[pos]? with _ | v
  · rw [hpos] at h
    cases h
  · rw [hpos] at h
    exact h

/-- The scan thread keeps the invariant. -/
theorem Watched.scanStep {b b' : Bridge} {tr evs : List FieldEvent} {a : FieldAct}
    (h : Watched b tr) (hstep : b.step shares a = some (b', evs))
    (ha : a = .beginOutputs ∨ a = .applyOutputs ∨ ∃ p, a = .beginInvoke p) :
    Watched b' (tr ++ evs) := by
  unfold Bridge.step at hstep
  rcases ha with rfl | rfl | ⟨p, rfl⟩
  · rcases hs : b.scan with _ | q | ⟨q, k⟩
    · simp [hs] at hstep
    · simp only [hs] at hstep
      cases hstep
      exact ⟨h.cells.storeGate rfl rfl (fun p k hp => by cases hp; rfl), h.polls.scan rfl,
        h.writes_snoc rfl⟩
    · simp [hs] at hstep
  · rcases hs : b.scan with _ | q | ⟨q, k⟩
    · simp [hs] at hstep
    · simp [hs] at hstep
    · simp only [hs] at hstep
      rcases hshare : shares[k]? with _ | share
      · rw [hshare] at hstep
        cases hstep
        rw [List.append_nil]
        exact ⟨⟨(fun p k hp => by cases hp), h.cells.gate, h.cells.mail⟩, h.polls, h.writes⟩
      · rw [hshare] at hstep
        cases hstep
        exact ⟨h.cells.storeMail rfl (h.cells.phase q k hs) rfl rfl
          (fun p j hp => by cases hp; rfl), h.polls.scan rfl, h.writes_snoc rfl⟩
  · rcases hs : b.scan with _ | q | ⟨q, k⟩
    · simp only [hs] at hstep
      cases hstep
      exact ⟨h.cells.storeGate rfl rfl (fun p k hp => by cases hp), h.polls.scan rfl,
        h.writes_snoc rfl⟩
    · simp [hs] at hstep
    · simp [hs] at hstep

theorem Watched.poll {b b' : Bridge} {tr evs : List FieldEvent} {k : ℕ} {ok : Bool}
    (h : Watched b tr) (hstep : b.step shares (.poll k ok) = some (b', evs)) :
    Watched b' (tr ++ evs) := by
  simp only [Bridge.step] at hstep
  rcases hw : b.worker with _ | j | ⟨j, mail, force, next⟩
  · simp only [hw] at hstep
    split_ifs at hstep with hok hsim
    · cases hstep
      exact ⟨h.cells.worker rfl rfl rfl (.inr ⟨_, rfl, rfl⟩), trivial, h.writes_snoc rfl⟩
    · cases hstep
      refine ⟨h.cells.worker rfl rfl rfl (.inr ⟨_, rfl, rfl⟩), ?_, h.writes_snoc rfl⟩
      exact ⟨tr, [], b.gate, rfl, fun x hx => absurd hx List.not_mem_nil,
        fun hfresh => hsim (h.cells.gate k hfresh)⟩
    · cases hstep
      refine ⟨h.cells.worker rfl rfl rfl (.inl rfl), trivial, ?_⟩
      rw [List.append_nil]
      exact h.writes
  · simp [hw] at hstep
  · simp [hw] at hstep

theorem Watched.clone {b b' : Bridge} {tr evs : List FieldEvent} (h : Watched b tr)
    (hstep : b.step shares .clone = some (b', evs)) : Watched b' (tr ++ evs) := by
  simp only [Bridge.step] at hstep
  rcases hw : b.worker with _ | k | ⟨k, mail, force, next⟩
  · simp [hw] at hstep
  · simp only [hw] at hstep
    rcases hmail : b.mails[k]? with _ | mail
    · rw [hmail] at hstep
      cases hstep
      exact ⟨h.cells.worker rfl rfl rfl (.inr ⟨_, rfl, rfl⟩), trivial, h.writes_snoc rfl⟩
    · rcases hshare : shares[k]? with _ | share
      · rw [hmail, hshare] at hstep
        cases hstep
        exact ⟨h.cells.worker rfl rfl rfl (.inr ⟨_, rfl, rfl⟩), trivial, h.writes_snoc rfl⟩
      · rw [hmail, hshare] at hstep
        dsimp only at hstep
        split_ifs at hstep
        · cases hstep
          exact ⟨h.cells.worker rfl rfl rfl (.inr ⟨_, rfl, rfl⟩), trivial, h.writes_snoc rfl⟩
        · cases hstep
          have hpolls := h.polls
          rw [hw] at hpolls
          exact ⟨h.cells.worker rfl rfl rfl (.inr ⟨_, rfl, rfl⟩),
            hpolls.clone h.cells hmail _, h.writes_snoc rfl⟩
  · simp [hw] at hstep

theorem Watched.write {b b' : Bridge} {tr evs : List FieldEvent} (h : Watched b tr)
    (hstep : b.step shares .write = some (b', evs)) : Watched b' (tr ++ evs) := by
  simp only [Bridge.step] at hstep
  rcases hw : b.worker with _ | k | ⟨k, mail, force, next⟩
  · simp [hw] at hstep
  · simp [hw] at hstep
  · simp only [hw] at hstep
    rcases hpoint : shares[k]?.bind fun share => share.points[next]? with _ | point
    · rw [hpoint] at hstep
      cases hstep
    · rw [hpoint] at hstep
      cases hstep
      have hpolls := h.polls
      rw [hw] at hpolls
      obtain ⟨pre, mid, ⟨m, post, htr, hmid, hpost⟩, horigin⟩ := hpolls
      refine ⟨h.cells.worker rfl rfl rfl (.inr ⟨_, rfl, rfl⟩),
        ⟨pre, mid, ⟨m, post ++ [.wrote k (selected point mail force).1
          (selected point mail force).2], by rw [htr]; simp, hmid, fun x hx => ?_⟩, horigin⟩, ?_⟩
      · rcases List.mem_append.mp hx with hx | hx
        · exact hpost x hx
        · rw [List.mem_singleton.mp hx]
          rfl
      · intro before j v m' after hsplit
        rcases snoc_split hsplit with ⟨rfl, heq, -⟩ | ⟨rest, -, hrest⟩
        · obtain ⟨rfl, -, hm⟩ := FieldEvent.wrote.inj heq
          refine ⟨pre, mid, ⟨m, post, htr, hmid, hpost⟩, ?_⟩
          rw [selected_origin hm, Option.some_inj] at horigin
          exact horigin
        · exact h.writes before j v m' rest hrest

theorem Watched.endPoll {b b' : Bridge} {tr evs : List FieldEvent} {ok : Bool} (h : Watched b tr)
    (hstep : b.step shares (.endPoll ok) = some (b', evs)) : Watched b' (tr ++ evs) := by
  simp only [Bridge.step] at hstep
  rcases hw : b.worker with _ | k | ⟨k, mail, force, next⟩
  · simp [hw] at hstep
  · simp [hw] at hstep
  · simp only [hw] at hstep
    cases hstep
    refine ⟨h.cells.worker rfl rfl rfl (.inl rfl), trivial, ?_⟩
    rw [List.append_nil]
    exact h.writes

theorem FieldTrace.watched {b : Bridge} {tr : List FieldEvent} (h : FieldTrace shares b tr) :
    Watched b tr := by
  induction h with
  | start =>
      refine ⟨⟨(fun p k hp => by cases hp), fun k hk => absurd hk (not_since_nil _ _), ?_⟩, trivial,
        fun before k v m after hsplit => by simp at hsplit⟩
      intro k mail hmail
      obtain ⟨share, -, rfl⟩ : ∃ share, shares[k]? = some share ∧ _ = mail := by
        simpa [Bridge.new] using hmail
      simp [SimMail, not_since_nil]
  | @step _ _ _ _ a _ hstep ih =>
      cases a with
      | beginInvoke p => exact ih.scanStep hstep (.inr (.inr ⟨p, rfl⟩))
      | beginOutputs => exact ih.scanStep hstep (.inl rfl)
      | applyOutputs => exact ih.scanStep hstep (.inr (.inl rfl))
      | poll k ok => exact ih.poll hstep
      | clone => exact ih.clone hstep
      | write => exact ih.write hstep
      | endPoll ok => exact ih.endPoll hstep

/-- **What a poll writes is not simulated** exactly when the poll is clean, in every interleaving of
the scan thread with the worker. -/
theorem field_write_iff {b : Bridge} {before after : List FieldEvent} {k : ℕ} {v : PlcValue}
    {m : OperatingMode} (h : FieldTrace shares b (before ++ .wrote k v (some m) :: after)) :
    ∃ pre mid, PolledAt k before pre mid ∧ (m ≠ .sim ↔ Clean k pre mid) := by
  obtain ⟨pre, mid, hpoll, hiff⟩ := h.watched.writes before k v m after rfl
  exact ⟨pre, mid, hpoll, by rw [ne_eq, hiff, not_not]⟩

/-- **An invocation of the engine is a publication**: it stores the gate with the mode it starts in
and with the mode of its output phase, and hands the driver the image of that phase. -/
theorem invoke_publishes {e e' : IoEngine} {task : ℕ} {c : Cycle} {inv : Invocation}
    (h : e.invoke task c = some (e', inv)) :
    ∃ p : Publication, p.inputMode = e.publishFieldMode.io.fieldGate ∧
      p.outputMode = inv.mode ∧ p.image = inv.sent ∧ e'.io.fieldGate = inv.mode := by
  obtain ⟨w, ran, ok, trip, hinv, rfl, rfl⟩ := invoke_spec h
  have hlive : w.base.mode = .sim → (w.outputImage c ok).forceSafe = false := by
    intro hmode
    have hok := hinv.succeeded (by rw [hmode]; rfl)
    show w.globalForceSafe ok = false
    simp [IoEngine.globalForceSafe, hmode, hok]
  refine ⟨⟨e.base.mode, w.base.mode, w.outputImage c ok, hlive⟩, rfl, rfl, rfl, ?_⟩
  show (w.applyOutputs c).io.fieldGate = w.base.mode
  unfold IoEngine.applyOutputs
  dsimp only
  split_ifs
  · rfl
  · cases w.publishFieldMode.faultOnModuleBad <;> rfl

/-! ## Two runs -/

/-- Steps one after another, with their trace. -/
def Bridge.run (shares : List ModuleShare) (b : Bridge) :
    List FieldAct → Option (Bridge × List FieldEvent)
  | [] => some (b, [])
  | a :: acts => do
      let (b, evs) ← b.step shares a
      let (b, later) ← b.run shares acts
      pure (b, evs ++ later)

theorem FieldTrace.run {b b' : Bridge} {tr evs : List FieldEvent} {acts : List FieldAct}
    (h : FieldTrace shares b tr) (hrun : b.run shares acts = some (b', evs)) :
    FieldTrace shares b' (tr ++ evs) := by
  induction acts generalizing b tr evs with
  | nil =>
      cases hrun
      rwa [List.append_nil]
  | cons a acts ih =>
      rw [Bridge.run] at hrun
      obtain ⟨⟨b₁, e₁⟩, h₁, hrun⟩ := Option.bind_eq_some_iff.mp hrun
      obtain ⟨⟨b₂, e₂⟩, h₂, hrun⟩ := Option.bind_eq_some_iff.mp hrun
      cases hrun
      rw [← List.append_assoc]
      exact ih (h.step h₁) h₂

/-- One module with one output. -/
def oneModule : List ModuleShare := [⟨[0], [⟨some 0, .bool false⟩], .forceSafe⟩]

/-- An invocation in one mode that sends one value. -/
def publish (mode : OperatingMode) (value : PlcValue) : Publication :=
  ⟨mode, mode, ⟨[value], false⟩, fun _ => rfl⟩

/-- A poll after an invocation in RUN writes its value. -/
theorem field_write_run :
    ∃ b before, FieldTrace oneModule b (before ++ [.wrote 0 (.int 7) (some .run)]) ∧
      ∃ pre mid, PolledAt 0 before pre mid ∧ Clean 0 pre mid := by
  let before : List FieldEvent :=
    [.gate .run, .gate .run, .stored 0 .run, .loaded 0 .run, .cloned 0]
  have htrace : FieldTrace oneModule _ (before ++ [.wrote 0 (.int 7) (some .run)]) :=
    (FieldTrace.start).run (show (Bridge.new oneModule).run oneModule
      [.beginInvoke (publish .run (.int 7)), .beginOutputs, .applyOutputs, .applyOutputs,
        .poll 0 true, .clone, .write] = some _ from rfl)
  obtain ⟨pre, mid, hpoll, hclean⟩ := field_write_iff htrace
  exact ⟨_, before, htrace, pre, mid, hpoll, hclean.mp (by decide)⟩

/-- SIM, then RUN: a poll between the gate store and the mailbox store of the RUN invocation passes
the gate and writes the simulated value. -/
theorem field_write_simulated :
    ∃ b, FieldTrace oneModule b
      [.gate .sim, .gate .sim, .stored 0 .sim, .gate .run, .loaded 0 .run, .cloned 0,
        .wrote 0 (.int 7) (some .sim)] :=
  ⟨_, (FieldTrace.start).run (show (Bridge.new oneModule).run oneModule
    [.beginInvoke (publish .sim (.int 7)), .beginOutputs, .applyOutputs, .applyOutputs,
      .beginInvoke (publish .run (.int 8)), .poll 0 true, .clone, .write] = some _ from rfl)⟩

end SoftPlc.Io
