import SoftPlc.Io.DoubleBuffer
import SoftPlc.Io.IoMap
import SoftPlc.Io.ModbusBatches
import SoftPlc.Lib.Since

/-!
# Inputs of the Modbus bridge

The worker and the scan thread share a double buffer and a status for each module
(`plc-io-modbus/src/driver.rs`). A poll reads the groups one after the other into `last_inputs`, in
place; then it sets the status and publishes the inputs with one quality. The scan reads the buffer and
then the status, at another moment. A run interleaves the steps of the two, and its trace lists what
happened.

`good_inputs_from_one_poll`: what a scan takes with quality Good was decoded in one poll whose reads all
succeeded, and later scans take later polls. Inputs that are mixed are published too, after a read that
failed half way, but only as Bad; a poll that succeeds has read every group again.
-/

namespace SoftPlc.Io.Modbus

open SoftPlc.Lib

/-! ## State -/

/-- Source: `plc-io/src/driver.rs`, `InputUpdate`. -/
structure InputUpdate where
  values : List PlcValue
  quality : List Quality

/-- Source: `driver.rs`, `ModStatus`. -/
structure ModStatus where
  quality : Quality
  lastOk : Option ℕ

/-- What the threads keep of a module. Source: `driver.rs`, `ModuleShare` and `ModRt`, the part that the
inputs use. -/
structure ModCell where
  inputs : DoubleBuffer
  status : ModStatus
  lastInputs : List PlcValue
  connected : Bool

/-- How a poll goes on after it has marked the module. -/
inductive After where
  | connect
  | write
  | done

/-- Where a poll is. -/
inductive PollPos where
  | connect
  | reading (groups : List Group)
  /-- About to set the status. -/
  | mark (q : Quality) (after : After)
  /-- About to fill the back buffer. -/
  | fill (q : Quality) (after : After)
  /-- About to swap, with the number to store. -/
  | swap (q : Quality) (after : After) (next : ℕ)
  | store (after : After) (next : ℕ)
  /-- About to load the gate and to write the outputs. -/
  | write

/-- The bridge with both threads. -/
structure InputBridge where
  clock : ℕ
  cells : List ModCell
  /-- The poll that goes on, and its module. -/
  worker : Option (ℕ × PollPos)
  /-- The scan that goes on: the next module, what it has so far, and where its read is. -/
  scan : Option (ℕ × InputUpdate × DoubleBuffer.ReadPos)

/-- What happens. -/
inductive InputEvent where
  /-- A poll of a module starts. -/
  | began (k : ℕ)
  /-- A group of a module was read. -/
  | answered (k : ℕ) (g : Group) (data : Payload)
  /-- The reads of a poll succeeded. -/
  | readOk (k : ℕ)
  /-- A snapshot of a module came to the front. -/
  | published (k : ℕ) (snap : Snapshot)
  /-- The scan cloned the front of a module. -/
  | cloned (k : ℕ)
  /-- The scan has its inputs. -/
  | overlaid (out : InputUpdate)

namespace InputEvent

/-- The start of a poll. -/
def begins (k : ℕ) : InputEvent → Bool
  | .began j => j == k
  | _ => false

/-- A publication of a module. -/
def publishes (k : ℕ) : InputEvent → Bool
  | .published j _ => j == k
  | _ => false

/-- A clone of a module. -/
def clones (k : ℕ) : InputEvent → Bool
  | .cloned j => j == k
  | _ => false

end InputEvent

/-! ## Steps of a poll -/

/-- Source: `driver.rs`, `t.elapsed() > stale`. -/
def ModStatus.stale (status : ModStatus) (plan : PlannedModule) (clock : ℕ) : Bool :=
  match status.lastOk with
  | some t => plan.staleMs < clock - t
  | none => false

/-- Source: `driver.rs`, `effective_quality`. -/
def effectiveQuality (status : ModStatus) (plan : PlannedModule) (clock : ℕ) : Quality :=
  if status.quality = .bad then .bad
  else
    match status.lastOk with
    | some t => if plan.staleMs < clock - t then .bad else status.quality
    | none => .bad

def After.pos : After → Option PollPos
  | .connect => some .connect
  | .write => some .write
  | .done => none

/-- What a poll does next. -/
inductive PollAct where
  /-- Connect; `ok` says that it succeeds. -/
  | connect (ok : Bool)
  /-- Read the next group, or end the reads. -/
  | read (answer : Except String Payload)
  | mark
  | fill
  | swap
  | store
  /-- Load the gate and write the outputs. -/
  | write (sim ok : Bool)

/-- What a step of a poll leaves: the module, where the poll is, and what happened. -/
abbrev PollStep := ModCell × Option PollPos × List InputEvent

/-- A failed read or write. Source: `driver.rs`, `self.stream = None; self.mark_bad()` in
`ModRt::poll`. -/
def ModCell.drop (cell : ModCell) (evs : List InputEvent) : PollStep :=
  ({ cell with connected := false }, some (.mark .bad .done), evs)

/-- The answer to a read of a group. Source: `driver.rs`, the `for` of `ModRt::read_inputs`. -/
def ModCell.answer (k : ℕ) (cell : ModCell) (g : Group) (groups : List Group) :
    Except String Payload → PollStep
  | .error _ => cell.drop []
  | .ok data =>
      match storeGroup g.start data g.members cell.lastInputs with
      | (last, .ok ()) => ({ cell with lastInputs := last }, some (.reading groups), [.answered k g data])
      | (last, .error _) => ModCell.drop { cell with lastInputs := last } [.answered k g data]

/-- One step of a poll of the module `k`. Source: `driver.rs`, `ModRt::poll`, `mark_good`, `mark_bad`,
`set_status`, `publish` and `read_inputs`. -/
def pollStep (plan : PlannedModule) (clock k : ℕ) (cell : ModCell) : PollPos → PollAct → Option PollStep
  | .connect, .connect ok =>
      if cell.connected || ok then
        some ({ cell with connected := true }, some (.reading (readGroups plan.points)), [])
      else some (cell, some (.mark .bad .done), [])
  | .reading [], .read _ => some (cell, some (.mark .good .write), [.readOk k])
  | .reading (g :: groups), .read answer => some (cell.answer k g groups answer)
  | .mark q after, .mark =>
      let status := ⟨q, if q = .good then some clock else cell.status.lastOk⟩
      some ({ cell with status := status }, if cell.lastInputs = [] then after.pos else some (.fill q after), [])
  | .fill q after, .fill =>
      (cell.inputs.fill cell.lastInputs (List.replicate cell.lastInputs.length q)).map fun filled =>
        ({ cell with inputs := filled }, some (.swap q after cell.inputs.next), [])
  | .swap _ after next, .swap =>
      some ({ cell with inputs := cell.inputs.swap }, some (.store after next),
        [.published k cell.inputs.back])
  | .store after next, .store =>
      some ({ cell with inputs := cell.inputs.store next }, after.pos, [])
  | .write, .write sim ok => if sim || ok then some (cell, none, []) else some (cell.drop [])
  | _, _ => none

/-! ## Steps of a scan -/

/-- Source: `driver.rs`, `input_slots` in `split_module`. -/
def inputSlots (points : List PlannedPoint) : List ℕ :=
  place PlannedPoint.slot points (List.replicate (points.filterMap PlannedPoint.inputPos).length 0)

/-- An update has a slot. -/
def InputUpdate.Has (out : InputUpdate) (slot : ℕ) : Prop :=
  slot < out.values.length ∧ slot < out.quality.length

instance (out : InputUpdate) (slot : ℕ) : Decidable (out.Has slot) := instDecidableAnd

/-- Give the `i`-th input to its slot. Source: `driver.rs`, the body of the inner `for` of
`ModbusBridge::overlay_inputs`. -/
def overlaySlot (moduleQ : Quality) (snap : Snapshot) (i slot : ℕ) (out : InputUpdate) : InputUpdate :=
  if out.Has slot then
    { values :=
        match snap.values[i]? with
        | some value => out.values.set slot value
        | none => out.values
      quality :=
        let pointQ := (snap.quality[i]?).getD .bad
        out.quality.set slot (if moduleQ = .bad then .bad else pointQ) }
  else out

/-- The slots from the `i`-th one on. -/
def overlayFrom (moduleQ : Quality) (snap : Snapshot) : ℕ → List ℕ → InputUpdate → InputUpdate
  | _, [], out => out
  | i, slot :: slots, out => overlayFrom moduleQ snap (i + 1) slots (overlaySlot moduleQ snap i slot out)

/-- One step of a scan that has come to the module `k`. Source: `driver.rs`, the outer `for` of
`ModbusBridge::overlay_inputs`. -/
def overlayStep (plan : PlannedModule) (clock k : ℕ) (cell : ModCell) (out : InputUpdate) :
    DoubleBuffer.ReadPos → Option ((ℕ × InputUpdate × DoubleBuffer.ReadPos) × List InputEvent)
  | .done snap =>
      let moduleQ := effectiveQuality cell.status plan clock
      some ((k + 1, overlayFrom moduleQ snap 0 (inputSlots plan.points) out, .load 0), [])
  | .clone attempts before =>
      (cell.inputs.readStep 8 (.clone attempts before)).map fun pos => ((k, out, pos), [.cloned k])
  | pos => (cell.inputs.readStep 8 pos).map fun pos => ((k, out, pos), [])

/-! ## Runs -/

/-- What the threads can do next. -/
inductive InputAct where
  /-- Time passes. -/
  | tick (d : ℕ)
  /-- Worker: start a poll of a module. -/
  | begin (k : ℕ)
  /-- Worker: go on. -/
  | poll (a : PollAct)
  /-- Scan: start to overlay inputs. -/
  | beginScan (out : InputUpdate)
  /-- Scan: go on. -/
  | overlay

variable (plans : List PlannedModule)

/-- One step of one thread. Source: `driver.rs`, `worker_loop`, `ModRt::poll` and
`ModbusBridge::overlay_inputs`. -/
def InputBridge.step (b : InputBridge) : InputAct → Option (InputBridge × List InputEvent)
  | .tick d => some ({ b with clock := b.clock + d }, [])
  | .begin k =>
      match b.worker, b.cells[k]?, plans[k]? with
      | none, some cell, some plan =>
          let pos := if cell.status.stale plan b.clock then .mark .bad .connect else .connect
          some ({ b with worker := some (k, pos) }, [.began k])
      | _, _, _ => none
  | .poll a =>
      match b.worker with
      | none => none
      | some (k, pos) =>
          match b.cells[k]?, plans[k]? with
          | some cell, some plan =>
              (pollStep plan b.clock k cell pos a).map fun (cell, pos, evs) =>
                ({ b with cells := b.cells.set k cell, worker := pos.map fun pos => (k, pos) }, evs)
          | _, _ => none
  | .beginScan out =>
      match b.scan with
      | none => some ({ b with scan := some (0, out, .load 0) }, [])
      | some _ => none
  | .overlay =>
      match b.scan with
      | none => none
      | some (k, out, pos) =>
          match b.cells[k]?, plans[k]? with
          | some cell, some plan =>
              (overlayStep plan b.clock k cell out pos).map fun (scan, evs) =>
                ({ b with scan := some scan }, evs)
          | _, _ => some ({ b with scan := none }, [.overlaid out])

/-- Source: `driver.rs`, `split_module`, the part that the inputs use. -/
def ModCell.new (plan : PlannedModule) : ModCell :=
  let slots := (plan.points.filterMap PlannedPoint.inputPos).length
  let defaults := inputDefaults plan.points
  { inputs := ((DoubleBuffer.new slots).publish defaults (List.replicate slots .bad)).getD (.new slots)
    status := ⟨.bad, none⟩
    lastInputs := defaults
    connected := false }

/-- Source: `driver.rs`, `ModbusBridge::new`. -/
def InputBridge.new (clock : ℕ) : InputBridge := ⟨clock, plans.map ModCell.new, none, none⟩

/-- Interleavings of the two threads with their traces. -/
inductive InputTrace : InputBridge → List InputEvent → Prop
  | start (clock : ℕ) : InputTrace (.new plans clock) []
  | step {b b' : InputBridge} {tr evs : List InputEvent} {a : InputAct} (h : InputTrace b tr)
      (hstep : b.step plans a = some (b', evs)) : InputTrace b' (tr ++ evs)

/-! ## What a snapshot promises -/

/-- An event of the `i`-th poll of a module. -/
def InPoll (k i : ℕ) (e : InputEvent) (tr : List InputEvent) : Prop :=
  ∃ pre post, tr = pre ++ e :: post ∧ pre.countP (InputEvent.begins k) = i

/-- A poll decoded a value for a point. -/
def DecodedIn (k i : ℕ) (tr : List InputEvent) (p : PlannedPoint) (v : PlcValue) : Prop :=
  ∃ g data, InPoll k i (.answered k g data) tr ∧ p ∈ g.members ∧ pointValue g.start data p = .ok v

/-- The place of a point has what a poll decoded for it. -/
def Decoded (k i : ℕ) (tr : List InputEvent) (values : List PlcValue) (p : PlannedPoint) : Prop :=
  ∃ pos v, p.inputPos = some pos ∧ values[pos]? = some v ∧ DecodedIn k i tr p v

/-- The values of a poll whose reads all succeeded. -/
structure FromPoll (plan : PlannedModule) (k i : ℕ) (tr : List InputEvent) (values : List PlcValue) :
    Prop where
  readOk : InPoll k i (.readOk k) tr
  decoded : ∀ p ∈ plan.points, p.direction = .input → Decoded k i tr values p

section Promises

variable {plans} {plan : PlannedModule} {k i : ℕ} {tr evs : List InputEvent} {cell cell' : ModCell}

theorem InPoll.append {e : InputEvent} (h : InPoll k i e tr) (evs : List InputEvent) :
    InPoll k i e (tr ++ evs) := by
  obtain ⟨pre, post, rfl, hcount⟩ := h
  exact ⟨pre, post ++ evs, by rw [List.append_assoc, List.cons_append], hcount⟩

theorem Decoded.append {values : List PlcValue} {p : PlannedPoint} (h : Decoded k i tr values p)
    (evs : List InputEvent) : Decoded k i (tr ++ evs) values p := by
  obtain ⟨pos, v, hpos, hv, g, data, hpoll, hp, hvalue⟩ := h
  exact ⟨pos, v, hpos, hv, g, data, hpoll.append evs, hp, hvalue⟩

theorem FromPoll.append {values : List PlcValue} (h : FromPoll plan k i tr values)
    (evs : List InputEvent) : FromPoll plan k i (tr ++ evs) values :=
  ⟨h.readOk.append evs, fun p hp hin => (h.decoded p hp hin).append evs⟩

/-- The number of the poll that goes on. -/
def pollCount (k : ℕ) (tr : List InputEvent) : ℕ := tr.countP (InputEvent.begins k)

theorem pollCount_append (h : ∀ e ∈ evs, e.begins k = false) :
    pollCount k (tr ++ evs) = pollCount k tr := by
  unfold pollCount
  rw [List.countP_append, List.countP_eq_zero.mpr fun e he => ne_true_of_eq_false (h e he), Nat.add_zero]

/-- A group that was stored. -/
theorem storeGroup_ok {start : ℕ} {data : Payload} {members : List PlannedPoint} {last last' : List PlcValue}
    (h : storeGroup start data members last = (last', .ok ())) : ∃ value : PlannedPoint → PlcValue,
      (∀ p ∈ members, pointValue start data p = .ok (value p)) ∧ last' = place value members last := by
  have hvalueOf : ∀ p value, pointValue start data p = .ok value →
      ((pointValue start data p).toOption).getD (.bool false) = value := by
    intro p value h
    rw [h]
    rfl
  refine ⟨fun p => ((pointValue start data p).toOption).getD (.bool false), ?_⟩
  induction members generalizing last with
  | nil =>
      cases h
      exact ⟨(fun p hp => absurd hp List.not_mem_nil), rfl⟩
  | cons p ps ih =>
      unfold storeGroup at h
      split at h
      · cases h
      · next value hvalue =>
          obtain ⟨hvalues, hlast⟩ := ih h
          refine ⟨?_, ?_⟩
          · intro q hq
            rcases List.mem_cons.mp hq with rfl | hq
            · dsimp only
              rw [hvalueOf q value hvalue, hvalue]
            · exact hvalues q hq
          · rw [hlast, place_cons]
            congr 1
            unfold place storeValue
            rw [List.foldl_cons, List.foldl_nil]
            dsimp only
            rw [hvalueOf p value hvalue]

theorem storeGroup_length {start : ℕ} {data : Payload} {members : List PlannedPoint} (last : List PlcValue) :
    (storeGroup start data members last).1.length = last.length := by
  induction members generalizing last with
  | nil => rfl
  | cons p ps ih =>
      unfold storeGroup
      split
      · rfl
      · rw [ih]
        unfold storeValue
        split
        · exact List.length_set
        · rfl

/-- What was decoded stays, or is decoded again in the same poll. -/
theorem Decoded.store {g : Group} {data : Payload} {last last' : List PlcValue} {p : PlannedPoint}
    (hvalid : ValidPoints plan.points) (hmembers : ∀ q ∈ g.members, q ∈ plan.points)
    (hlen : last.length = (plan.points.filterMap PlannedPoint.inputPos).length)
    (hin : p.direction = .input) (hmem : p ∈ plan.points)
    (hstore : storeGroup g.start data g.members last = (last', .ok ()))
    (h : p ∈ g.members ∨ Decoded k (pollCount k tr) tr last p) :
    Decoded k (pollCount k tr) (tr ++ [.answered k g data]) last' p := by
  obtain ⟨value, hvalue, rfl⟩ := storeGroup_ok hstore
  obtain ⟨pos, hpos⟩ := (hvalid.sound p hmem).input hin
  have hunique : ∀ q ∈ g.members, q.inputPos = some pos → q = p :=
    fun q hq hqpos => hvalid.inputPos_inj hmem (hmembers q hq) hpos hqpos
  by_cases hp : p ∈ g.members
  · have hlt := hvalid.inputPos_lt hmem hpos
    exact ⟨pos, value p, hpos, place_get hp hpos hunique (hlen ▸ hlt), g, data, ⟨tr, [], rfl, rfl⟩, hp,
      hvalue p hp⟩
  · obtain ⟨pos', v, hpos', hv, hdecoded⟩ := (h.resolve_left hp).append [.answered k g data]
    obtain rfl : pos = pos' := Option.some.inj (hpos.symm.trans hpos')
    refine ⟨pos, v, hpos, ?_, hdecoded⟩
    rw [place_other]
    · exact hv
    · intro q hq hqpos
      exact hp (hunique q hq hqpos ▸ hq)

/-! ## Invariants -/

/-- The last publication of a module is a snapshot. -/
def LastPublished (k : ℕ) (tr : List InputEvent) (snap : Snapshot) : Prop :=
  ∃ pre post, tr = pre ++ .published k snap :: post ∧ ∀ e ∈ post, e.publishes k = false

/-- What a run keeps of a module: what is good in front was published last. -/
structure CellOk (plan : PlannedModule) (k : ℕ) (cell : ModCell) (tr : List InputEvent) : Prop where
  length : cell.lastInputs.length = (plan.points.filterMap PlannedPoint.inputPos).length
  front : .good ∈ cell.inputs.front.quality → LastPublished k tr cell.inputs.front

/-- Each good publication of a module has the values of the poll that goes on. -/
def PublishedOk (plan : PlannedModule) (k : ℕ) (tr : List InputEvent) : Prop :=
  EachAt (InputEvent.published k)
    (fun pre snap => .good ∈ snap.quality → FromPoll plan k (pollCount k pre) pre snap.values) tr

/-- What a run keeps of the poll that goes on. -/
def PollOk (plan : PlannedModule) (k : ℕ) (cell : ModCell) (tr : List InputEvent) : PollPos → Prop
  | .reading groups => ∃ before, readGroups plan.points = before ++ groups ∧
      ∀ g ∈ before, ∀ p ∈ g.members, Decoded k (pollCount k tr) tr cell.lastInputs p
  | .mark q _ | .fill q _ => q = .good → FromPoll plan k (pollCount k tr) tr cell.lastInputs
  | .swap _ _ _ => .good ∈ cell.inputs.back.quality →
      FromPoll plan k (pollCount k tr) tr cell.inputs.back.values
  | _ => True

theorem LastPublished.append {snap : Snapshot} (h : LastPublished k tr snap)
    (hevs : ∀ e ∈ evs, e.publishes k = false) : LastPublished k (tr ++ evs) snap := by
  obtain ⟨pre, post, rfl, hpost⟩ := h
  refine ⟨pre, post ++ evs, by rw [List.append_assoc, List.cons_append], ?_⟩
  intro e he
  rcases List.mem_append.mp he with he | he
  · exact hpost e he
  · exact hevs e he

theorem CellOk.append (h : CellOk plan k cell tr) (hevs : ∀ e ∈ evs, e.publishes k = false) :
    CellOk plan k cell (tr ++ evs) := ⟨h.length, fun hgood => (h.front hgood).append hevs⟩

theorem PublishedOk.append (h : PublishedOk plan k tr) (hevs : ∀ e ∈ evs, e.publishes k = false) :
    PublishedOk plan k (tr ++ evs) := by
  apply EachAt.append h
  intro snap hsnap
  have hfalse := hevs _ hsnap
  simp [InputEvent.publishes] at hfalse

theorem PollOk.append {pos : PollPos} (h : PollOk plan k cell tr pos)
    (hevs : ∀ e ∈ evs, e.begins k = false) : PollOk plan k cell (tr ++ evs) pos := by
  cases pos with
  | reading groups =>
      obtain ⟨before, hgroups, hbefore⟩ := h
      refine ⟨before, hgroups, ?_⟩
      intro g hg p hp
      rw [pollCount_append hevs]
      exact (hbefore g hg p hp).append evs
  | mark q after | fill q after =>
      intro hq
      rw [pollCount_append hevs]
      exact (h hq).append evs
  | swap q after next =>
      intro hq
      rw [pollCount_append hevs]
      exact (h hq).append evs
  | _ => trivial

/-! ## Steps keep the invariants -/

/-- What a step of a poll keeps: the module, its publications, and the poll if it goes on. -/
structure StepOk (plan : PlannedModule) (k : ℕ) (tr : List InputEvent) (r : PollStep) : Prop where
  cell : CellOk plan k r.1 (tr ++ r.2.2)
  published : PublishedOk plan k (tr ++ r.2.2)
  poll : ∀ pos ∈ r.2.1, PollOk plan k r.1 (tr ++ r.2.2) pos
  own : ∀ e ∈ r.2.2, (∀ j, e.begins j = false) ∧ (∀ j, e.clones j = false) ∧
    (∀ j, j ≠ k → e.publishes j = false) ∧ ∀ out, e ≠ .overlaid out

/-- A step whose events are no publications. -/
theorem StepOk.quiet {pos : Option PollPos} (hcell : CellOk plan k cell tr) (hpub : PublishedOk plan k tr)
    (hinputs : cell'.inputs.front = cell.inputs.front)
    (hlength : cell'.lastInputs.length = cell.lastInputs.length)
    (hpoll : ∀ p ∈ pos, PollOk plan k cell' (tr ++ evs) p)
    (hevs : ∀ e ∈ evs, (∃ g data, e = .answered k g data) ∨ e = .readOk k) :
    StepOk plan k tr (cell', pos, evs) := by
  have hquiet : ∀ e ∈ evs, e.publishes k = false := by
    intro e he
    rcases hevs e he with ⟨g, data, rfl⟩ | rfl <;> rfl
  refine ⟨?_, hpub.append hquiet, hpoll, ?_⟩
  · apply CellOk.append _ hquiet
    refine ⟨hlength.trans hcell.length, ?_⟩
    rw [hinputs]
    exact hcell.front
  · intro e he
    rcases hevs e he with ⟨g, data, rfl⟩ | rfl
    · exact ⟨fun _ => rfl, fun _ => rfl, fun _ _ => rfl, (fun _ h => nomatch h)⟩
    · exact ⟨fun _ => rfl, fun _ => rfl, fun _ _ => rfl, (fun _ h => nomatch h)⟩

/-- A poll that fails marks the module bad. -/
theorem StepOk.drop (hcell : CellOk plan k cell tr) (hpub : PublishedOk plan k tr)
    (hevs : ∀ e ∈ evs, (∃ g data, e = .answered k g data) ∨ e = .readOk k) :
    StepOk plan k tr (cell.drop evs) := by
  refine StepOk.quiet hcell hpub rfl rfl ?_ hevs
  rintro _ ⟨⟩ hgood
  cases hgood

/-- An answer is decoded, or the poll fails. -/
theorem ModCell.answer_ok {g : Group} {groups : List Group} {answer : Except String Payload}
    (hvalid : ValidPoints plan.points) (hcell : CellOk plan k cell tr) (hpub : PublishedOk plan k tr)
    (hpoll : PollOk plan k cell tr (.reading (g :: groups))) :
    StepOk plan k tr (cell.answer k g groups answer) := by
  obtain ⟨before, hgroups, hbefore⟩ := hpoll
  unfold ModCell.answer
  split
  · exact StepOk.drop hcell hpub (fun _ h => absurd h List.not_mem_nil)
  · next data =>
      have hevs : ∀ e ∈ [InputEvent.answered k g data],
          (∃ g data, e = .answered k g data) ∨ e = .readOk k := by
        intro e he
        rw [List.mem_singleton.mp he]
        exact .inl ⟨g, data, rfl⟩
      have hlength := @storeGroup_length g.start data g.members
        cell.lastInputs
      -- The points of the groups are those of the module.
      have hread : ∀ g' ∈ before ++ [g], ∀ p ∈ g'.members, p ∈ plan.points ∧ p.direction = .input := by
        intro g' hg' p hp
        apply (mem_readGroups hvalid).mp
        rw [hgroups, List.append_cons]
        exact List.mem_flatMap.mpr ⟨g', List.mem_append_left _ hg', hp⟩
      split
      · next last hstore =>
          rw [hstore] at hlength
          refine StepOk.quiet hcell hpub rfl hlength ?_ hevs
          rintro _ ⟨⟩
          refine ⟨before ++ [g], by rw [hgroups, List.append_cons], ?_⟩
          intro g' hg' p hp
          obtain ⟨hmem, hin⟩ := hread g' hg' p hp
          rw [pollCount_append fun e he => by rw [List.mem_singleton.mp he]; rfl]
          apply Decoded.store hvalid _ hcell.length hin hmem hstore
          · rcases List.mem_append.mp hg' with hg' | hg'
            · exact .inr (hbefore g' hg' p hp)
            · rw [List.mem_singleton.mp hg'] at hp
              exact .inl hp
          · intro q hq
            exact (hread g (List.mem_append_right _ (List.mem_singleton_self g)) q hq).1
      · next last e hstore =>
          rw [hstore] at hlength
          apply StepOk.drop _ hpub hevs
          exact ⟨hlength.trans hcell.length, hcell.front⟩

/-- **One step of a poll.** -/
theorem pollStep_ok {clock : ℕ} {pos : PollPos} {a : PollAct} {r : PollStep}
    (hvalid : ValidPoints plan.points) (hcell : CellOk plan k cell tr) (hpub : PublishedOk plan k tr)
    (hpoll : PollOk plan k cell tr pos) (h : pollStep plan clock k cell pos a = some r) :
    StepOk plan k tr r := by
  have hnone : ∀ e ∈ ([] : List InputEvent), (∃ g data, e = .answered k g data) ∨ e = .readOk k :=
    fun _ h => absurd h List.not_mem_nil
  have hafter : ∀ {after : After} {cell : ModCell} {tr : List InputEvent}, ∀ pos ∈ after.pos,
      PollOk plan k cell tr pos := by
    intro after cell tr pos hpos
    cases after <;> cases hpos <;> trivial
  unfold pollStep at h
  split at h
  · next ok =>
      split_ifs at h <;> cases h
      · refine StepOk.quiet hcell hpub rfl rfl ?_ hnone
        rintro _ ⟨⟩
        exact ⟨[], rfl, fun _ h => absurd h List.not_mem_nil⟩
      · refine StepOk.quiet hcell hpub rfl rfl ?_ hnone
        rintro _ ⟨⟩ hgood
        cases hgood
  · cases h
    refine StepOk.quiet hcell hpub rfl rfl ?_ ?_
    · rintro _ ⟨⟩ -
      obtain ⟨before, hgroups, hbefore⟩ := hpoll
      rw [List.append_nil] at hgroups
      have hcount : pollCount k (tr ++ [.readOk k]) = pollCount k tr :=
        pollCount_append fun e he => by rw [List.mem_singleton.mp he]; rfl
      rw [hcount]
      refine ⟨⟨tr, [], rfl, rfl⟩, ?_⟩
      intro p hp hin
      -- Every input is in a group.
      obtain ⟨g, hg, hpg⟩ := List.mem_flatMap.mp ((mem_readGroups hvalid).mpr ⟨hp, hin⟩)
      exact (hbefore g (hgroups ▸ hg) p hpg).append _
    · intro e he
      exact .inr (List.mem_singleton.mp he)
  · cases h
    exact ModCell.answer_ok hvalid hcell hpub hpoll
  · next q after =>
      cases h
      refine StepOk.quiet hcell hpub rfl rfl ?_ hnone
      intro pos hpos
      split_ifs at hpos
      · exact hafter pos hpos
      · cases hpos
        rw [List.append_nil]
        exact hpoll
  · next q after =>
      obtain ⟨filled, hfill, rfl⟩ := Option.map_eq_some_iff.mp h
      obtain ⟨hfront, -, hback⟩ := DoubleBuffer.front_fill hfill
      refine StepOk.quiet hcell hpub hfront rfl ?_ hnone
      rintro _ ⟨⟩ hgood
      rw [List.append_nil]
      dsimp only at hgood ⊢
      rw [hback] at hgood ⊢
      exact hpoll (List.eq_of_mem_replicate hgood).symm
  · next q after next =>
      cases h
      refine ⟨⟨hcell.length, fun _ => ⟨tr, [], rfl, (fun _ h => absurd h List.not_mem_nil)⟩⟩, ?_, ?_, ?_⟩
      · apply hpub.snoc
        rintro snap ⟨⟩
        exact hpoll
      · rintro _ ⟨⟩
        trivial
      · intro e he
        rw [List.mem_singleton.mp he]
        refine ⟨fun _ => rfl, fun _ => rfl, ?_, (fun _ h => nomatch h)⟩
        intro j hj
        exact beq_eq_false_iff_ne.mpr (Ne.symm hj)
  · cases h
    exact StepOk.quiet hcell hpub rfl rfl hafter hnone
  · split_ifs at h <;> cases h
    · exact StepOk.quiet hcell hpub rfl rfl (fun _ h => nomatch h) hnone
    · exact StepOk.drop hcell hpub hnone
  · cases h

end Promises

/-! ## What a scan gives -/

section Overlay

variable {points : List PlannedPoint} {p : PlannedPoint} {moduleQ : Quality} {snap : Snapshot}
  {out : InputUpdate} {slots : List ℕ} {slot : ℕ}

theorem inputSlots_get (hvalid : ValidPoints points) (hp : p ∈ points) {pos : ℕ}
    (hpos : p.inputPos = some pos) : (inputSlots points)[pos]? = some p.slot := by
  apply place_get hp hpos (fun q hq hqpos => hvalid.inputPos_inj hp hq hpos hqpos)
  rw [List.length_replicate]
  exact hvalid.inputPos_lt hp hpos

/-- Each place is that of an input. -/
theorem inputSlots_point (hvalid : ValidPoints points) {pos : ℕ}
    (h : (inputSlots points)[pos]? = some slot) : ∃ p ∈ points, p.direction = .input ∧
      p.inputPos = some pos ∧ p.slot = slot := by
  obtain ⟨hlt, -⟩ := List.getElem?_eq_some_iff.mp h
  have hmem : pos ∈ points.filterMap PlannedPoint.inputPos := by
    rw [hvalid.positions]
    unfold inputSlots at hlt
    rw [place_length, List.length_replicate] at hlt
    exact List.mem_range.mpr hlt
  obtain ⟨p, hp, hpos⟩ := List.mem_filterMap.mp hmem
  refine ⟨p, hp, ?_, hpos, Option.some.inj ((inputSlots_get hvalid hp hpos).symm.trans h)⟩
  have hsound := hvalid.sound p hp
  cases hdirection : p.direction with
  | input => rfl
  | output =>
      rw [(hsound.output hdirection).1] at hpos
      cases hpos
  | memory => exact absurd hdirection hsound.backed

theorem has_overlaySlot (i s : ℕ) : (overlaySlot moduleQ snap i s out).Has slot ↔ out.Has slot := by
  unfold overlaySlot
  split
  · unfold InputUpdate.Has
    dsimp only
    rw [List.length_set]
    split
    · rw [List.length_set]
    · rfl
  · rfl

theorem overlaySlot_other {i s : ℕ} (hne : s ≠ slot) :
    (overlaySlot moduleQ snap i s out).values[slot]? = out.values[slot]? ∧
      (overlaySlot moduleQ snap i s out).quality[slot]? = out.quality[slot]? := by
  unfold overlaySlot
  split
  · refine ⟨?_, List.getElem?_set_ne hne⟩
    dsimp only
    split
    · exact List.getElem?_set_ne hne
    · rfl
  · exact ⟨rfl, rfl⟩

theorem overlaySlot_get {i : ℕ} (hhas : out.Has slot) :
    (∀ v, snap.values[i]? = some v → (overlaySlot moduleQ snap i slot out).values[slot]? = some v) ∧
      (overlaySlot moduleQ snap i slot out).quality[slot]? =
        some (if moduleQ = .bad then .bad else (snap.quality[i]?).getD .bad) := by
  unfold overlaySlot
  rw [if_pos hhas]
  refine ⟨?_, List.getElem?_set_self hhas.2⟩
  intro v hv
  dsimp only
  rw [hv]
  exact List.getElem?_set_self hhas.1

theorem has_overlayFrom (i : ℕ) : (overlayFrom moduleQ snap i slots out).Has slot ↔ out.Has slot := by
  induction slots generalizing i out with
  | nil => rfl
  | cons s slots ih =>
      unfold overlayFrom
      rw [ih, has_overlaySlot]

/-- Other slots are left alone. -/
theorem overlayFrom_other (i : ℕ) (h : slot ∉ slots) :
    (overlayFrom moduleQ snap i slots out).values[slot]? = out.values[slot]? ∧
      (overlayFrom moduleQ snap i slots out).quality[slot]? = out.quality[slot]? := by
  induction slots generalizing i out with
  | nil => exact ⟨rfl, rfl⟩
  | cons s slots ih =>
      have hne : s ≠ slot := fun hs => h (hs ▸ List.mem_cons_self)
      unfold overlayFrom
      obtain ⟨hvalues, hquality⟩ := @ih (overlaySlot moduleQ snap i s out) (i + 1)
        fun hs => h (List.mem_cons_of_mem _ hs)
      rw [hvalues, hquality]
      exact overlaySlot_other hne

/-- A slot gets what the snapshot has in its place. -/
theorem overlayFrom_get {i j : ℕ} (hj : slots[j]? = some slot)
    (hunique : ∀ j', slots[j']? = some slot → j' = j) (hhas : out.Has slot) :
    (∀ v, snap.values[i + j]? = some v → (overlayFrom moduleQ snap i slots out).values[slot]? = some v) ∧
      (overlayFrom moduleQ snap i slots out).quality[slot]? =
        some (if moduleQ = .bad then .bad else (snap.quality[i + j]?).getD .bad) := by
  induction slots generalizing i j out with
  | nil => cases hj
  | cons s slots ih =>
      unfold overlayFrom
      cases j with
      | zero =>
          obtain rfl : s = slot := Option.some.inj hj
          have hrest : s ∉ slots := by
            intro hmem
            obtain ⟨j', hj'⟩ := List.getElem?_of_mem hmem
            cases hunique (j' + 1) hj'
          obtain ⟨hvalues, hquality⟩ :=
            @overlayFrom_other moduleQ snap (overlaySlot moduleQ snap i s out) slots s (i + 1) hrest
          rw [hvalues, hquality, Nat.add_zero]
          exact overlaySlot_get hhas
      | succ j =>
          rw [show i + (j + 1) = i + 1 + j by omega]
          exact ih hj (fun j' hj' => Nat.succ.inj (hunique (j' + 1) hj')) ((has_overlaySlot i s).mpr hhas)

end Overlay

/-! ## Scans -/

/-- The scan last cloned a snapshot, and nothing was published before that since it came to the
front. -/
def Seen (k : ℕ) (tr : List InputEvent) (snap : Snapshot) : Prop :=
  ∃ pre post, tr = pre ++ .cloned k :: post ∧ LastPublished k pre snap ∧ ∀ e ∈ post, e.clones k = false

/-- A slot of the module has quality Good. -/
def ShowsGood (plan : PlannedModule) (out : InputUpdate) : Prop :=
  ∃ p ∈ plan.points, p.direction = .input ∧ out.Has p.slot ∧ out.quality[p.slot]? = some .good

/-- The slots of a module, if one of them is good, have the values of the snapshot that the scan
cloned. -/
def GivenOk (plan : PlannedModule) (k : ℕ) (tr : List InputEvent) (out : InputUpdate) : Prop :=
  ShowsGood plan out → ∃ snap, Seen k tr snap ∧ .good ∈ snap.quality ∧
    ∀ p ∈ plan.points, p.direction = .input → out.Has p.slot → ∀ pos v, p.inputPos = some pos →
      snap.values[pos]? = some v → out.values[p.slot]? = some v

/-- What a run keeps of the scan that goes on. -/
structure ScanOk (tr : List InputEvent) (k : ℕ) (out : InputUpdate) (pos : DoubleBuffer.ReadPos) : Prop where
  held : ∀ snap, pos.snap = some snap → .good ∈ snap.quality → Seen k tr snap
  given : ∀ j < k, ∀ plan, plans[j]? = some plan → GivenOk plan j tr out

/-- What a run keeps of the scans that are done. -/
def OverlaidOk (tr : List InputEvent) : Prop :=
  EachAt InputEvent.overlaid (fun pre out => ∀ j plan, plans[j]? = some plan → GivenOk plan j pre out) tr

section Scans

variable {plans} {plan : PlannedModule} {k : ℕ} {tr evs : List InputEvent} {cell : ModCell}
  {out : InputUpdate}

theorem Seen.append {snap : Snapshot} (h : Seen k tr snap) (hevs : ∀ e ∈ evs, e.clones k = false) :
    Seen k (tr ++ evs) snap := by
  obtain ⟨pre, post, rfl, hlast, hpost⟩ := h
  refine ⟨pre, post ++ evs, by rw [List.append_assoc, List.cons_append], hlast, ?_⟩
  intro e he
  rcases List.mem_append.mp he with he | he
  · exact hpost e he
  · exact hevs e he

theorem GivenOk.append (h : GivenOk plan k tr out) (hevs : ∀ e ∈ evs, e.clones k = false) :
    GivenOk plan k (tr ++ evs) out := by
  intro hgood
  obtain ⟨snap, hseen, hrest⟩ := h hgood
  exact ⟨snap, hseen.append hevs, hrest⟩

theorem ScanOk.append {pos : DoubleBuffer.ReadPos} (h : ScanOk plans tr k out pos)
    (hevs : ∀ e ∈ evs, ∀ j, e.clones j = false) : ScanOk plans (tr ++ evs) k out pos :=
  ⟨fun snap hsnap hgood => (h.held snap hsnap hgood).append fun e he => hevs e he k,
    fun j hj plan hplan => (h.given j hj plan hplan).append fun e he => hevs e he j⟩

/-- Give the inputs of one more module. -/
theorem GivenOk.overlay {moduleQ : Quality} {snap : Snapshot} (hplans : ValidPlans plans)
    (hk : plans[k]? = some plan) (hheld : .good ∈ snap.quality → Seen k tr snap)
    (hgiven : ∀ j < k, ∀ plan, plans[j]? = some plan → GivenOk plan j tr out) :
    ∀ j < k + 1, ∀ plan', plans[j]? = some plan' →
      GivenOk plan' j tr (overlayFrom moduleQ snap 0 (inputSlots plan.points) out) := by
  intro j hj plan' hplan'
  have hvalid := hplans.points plan (List.mem_of_getElem? hk)
  rcases Nat.lt_succ_iff_lt_or_eq.mp hj with hlt | rfl
  · -- The slots of earlier modules are others.
    have hother : ∀ p ∈ plan'.points, p.direction = .input → p.slot ∉ inputSlots plan.points := by
      intro p hp hin hmem
      obtain ⟨i, hi⟩ := List.getElem?_of_mem hmem
      obtain ⟨q, hq, hqin, -, hslot⟩ := inputSlots_point hvalid hi
      obtain ⟨a, ha⟩ := List.getElem?_of_mem hp
      obtain ⟨b, hb⟩ := List.getElem?_of_mem hq
      exact hplans.slots k j b a plan plan' q p hk hplan' hb ha hqin hin (.inl (ne_of_gt hlt)) hslot
    rintro ⟨p, hp, hin, hhas, hgood⟩
    rw [has_overlayFrom] at hhas
    rw [(overlayFrom_other 0 (hother p hp hin)).2] at hgood
    obtain ⟨snap', hseen, hgood', hvalues⟩ := hgiven j hlt plan' hplan' ⟨p, hp, hin, hhas, hgood⟩
    refine ⟨snap', hseen, hgood', ?_⟩
    intro p hp hin hhas pos v hpos hv
    rw [has_overlayFrom] at hhas
    rw [(overlayFrom_other 0 (hother p hp hin)).1]
    exact hvalues p hp hin hhas pos v hpos hv
  · obtain rfl : plan = plan' := Option.some.inj (hk.symm.trans hplan')
    have hget : ∀ p ∈ plan.points, p.direction = .input → ∀ pos, p.inputPos = some pos → out.Has p.slot →
        (∀ v, snap.values[pos]? = some v →
          (overlayFrom moduleQ snap 0 (inputSlots plan.points) out).values[p.slot]? = some v) ∧
        (overlayFrom moduleQ snap 0 (inputSlots plan.points) out).quality[p.slot]? =
          some (if moduleQ = .bad then .bad else (snap.quality[pos]?).getD .bad) := by
      intro p hp hin pos hpos hhas
      rw [← Nat.zero_add pos]
      apply overlayFrom_get (inputSlots_get hvalid hp hpos) _ hhas
      -- Another place with this slot is that of another input.
      intro pos' hpos'
      obtain ⟨q, hq, hqin, hqpos, hslot⟩ := inputSlots_point hvalid hpos'
      obtain ⟨a, ha⟩ := List.getElem?_of_mem hp
      obtain ⟨b, hb⟩ := List.getElem?_of_mem hq
      by_cases hab : b = a
      · subst hab
        obtain rfl : q = p := Option.some.inj (hb.symm.trans ha)
        exact Option.some.inj (hqpos.symm.trans hpos)
      · exact absurd hslot (hplans.slots j j b a plan plan q p hk hk hb ha hqin hin (.inr hab))
    rintro ⟨p, hp, hin, hhas, hgood⟩
    rw [has_overlayFrom] at hhas
    obtain ⟨pos, hpos⟩ := (hvalid.sound p hp).input hin
    have hq := (hget p hp hin pos hpos hhas).2.symm.trans hgood
    have hmem : Quality.good ∈ snap.quality := by
      have hq := Option.some.inj hq
      split_ifs at hq
      cases hsome : snap.quality[pos]? with
      | none =>
          rw [hsome] at hq
          cases hq
      | some q =>
          rw [hsome] at hq
          obtain rfl : q = .good := hq
          exact List.mem_of_getElem? hsome
    refine ⟨snap, hheld hmem, hmem, ?_⟩
    intro p hp hin hhas pos v hpos hv
    rw [has_overlayFrom] at hhas
    exact (hget p hp hin pos hpos hhas).1 v hv

/-- **One step of a scan.** -/
theorem overlayStep_ok {clock k' : ℕ} {pos pos' : DoubleBuffer.ReadPos} {out' : InputUpdate}
    (hplans : ValidPlans plans) (hk : plans[k]? = some plan) (hcell : CellOk plan k cell tr)
    (hscan : ScanOk plans tr k out pos)
    (h : overlayStep plan clock k cell out pos = some ((k', out', pos'), evs)) :
    ScanOk plans (tr ++ evs) k' out' pos' ∧ ∀ e ∈ evs, e = .cloned k := by
  have hkeep : ∀ {pos'}, cell.inputs.readStep 8 pos = some pos' →
      (∀ attempts before, pos ≠ .clone attempts before) → ScanOk plans tr k out pos' := by
    intro pos' hread hclone
    refine ⟨?_, hscan.given⟩
    intro snap hsnap
    rcases DoubleBuffer.readStep_snap hread with ⟨-, hnone⟩ | ⟨⟨a, b, hab⟩, -⟩ | ⟨-, snap', hold, hnew⟩
    · rw [hnone] at hsnap
      cases hsnap
    · exact absurd hab (hclone a b)
    · rcases hnew with hnew | hnew
      · rw [hnew] at hsnap
        cases hsnap
        exact hscan.held snap hold
      · rw [hnew] at hsnap
        cases hsnap
  unfold overlayStep at h
  split at h
  · next snap =>
      cases h
      rw [List.append_nil]
      refine ⟨⟨(fun _ h => nomatch h), ?_⟩, fun _ h => absurd h List.not_mem_nil⟩
      exact GivenOk.overlay hplans hk (hscan.held snap rfl) hscan.given
  · next attempts before =>
      obtain ⟨pos₁, hread, h⟩ := Option.map_eq_some_iff.mp h
      cases h
      refine ⟨⟨?_, ?_⟩, fun e he => List.mem_singleton.mp he⟩
      · intro snap hsnap hgood
        rcases DoubleBuffer.readStep_snap hread with ⟨-, hnone⟩ | ⟨-, hfront⟩ | ⟨hclone, -⟩
        · rw [hnone] at hsnap
          cases hsnap
        · rw [hfront] at hsnap
          cases hsnap
          exact ⟨tr, [], rfl, hcell.front hgood, fun _ h => absurd h List.not_mem_nil⟩
        · exact absurd rfl (hclone attempts before)
      · intro j hj plan' hplan'
        apply (hscan.given j hj plan' hplan').append
        intro e he
        rw [List.mem_singleton.mp he]
        exact beq_eq_false_iff_ne.mpr (ne_of_gt hj)
  · next hdone hclone =>
      obtain ⟨pos₁, hread, h⟩ := Option.map_eq_some_iff.mp h
      cases h
      rw [List.append_nil]
      exact ⟨hkeep hread hclone, fun _ h => absurd h List.not_mem_nil⟩

end Scans

/-! ## The bridge -/

/-- What a run keeps. -/
structure BridgeOk (b : InputBridge) (tr : List InputEvent) : Prop where
  length : b.cells.length = plans.length
  cells : ∀ k cell plan, b.cells[k]? = some cell → plans[k]? = some plan →
    CellOk plan k cell tr ∧ PublishedOk plan k tr
  poll : ∀ k pos cell plan, b.worker = some (k, pos) → b.cells[k]? = some cell → plans[k]? = some plan →
    PollOk plan k cell tr pos
  scan : ∀ k out pos, b.scan = some (k, out, pos) → ScanOk plans tr k out pos
  overlaid : OverlaidOk plans tr

section Bridge

variable {plans} {b b' : InputBridge} {tr evs : List InputEvent}

theorem BridgeOk.start (clock : ℕ) : BridgeOk plans (.new plans clock) [] := by
  refine ⟨List.length_map _, ?_, (fun _ _ _ _ h => nomatch h), (fun _ _ _ h => nomatch h), EachAt.nil⟩
  intro k cell plan hcell hk
  unfold InputBridge.new at hcell
  rw [List.getElem?_map, hk] at hcell
  cases hcell
  refine ⟨⟨inputDefaults_length _, ?_⟩, EachAt.nil⟩
  intro hgood
  -- The first publication is bad.
  obtain ⟨published, hpublished⟩ : ∃ published, (DoubleBuffer.new
      (plan.points.filterMap PlannedPoint.inputPos).length).publish (inputDefaults plan.points)
        (List.replicate (plan.points.filterMap PlannedPoint.inputPos).length .bad) = some published := by
    unfold DoubleBuffer.publish DoubleBuffer.fill DoubleBuffer.new
    rw [if_pos ⟨inputDefaults_length _, List.length_replicate⟩]
    exact ⟨_, rfl⟩
  unfold ModCell.new at hgood
  dsimp only at hgood
  rw [hpublished, Option.getD_some, (DoubleBuffer.publish_front hpublished).1] at hgood
  cases List.eq_of_mem_replicate hgood

/-- A step of a scan. -/
theorem BridgeOk.scan_step (h : BridgeOk plans b tr) {scan : Option (ℕ × InputUpdate × DoubleBuffer.ReadPos)}
    (hevs : ∀ e ∈ evs, ∀ j, e.publishes j = false ∧ e.begins j = false)
    (hscan : ∀ k out pos, scan = some (k, out, pos) → ScanOk plans (tr ++ evs) k out pos)
    (hoverlaid : OverlaidOk plans (tr ++ evs)) : BridgeOk plans { b with scan := scan } (tr ++ evs) := by
  refine ⟨h.length, ?_, ?_, hscan, hoverlaid⟩
  · intro k cell plan hcell hk
    obtain ⟨hok, hpub⟩ := h.cells k cell plan hcell hk
    exact ⟨hok.append fun e he => (hevs e he k).1, hpub.append fun e he => (hevs e he k).1⟩
  · intro k pos cell plan hpos hcell hk
    exact (h.poll k pos cell plan hpos hcell hk).append fun e he => (hevs e he k).2

/-- A step of a poll. -/
theorem BridgeOk.poll_step (hplans : ValidPlans plans) (h : BridgeOk plans b tr) {k : ℕ} {pos : PollPos}
    {cell : ModCell} {plan : PlannedModule} {a : PollAct} {r : PollStep} (hworker : b.worker = some (k, pos))
    (hcell : b.cells[k]? = some cell) (hk : plans[k]? = some plan)
    (hstep : pollStep plan b.clock k cell pos a = some r) :
    BridgeOk plans { b with cells := b.cells.set k r.1, worker := r.2.1.map fun pos => (k, pos) }
      (tr ++ r.2.2) := by
  obtain ⟨hok, hpub⟩ := h.cells k cell plan hcell hk
  have hvalid := hplans.points plan (List.mem_of_getElem? hk)
  have hr := pollStep_ok hvalid hok hpub (h.poll k pos cell plan hworker hcell hk) hstep
  have hset : (b.cells.set k r.1)[k]? = some r.1 :=
    List.getElem?_set_self (List.getElem?_eq_some_iff.mp hcell).1
  refine ⟨List.length_set.trans h.length, ?_, ?_, ?_, ?_⟩
  · intro j cell' plan' hcell' hj
    by_cases hjk : j = k
    · subst hjk
      obtain rfl : r.1 = cell' := Option.some.inj (hset.symm.trans hcell')
      obtain rfl : plan = plan' := Option.some.inj (hk.symm.trans hj)
      exact ⟨hr.cell, hr.published⟩
    · have hcell' : b.cells[j]? = some cell' := by
        rw [← hcell']
        exact (List.getElem?_set_ne (Ne.symm hjk)).symm
      obtain ⟨hok', hpub'⟩ := h.cells j cell' plan' hcell' hj
      have hquiet : ∀ e ∈ r.2.2, e.publishes j = false := fun e he => (hr.own e he).2.2.1 j hjk
      exact ⟨hok'.append hquiet, hpub'.append hquiet⟩
  · intro j pos' cell' plan' hpos hcell' hj
    obtain ⟨pos₁, hpos₁, heq⟩ := Option.map_eq_some_iff.mp hpos
    obtain ⟨rfl, rfl⟩ := Prod.mk.inj heq
    obtain rfl : r.1 = cell' := Option.some.inj (hset.symm.trans hcell')
    obtain rfl : plan = plan' := Option.some.inj (hk.symm.trans hj)
    exact hr.poll pos₁ hpos₁
  · intro j out pos' hscan
    exact (h.scan j out pos' hscan).append fun e he => (hr.own e he).2.1
  · apply EachAt.append h.overlaid
    intro out hout
    exact (hr.own _ hout).2.2.2 out rfl

/-- **One step of the bridge.** -/
theorem BridgeOk.step (hplans : ValidPlans plans) (h : BridgeOk plans b tr) {a : InputAct}
    (hstep : b.step plans a = some (b', evs)) : BridgeOk plans b' (tr ++ evs) := by
  cases a with
  | tick d =>
      cases hstep
      rw [List.append_nil]
      exact ⟨h.length, h.cells, h.poll, h.scan, h.overlaid⟩
  | begin k =>
      dsimp only [InputBridge.step] at hstep
      split at hstep
      · next cell plan hidle hcell hk =>
          cases hstep
          have hquiet : ∀ e ∈ [InputEvent.began k], ∀ j, e.publishes j = false ∧ e.clones j = false := by
            intro e he j
            rw [List.mem_singleton.mp he]
            exact ⟨rfl, rfl⟩
          refine ⟨h.length, ?_, ?_, ?_, ?_⟩
          · intro j cell' plan' hcell' hj
            obtain ⟨hok, hpub⟩ := h.cells j cell' plan' hcell' hj
            exact ⟨hok.append fun e he => (hquiet e he j).1, hpub.append fun e he => (hquiet e he j).1⟩
          · intro j pos cell' plan' hpos _ _
            cases hpos
            split_ifs
            · intro hgood
              cases hgood
            · trivial
          · intro j out pos hscan
            exact (h.scan j out pos hscan).append fun e he j => (hquiet e he j).2
          · apply EachAt.append h.overlaid
            intro out hout
            cases List.mem_singleton.mp hout
      · cases hstep
  | poll a =>
      dsimp only [InputBridge.step] at hstep
      split at hstep
      · cases hstep
      · next k pos hworker =>
          split at hstep
          · next cell plan hcell hk =>
              obtain ⟨r, hr, heq⟩ := Option.map_eq_some_iff.mp hstep
              cases heq
              exact h.poll_step hplans hworker hcell hk hr
          · cases hstep
  | beginScan out =>
      dsimp only [InputBridge.step] at hstep
      split at hstep
      · cases hstep
        apply h.scan_step (fun _ h => absurd h List.not_mem_nil) _ (by rw [List.append_nil]; exact h.overlaid)
        rintro _ _ _ ⟨⟩
        exact ⟨(fun _ h => nomatch h), (fun j hj => absurd hj (Nat.not_lt_zero j))⟩
      · cases hstep
  | overlay =>
      dsimp only [InputBridge.step] at hstep
      split at hstep
      · cases hstep
      · next k out pos hscan =>
          have hold := h.scan k out pos hscan
          split at hstep
          · next cell plan hcell hk =>
              obtain ⟨⟨⟨k', out', pos'⟩, evs'⟩, hr, heq⟩ := Option.map_eq_some_iff.mp hstep
              cases heq
              obtain ⟨hnew, hevs⟩ := overlayStep_ok hplans hk (h.cells k cell plan hcell hk).1 hold hr
              apply h.scan_step
              · intro e he j
                rw [hevs e he]
                exact ⟨rfl, rfl⟩
              · rintro _ _ _ ⟨⟩
                exact hnew
              · apply EachAt.append h.overlaid
                intro out hout
                cases hevs _ hout
          · next hend =>
              cases hstep
              -- Every module has had its turn.
              have hlast : ∀ j plan, plans[j]? = some plan → j < k := by
                intro j plan hj
                by_contra hle
                have hlt : k < plans.length :=
                  lt_of_le_of_lt (not_lt.mp hle) (List.getElem?_eq_some_iff.mp hj).1
                exact hend _ _ (List.getElem?_eq_getElem (h.length.symm ▸ hlt)) (List.getElem?_eq_getElem hlt)
              apply h.scan_step
              · intro e he j
                rw [List.mem_singleton.mp he]
                exact ⟨rfl, rfl⟩
              · intro k out pos hscan
                cases hscan
              · apply EachAt.snoc h.overlaid
                rintro _ ⟨⟩ j plan hj
                exact hold.given j (hlast j plan hj) plan hj

theorem bridgeOk (hplans : ValidPlans plans) (h : InputTrace plans b tr) : BridgeOk plans b tr := by
  induction h with
  | start clock => exact BridgeOk.start clock
  | step _ hstep ih => exact ih.step hplans hstep

end Bridge

/-- The poll that a scan shows: the one of the last publication before the last clone. -/
def shownPoll (k : ℕ) (tr : List InputEvent) : ℕ :=
  pollCount k (beforeLast (InputEvent.publishes k) (beforeLast (InputEvent.clones k) tr))

theorem shownPoll_mono {k : ℕ} {tr tr' : List InputEvent} (h : tr <+: tr') :
    shownPoll k tr ≤ shownPoll k tr' :=
  (beforeLast_mono (beforeLast_mono h)).sublist.countP_le

theorem Seen.shown {k : ℕ} {tr : List InputEvent} {snap : Snapshot} (h : Seen k tr snap) :
    ∃ pre post, tr = pre ++ .published k snap :: post ∧ shownPoll k tr = pollCount k pre := by
  obtain ⟨_, clonePost, rfl, ⟨pre, post, rfl, hpost⟩, hclone⟩ := h
  refine ⟨pre, post ++ .cloned k :: clonePost, by rw [List.append_assoc, List.cons_append], ?_⟩
  have hcloned : InputEvent.clones k (.cloned k) = true := beq_self_eq_true k
  have hpublished : InputEvent.publishes k (.published k snap) = true := beq_self_eq_true k
  unfold shownPoll
  rw [beforeLast_eq hcloned hclone, beforeLast_eq hpublished hpost]

variable {plans}

/-- **Good inputs come from one poll.** For every map that is accepted and every interleaving of polls
and scans: if a scan gives quality Good to an input of a module, then each input of the module that has a
slot gets the value that was decoded for it in one poll, the same for all of them, whose reads
succeeded; and this poll is no earlier than that of the scans before. -/
theorem good_inputs_from_one_poll {modules : List MapModule} {resolved : ResolvedIoMap}
    (hmap : resolve modules = .ok resolved) (hplans : validateMap modules resolved = .ok plans)
    {b : InputBridge} {tr : List InputEvent} (h : InputTrace plans b tr) {k : ℕ} {plan : PlannedModule}
    (hk : plans[k]? = some plan) : ∃ poll : ℕ → ℕ, Monotone poll ∧
      ∀ n out, tr[n]? = some (.overlaid out) → ShowsGood plan out →
        InPoll k (poll n) (.readOk k) (tr.take n) ∧
        ∀ p ∈ plan.points, p.direction = .input → out.Has p.slot →
          ∃ v, out.values[p.slot]? = some v ∧ DecodedIn k (poll n) (tr.take n) p v := by
  have hvalid := input_slots_apart hmap hplans
  have hok := bridgeOk hvalid h
  refine ⟨fun n => shownPoll k (tr.take n), ?_, ?_⟩
  · intro n n' hn
    apply shownPoll_mono
    rw [← Nat.min_eq_left hn, ← List.take_take]
    exact List.take_prefix _ _
  · intro n out hn hgood
    obtain ⟨hlt, hget⟩ := List.getElem?_eq_some_iff.mp hn
    have hsplit : tr = tr.take n ++ .overlaid out :: tr.drop (n + 1) := by
      rw [← hget, ← List.drop_eq_getElem_cons hlt, List.take_append_drop]
    obtain ⟨snap, hseen, hsnap, hvalues⟩ := hok.overlaid _ _ _ hsplit k plan hk hgood
    obtain ⟨pre, post, htake, hshown⟩ := hseen.shown
    have hcell : ∃ cell, b.cells[k]? = some cell :=
      ⟨_, List.getElem?_eq_getElem (hok.length.symm ▸ (List.getElem?_eq_some_iff.mp hk).1)⟩
    obtain ⟨cell, hcell⟩ := hcell
    -- The snapshot was published in the poll that is shown.
    have hpublished := (hok.cells k cell plan hcell hk).2 pre snap (post ++ .overlaid out :: tr.drop (n + 1))
      (by rw [← List.cons_append, ← List.append_assoc, ← htake]; exact hsplit) hsnap
    have hfrom := hpublished.append (.published k snap :: post)
    rw [← htake, ← hshown] at hfrom
    refine ⟨hfrom.readOk, ?_⟩
    intro p hp hin hhas
    obtain ⟨pos, v, hpos, hv, hdecoded⟩ := hfrom.decoded p hp hin
    exact ⟨v, hvalues p hp hin hhas pos v hpos hv, hdecoded⟩

/-! ## One poll and one scan -/

/-- A sequence of steps. -/
def InputBridge.run (plans : List PlannedModule) (b : InputBridge) (tr : List InputEvent) :
    List InputAct → Option (InputBridge × List InputEvent)
  | [] => some (b, tr)
  | a :: acts =>
      match b.step plans a with
      | some (b', evs) => b'.run plans (tr ++ evs) acts
      | none => none

theorem InputTrace.run {b b' : InputBridge} {tr tr' : List InputEvent} {acts : List InputAct}
    (h : InputTrace plans b tr) (hrun : b.run plans tr acts = some (b', tr')) : InputTrace plans b' tr' := by
  induction acts generalizing b tr with
  | nil =>
      cases hrun
      exact h
  | cons a acts ih =>
      unfold InputBridge.run at hrun
      split at hrun
      · next b₁ evs hstep => exact ih (.step h hstep) hrun
      · cases hrun

/-- A binding of a switch. -/
def switchBinding : MapBinding where
  toIoBinding := ⟨"Switch", .i, .bool, none, ⟨0x3FF0000000000000⟩, ⟨0⟩, none, some 10001, none, none⟩
  slot := none
  safeState := .ok (.bool false)

/-- A map with one switch. -/
def switchMap : List MapModule :=
  [⟨"panel", "modbus_tcp", .ok ⟨"10.0.0.3:502", 1, 100, none, none⟩, .forceSafe, [switchBinding]⟩]

/-- Its point. -/
def switchPoint : PlannedPoint :=
  ⟨"Switch", 0, .input, .discrete, 0, 1, .bool, none, .bool, ⟨0x3FF0000000000000⟩, ⟨0⟩, none, .bool false,
    some 0, none⟩

theorem switchMap_accepted : ∃ resolved plan, resolve switchMap = .ok resolved ∧
    validateMap switchMap resolved = .ok [plan] ∧ plan.points = [switchPoint] := by
  obtain ⟨resolved, hresolved, hplans⟩ := except_of_decide (P := fun resolved =>
    ((validateMap switchMap resolved).toOption.map fun plans => plans.map PlannedModule.points) =
      some [[switchPoint]])
    (show ((resolve switchMap).toOption.map fun resolved => decide _) = some true by decide +kernel)
  obtain ⟨plans, hsome, hpoints⟩ := Option.map_eq_some_iff.mp hplans
  obtain ⟨plan, rfl, hplan⟩ := List.map_eq_singleton_iff.mp hpoints
  exact ⟨resolved, plan, hresolved, except_of_toOption hsome, hplan⟩

theorem readGroups_switch : readGroups [switchPoint] = [⟨0, 1, [switchPoint]⟩] := by
  unfold readGroups tables buildGroups
  simp [isInputOf, switchPoint, groupFrom]

/-- A poll that succeeds, and a scan. -/
def switchPoll : List InputAct :=
  [.poll (.read (.ok (.bits [1]))), .poll (.read (.error "")), .poll .mark, .poll .fill, .poll .swap,
    .poll .store, .beginScan ⟨[.bool false], [.bad]⟩, .overlay, .overlay, .overlay, .overlay, .overlay]

/-- The theorem on a run in which the scan has the value of the switch. -/
theorem good_inputs_of_switch : ∃ (resolved : ResolvedIoMap) (plan : PlannedModule)
    (b : InputBridge) (tr : List InputEvent) (n : ℕ) (out : InputUpdate),
    resolve switchMap = .ok resolved ∧ validateMap switchMap resolved = .ok [plan] ∧
    InputTrace [plan] b tr ∧ tr[n]? = some (.overlaid out) ∧ ShowsGood plan out ∧ ∃ i, InPoll 0 i (.readOk 0) (tr.take n) ∧
      ∃ v, out.values[0]? = some v ∧ DecodedIn 0 i (tr.take n) switchPoint v := by
  obtain ⟨resolved, plan, hmap, hplans, hpoints⟩ := switchMap_accepted
  obtain ⟨b, tr, hrun, n, out, hn, hgood, hhas⟩ : ∃ (b : InputBridge) (tr : List InputEvent),
      InputTrace [plan] b tr ∧ ∃ (n : ℕ) (out : InputUpdate), tr[n]? = some (.overlaid out) ∧ ShowsGood plan out ∧ out.Has 0 := by
    obtain ⟨id, host, port, unit, pollMs, staleMs, timeoutMs, onBad, points⟩ := plan
    obtain rfl : points = [switchPoint] := hpoints
    have hbegin := (InputTrace.start 0).run
      (show InputBridge.run [⟨id, host, port, unit, pollMs, staleMs, timeoutMs, onBad, [switchPoint]⟩]
        _ [] [.begin 0, .poll (.connect true)] = some _ from rfl)
    rw [readGroups_switch] at hbegin
    refine ⟨_, _, hbegin.run (show InputBridge.run _ _ _ switchPoll = some _ from rfl), 5, _, rfl,
      ⟨switchPoint, List.mem_singleton_self _, rfl, ?_, rfl⟩, ?_⟩
    · exact ⟨Nat.zero_lt_one, Nat.zero_lt_one⟩
    · exact ⟨Nat.zero_lt_one, Nat.zero_lt_one⟩
  obtain ⟨poll, -, hpoll⟩ := @good_inputs_from_one_poll _ _ _ hmap hplans _ _ hrun 0 plan rfl
  obtain ⟨hread, hvalues⟩ := hpoll n out hn hgood
  exact ⟨resolved, plan, b, tr, n, out, hmap, hplans, hrun, hn, hgood, poll n, hread,
    hvalues switchPoint (hpoints ▸ List.mem_singleton_self _) rfl hhas⟩

end SoftPlc.Io.Modbus
