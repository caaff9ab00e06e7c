import SoftPlc.Scan.Outputs

/-!
# Telemetry of the scan

`publish_telemetry` of `plc-scan/src/engine.rs` samples the image after each invocation and pushes the
samples that `PublishTrack::should_publish` lets through (`plc-scan/src/telemetry.rs`) into the ring of
`plc-scan/src/spsc.rs`. The test reads only the value of a slot, while a sample carries its quality
and its force as well: `telemetry_reported_iff` says when the last sample of every slot is the current
one.
-/

namespace SoftPlc.Scan

open SoftPlc.Ir SoftPlc.Vm SoftPlc.Io SoftPlc.Lib

/-! ## The ring -/

/-- Source: `spsc.rs`, `Inner`. -/
structure SpscRing (α : Type) where
  /-- The oldest sample first. -/
  q : List α
  cap : ℕ
  drops : ℕ

namespace SpscRing

variable {α : Type}

/-- Source: `spsc.rs`, `channel`. -/
def channel (capacity : ℕ) : SpscRing α := ⟨[], max capacity 1, 0⟩

/-- Push a value; the lock may be taken. Source: `spsc.rs`, `SpscProducer::push_drop_oldest`. -/
def pushDropOldest (r : SpscRing α) (locked : Bool) (value : α) : SpscRing α :=
  if locked then { r with drops := r.drops + 1 }
  else
    let r := if r.q.length ≥ r.cap then { r with q := r.q.tail, drops := r.drops + 1 } else r
    { r with q := r.q ++ [value] }

/-- Source: `spsc.rs`, `SpscConsumer::try_recv`. -/
def tryRecv (r : SpscRing α) : Option α × SpscRing α :=
  match r.q with
  | [] => (none, r)
  | value :: q => (some value, { r with q := q })

end SpscRing

/-! ## Samples -/

/-- One sample of a slot. Source: `telemetry.rs`, `TelemetrySample`. -/
structure TelemetrySample where
  /-- The field `alias`. -/
  aliasId : ℕ
  /-- The slot that it was taken from. -/
  tagHint : ℕ
  value : PlcValue
  quality : Quality
  /-- A force was active. -/
  forced : Bool
  nowMs : ℕ
  isInput : Bool
  deriving DecidableEq

/-- Source: the derived `PartialEq` of `PlcValue`, `plc-io/src/value.rs`. -/
def samePlc : PlcValue → PlcValue → Bool
  | .bool a, .bool b => a == b
  | .int a, .int b => a == b
  | .dint a, .dint b => a == b
  | .real a, .real b => a.eq b
  | .time a, .time b => a == b
  | _, _ => false

/-- Source: `engine.rs`, `is_bool` in `ScanEngine::publish_telemetry`. -/
def isBool : PlcValue → Bool
  | .bool _ => true
  | _ => false

/-- What was published last of a slot. Source: `telemetry.rs`, `PublishTrack`. -/
structure PublishTrack where
  lastValue : Option PlcValue
  lastMs : ℕ
  ever : Bool
  deriving DecidableEq

namespace PublishTrack

/-- Source: `telemetry.rs`, `PublishTrack::new`. -/
def new : PublishTrack := ⟨none, 0, false⟩

/-- Source: `telemetry.rs`, `changed` in `PublishTrack::should_publish`. -/
def changed (t : PublishTrack) (value : PlcValue) : Bool :=
  match t.lastValue with
  | none => true
  | some last => !samePlc last value

/-- Source: `telemetry.rs`, `PublishTrack::should_publish`. -/
def shouldPublish (t : PublishTrack) (value : PlcValue) (nowMs : ℕ) (isBool : Bool)
    (analogPeriodMs digitalCosMs : ℕ) : Bool :=
  if !t.ever then true
  else if isBool then t.changed value && decide (nowMs - t.lastMs ≥ digitalCosMs)
  else t.changed value || decide (nowMs - t.lastMs ≥ analogPeriodMs)

/-- Source: `telemetry.rs`, `PublishTrack::mark`. -/
def mark (_ : PublishTrack) (value : PlcValue) (nowMs : ℕ) : PublishTrack := ⟨some value, nowMs, true⟩

end PublishTrack

/-! ## Publishing -/

/-- The ring, with what its consumer has received. -/
structure Feed where
  ring : SpscRing TelemetrySample
  received : List TelemetrySample

/-- What the consumer does around a push: receives before it, and whether it holds the lock. -/
structure PushTurn where
  recvs : ℕ
  locked : Bool

namespace Feed

/-- The consumer receives. -/
def recv (f : Feed) : Feed :=
  match f.ring.tryRecv with
  | (none, _) => f
  | (some s, ring) => ⟨ring, f.received ++ [s]⟩

/-- The scan pushes. Source: `telemetry.rs`, `TelemetrySink::publish`. -/
def push (f : Feed) (turn : PushTurn) (s : TelemetrySample) : Feed :=
  let f := recv^[turn.recvs] f
  { f with ring := f.ring.pushDropOldest turn.locked s }

/-- Samples that were published and not dropped. -/
def history (f : Feed) : List TelemetrySample := f.received ++ f.ring.q

/-- The last published sample of a slot. -/
def last (f : Feed) (input : Bool) (i : ℕ) : Option TelemetrySample :=
  f.history.reverse.find? fun s => s.isInput == input && s.tagHint == i

end Feed

/-- The telemetry settings. Source: `engine.rs`, `ScanPlan`. -/
structure TelemetryPlan where
  telemetryEnabled : Bool
  analogPeriodMs : ℕ
  digitalCosMs : ℕ
  telemetryCapacity : ℕ

namespace TelemetryPlan

/-- Whether a slot is published. -/
def publishes (plan : TelemetryPlan) (t : PublishTrack) (value : PlcValue) (nowMs : ℕ) : Bool :=
  t.shouldPublish value nowMs (isBool value) plan.analogPeriodMs plan.digitalCosMs

/-- Publish slots, each with its track; `sample i` is the sample of slot `i`. Source: `engine.rs`,
either `for` of `ScanEngine::publish_telemetry`. -/
def publishSlots (plan : TelemetryPlan) (nowMs : ℕ) (sample : ℕ → TypedSlot → TelemetrySample)
    (turns : ℕ → PushTurn) :
    List TypedSlot → List PublishTrack → ℕ → Feed → List PublishTrack × Feed
  | slot :: slots, t :: tracks, i, f =>
      if plan.publishes t slot.value nowMs then
        let (tracks, f) :=
          plan.publishSlots nowMs sample turns slots tracks (i + 1) (f.push (turns i) (sample i slot))
        (t.mark slot.value nowMs :: tracks, f)
      else
        let (tracks, f) := plan.publishSlots nowMs sample turns slots tracks (i + 1) f
        (t :: tracks, f)
  | _, tracks, _, f => (tracks, f)

end TelemetryPlan

/-- The sample of an input. -/
def inputSample (nowMs i : ℕ) (slot : TypedSlot) : TelemetrySample where
  aliasId := i
  tagHint := i
  value := slot.value
  quality := slot.quality
  forced := false
  nowMs := nowMs
  isInput := true

/-- The sample of an output. -/
def outputSample (inputs : ℕ) (forces : ForceTable) (nowMs i : ℕ) (slot : TypedSlot) :
    TelemetrySample where
  aliasId := inputs + i
  tagHint := i
  value := slot.value
  quality := slot.quality
  forced := (forces.lookup i).isSome
  nowMs := nowMs
  isInput := false

/-- The engine with its telemetry. Source: `engine.rs`, `ScanEngine`. -/
structure TelemetryEngine where
  engine : IoEngine
  plan : TelemetryPlan
  telIn : List PublishTrack
  telOut : List PublishTrack
  feed : Feed

/-- A cycle, with what the consumer does meanwhile. -/
structure TelemetryCycle where
  cycle : Cycle
  inputTurns : ℕ → PushTurn
  outputTurns : ℕ → PushTurn

namespace TelemetryEngine

/-- Source: `engine.rs`, `ScanEngine::new`. -/
def initial (e : IoEngine) (plan : TelemetryPlan) : TelemetryEngine where
  engine := e
  plan := plan
  telIn := e.io.image.inputs.map fun _ => .new
  telOut := e.io.image.outputs.map fun _ => .new
  feed := ⟨.channel plan.telemetryCapacity, []⟩

/-- Source: `engine.rs`, `ScanEngine::publish_telemetry`. -/
def publishTelemetry (t : TelemetryEngine) (c : TelemetryCycle) (nowMs : ℕ) : TelemetryEngine :=
  let image := t.engine.io.image
  let (telIn, feed) :=
    t.plan.publishSlots nowMs (inputSample nowMs) c.inputTurns image.inputs t.telIn 0 t.feed
  let (telOut, feed) :=
    t.plan.publishSlots nowMs (outputSample image.inputs.length t.engine.io.forces nowMs)
      c.outputTurns image.outputs t.telOut 0 feed
  { t with telIn := telIn, telOut := telOut, feed := feed }

/-- One turn of the loop, and the time of the invocation if there was one. The image and the forces
that are published are those at the end of the invocation. Source: `engine.rs`, the `loop` body of
`ScanEngine::run_due` and the `publish_telemetry` call of `ScanEngine::invoke`. -/
def turn (t : TelemetryEngine) (c : TelemetryCycle) : Option (TelemetryEngine × Option ℕ) :=
  let i := (t.engine.tryEpochInstall c.cycle).1
  match i.base.pickDue c.cycle.nowMs with
  | none => some ({ t with engine := i }, none)
  | some task =>
      (i.invoke task c.cycle).map fun p =>
        let t := { t with engine := p.1 }
        (if t.plan.telemetryEnabled then t.publishTelemetry c c.cycle.invokeMs else t,
          some c.cycle.invokeMs)

/-- A slot of the image. -/
def slot (t : TelemetryEngine) (input : Bool) (i : ℕ) : Option TypedSlot :=
  if input then t.engine.io.image.inputs[i]? else t.engine.io.image.outputs[i]?

/-- The track of a slot. -/
def track (t : TelemetryEngine) (input : Bool) (i : ℕ) : Option PublishTrack :=
  if input then t.telIn[i]? else t.telOut[i]?

/-- A force is active on an output. -/
def forced (t : TelemetryEngine) (i : ℕ) : Bool := (t.engine.io.forces.lookup i).isSome

/-- The sample of a slot. -/
def sampleOf (t : TelemetryEngine) (input : Bool) (nowMs i : ℕ) (s : TypedSlot) : TelemetrySample :=
  if input then inputSample nowMs i s
  else outputSample t.engine.io.image.inputs.length t.engine.io.forces nowMs i s

end TelemetryEngine

/-- Runs of an engine with telemetry, from its construction on. -/
inductive TelemetryRun (plan : ScanPlan) (io : ScanIo) (tel : TelemetryPlan) : TelemetryEngine → Prop
  | start {vm : Option ArmedVm} {e : IoEngine} (h : IoEngine.new plan io vm = .ok e) :
      TelemetryRun plan io tel (.initial e tel)
  /-- Something happens outside a scan. -/
  | outside {t : TelemetryEngine} {ev : EngineEvent} {e : IoEngine} {marks : List Mark}
      (h : TelemetryRun plan io tel t) (hev : ∀ cycles, ev ≠ .scan cycles)
      (hstep : t.engine.handle ev = some (e, marks)) : TelemetryRun plan io tel { t with engine := e }
  /-- A scan starts. -/
  | boundary {t : TelemetryEngine} (h : TelemetryRun plan io tel t) :
      TelemetryRun plan io tel { t with engine := t.engine.applyModeBoundary }
  | turn {t t' : TelemetryEngine} {c : TelemetryCycle} {ran : Option ℕ} (h : TelemetryRun plan io tel t)
      (hstep : t.turn c = some (t', ran)) : TelemetryRun plan io tel t'
  /-- The consumer receives. -/
  | recv {t : TelemetryEngine} (h : TelemetryRun plan io tel t) :
      TelemetryRun plan io tel { t with feed := t.feed.recv }

/-! ## What publishing does to the history -/

namespace Feed

variable {f : Feed} {turn : PushTurn} {s : TelemetrySample}

theorem recv_history (f : Feed) : f.recv.history = f.history ∧ f.recv.ring.drops = f.ring.drops := by
  obtain ⟨⟨q, cap, drops⟩, received⟩ := f
  cases q with
  | nil => exact ⟨rfl, rfl⟩
  | cons x xs => exact ⟨List.append_assoc _ _ _, rfl⟩

theorem recvs_history (n : ℕ) (f : Feed) :
    (recv^[n] f).history = f.history ∧ (recv^[n] f).ring.drops = f.ring.drops := by
  induction n generalizing f with
  | zero => exact ⟨rfl, rfl⟩
  | succ n ih =>
      obtain ⟨hhistory, hdrops⟩ := ih f.recv
      exact ⟨hhistory.trans (recv_history f).1, hdrops.trans (recv_history f).2⟩

theorem push_drops (f : Feed) (turn : PushTurn) (s : TelemetrySample) :
    f.ring.drops ≤ (f.push turn s).ring.drops := by
  rw [← (recvs_history turn.recvs f).2]
  unfold push SpscRing.pushDropOldest
  dsimp only
  split_ifs
  · exact Nat.le_succ _
  · exact Nat.le_succ _
  · exact le_refl _

/-- A push that drops nothing adds its sample to the history. -/
theorem push_history (h : (f.push turn s).ring.drops = 0) :
    f.ring.drops = 0 ∧ (f.push turn s).history = f.history ++ [s] := by
  have hzero : f.ring.drops = 0 := Nat.le_zero.mp (h ▸ push_drops f turn s)
  refine ⟨hzero, ?_⟩
  rw [← (recvs_history turn.recvs f).1]
  unfold push SpscRing.pushDropOldest at h ⊢
  dsimp only at h ⊢
  -- The counter is at least one in the two branches that drop.
  split_ifs at h ⊢
  exact (List.append_assoc _ _ _).symm

theorem last_push (h : (f.push turn s).ring.drops = 0) (input : Bool) (i : ℕ) :
    (f.push turn s).last input i =
      if s.isInput = input ∧ s.tagHint = i then some s else f.last input i := by
  unfold last
  rw [(push_history h).2, List.reverse_append, List.reverse_singleton, List.singleton_append,
    List.find?_cons]
  by_cases hslot : s.isInput = input ∧ s.tagHint = i
  · rw [if_pos hslot, hslot.1, hslot.2]
    simp
  · rw [if_neg hslot]
    have hfalse : (s.isInput == input && s.tagHint == i) = false := by
      rw [Bool.and_eq_false_iff, beq_eq_false_iff_ne, beq_eq_false_iff_ne]
      exact Classical.or_iff_not_imp_left.mpr fun h₁ h₂ => hslot ⟨not_not.mp h₁, h₂⟩
    rw [hfalse]

end Feed

/-- What publishing did to one slot: its track and its last sample. -/
def Published (did : Bool) (t t' : PublishTrack) (value : PlcValue) (nowMs : ℕ) (s : TelemetrySample)
    (last last' : Option TelemetrySample) : Prop :=
  if did then t' = t.mark value nowMs ∧ last' = some s else t' = t ∧ last' = last

section PublishSlots

variable {plan : TelemetryPlan} {nowMs : ℕ} {sample : ℕ → TypedSlot → TelemetrySample}
  {turns : ℕ → PushTurn} {slots : List TypedSlot} {tracks : List PublishTrack} {i : ℕ} {f : Feed}

theorem publishSlots_drops : f.ring.drops ≤
    (plan.publishSlots nowMs sample turns slots tracks i f).2.ring.drops := by
  induction slots generalizing tracks i f with
  | nil => exact le_refl _
  | cons slot slots ih =>
      cases tracks with
      | nil => exact le_refl _
      | cons t tracks =>
          unfold TelemetryPlan.publishSlots
          split_ifs
          · exact (Feed.push_drops f _ _).trans ih
          · exact ih

theorem publishSlots_length :
    (plan.publishSlots nowMs sample turns slots tracks i f).1.length = tracks.length := by
  induction slots generalizing tracks i f with
  | nil => rfl
  | cons slot slots ih =>
      cases tracks with
      | nil => rfl
      | cons t tracks =>
          unfold TelemetryPlan.publishSlots
          split_ifs
          · exact congrArg Nat.succ ih
          · exact congrArg Nat.succ ih

/-- **What a loop over slots publishes**, when nothing is dropped. -/
theorem publishSlots_spec {input : Bool} (hlen : slots.length = tracks.length)
    (hsample : ∀ j s, (sample j s).isInput = input ∧ (sample j s).tagHint = j)
    (hdrops : (plan.publishSlots nowMs sample turns slots tracks i f).2.ring.drops = 0) :
    (∀ b j, (b ≠ input ∨ j < i) →
        (plan.publishSlots nowMs sample turns slots tracks i f).2.last b j = f.last b j) ∧
      ∀ k s t, slots[k]? = some s → tracks[k]? = some t →
        ∃ t', (plan.publishSlots nowMs sample turns slots tracks i f).1[k]? = some t' ∧
          Published (plan.publishes t s.value nowMs) t t' s.value nowMs (sample (i + k) s)
            (f.last input (i + k))
            ((plan.publishSlots nowMs sample turns slots tracks i f).2.last input (i + k)) := by
  induction slots generalizing tracks i f with
  | nil =>
      cases tracks with
      | nil => exact ⟨fun _ _ _ => rfl, fun _ _ _ hs => nomatch hs⟩
      | cons t tracks => cases hlen
  | cons slot slots ih =>
      cases tracks with
      | nil => cases hlen
      | cons t tracks =>
          have hlen' : slots.length = tracks.length := Nat.succ_injective hlen
          unfold TelemetryPlan.publishSlots at hdrops ⊢
          by_cases hpub : plan.publishes t slot.value nowMs = true
          · rw [if_pos hpub] at hdrops ⊢
            obtain ⟨hother, hslots⟩ := ih hlen' hdrops
            have hrest : (plan.publishSlots nowMs sample turns slots tracks (i + 1)
                (f.push (turns i) (sample i slot))).2.ring.drops = 0 := hdrops
            have hpush : (f.push (turns i) (sample i slot)).ring.drops = 0 :=
              Nat.le_zero.mp (hrest ▸ publishSlots_drops)
            obtain ⟨hinput, htag⟩ := hsample i slot
            refine ⟨?_, ?_⟩
            · intro b j hj
              dsimp only
              rw [hother b j (hj.imp_right Nat.lt_succ_of_lt), Feed.last_push hpush, if_neg]
              rintro ⟨hb, htag'⟩
              rcases hj with hj | hj
              · exact hj (hb.symm.trans hinput)
              · omega
            · intro k s t₀ hs ht
              cases k with
              | zero =>
                  cases hs
                  cases ht
                  refine ⟨t.mark slot.value nowMs, rfl, ?_⟩
                  rw [Published, if_pos hpub]
                  refine ⟨rfl, ?_⟩
                  dsimp only
                  rw [hother input (i + 0) (.inr (Nat.lt_succ_self i)), Feed.last_push hpush]
                  exact if_pos ⟨hinput, htag⟩
              | succ k =>
                  obtain ⟨t', ht', hpublished⟩ := hslots k s t₀ hs ht
                  refine ⟨t', ht', ?_⟩
                  rw [show i + (k + 1) = i + 1 + k by omega]
                  rw [Feed.last_push hpush, if_neg (by omega)] at hpublished
                  exact hpublished
          · rw [if_neg hpub] at hdrops ⊢
            obtain ⟨hother, hslots⟩ := ih hlen' hdrops
            refine ⟨?_, ?_⟩
            · intro b j hj
              exact hother b j (hj.imp_right Nat.lt_succ_of_lt)
            · intro k s t₀ hs ht
              cases k with
              | zero =>
                  cases hs
                  cases ht
                  refine ⟨t, rfl, ?_⟩
                  rw [Published, if_neg hpub]
                  exact ⟨rfl, hother input (i + 0) (.inr (Nat.lt_succ_self i))⟩
              | succ k =>
                  obtain ⟨t', ht', hpublished⟩ := hslots k s t₀ hs ht
                  refine ⟨t', ht', ?_⟩
                  rw [show i + (k + 1) = i + 1 + k by omega]
                  exact hpublished

end PublishSlots

/-! ## Runs -/

/-- The image has the same slots. -/
structure SameSlots (e e' : IoEngine) : Prop where
  inputs : e'.io.image.inputs.length = e.io.image.inputs.length
  outputs : e'.io.image.outputs.length = e.io.image.outputs.length

namespace SameSlots

variable {e e' e'' : IoEngine} {c : Cycle}

theorem trans (h : SameSlots e e') (h' : SameSlots e' e'') : SameSlots e e'' :=
  ⟨h'.inputs.trans h.inputs, h'.outputs.trans h.outputs⟩

theorem install (e : IoEngine) (c : Cycle) : SameSlots e (e.tryEpochInstall c).1 := by
  unfold IoEngine.tryEpochInstall
  rcases e.base.tryEpochInstall (IoEngine.toRound c [] false false) with ⟨base, outcome⟩
  cases outcome with
  | idle => exact ⟨rfl, rfl⟩
  | deferred => exact ⟨rfl, rfl⟩
  | faulted => exact ⟨rfl, rfl⟩
  | installed =>
      unfold IoEngine.commitIo
      dsimp only
      split_ifs
      · exact ⟨rfl, List.length_mapIdx⟩
      · exact ⟨rfl, rfl⟩

theorem faultIf (e : IoEngine) (reason : Bool) : SameSlots e (e.faultIf reason) := by
  cases reason <;> exact ⟨rfl, rfl⟩

theorem sample (e : IoEngine) (c : Cycle) : SameSlots e (e.sampleInputs c) := by
  have hsampled : (IoEngine.sampled e.io.image c).inputs.length = e.io.image.inputs.length ∧
      (IoEngine.sampled e.io.image c).outputs.length = e.io.image.outputs.length := by
    unfold IoEngine.sampled
    rcases c.remote with _ | snap <;> rcases c.poll with _ | ⟨values, quality⟩ <;>
      simp [IoEngine.copyRemote, IoEngine.copyPolled]
  exact ⟨hsampled.1, hsampled.2⟩

theorem logic {task : ℕ} {ran ok : Bool} (h : e.logic task c = some (e', ran, ok)) :
    SameSlots e e' := by
  unfold IoEngine.logic at h
  split_ifs at h
  · obtain ⟨⟨e₁, ok₁⟩, hrun, heq⟩ := Option.map_eq_some_iff.mp h
    cases heq
    refine SameSlots.trans ?_ (faultIf e₁ _)
    unfold IoEngine.runLogic at hrun
    split at hrun
    · cases hrun
    · cases hrun
      exact ⟨rfl, rfl⟩
    · cases hrun
      exact ⟨rfl, List.length_mapIdx⟩
  · cases h
    exact ⟨rfl, rfl⟩

theorem watch (e : IoEngine) (task : ℕ) (c : Cycle) (ran : Bool) :
    SameSlots e (e.watch task c ran).1 := by
  cases ran with
  | false => exact ⟨rfl, rfl⟩
  | true =>
      refine SameSlots.trans ?_ (faultIf _ _)
      dsimp only [IoEngine.note]
      split
      · exact ⟨rfl, rfl⟩
      · split_ifs <;> exact ⟨rfl, rfl⟩

theorem outputPhase (e : IoEngine) (c : Cycle) : SameSlots e (e.applyOutputs c) := by
  unfold IoEngine.applyOutputs
  dsimp only
  split_ifs
  · exact ⟨rfl, rfl⟩
  · refine SameSlots.trans ?_ (faultIf _ _)
    exact ⟨rfl, rfl⟩

theorem invoke {task : ℕ} {inv : Invocation} (h : e.invoke task c = some (e', inv)) :
    SameSlots e e' := by
  obtain ⟨e₁, ran, ok, hlogic, -, rfl⟩ := IoEngine.invoke_ok h
  have hend := ((sample e c).trans (logic hlogic)).trans
    ((watch e₁ task c ran).trans (outputPhase _ c))
  exact ⟨hend.inputs, hend.outputs⟩

theorem outside {ev : EngineEvent} {marks : List Mark} (hev : ∀ cs, ev ≠ .scan cs)
    (h : e.handle ev = some (e', marks)) : SameSlots e e' := by
  cases ev with
  | requestMode req =>
      cases h
      exact ⟨rfl, rfl⟩
  | force slot value =>
      cases h
      exact ⟨rfl, rfl⟩
  | unforce slot =>
      cases h
      exact ⟨rfl, rfl⟩
  | arm program restart =>
      cases h
      unfold IoEngine.arm
      split <;> exact ⟨rfl, rfl⟩
  | disarm =>
      cases h
      unfold IoEngine.disarm
      split_ifs <;> exact ⟨rfl, rfl⟩
  | requestActivate =>
      cases h
      unfold IoEngine.requestActivate
      split <;> exact ⟨rfl, rfl⟩
  | scan cs => exact absurd rfl (hev cs)

end SameSlots

/-- Every slot has a track, and as long as nothing was dropped a track tells the last sample. -/
structure TelemetryEngine.Tracked (t : TelemetryEngine) : Prop where
  inputs : t.telIn.length = t.engine.io.image.inputs.length
  outputs : t.telOut.length = t.engine.io.image.outputs.length
  last : t.feed.ring.drops = 0 → ∀ input i track, t.track input i = some track →
    track.ever = true → ∃ s, t.feed.last input i = some s ∧ track.lastValue = some s.value ∧
      track.lastMs = s.nowMs

section Runs

variable {t t' : TelemetryEngine} {c : TelemetryCycle} {nowMs : ℕ}

theorem TelemetryEngine.Tracked.slots {e : IoEngine} (h : t.Tracked) (hslots : SameSlots t.engine e) :
    TelemetryEngine.Tracked { t with engine := e } :=
  ⟨h.inputs.trans hslots.inputs.symm, h.outputs.trans hslots.outputs.symm, h.last⟩

theorem publishTelemetry_engine : (t.publishTelemetry c nowMs).engine = t.engine := rfl

/-- **What publishing does**, when nothing is dropped. -/
theorem publishTelemetry_spec (h : t.Tracked)
    (hdrops : (t.publishTelemetry c nowMs).feed.ring.drops = 0) :
    t.feed.ring.drops = 0 ∧
      ∀ input i s track, t.slot input i = some s → t.track input i = some track →
        ∃ track', (t.publishTelemetry c nowMs).track input i = some track' ∧
          Published (t.plan.publishes track s.value nowMs) track track' s.value nowMs
            (t.sampleOf input nowMs i s) (t.feed.last input i)
            ((t.publishTelemetry c nowMs).feed.last input i) := by
  let first := t.plan.publishSlots nowMs (inputSample nowMs) c.inputTurns t.engine.io.image.inputs
    t.telIn 0 t.feed
  have hsecond : (t.plan.publishSlots nowMs
      (outputSample t.engine.io.image.inputs.length t.engine.io.forces nowMs) c.outputTurns
      t.engine.io.image.outputs t.telOut 0 first.2).2.ring.drops = 0 := hdrops
  have hfirst : (t.plan.publishSlots nowMs (inputSample nowMs) c.inputTurns
      t.engine.io.image.inputs t.telIn 0 t.feed).2.ring.drops = 0 :=
    Nat.le_zero.mp (publishSlots_drops.trans_eq hsecond)
  obtain ⟨hotherIn, hin⟩ := @publishSlots_spec t.plan nowMs (inputSample nowMs) c.inputTurns _ _ 0
    t.feed true h.inputs.symm (fun _ _ => ⟨rfl, rfl⟩) hfirst
  obtain ⟨hotherOut, hout⟩ := @publishSlots_spec t.plan nowMs
    (outputSample t.engine.io.image.inputs.length t.engine.io.forces nowMs) c.outputTurns _ _ 0
    first.2 false h.outputs.symm (fun _ _ => ⟨rfl, rfl⟩) hsecond
  refine ⟨Nat.le_zero.mp (hfirst ▸ publishSlots_drops), ?_⟩
  intro input i s track hs htrack
  cases input with
  | true =>
      obtain ⟨track', htrack', hpublished⟩ := hin i s track hs htrack
      refine ⟨track', htrack', ?_⟩
      rw [zero_add, ← hotherOut true i (.inl (by decide))] at hpublished
      exact hpublished
  | false =>
      obtain ⟨track', htrack', hpublished⟩ := hout i s track hs htrack
      refine ⟨track', htrack', ?_⟩
      rw [zero_add, hotherIn false i (.inl (by decide))] at hpublished
      exact hpublished

theorem sampleOf_fields (t : TelemetryEngine) (input : Bool) (i : ℕ) (s : TypedSlot) :
    (t.sampleOf input nowMs i s).value = s.value ∧ (t.sampleOf input nowMs i s).quality = s.quality ∧
      (t.sampleOf input nowMs i s).nowMs = nowMs ∧
      (input = false → (t.sampleOf input nowMs i s).forced = t.forced i) := by
  cases input with
  | true => exact ⟨rfl, rfl, rfl, (fun h => nomatch h)⟩
  | false => exact ⟨rfl, rfl, rfl, fun _ => rfl⟩

/-- A track belongs to a slot. -/
theorem TelemetryEngine.Tracked.slot_of_track (h : t.Tracked) {input : Bool} {i : ℕ}
    {track : PublishTrack} (htrack : t.track input i = some track) : ∃ s, t.slot input i = some s := by
  cases input with
  | true =>
      have hi : i < t.telIn.length := (List.getElem?_eq_some_iff.mp htrack).1
      exact ⟨_, List.getElem?_eq_getElem (h.inputs ▸ hi)⟩
  | false =>
      have hi : i < t.telOut.length := (List.getElem?_eq_some_iff.mp htrack).1
      exact ⟨_, List.getElem?_eq_getElem (h.outputs ▸ hi)⟩

/-- A slot has a track. -/
theorem TelemetryEngine.Tracked.track_of_slot (h : t.Tracked) {input : Bool} {i : ℕ} {s : TypedSlot}
    (hs : t.slot input i = some s) : ∃ track, t.track input i = some track := by
  cases input with
  | true =>
      have hi : i < t.engine.io.image.inputs.length := (List.getElem?_eq_some_iff.mp hs).1
      exact ⟨_, List.getElem?_eq_getElem (h.inputs ▸ hi)⟩
  | false =>
      have hi : i < t.engine.io.image.outputs.length := (List.getElem?_eq_some_iff.mp hs).1
      exact ⟨_, List.getElem?_eq_getElem (h.outputs ▸ hi)⟩

theorem TelemetryEngine.Tracked.publish (h : t.Tracked) : (t.publishTelemetry c nowMs).Tracked := by
  have hin : (t.publishTelemetry c nowMs).telIn.length = t.telIn.length := publishSlots_length
  have hout : (t.publishTelemetry c nowMs).telOut.length = t.telOut.length := publishSlots_length
  refine ⟨hin.trans h.inputs, hout.trans h.outputs, ?_⟩
  intro hdrops input i track' htrack' hever
  obtain ⟨hzero, hspec⟩ := publishTelemetry_spec h hdrops
  have hlen : ∃ track, t.track input i = some track := by
    cases input with
    | true =>
        have hi : i < (t.publishTelemetry c nowMs).telIn.length :=
          (List.getElem?_eq_some_iff.mp htrack').1
        exact ⟨_, List.getElem?_eq_getElem (hin ▸ hi)⟩
    | false =>
        have hi : i < (t.publishTelemetry c nowMs).telOut.length :=
          (List.getElem?_eq_some_iff.mp htrack').1
        exact ⟨_, List.getElem?_eq_getElem (hout ▸ hi)⟩
  obtain ⟨track, htrack⟩ := hlen
  obtain ⟨s, hs⟩ := h.slot_of_track htrack
  obtain ⟨track'', htrack'', hpublished⟩ := hspec input i s track hs htrack
  obtain rfl := Option.some.inj (htrack'.symm.trans htrack'')
  obtain ⟨hvalue, -, hms, -⟩ := @sampleOf_fields nowMs t input i s
  unfold Published at hpublished
  split_ifs at hpublished
  · obtain ⟨rfl, hlast⟩ := hpublished
    exact ⟨_, hlast, congrArg some hvalue.symm, hms.symm⟩
  · obtain ⟨rfl, hlast⟩ := hpublished
    rw [hlast]
    exact h.last hzero input i track' htrack hever

/-- What a turn does: the engine moves, and after an invocation it publishes. -/
theorem turn_cases {ran : Option ℕ} (h : t.turn c = some (t', ran)) :
    SameSlots t.engine t'.engine ∧
      ((ran = none ∧ t' = { t with engine := t'.engine }) ∨
        (ran = some c.cycle.invokeMs ∧ t' = if t.plan.telemetryEnabled then
          TelemetryEngine.publishTelemetry { t with engine := t'.engine } c c.cycle.invokeMs
          else { t with engine := t'.engine })) := by
  have hinstall := SameSlots.install t.engine c.cycle
  unfold TelemetryEngine.turn at h
  dsimp only at h
  split at h
  · cases h
    exact ⟨hinstall, .inl ⟨rfl, rfl⟩⟩
  · obtain ⟨⟨e, inv⟩, hinvoke, heq⟩ := Option.map_eq_some_iff.mp h
    dsimp only at heq
    split_ifs at heq with henabled
    · cases heq
      refine ⟨hinstall.trans (.invoke hinvoke), .inr ⟨rfl, ?_⟩⟩
      rw [if_pos henabled]
      rfl
    · cases heq
      refine ⟨hinstall.trans (.invoke hinvoke), .inr ⟨rfl, ?_⟩⟩
      rw [if_neg henabled]

theorem TelemetryRun.tracked {plan : ScanPlan} {io : ScanIo} {tel : TelemetryPlan}
    (h : TelemetryRun plan io tel t) : t.Tracked := by
  induction h with
  | @start vm e h =>
      refine ⟨List.length_map _, List.length_map _, ?_⟩
      intro _ input i track htrack hever
      have hnew : track = .new := by
        cases input with
        | true =>
            obtain ⟨_, -, rfl⟩ := Option.map_eq_some_iff.mp
              (List.getElem?_map.symm.trans htrack)
            rfl
        | false =>
            obtain ⟨_, -, rfl⟩ := Option.map_eq_some_iff.mp
              (List.getElem?_map.symm.trans htrack)
            rfl
      subst hnew
      cases hever
  | outside h hev hstep ih => exact ih.slots (.outside hev hstep)
  | boundary h ih => exact ih.slots ⟨rfl, rfl⟩
  | @turn t t' c ran h hstep ih =>
      obtain ⟨hslots, hcase⟩ := turn_cases hstep
      have hmoved := ih.slots hslots
      rcases hcase with ⟨-, heq⟩ | ⟨-, heq⟩
      · rw [heq]
        exact hmoved
      · rw [heq]
        split_ifs
        · exact hmoved.publish
        · exact hmoved
  | @recv t h ih =>
      obtain ⟨hhistory, hdrops⟩ := Feed.recv_history t.feed
      refine ⟨ih.inputs, ih.outputs, ?_⟩
      intro hzero input i track htrack hever
      have hlast : t.feed.recv.last input i = t.feed.last input i := by
        unfold Feed.last
        rw [hhistory]
      rw [hlast]
      exact ih.last (hdrops ▸ hzero) input i track htrack hever

end Runs

/-! ## What is reported -/

namespace TelemetryEngine

/-- The last sample of each slot is the current one: of a BOOL once it has the minimum age, of any
other slot at once. -/
def Reported (t : TelemetryEngine) (nowMs : ℕ) : Prop :=
  ∀ input i s, t.slot input i = some s → ∃ last, t.feed.last input i = some last ∧
    ((isBool s.value = true → t.plan.digitalCosMs ≤ nowMs - last.nowMs) →
      (last.value = s.value ∨ samePlc last.value s.value = true) ∧ last.quality = s.quality ∧
        (input = false → last.forced = t.forced i))

/-- **When quality and force are reported.** A slot that is not published, although its last sample is
old enough, has the quality and the force of that sample. -/
def Steady (t : TelemetryEngine) (nowMs : ℕ) : Prop :=
  ∀ input i s track last, t.slot input i = some s → t.track input i = some track →
    t.feed.last input i = some last → t.plan.publishes track s.value nowMs = false →
    (isBool s.value = true → t.plan.digitalCosMs ≤ nowMs - last.nowMs) →
      last.quality = s.quality ∧ (input = false → last.forced = t.forced i)

end TelemetryEngine

/-- A slot that is not published was published before, and its value is unchanged once the last
sample has the minimum age. -/
theorem unpublished {plan : TelemetryPlan} {track : PublishTrack} {value last : PlcValue} {nowMs : ℕ}
    (h : plan.publishes track value nowMs = false) :
    track.ever = true ∧ (track.lastValue = some last →
      (isBool value = true → plan.digitalCosMs ≤ nowMs - track.lastMs) → samePlc last value = true) := by
  unfold TelemetryPlan.publishes PublishTrack.shouldPublish PublishTrack.changed at h
  by_cases hever : track.ever = true
  · refine ⟨hever, ?_⟩
    intro hlast hage
    rw [hever, hlast] at h
    by_cases hbool : isBool value = true
    · simpa [hbool, hage hbool] using h
    · simp only [Bool.not_true, Bool.false_eq_true, if_false, hbool, Bool.or_eq_false_iff,
        Bool.not_eq_false'] at h
      exact h.1
  · simp [hever] at h

/-- **Telemetry tracks value, quality and force exactly when no quality and no force changes alone.**
After each invocation of each run in which the ring dropped nothing. -/
theorem telemetry_reported_iff {plan : ScanPlan} {io : ScanIo} {tel : TelemetryPlan}
    {t t' : TelemetryEngine} {c : TelemetryCycle} {nowMs : ℕ} (h : TelemetryRun plan io tel t)
    (henabled : t.plan.telemetryEnabled = true) (hstep : t.turn c = some (t', some nowMs))
    (hdrops : t'.feed.ring.drops = 0) :
    t'.Reported nowMs ↔ TelemetryEngine.Steady { t with engine := t'.engine } nowMs := by
  obtain ⟨hslots, ⟨hran, -⟩ | ⟨hran, heq⟩⟩ := turn_cases hstep
  · cases hran
  · cases hran
    rw [if_pos henabled] at heq
    have htracked := h.tracked.slots hslots
    generalize hpub : ({ t with engine := t'.engine } : TelemetryEngine) = p at heq htracked ⊢
    have hplan : t'.plan = p.plan := by rw [heq]; rfl
    have hslot : ∀ input i, t'.slot input i = p.slot input i := by rw [heq]; exact fun _ _ => rfl
    have hforced : ∀ i, t'.forced i = p.forced i := by rw [heq]; exact fun _ => rfl
    rw [heq] at hdrops
    obtain ⟨hzero, hspec⟩ := publishTelemetry_spec htracked hdrops
    rw [← heq] at hspec
    constructor
    · intro hreported input i s track last hs htrack hlast hnot hage
      obtain ⟨track', -, hpublished⟩ := hspec input i s track hs htrack
      rw [Published, hnot, if_neg Bool.false_ne_true] at hpublished
      obtain ⟨last', hlast', hcurrent⟩ := hreported input i s ((hslot input i).trans hs)
      rw [hpublished.2, hlast] at hlast'
      obtain rfl := Option.some.inj hlast'
      rw [hplan] at hcurrent
      obtain ⟨-, hquality, hforce⟩ := hcurrent hage
      exact ⟨hquality, fun hout => (hforce hout).trans (hforced i)⟩
    · intro hsteady input i s hs
      rw [hslot] at hs
      obtain ⟨track, htrack⟩ := htracked.track_of_slot hs
      obtain ⟨track', -, hpublished⟩ := hspec input i s track hs htrack
      by_cases hdid : p.plan.publishes track s.value c.cycle.invokeMs = true
      · rw [Published, hdid, if_pos rfl] at hpublished
        obtain ⟨hvalue, hquality, -, hforce⟩ := @sampleOf_fields c.cycle.invokeMs p input i s
        exact ⟨_, hpublished.2, fun _ =>
          ⟨.inl hvalue, hquality, fun hout => (hforce hout).trans (hforced i).symm⟩⟩
      · have hnot : p.plan.publishes track s.value c.cycle.invokeMs = false := by simpa using hdid
        rw [Published, hnot, if_neg Bool.false_ne_true] at hpublished
        obtain ⟨hever, -⟩ := @unpublished _ _ _ s.value _ hnot
        obtain ⟨last, hlast, hvalue, hms⟩ := htracked.last hzero input i track htrack hever
        refine ⟨last, hpublished.2.trans hlast, ?_⟩
        intro hage
        rw [hplan] at hage
        obtain ⟨hquality, hforce⟩ := hsteady input i s track last hs htrack hlast hnot hage
        refine ⟨.inr ?_, hquality, fun hout => (hforce hout).trans (hforced i).symm⟩
        exact (unpublished hnot).2 hvalue (hms ▸ hage)

/-! ## A sensor that fails -/

/-- One BOOL input. -/
def oneInput : ScanIo where
  image := ⟨[.zero .bool], [], [], [], []⟩
  forces := []
  moduleQuality := .good
  onBadQuality := .forceSafe
  fieldGate := .stop

/-- The settings of a new device. -/
def defaultTelemetry : TelemetryPlan := ⟨true, 500, 20, 1024⟩

/-- A cycle in which the input is polled as FALSE with a quality. -/
def pollAt (ms : ℕ) (quality : Quality) : TelemetryCycle where
  cycle := ⟨ms, 0, ms, ms, ms, 0, none, some ([.bool false], [quality]), none, true⟩
  inputTurns := fun _ => ⟨0, false⟩
  outputTurns := fun _ => ⟨0, false⟩

/-- The input is polled twice, and the second time its module is bad. -/
def sensorFails : Option (TelemetryEngine × TelemetryEngine × Option ℕ) := do
  let t := TelemetryEngine.initial (.initial oneTask oneInput none) defaultTelemetry
  let (t, _) ← t.turn (pollAt 0 .good)
  let (t', ran) ← t.turn (pollAt 100 .bad)
  pure (t, t', ran)

/-- What is seen of the failed input. -/
structure SensorReport where
  slot : Option TypedSlot
  last : Option TelemetrySample
  drops : ℕ
  ran : Option ℕ
  enabled : Bool
  digitalCosMs : ℕ
  deriving DecidableEq

/-- The image and the last sample of the input after it failed. -/
def sensorReport : Option SensorReport :=
  sensorFails.map fun p => ⟨p.2.1.slot true 0, p.2.1.feed.last true 0, p.2.1.feed.ring.drops, p.2.2,
    p.1.plan.telemetryEnabled, p.2.1.plan.digitalCosMs⟩

/-- **A quality that changes alone is not published**: the input has been bad for a whole scan, and
its last sample still says good. -/
theorem bad_quality_unreported : ∃ t t' : TelemetryEngine,
    TelemetryRun oneTask oneInput defaultTelemetry t ∧ t.plan.telemetryEnabled = true ∧
      t.turn (pollAt 100 .bad) = some (t', some 100) ∧ t'.feed.ring.drops = 0 ∧ ¬t'.Reported 100 := by
  have hreport : sensorReport = some ⟨some ⟨.bool false, .bad, true⟩,
      some ⟨0, 0, .bool false, .good, false, 0, true⟩, 0, some 100, true, 20⟩ := by decide +kernel
  obtain ⟨⟨t, t', ran⟩, hfails, heq⟩ := Option.map_eq_some_iff.mp hreport
  unfold sensorFails at hfails
  obtain ⟨⟨t₁, ran₁⟩, hfirst, hrest⟩ := Option.bind_eq_some_iff.mp hfails
  obtain ⟨⟨t₂, ran₂⟩, hsecond, hpair⟩ := Option.bind_eq_some_iff.mp hrest
  cases hpair
  simp only [SensorReport.mk.injEq] at heq
  obtain ⟨hslot, hlast, hdrops, rfl, henabled, hcos⟩ := heq
  have hstart : TelemetryRun oneTask oneInput defaultTelemetry
      (.initial (.initial oneTask oneInput none) defaultTelemetry) :=
    .start (show IoEngine.new oneTask oneInput none = _ from rfl)
  refine ⟨_, _, hstart.turn hfirst, henabled, hsecond, hdrops, ?_⟩
  intro hreported
  obtain ⟨last, hlast', hcurrent⟩ := hreported true 0 _ hslot
  rw [hlast] at hlast'
  cases hlast'
  rw [hcos] at hcurrent
  obtain ⟨-, hquality, -⟩ := hcurrent (by decide)
  cases hquality

/-- On the same device the first scan reports its input. -/
theorem telemetry_reported_iff_first : ∃ t t' : TelemetryEngine,
    t.turn (pollAt 0 .good) = some (t', some 0) ∧
      (t'.Reported 0 ↔ TelemetryEngine.Steady { t with engine := t'.engine } 0) := by
  let t : TelemetryEngine := .initial (.initial oneTask oneInput none) defaultTelemetry
  have hstart : TelemetryRun oneTask oneInput defaultTelemetry t :=
    .start (show IoEngine.new oneTask oneInput none = _ from rfl)
  have hturn : (t.turn (pollAt 0 .good)).map (fun p => (p.2, p.1.feed.ring.drops)) =
      some (some 0, 0) := by decide +kernel
  obtain ⟨⟨t', ran⟩, hstep, heq⟩ := Option.map_eq_some_iff.mp hturn
  simp only [Prod.mk.injEq] at heq
  obtain ⟨rfl, hdrops⟩ := heq
  exact ⟨t, t', hstep, telemetry_reported_iff hstart rfl hstep hdrops⟩

end SoftPlc.Scan
