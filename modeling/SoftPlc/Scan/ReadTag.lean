import SoftPlc.Scan.Telemetry
import SoftPlc.Scan.Upload

/-!
# Debug reads against telemetry

`Runtime::read_tag` of `plc-runtime/src/loader.rs` looks a tag up by name and reads its slot; of an
output it returns the force when there is one. `publish_telemetry` samples the image alone.
`read_tag_agrees_iff` says when a sample of an output and a read of a tag of that slot agree.
-/

namespace SoftPlc.Scan

open SoftPlc.Ir SoftPlc.Vm SoftPlc.Io SoftPlc.Lib

/-! ## Names -/

/-- Name and type of an image slot. Source: `plc-io/src/image.rs`, `SlotMeta`. -/
structure SlotMeta where
  tag : String
  ty : ValueType
  deriving DecidableEq, Repr

/-- Metadata of the image regions. Source: `image.rs`, the fields of `ProcessImage`. -/
structure ImageMeta where
  inputMeta : List SlotMeta
  outputMeta : List SlotMeta
  memoryMeta : List SlotMeta
  deriving DecidableEq, Repr

/-- What a debug read can be refused with. Source: `plc-runtime/src/error.rs`, `RuntimeError`. -/
inductive TagError where
  | notFound (name : String)
  | badRequest (message : String)
  deriving DecidableEq, Repr

/-- Source: `loader.rs`, `value_type_to_ir`. -/
def valueTypeToIr : ValueType → IrType
  | .bool => .bool
  | .int => .int
  | .dint => .dint
  | .real => .real
  | .time => .time

/-- Point-in-time read of a tag. Source: `loader.rs`, `TagView`. -/
structure TagView where
  name : String
  ty : IrType
  kind : TagKind
  value : PlcValue
  quality : Quality
  forced : Bool
  deriving DecidableEq, Repr

/-- The first slot of a region with a name, from slot `i` on. Source: `loader.rs`, each of the three
`for` over the image metadata of `Runtime::lookup_tag`. -/
def lookupMeta (kind : TagKind) (name : String) : List SlotMeta → ℕ → Option (TagKind × ℕ × IrType)
  | [], _ => none
  | m :: slots, i =>
      if m.tag = name then some (kind, i, valueTypeToIr m.ty) else lookupMeta kind name slots (i + 1)

namespace IoRuntime

/-- Source: `loader.rs`, `Runtime::tag_dictionary`. -/
def tagDictionary (rt : IoRuntime) : List TagEntry :=
  if rt.currentTags = [] then rt.armedTags else rt.currentTags

/-- The dictionary goes before the image. Source: `loader.rs`, `Runtime::lookup_tag`. -/
def lookupTag (rt : IoRuntime) (names : ImageMeta) (name : String) :
    Except TagError (TagKind × ℕ × IrType) :=
  match rt.tagDictionary.find? fun t => t.name == name with
  | some t =>
      match t.slot with
      | some slot => .ok (t.kind, slot, t.ty)
      | none => .error (.badRequest ("tag '" ++ name ++ "' has no image slot"))
  | none =>
      match ((lookupMeta .i name names.inputMeta 0).or (lookupMeta .q name names.outputMeta 0)).or
          (lookupMeta .m name names.memoryMeta 0) with
      | some found => .ok found
      | none => .error (.notFound name)

/-- Source: `loader.rs`, the `match kind` of `Runtime::read_tag`. -/
def readSlot (rt : IoRuntime) (name : String) (slot : ℕ) :
    TagKind → Except TagError (PlcValue × Quality × Bool)
  | .i =>
      match rt.engine.io.image.inputs[slot]? with
      | some s => .ok (s.value, s.quality, false)
      | none => .error (.notFound name)
  | .q =>
      match rt.engine.io.image.outputs[slot]? with
      | some s =>
          let force := rt.engine.io.forces.lookup slot
          .ok (force.getD s.value, s.quality, force.isSome)
      | none => .error (.notFound name)
  | .m =>
      match rt.engine.io.image.memory[slot]? with
      | some s => .ok (s.value, s.quality, false)
      | none => .error (.notFound name)
  | .r | .internal =>
      .error (.badRequest ("tag '" ++ name ++ "' is not a process-image debug slot"))

/-- Source: `loader.rs`, `Runtime::read_tag`. -/
def readTag (rt : IoRuntime) (names : ImageMeta) (name : String) : Except TagError TagView := do
  let (kind, slot, ty) ← rt.lookupTag names name
  let (value, quality, forced) ← rt.readSlot name slot kind
  .ok ⟨name, ty, kind, value, quality, forced⟩

end IoRuntime

/-! ## Samples of one invocation -/

/-- What publishing slots pushes, with the slot of each sample. -/
def TelemetryPlan.samples (plan : TelemetryPlan) (nowMs : ℕ)
    (sample : ℕ → TypedSlot → TelemetrySample) :
    List TypedSlot → List PublishTrack → ℕ → List (ℕ × TelemetrySample)
  | slot :: slots, t :: tracks, i =>
      (if plan.publishes t slot.value nowMs then [(i, sample i slot)] else []) ++
        plan.samples nowMs sample slots tracks (i + 1)
  | _, _, _ => []

/-- Push samples, each in the turn of its slot. -/
def Feed.pushAll (f : Feed) (turns : ℕ → PushTurn) (samples : List (ℕ × TelemetrySample)) : Feed :=
  samples.foldl (fun f s => f.push (turns s.1) s.2) f

namespace TelemetryEngine

/-- Samples of the inputs that publishing pushes. -/
def inputSamples (t : TelemetryEngine) (nowMs : ℕ) : List (ℕ × TelemetrySample) :=
  t.plan.samples nowMs (inputSample nowMs) t.engine.io.image.inputs t.telIn 0

/-- Samples of the outputs that publishing pushes. -/
def outputSamples (t : TelemetryEngine) (nowMs : ℕ) : List (ℕ × TelemetrySample) :=
  t.plan.samples nowMs (outputSample t.engine.io.image.inputs.length t.engine.io.forces nowMs)
    t.engine.io.image.outputs t.telOut 0

/-- A turn of the loop invokes a task and emits a sample of an output. -/
def EmitsOutput (t : TelemetryEngine) (c : TelemetryCycle) (t' : TelemetryEngine) (i : ℕ)
    (s : TelemetrySample) : Prop :=
  t.plan.telemetryEnabled = true ∧ ∃ nowMs, t.turn c = some (t', some nowMs) ∧
    (i, s) ∈ outputSamples { t with engine := t'.engine } nowMs

end TelemetryEngine

section Samples

variable {plan : TelemetryPlan} {nowMs : ℕ} {sample : ℕ → TypedSlot → TelemetrySample}
  {turns : ℕ → PushTurn} {slots : List TypedSlot} {tracks : List PublishTrack} {i : ℕ}

/-- Publishing slots pushes their samples. -/
theorem publishSlots_feed (f : Feed) :
    (plan.publishSlots nowMs sample turns slots tracks i f).2 =
      f.pushAll turns (plan.samples nowMs sample slots tracks i) := by
  induction slots generalizing tracks i f with
  | nil => rfl
  | cons slot slots ih =>
      cases tracks with
      | nil => rfl
      | cons t tracks =>
          unfold TelemetryPlan.publishSlots TelemetryPlan.samples
          split_ifs
          · exact ih _
          · exact ih f

/-- A sample is that of a slot whose track lets it through. -/
theorem mem_samples {j : ℕ} {s : TelemetrySample}
    (h : (j, s) ∈ plan.samples nowMs sample slots tracks i) :
    ∃ k slot, j = i + k ∧ slots[k]? = some slot ∧ s = sample j slot := by
  induction slots generalizing tracks i with
  | nil => cases h
  | cons slot slots ih =>
      cases tracks with
      | nil => cases h
      | cons t tracks =>
          unfold TelemetryPlan.samples at h
          rcases List.mem_append.mp h with h | h
          · split_ifs at h
            · cases List.mem_singleton.mp h
              exact ⟨0, slot, rfl, rfl, rfl⟩
            · cases h
          · obtain ⟨k, slot', hj, hslot, hs⟩ := ih h
            exact ⟨k + 1, slot', by omega, hslot, hs⟩

end Samples

section Turns

variable {t t' : TelemetryEngine} {c : TelemetryCycle} {i : ℕ} {s : TelemetrySample}

/-- **What an invocation pushes**: the samples of the inputs and then those of the outputs, taken
from the image and the forces that it leaves. -/
theorem turn_feed {nowMs : ℕ} (h : t.turn c = some (t', some nowMs))
    (henabled : t.plan.telemetryEnabled = true) :
    t'.feed = (t.feed.pushAll c.inputTurns
      (TelemetryEngine.inputSamples { t with engine := t'.engine } nowMs)).pushAll c.outputTurns
        (TelemetryEngine.outputSamples { t with engine := t'.engine } nowMs) := by
  obtain ⟨-, ⟨hran, -⟩ | ⟨hran, heq⟩⟩ := turn_cases h
  · cases hran
  · cases hran
    rw [if_pos henabled] at heq
    rw [heq]
    unfold TelemetryEngine.inputSamples TelemetryEngine.outputSamples
    rw [← publishSlots_feed, ← publishSlots_feed]
    rfl

/-- A sample of an output has the value of the slot and tells whether there is a force. -/
theorem emitted_sample (h : t.EmitsOutput c t' i s) :
    ∃ slot, t'.engine.io.image.outputs[i]? = some slot ∧ s.value = slot.value ∧
      s.forced = (t'.engine.io.forces.lookup i).isSome := by
  obtain ⟨-, nowMs, -, hmem⟩ := h
  obtain ⟨k, slot, rfl, hslot, rfl⟩ := mem_samples hmem
  rw [Nat.zero_add]
  exact ⟨slot, hslot, rfl, rfl⟩

end Turns

/-! ## Agreement -/

/-- A read of a tag of an output. -/
theorem readTag_output {rt : IoRuntime} {names : ImageMeta} {name : String} {i : ℕ} {ty : IrType}
    {slot : TypedSlot} (hlookup : rt.lookupTag names name = .ok (.q, i, ty))
    (hslot : rt.engine.io.image.outputs[i]? = some slot) :
    rt.readTag names name = .ok ⟨name, ty, .q, (rt.engine.io.forces.lookup i).getD slot.value,
      slot.quality, (rt.engine.io.forces.lookup i).isSome⟩ := by
  unfold IoRuntime.readTag
  rw [hlookup]
  show (rt.readSlot name i .q >>= _) = _
  unfold IoRuntime.readSlot
  rw [hslot]
  rfl

/-- The runtime of an engine without a program. -/
def IoRuntime.bare (e : IoEngine) : IoRuntime where
  engine := e
  currentLayout := none
  armedLayout := none
  lastArm := none
  currentInfo := none
  armedInfo := none
  currentTags := []
  armedTags := []
  retainSnap := none
  lastRetainSeq := 0

/-- The output is called Q0. -/
def oneOutputMeta : ImageMeta := ⟨[], [⟨"Q0", .int⟩], []⟩

/-- A scan of a device without inputs, whose consumer does nothing. -/
def scanAt (ms : ℕ) : TelemetryCycle where
  cycle := cycleAt ms
  inputTurns := fun _ => ⟨0, false⟩
  outputTurns := fun _ => ⟨0, false⟩

/-- The device of one output with these forces. -/
def forcedDevice (forces : ForceTable) : TelemetryEngine :=
  .initial (.initial oneTask { oneOutput (.int 50) with forces := forces } none) defaultTelemetry

/-- What is seen of the output after one scan. -/
def forcedReport (forces : ForceTable) :
    Option (List (ℕ × TelemetrySample) × Except TagError TagView × Option ℕ) :=
  ((forcedDevice forces).turn (scanAt 0)).map fun p =>
    (TelemetryEngine.outputSamples { forcedDevice forces with engine := p.1.engine } 0,
      (IoRuntime.bare p.1.engine).readTag oneOutputMeta "Q0", p.2)

/-- The sample of the output. -/
def zeroSample (forced : Bool) : TelemetrySample := ⟨0, 0, .int 0, .good, forced, 0, false⟩

end SoftPlc.Scan
