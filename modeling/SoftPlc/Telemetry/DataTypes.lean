import SoftPlc.Scan.Upload
import SoftPlc.Telemetry.Service

/-!
# Types of device data

A scan engine and a publisher, joined by the ring of samples and by the catalog that the runtime builds
from the tag dictionary (`plc-runtime/src/catalog.rs`). A DBIRTH takes the datatype of a tag from the
catalog, and a DDATA takes it from the value that was sampled. `data_types_while` says when the two
agree.
-/

namespace SoftPlc.Telemetry

open SoftPlc.Ir SoftPlc.Vm SoftPlc.Io SoftPlc.Scan SoftPlc.Lib

/-! ## The catalog of a program -/

/-- Source: `plc-runtime/src/catalog.rs`, `ir_metric`. -/
def irMetric : IrType → MetricType
  | .bool => .bool
  | .int => .int
  | .dint => .dint
  | .real => .real
  | .time => .time
  | .lint => .lint

/-- Units of the slots in the I/O map. Source: `plc-io/src/image.rs`, `input_meta` and `output_meta` of
`ProcessImage`, of which only the unit is read. -/
structure SlotUnits where
  inputs : List String
  outputs : List String

/-- Source: `catalog.rs`, `unit_for`. -/
def unitFor (units : Option SlotUnits) (isInput : Bool) (slot : ℕ) : String :=
  match units with
  | none => ""
  | some units => ((if isInput then units.inputs else units.outputs)[slot]?).getD ""

/-- The tag of a dictionary entry, if it is in the image. -/
def catalogTag (units : Option SlotUnits) (t : TagEntry) : Except String (Option CatalogTag) :=
  let tagOf (isInput : Bool) : Except String (Option CatalogTag) :=
    match t.slot with
    | none => .error ("tag '" ++ t.name ++ "' has no image slot")
    | some slot => .ok (some ⟨t.name, irMetric t.ty, isInput, slot, unitFor units isInput slot⟩)
  match t.kind with
  | .i => tagOf true
  | .q => tagOf false
  | .m | .r | .internal => .ok none

/-- Source: the derived `Display` of `TelemetryError`, `plc-telemetry/src/error.rs`. -/
def TelemetryError.toString : TelemetryError → String
  | .config message => "telemetry config: " ++ message
  | .backpressured => "mqtt client backpressured"
  | .mqtt message => "mqtt: " ++ message
  | .protobuf message => "protobuf: " ++ message

/-- The error is the text of a `RuntimeError::BadRequest`. Source: `catalog.rs`,
`catalog_from_tags`. -/
def catalogFromTags (tags : List TagEntry) (units : Option SlotUnits) : Except String TagCatalog := do
  let catalog ← tags.mapM (catalogTag units)
  match TagCatalog.fromTags (catalog.filterMap id) with
  | .ok catalog => .ok catalog
  | .error e => .error e.toString

/-! ## The device -/

/-- The scan and the telemetry worker of one device. -/
structure Device where
  engine : TelemetryEngine
  publisher : Publisher

/-- What happens on a device. -/
inductive DeviceEvent where
  /-- Outside a scan. -/
  | outside (ev : EngineEvent)
  /-- A scan starts. -/
  | boundary
  | turn (c : TelemetryCycle)
  /-- A drain receives a sample. -/
  | recv
  /-- A drain publishes what it has received. -/
  | drain (r : Readings)
  /-- The catalog of a program reaches the worker. -/
  | setCatalog (tags : List TagEntry) (units : Option SlotUnits) (death birth : Readings)
  | prepareConnect
  | replaceTransport
  | onConnected (node device : Readings)
  | handleIncoming (topic : String) (payload : Option Payload) (node device : Readings)

/-- A connection that accepts everything. -/
def acceptsAll (_ : ℕ) : Except TelemetryError Unit := .ok ()

namespace Device

/-- The publisher works. -/
def perform (d : Device) (op : PublisherOp) : Device :=
  { d with publisher := (d.publisher.perform op).1 }

/-- The samples that wait for the next drain. -/
def waiting (d : Device) : List TelemetrySample := d.engine.feed.history

/-- One event; nothing if it cannot happen. -/
def handle (d : Device) : DeviceEvent → Option Device
  | .outside ev =>
      match ev with
      | .scan _ => none
      | ev => (d.engine.engine.handle ev).map fun p =>
          { d with engine := { d.engine with engine := p.1 } }
  | .boundary =>
      some { d with engine := { d.engine with engine := d.engine.engine.applyModeBoundary } }
  | .turn c => (d.engine.turn c).map fun p => { d with engine := p.1 }
  | .recv => some { d with engine := { d.engine with feed := d.engine.feed.recv } }
  | .drain r =>
      if d.publisher.born then
        -- What the drain received is its own.
        let rest : Feed := { d.engine.feed with received := [] }
        some { d.perform (.drain r d.engine.feed.received) with
          engine := { d.engine with feed := rest } }
      else some d
  | .setCatalog tags units death birth =>
      match catalogFromTags tags units with
      | .ok catalog => some (d.perform (.setCatalog catalog death birth))
      | .error _ => some d
  | .prepareConnect => some (d.perform .prepareConnect)
  | .replaceTransport => some (d.perform (.replaceTransport acceptsAll))
  | .onConnected node device => some (d.perform (.onConnected node device))
  | .handleIncoming topic payload node device =>
      some (d.perform (.handleIncoming topic payload node device))

end Device

/-- Runs of a device from its start, whose events all meet a condition. -/
inductive DeviceRun (cond : Device → DeviceEvent → Prop) : Device → Prop
  | start {plan : ScanPlan} {io : ScanIo} {tel : TelemetryPlan} {vm : Option ArmedVm} {e : IoEngine}
      (h : IoEngine.new plan io vm = .ok e) (ids : TopicIds) :
      DeviceRun cond ⟨.initial e tel, .new ids (.connect acceptsAll)⟩
  | step {d d' : Device} (h : DeviceRun cond d) (ev : DeviceEvent) (hcond : cond d ev)
      (hstep : d.handle ev = some d') : DeviceRun cond d'

/-! ## Types -/

/-- A value has the datatype of a tag. -/
def Fits (value : PlcValue) (ty : MetricType) : Prop := (valueToSparkplug value).1 = ty.sparkplugDatatype

instance (value : PlcValue) (ty : MetricType) : Decidable (Fits value ty) :=
  inferInstanceAs (Decidable (_ = _))

/-- A value fits the tag of its slot. -/
def TagCatalog.FitsSlot (c : TagCatalog) (isInput : Bool) (slot : ℕ) (value : PlcValue) : Prop :=
  ∀ e, c.get isInput slot = some e → Fits value e.tag.valueType

/-- **When the types agree.** A slot that a scan publishes holds a value of the type of its tag, and when
a catalog is set, the samples that wait have the types of its tags. -/
def SlotsFit (d : Device) : DeviceEvent → Prop
  | .turn c => ∀ t' nowMs, d.engine.turn c = some (t', some nowMs) → d.engine.plan.telemetryEnabled →
      ∀ input i s track,
        TelemetryEngine.slot { d.engine with engine := t'.engine } input i = some s →
        d.engine.track input i = some track → d.engine.plan.publishes track s.value nowMs = true →
          d.publisher.session.catalog.FitsSlot input i s.value
  | .setCatalog tags units _ _ => ∀ catalog, catalogFromTags tags units = .ok catalog →
      ∀ s ∈ d.waiting, catalog.FitsSlot s.isInput s.tagHint s.value
  | _ => True

/-- Kinds of values that the type map assigns to the datatypes of device metrics. Source:
`docs/sparkplug.md`, "Type map". -/
def HasKind (datatype : BitVec 32) : MetricValue → Prop
  | .bool _ => datatype = 11
  | .int _ => datatype = 2 ∨ datatype = 3
  | .float _ => datatype = 9
  | .long _ => datatype = 4
  | .string _ => datatype = 12

/-- The last device birth. -/
def lastDbirth (frames : List Frame) : Option Frame := frames.reverse.find? fun f => f.verb == .dbirth

/-- A metric has the datatype that the last device birth announced for its alias, and a value of its
kind. -/
structure Metric.AsAnnounced (m : Metric) (before : List Frame) : Prop where
  announced : ∃ b, lastDbirth before = some b ∧ (∃ a ∈ b.payload.metrics, a.aliasId = m.aliasId) ∧
    ∀ a ∈ b.payload.metrics, a.aliasId = m.aliasId → a.datatype = m.datatype
  kind : ∃ v, m.value = some v ∧ HasKind m.datatype v

/-- Every device message has the announced types. -/
def DataTyped (frames : List Frame) : Prop :=
  EachAt id (fun before f => f.verb = .ddata → ∀ m ∈ f.payload.metrics, m.AsAnnounced before) frames

/-! ## Samples -/

section Samples

variable {f : Feed} {x : TelemetrySample}

theorem push_mem {turn : PushTurn} {s : TelemetrySample} (h : x ∈ (f.push turn s).history) :
    x ∈ f.history ∨ x = s := by
  rw [← (Feed.recvs_history turn.recvs f).1]
  unfold Feed.push SpscRing.pushDropOldest at h
  generalize Feed.recv^[turn.recvs] f = g at h ⊢
  unfold Feed.history at h ⊢
  dsimp only at h
  rw [List.mem_append] at h ⊢
  split_ifs at h
  · exact .inl h
  · -- The oldest one is dropped.
    rcases h with h | h
    · exact .inl (.inl h)
    · rcases List.mem_append.mp h with h | h
      · exact .inl (.inr (List.mem_of_mem_tail h))
      · exact .inr (List.mem_singleton.mp h)
  · rcases h with h | h
    · exact .inl (.inl h)
    · rcases List.mem_append.mp h with h | h
      · exact .inl (.inr h)
      · exact .inr (List.mem_singleton.mp h)

/-- A sample that publishing adds was taken from a slot that is published. -/
theorem publishSlots_mem {plan : TelemetryPlan} {nowMs : ℕ} {sample : ℕ → TypedSlot → TelemetrySample}
    {turns : ℕ → PushTurn} {slots : List TypedSlot} {tracks : List PublishTrack} {i : ℕ}
    (h : x ∈ (plan.publishSlots nowMs sample turns slots tracks i f).2.history) :
    x ∈ f.history ∨ ∃ k s track, slots[k]? = some s ∧ tracks[k]? = some track ∧
      plan.publishes track s.value nowMs = true ∧ x = sample (i + k) s := by
  induction slots generalizing tracks i f with
  | nil => exact .inl h
  | cons slot slots ih =>
      cases tracks with
      | nil => exact .inl h
      | cons track tracks =>
          unfold TelemetryPlan.publishSlots at h
          split_ifs at h with hpub
          · rcases ih h with hmem | ⟨k, s, track', hs, htrack, hpub', rfl⟩
            · rcases push_mem hmem with hmem | rfl
              · exact .inl hmem
              · exact .inr ⟨0, slot, track, rfl, rfl, hpub, rfl⟩
            · exact .inr ⟨k + 1, s, track', hs, htrack, hpub', by rw [Nat.add_right_comm, Nat.add_assoc]⟩
          · rcases ih h with hmem | ⟨k, s, track', hs, htrack, hpub', rfl⟩
            · exact .inl hmem
            · exact .inr ⟨k + 1, s, track', hs, htrack, hpub', by rw [Nat.add_right_comm, Nat.add_assoc]⟩

/-- So is one that a scan adds. -/
theorem publishTelemetry_mem {t : TelemetryEngine} {c : TelemetryCycle} {nowMs : ℕ}
    (h : x ∈ (t.publishTelemetry c nowMs).feed.history) :
    x ∈ t.feed.history ∨ ∃ s track, t.slot x.isInput x.tagHint = some s ∧
      t.track x.isInput x.tagHint = some track ∧ t.plan.publishes track s.value nowMs = true ∧
        x.value = s.value := by
  unfold TelemetryEngine.publishTelemetry at h
  rcases publishSlots_mem h with h | ⟨k, s, track, hs, htrack, hpub, rfl⟩
  · rcases publishSlots_mem h with h | ⟨k, s, track, hs, htrack, hpub, rfl⟩
    · exact .inl h
    · rw [zero_add]
      exact .inr ⟨s, track, hs, htrack, hpub, rfl⟩
  · rw [zero_add]
    exact .inr ⟨s, track, hs, htrack, hpub, rfl⟩

end Samples

/-! ## Values and their kinds -/

theorem valueToSparkplug_kind (value : PlcValue) :
    HasKind (valueToSparkplug value).1 (valueToSparkplug value).2 := by
  cases value with
  | bool b => exact rfl
  | int v => exact .inl rfl
  | dint v => exact .inr rfl
  | real v => exact rfl
  | time v => exact .inr rfl

/-! ## Announcements -/

/-- The last device birth announced the aliases and types of a catalog. -/
def Announces (frames : List Frame) (c : TagCatalog) : Prop :=
  ∃ b, lastDbirth frames = some b ∧ b.payload.metrics.map (fun m => (m.aliasId, m.datatype)) =
    c.entries.map fun e => (some (e.aliasId.setWidth 64), e.tag.valueType.sparkplugDatatype)

/-- **The invariant of the publisher.** -/
structure Announcing (p : Publisher) : Prop where
  typed : DataTyped p.transport.frames
  known : p.born = true → p.session.catalog.isEmpty = false →
    Announces p.transport.frames p.session.catalog
  aliases : (p.session.catalog.entries.map CatalogEntry.aliasId).Nodup

section Announcements

variable {p p' : Publisher} {frames said : List Frame} {c : TagCatalog}

theorem lastDbirth_append (h : ∀ f ∈ said, f.verb ≠ .dbirth) :
    lastDbirth (frames ++ said) = lastDbirth frames := by
  unfold lastDbirth
  rw [List.reverse_append, List.find?_append]
  have hnone : said.reverse.find? (fun f => f.verb == .dbirth) = none := by
    rw [List.find?_eq_none]
    intro f hf
    simpa using h f (List.mem_reverse.mp hf)
  rw [hnone, Option.none_or]

theorem lastDbirth_snoc {f : Frame} (h : f.verb = .dbirth) : lastDbirth (frames ++ [f]) = some f := by
  unfold lastDbirth
  rw [List.reverse_append, List.reverse_singleton, List.singleton_append, List.find?_cons]
  simp [h]

theorem DataTyped.append (h : DataTyped frames) (hsaid : ∀ f ∈ said, f.verb ≠ .ddata) :
    DataTyped (frames ++ said) := by
  induction said generalizing frames with
  | nil =>
      rw [List.append_nil]
      exact h
  | cons f said ih =>
      rw [List.append_cons]
      apply ih
      · apply EachAt.snoc h
        rintro _ rfl hverb
        exact absurd hverb (hsaid f List.mem_cons_self)
      · intro g hg
        exact hsaid g (List.mem_cons_of_mem _ hg)

/-- Messages that are neither births nor data of the device. -/
theorem Announcing.told (h : Announcing p) (htold : Told p p' said)
    (hsaid : ∀ f ∈ said, f.verb ≠ .ddata ∧ f.verb ≠ .dbirth) : Announcing p' := by
  refine ⟨?_, ?_, ?_⟩
  · rw [htold.frames]
    exact h.typed.append fun f hf => (hsaid f hf).1
  · intro hborn hempty
    obtain ⟨b, hb, hmetrics⟩ := h.known (htold.born ▸ hborn) (htold.catalog ▸ hempty)
    rw [htold.frames, htold.catalog]
    exact ⟨b, (lastDbirth_append fun f hf => (hsaid f hf).2).trans hb, hmetrics⟩
  · rw [htold.catalog]
    exact h.aliases

theorem dbirth_announces (p : Publisher) (r : Readings) (hempty : p.session.catalog.isEmpty = false) :
    Announces (p.publishDbirth r).1.transport.frames p.session.catalog := by
  unfold Publisher.publishDbirth Publisher.sendBuilt
  rcases hbuilt : p.session.dbirth r.unixMs r.synced with ⟨s, _ | payload⟩
  · obtain ⟨-, hnone⟩ := dbirth_none hbuilt
    rw [hempty] at hnone
    cases hnone
  · obtain ⟨-, -, rfl⟩ := dbirth_some hbuilt
    refine ⟨p.nextFrame .dbirth ⟨some r.unixMs,
      p.session.catalog.entries.map (p.session.dbirthMetric r.unixMs r.synced), some 0⟩, ?_, ?_⟩
    swap
    · exact List.map_map.trans rfl
    dsimp only
    rw [(send_fields _ _ _).2.2.2]
    exact lastDbirth_snoc rfl

/-- A device birth announces the catalog, born or not. -/
theorem announcing_dbirth (htyped : DataTyped p.transport.frames)
    (haliases : (p.session.catalog.entries.map CatalogEntry.aliasId).Nodup) (r : Readings) (b : Bool) :
    Announcing { (p.publishDbirth r).1 with born := b } := by
  obtain ⟨said, htold, hverb, -⟩ := Told.dbirth p r
  refine ⟨?_, ?_, ?_⟩
  · show DataTyped (p.publishDbirth r).1.transport.frames
    rw [htold.frames]
    exact htyped.append fun f hf => by simp [hverb f hf]
  · intro _ hempty
    show Announces (p.publishDbirth r).1.transport.frames (p.publishDbirth r).1.session.catalog
    rw [htold.catalog]
    exact dbirth_announces p r (htold.catalog ▸ hempty)
  · show ((p.publishDbirth r).1.session.catalog.entries.map CatalogEntry.aliasId).Nodup
    rw [htold.catalog]
    exact haliases

theorem Announcing.dbirth (h : Announcing p) (r : Readings) : Announcing (p.publishDbirth r).1 :=
  announcing_dbirth h.typed h.aliases r _

theorem Announcing.nbirth (h : Announcing p) (r : Readings) : Announcing (p.publishNbirth r).1 := by
  apply h.told (Told.nbirth p r)
  intro f hf
  obtain rfl := List.mem_singleton.mp hf
  exact ⟨by simp [Publisher.nextFrame], by simp [Publisher.nextFrame]⟩

theorem Announcing.onConnected (h : Announcing p) (node device : Readings) :
    Announcing (p.onConnected node device).1 := by
  have hsub : Announcing p.trySendSub.1 := h.told (Told.subscribe p) (fun _ hf => nomatch hf)
  unfold Publisher.onConnected
  refine @andThen_cases _ _ (fun x => Announcing x.1) (fun _ _ => hsub) fun _ => ?_
  have hnode := hsub.nbirth node
  refine @andThen_cases _ _ (fun x => Announcing x.1) (fun _ _ => hnode) fun _ => ?_
  have hdevice := hnode.dbirth device
  refine @andThen_cases _ _ (fun x => Announcing x.1) (fun _ _ => hdevice) fun _ => ?_
  exact announcing_dbirth hnode.typed hnode.aliases device true

theorem Announcing.handleIncoming (h : Announcing p) (topic : String) (payload : Option Payload)
    (node device : Readings) : Announcing (p.handleIncoming topic payload node device).1 := by
  unfold Publisher.handleIncoming
  split_ifs
  · exact h
  · have hreset : Announcing { p with session := p.session.onRebirth } := ⟨h.typed, h.known, h.aliases⟩
    have hnode := hreset.nbirth node
    refine @andThen_cases _ _ (fun x => Announcing x.1) (fun _ _ => hnode) fun _ => ?_
    exact hnode.dbirth device
  · exact h

theorem Announcing.setCatalog (h : Announcing p) (hc : (c.entries.map CatalogEntry.aliasId).Nodup)
    (death birth : Readings) : Announcing (p.setCatalog c death birth).1 := by
  obtain ⟨q, result, said, hretired, htold, hdeath, -⟩ := retired_cases p death
  have hq : Announcing q := by
    apply h.told htold
    intro f hf
    rw [hdeath f hf]
    exact ⟨by decide, by decide⟩
  unfold Publisher.setCatalog
  rw [hretired]
  refine @andThen_cases (q, result) _ (fun x => Announcing x.1) (fun _ _ => hq) fun _ => ?_
  dsimp only
  split_ifs with hborn
  · exact announcing_dbirth (p := { q with session := q.session.setCatalog c }) hq.typed hc birth _
  · exact ⟨hq.typed, fun hborn' => absurd hborn' hborn, hc⟩

/-- The metric of a sample that fits is as announced. -/
theorem asAnnounced {r : Readings} {sample : TelemetrySample} {e : CatalogEntry}
    (hannounces : Announces frames c) (haliases : (c.entries.map CatalogEntry.aliasId).Nodup)
    (hget : c.get sample.isInput sample.tagHint = some e) (hfits : Fits sample.value e.tag.valueType) :
    (SessionState.ddataMetric r.unixMs r.synced e sample).AsAnnounced frames := by
  obtain ⟨b, hb, hmetrics⟩ := hannounces
  have he := TagCatalog.get_mem hget
  refine ⟨⟨b, hb, ?_, ?_⟩, ⟨_, rfl, valueToSparkplug_kind sample.value⟩⟩
  · have hmem : (some (e.aliasId.setWidth 64), e.tag.valueType.sparkplugDatatype) ∈
        b.payload.metrics.map fun m => (m.aliasId, m.datatype) := by
      rw [hmetrics]
      exact List.mem_map_of_mem he
    obtain ⟨a, ha, heq⟩ := List.mem_map.mp hmem
    exact ⟨a, ha, congrArg Prod.fst heq⟩
  · intro a ha halias
    have hmem : (a.aliasId, a.datatype) ∈
        c.entries.map fun e => (some (e.aliasId.setWidth 64), e.tag.valueType.sparkplugDatatype) := by
      rw [← hmetrics]
      exact List.mem_map_of_mem ha
    obtain ⟨e', he', heq⟩ := List.mem_map.mp hmem
    -- The alias belongs to one tag only.
    have hsame : e'.aliasId = e.aliasId := by
      have hwide : e'.aliasId.setWidth 64 = e.aliasId.setWidth 64 :=
        Option.some.inj ((congrArg Prod.fst heq).trans halias)
      apply BitVec.eq_of_toNat_eq
      have hnat := congrArg BitVec.toNat hwide
      simp only [BitVec.toNat_setWidth] at hnat
      omega
    obtain rfl := List.inj_on_of_nodup_map haliases he' he hsame
    exact (congrArg Prod.snd heq).symm.trans hfits.symm

/-- **A drain** of samples that fit. -/
theorem Announcing.drain (h : Announcing p) (r : Readings) {samples : List TelemetrySample}
    (hfits : ∀ s ∈ samples, p.session.catalog.FitsSlot s.isInput s.tagHint s.value) :
    Announcing (p.drain r samples).1 := by
  unfold Publisher.drain
  split_ifs with hborn
  · obtain ⟨said, htold, -, hverb⟩ := Told.ndata p r
    have hnode : Announcing (p.publishNdata r).1 := by
      apply h.told htold
      intro f hf
      rw [hverb f hf]
      exact ⟨by decide, by decide⟩
    refine @andThen_cases _ _ (fun x => Announcing x.1) (fun _ _ => hnode) fun _ => ?_
    obtain ⟨data, hdata, hlen, hsaid⟩ := Told.ddata (p.publishNdata r).1 r samples
    have hnobirth : ∀ f ∈ data, f.verb ≠ .dbirth := by
      intro f hf
      rw [(hsaid f hf).1]
      decide
    refine ⟨?_, ?_, hdata.catalog ▸ hnode.aliases⟩
    · rw [hdata.frames]
      rcases data with _ | ⟨f, _ | _⟩
      · rw [List.append_nil]
        exact hnode.typed
      · apply EachAt.snoc hnode.typed
        rintro _ rfl - m hm
        obtain ⟨-, hmetrics⟩ := hsaid f List.mem_cons_self
        obtain ⟨sample, hsample, e, hget, rfl⟩ := hmetrics m hm
        have hnonempty : (p.publishNdata r).1.session.catalog.isEmpty = false := by
          unfold TagCatalog.isEmpty
          rw [List.isEmpty_eq_false_iff]
          exact List.ne_nil_of_mem (TagCatalog.get_mem hget)
        have hborn' : (p.publishNdata r).1.born = true := htold.born.trans hborn
        refine asAnnounced (hnode.known hborn' hnonempty) hnode.aliases hget ?_
        exact hfits sample hsample e (htold.catalog ▸ hget)
      · exact absurd hlen (by simp)
    · intro hborn' hempty
      obtain ⟨b, hb, hmetrics⟩ := hnode.known (hdata.born ▸ hborn') (hdata.catalog ▸ hempty)
      rw [hdata.frames, hdata.catalog]
      exact ⟨b, (lastDbirth_append hnobirth).trans hb, hmetrics⟩
  · exact h

end Announcements

/-! ## Runs -/

/-- **The invariant of a device**: the samples that wait fit the catalog. -/
structure TypesKept (d : Device) : Prop where
  publisher : Announcing d.publisher
  waiting : ∀ s ∈ d.waiting, d.publisher.session.catalog.FitsSlot s.isInput s.tagHint s.value

section Device

variable {d d' : Device}

/-- Calls that keep the catalog. -/
theorem TypesKept.call {p : Publisher} (h : TypesKept d) (hp : Announcing p)
    (hcatalog : p.session.catalog = d.publisher.session.catalog) : TypesKept { d with publisher := p } := by
  refine ⟨hp, ?_⟩
  intro s hs
  show p.session.catalog.FitsSlot _ _ _
  rw [hcatalog]
  exact h.waiting s hs

theorem onConnected_catalog (p : Publisher) (node device : Readings) :
    (p.onConnected node device).1.session.catalog = p.session.catalog := by
  obtain ⟨q, said, htold, -, heq | ⟨heq, -⟩⟩ := onConnected_cases p node device
  · rw [heq]
    exact htold.catalog
  · rw [heq]
    exact htold.catalog

theorem handleIncoming_catalog (p : Publisher) (topic : String) (payload : Option Payload)
    (node device : Readings) :
    (p.handleIncoming topic payload node device).1.session.catalog = p.session.catalog := by
  unfold Publisher.handleIncoming
  split_ifs
  · rfl
  · have hnode := Told.nbirth { p with session := p.session.onRebirth } node
    refine @andThen_cases _ _ (fun x => x.1.session.catalog = p.session.catalog)
      (fun _ _ => hnode.catalog) fun _ => ?_
    obtain ⟨said, hdevice, -⟩ := Told.dbirth
      (({ p with session := p.session.onRebirth } : Publisher).publishNbirth node).1 device
    exact hdevice.catalog.trans hnode.catalog
  · rfl

theorem drain_catalog (p : Publisher) (r : Readings) (samples : List TelemetrySample) :
    (p.drain r samples).1.session.catalog = p.session.catalog := by
  unfold Publisher.drain
  split_ifs
  · obtain ⟨said, hnode, -⟩ := Told.ndata p r
    refine @andThen_cases _ _ (fun x => x.1.session.catalog = p.session.catalog)
      (fun _ _ => hnode.catalog) fun _ => ?_
    obtain ⟨data, hdata, -⟩ := Told.ddata (p.publishNdata r).1 r samples
    exact hdata.catalog.trans hnode.catalog
  · rfl

/-- A catalog is the old one or the new one afterwards. -/
theorem setCatalog_catalog (p : Publisher) (c : TagCatalog) (death birth : Readings) :
    (p.setCatalog c death birth).1.session.catalog = p.session.catalog ∨
      (p.setCatalog c death birth).1.session.catalog = c := by
  obtain ⟨q, result, said, hretired, htold, -⟩ := retired_cases p death
  unfold Publisher.setCatalog
  rw [hretired]
  refine @andThen_cases (q, result) _ (fun x => x.1.session.catalog = p.session.catalog ∨
    x.1.session.catalog = c) (fun _ _ => .inl htold.catalog) fun _ => .inr ?_
  dsimp only
  split_ifs
  · obtain ⟨births, hbirth, -⟩ :=
      Told.dbirth ({ q with session := q.session.setCatalog c } : Publisher) birth
    exact hbirth.catalog
  · rfl

theorem catalogFromTags_aliases {tags : List TagEntry} {units : Option SlotUnits} {c : TagCatalog}
    (h : catalogFromTags tags units = .ok c) : (c.entries.map CatalogEntry.aliasId).Nodup := by
  unfold catalogFromTags at h
  obtain ⟨catalog, -, hfrom⟩ := except_bind_ok.mp h
  split at hfrom
  · next heq =>
      cases hfrom
      exact fromTags_alias heq
  · cases hfrom

/-- A turn adds samples of slots that fit. -/
theorem TypesKept.turn {c : TelemetryCycle} {t' : TelemetryEngine} {ran : Option ℕ} (h : TypesKept d)
    (hcond : SlotsFit d (.turn c)) (hstep : d.engine.turn c = some (t', ran)) :
    TypesKept { d with engine := t' } := by
  refine ⟨h.publisher, ?_⟩
  intro s hs
  obtain ⟨-, ⟨-, heq⟩ | ⟨rfl, heq⟩⟩ := turn_cases hstep
  · have hfeed : t'.feed = d.engine.feed := by rw [heq]
    unfold Device.waiting at hs
    rw [hfeed] at hs
    exact h.waiting s hs
  · unfold Device.waiting at hs
    dsimp only at hs
    rw [heq] at hs
    split_ifs at hs with henabled
    · rcases publishTelemetry_mem hs with hs | ⟨slot, track, hslot, htrack, hpub, hvalue⟩
      · exact h.waiting s hs
      · rw [hvalue]
        exact hcond t' c.cycle.invokeMs hstep henabled s.isInput s.tagHint slot track hslot htrack hpub
    · exact h.waiting s hs

theorem TypesKept.handle (h : TypesKept d) (ev : DeviceEvent) (hcond : SlotsFit d ev)
    (hstep : d.handle ev = some d') : TypesKept d' := by
  unfold Device.handle at hstep
  cases ev with
  | outside ev =>
      dsimp only at hstep
      split at hstep
      · cases hstep
      · obtain ⟨p, -, rfl⟩ := Option.map_eq_some_iff.mp hstep
        exact ⟨h.publisher, h.waiting⟩
  | boundary =>
      cases hstep
      exact ⟨h.publisher, h.waiting⟩
  | turn c =>
      obtain ⟨⟨t', ran⟩, hturn, rfl⟩ := Option.map_eq_some_iff.mp hstep
      exact h.turn hcond hturn
  | recv =>
      cases hstep
      refine ⟨h.publisher, ?_⟩
      intro s hs
      unfold Device.waiting at hs
      dsimp only at hs
      rw [(Feed.recv_history d.engine.feed).1] at hs
      exact h.waiting s hs
  | drain r =>
      dsimp only at hstep
      split_ifs at hstep
      · cases hstep
        have hreceived : ∀ s ∈ d.engine.feed.received, s ∈ d.waiting :=
          fun s hs => List.mem_append_left _ hs
        refine ⟨h.publisher.drain r fun s hs => h.waiting s (hreceived s hs), ?_⟩
        intro s hs
        show (d.publisher.drain r d.engine.feed.received).1.session.catalog.FitsSlot _ _ _
        rw [drain_catalog]
        exact h.waiting s (List.mem_append_right _ hs)
      · cases hstep
        exact h
  | setCatalog tags units death birth =>
      dsimp only at hstep
      split at hstep
      · next c hc =>
          cases hstep
          refine ⟨h.publisher.setCatalog (catalogFromTags_aliases hc) death birth, ?_⟩
          intro s hs
          show (d.publisher.setCatalog c death birth).1.session.catalog.FitsSlot _ _ _
          rcases setCatalog_catalog d.publisher c death birth with heq | heq
          · rw [heq]
            exact h.waiting s hs
          · rw [heq]
            exact hcond c hc s hs
      · cases hstep
        exact h
  | prepareConnect =>
      cases hstep
      exact h.call ⟨h.publisher.typed, (fun hborn => nomatch hborn), h.publisher.aliases⟩ rfl
  | replaceTransport =>
      cases hstep
      exact h.call ⟨EachAt.nil, (fun hborn => nomatch hborn), h.publisher.aliases⟩ rfl
  | onConnected node device =>
      cases hstep
      exact h.call (h.publisher.onConnected node device) (onConnected_catalog _ node device)
  | handleIncoming topic payload node device =>
      cases hstep
      exact h.call (h.publisher.handleIncoming topic payload node device)
        (handleIncoming_catalog _ topic payload node device)

end Device

theorem DeviceRun.typesKept {d : Device} (h : DeviceRun SlotsFit d) : TypesKept d := by
  induction h with
  | start h ids => exact ⟨⟨EachAt.nil, (fun hborn => nomatch hborn), List.nodup_nil⟩,
      (fun _ hs => nomatch hs)⟩
  | step h ev hcond hstep ih => exact ih.handle ev hcond hstep

/-- **DDATA has the announced types** in every run in which the slots that are published fit their tags
and no sample of another type waits when a catalog is set. -/
theorem data_types_while {d : Device} (h : DeviceRun SlotsFit d) :
    DataTyped d.publisher.transport.frames := h.typesKept.publisher.typed

/-! ## An output that was never stored -/

/-- The events one after the other. -/
def Device.handleAll (d : Device) : List DeviceEvent → Option Device
  | [] => some d
  | ev :: evs => (d.handle ev).bind fun d => d.handleAll evs

theorem DeviceRun.handleAll {cond : Device → DeviceEvent → Prop} {d d' : Device} {evs : List DeviceEvent}
    (h : DeviceRun cond d) (hcond : ∀ ev ∈ evs, ∀ d, cond d ev) (hevs : d.handleAll evs = some d') :
    DeviceRun cond d' := by
  induction evs generalizing d with
  | nil =>
      cases hevs
      exact h
  | cons ev evs ih =>
      obtain ⟨d₁, hfirst, hrest⟩ := Option.bind_eq_some_iff.mp hevs
      have hstep := h.step ev (hcond ev List.mem_cons_self d) hfirst
      exact ih hstep (fun ev hev => hcond ev (List.mem_cons_of_mem _ hev)) hrest

/-- A device at its start. -/
def deviceAt (io : ScanIo) : Device where
  engine := .initial (.initial oneTask io none) defaultTelemetry
  publisher := .new plantIds (.connect acceptsAll)

/-- Set a catalog of one tag, and connect. -/
def announce (tag : TagEntry) : List DeviceEvent :=
  [.setCatalog [tag] none (readingsAt 0 .stop) (readingsAt 0 .stop),
    .onConnected (readingsAt 10 .stop) (readingsAt 10 .stop)]

/-- Install a program that never stores its INT output, scan once and drain. -/
def coldOutput : List DeviceEvent :=
  announce ⟨"Level", .int, .q, some 0⟩ ++
    [.outside (.requestMode .run), .outside (.arm idleProgram .safeReset), .outside .requestActivate,
      .boundary, .turn ⟨cycleAt 0, fun _ => ⟨0, false⟩, fun _ => ⟨0, false⟩⟩, .recv,
      .drain (readingsAt 20 .stop)]

/-- Kinds and datatypes of the device messages. -/
def deviceTypes (d : Device) : List (Verb × List (BitVec 32)) :=
  d.publisher.transport.frames.map fun f =>
    (f.verb, if f.verb.isNode then [] else f.payload.metrics.map Metric.datatype)

/-- **DDATA can have another type than DBIRTH announced**: the birth announces Int16, and the output of
the cold VM is sent as Boolean. -/
theorem cold_output_retyped : ∃ d, DeviceRun (fun _ _ => True) d ∧
    ¬DataTyped d.publisher.transport.frames := by
  have hrun : ((deviceAt (oneOutput (.int 50))).handleAll coldOutput).map deviceTypes =
      some [(.nbirth, []), (.dbirth, [2]), (.ddata, [11])] := by decide +kernel
  obtain ⟨d, hd, htypes⟩ := Option.map_eq_some_iff.mp hrun
  have hstart : DeviceRun (fun _ _ => True) (deviceAt (oneOutput (.int 50))) :=
    .start (show IoEngine.new oneTask (oneOutput (.int 50)) none = _ from rfl) plantIds
  refine ⟨d, hstart.handleAll (fun _ _ _ => trivial) hd, ?_⟩
  intro htyped
  obtain ⟨nb, l₁, hframes, -, h⟩ := List.map_eq_cons_iff.mp htypes
  obtain ⟨db, l₂, rfl, hdb, h⟩ := List.map_eq_cons_iff.mp h
  obtain ⟨dd, l₃, rfl, hdd, -⟩ := List.map_eq_cons_iff.mp h
  obtain ⟨hdbirth, hannounced⟩ := Prod.mk.inj hdb
  obtain ⟨hddata, hsent⟩ := Prod.mk.inj hdd
  rw [hdbirth] at hannounced
  rw [hddata] at hsent
  obtain ⟨m, l₄, hm, hmtype, -⟩ := List.map_eq_cons_iff.mp hsent
  obtain ⟨a, l₅, ha, hatype, hl₅⟩ := List.map_eq_cons_iff.mp hannounced
  obtain ⟨b, hb, ⟨x, hx, halias⟩, hall⟩ := (htyped [nb, db] dd l₃ hframes hddata m
    (hm ▸ List.mem_cons_self)).announced
  obtain rfl : db = b := Option.some.inj ((@lastDbirth_snoc [nb] _ hdbirth).symm.trans hb)
  -- The birth has one metric only.
  have hx' : x = a := by
    rw [ha, List.map_eq_nil_iff.mp hl₅] at hx
    exact List.mem_singleton.mp hx
  have hsame := hall x hx halias
  rw [hx', hatype, hmtype] at hsame
  exact absurd hsame (by decide)

/-- A device with one input, before and after its first scan. -/
def fieldRun : Option (Device × Device) := do
  let d ← (deviceAt oneInput).handle
    (.setCatalog [⟨"Start", .bool, .i, some 0⟩] none (readingsAt 0 .stop) (readingsAt 0 .stop))
  let armed ← d.handle (.onConnected (readingsAt 10 .stop) (readingsAt 10 .stop))
  let d ← armed.handle (.turn (pollAt 0 .good))
  let d ← d.handleAll [.recv, .drain (readingsAt 20 .stop)]
  pure (armed, d)

/-- What is seen of it: the catalog, the image after the scan and the messages at the end. -/
structure FieldReport where
  entries : List CatalogEntry
  image : Option ProcessImage
  types : List (Verb × List (BitVec 32))
  deriving DecidableEq

/-- The report of the run. -/
def fieldReport : Option FieldReport :=
  fieldRun.map fun p => ⟨p.1.publisher.session.catalog.entries,
    (p.1.engine.turn (pollAt 0 .good)).map fun q => q.1.engine.io.image, deviceTypes p.2⟩

/-- A BOOL input is sent with the type that was announced. -/
theorem data_types_while_field : ∃ d, DeviceRun SlotsFit d ∧
    deviceTypes d = [(.nbirth, []), (.dbirth, [11]), (.ddata, [11])] ∧
      DataTyped d.publisher.transport.frames := by
  have hreport : fieldReport = some ⟨[⟨1, ⟨"Start", .bool, true, 0, ""⟩⟩],
      some ⟨[⟨.bool false, .good, true⟩], [], [], [], []⟩,
      [(.nbirth, []), (.dbirth, [11]), (.ddata, [11])]⟩ := by decide +kernel
  obtain ⟨⟨armed, d⟩, hrun, heq⟩ := Option.map_eq_some_iff.mp hreport
  unfold fieldRun at hrun
  obtain ⟨d₁, hset, hrun⟩ := Option.bind_eq_some_iff.mp hrun
  obtain ⟨d₂, hconnected, hrun⟩ := Option.bind_eq_some_iff.mp hrun
  obtain ⟨d₃, hturn, hrun⟩ := Option.bind_eq_some_iff.mp hrun
  obtain ⟨d₄, hdrain, hrun⟩ := Option.bind_eq_some_iff.mp hrun
  cases hrun
  simp only [FieldReport.mk.injEq] at heq
  obtain ⟨hentries, himage, htypes⟩ := heq
  have hstart : DeviceRun SlotsFit (deviceAt oneInput) :=
    .start (show IoEngine.new oneTask oneInput none = _ from rfl) plantIds
  -- At the start no sample waits.
  have hnone : SlotsFit (deviceAt oneInput) (.setCatalog [⟨"Start", .bool, .i, some 0⟩] none
      (readingsAt 0 .stop) (readingsAt 0 .stop)) := by
    intro _ _ s hs
    cases hs
  have harmed : DeviceRun SlotsFit armed := (hstart.step _ hnone hset).step
    (.onConnected (readingsAt 10 .stop) (readingsAt 10 .stop)) trivial hconnected
  have hfits : SlotsFit armed (.turn (pollAt 0 .good)) := by
    intro t' nowMs hstep _ input i s track hslot _ _ e hget
    obtain ⟨q, hq, himage⟩ := Option.map_eq_some_iff.mp himage
    obtain rfl : (t', some nowMs) = q := Option.some.inj (hstep.symm.trans hq)
    have hmem := TagCatalog.get_mem hget
    rw [hentries] at hmem
    obtain rfl := List.mem_singleton.mp hmem
    have hfound := List.find?_some hget
    simp only [Bool.and_eq_true, beq_iff_eq] at hfound
    obtain ⟨rfl, rfl⟩ := hfound
    have hinputs : t'.engine.io.image.inputs[0]? = some s := hslot
    rw [himage] at hinputs
    cases hinputs
    rfl
  have hdone : DeviceRun SlotsFit d := (harmed.step _ hfits hturn).handleAll
    (fun ev hev d => by
      rcases List.mem_cons.mp hev with rfl | hev
      · trivial
      · obtain rfl := List.mem_singleton.mp hev
        trivial) hdrain
  exact ⟨d, hdone, htypes, data_types_while hdone⟩

end SoftPlc.Telemetry
