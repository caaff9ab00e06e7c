import SoftPlc.Lib.Since
import SoftPlc.Telemetry.Session

/-!
# The publisher

`Publisher` of `plc-telemetry/src/publisher.rs`: births, data and deaths are built by the session and
handed to a transport that may refuse them. A refusal with `Backpressured` is counted and otherwise
ignored (`send`), so the state of the session and the flag `born` go on as if the message had been
sent. The payload of a command is taken decoded.
-/

namespace SoftPlc.Telemetry

open SoftPlc.Io SoftPlc.Scan SoftPlc.Lib

/-! ## Topics -/

/-- Source: `plc-telemetry/src/topics.rs`, `NAMESPACE`. -/
def namespaceToken : String := "spBv1.0"

/-- Source: `topics.rs`, `TopicIds`. -/
structure TopicIds where
  groupId : String
  edgeNodeId : String
  deviceId : String
  deriving DecidableEq, Repr

/-- Source: `topics.rs`, `parse_id`. -/
def parseId (label raw : String) : Except TelemetryError String :=
  if trim raw = [] then .error (.config (label ++ " must be non-empty"))
  else if '/' ∈ trim raw ∨ '+' ∈ trim raw ∨ '#' ∈ trim raw then
    .error (.config (label ++ " must not contain '/', '+', or '#'"))
  else .ok (String.ofList (trim raw))

namespace TopicIds

/-- Source: `topics.rs`, `TopicIds::new`. -/
def new (groupId edgeNodeId deviceId : String) : Except TelemetryError TopicIds := do
  let group ← parseId "group_id" groupId
  let edge ← parseId "edge_node_id" edgeNodeId
  let device ← parseId "device_id" deviceId
  .ok ⟨group, edge, device⟩

/-- Source: `topics.rs`, `TopicIds::node`. -/
def node (ids : TopicIds) (verb : String) : String :=
  namespaceToken ++ "/" ++ ids.groupId ++ "/" ++ verb ++ "/" ++ ids.edgeNodeId

/-- Source: `topics.rs`, `TopicIds::device`. -/
def device (ids : TopicIds) (verb : String) : String :=
  namespaceToken ++ "/" ++ ids.groupId ++ "/" ++ verb ++ "/" ++ ids.edgeNodeId ++ "/" ++ ids.deviceId

end TopicIds

/-- Kinds of messages that the publisher sends. -/
inductive Verb where
  | nbirth
  | ndata
  | dbirth
  | ddata
  | ddeath
  deriving DecidableEq, Repr

/-- The topic of a kind. Source: `topics.rs`, `TopicIds::nbirth`, `TopicIds::ndata`,
`TopicIds::dbirth`, `TopicIds::ddata`, `TopicIds::ddeath`. -/
def TopicIds.topic (ids : TopicIds) : Verb → String
  | .nbirth => ids.node "NBIRTH"
  | .ndata => ids.node "NDATA"
  | .dbirth => ids.device "DBIRTH"
  | .ddata => ids.device "DDATA"
  | .ddeath => ids.device "DDEATH"

/-- Source: `topics.rs`, `TopicIds::ncmd`. -/
def TopicIds.ncmd (ids : TopicIds) : String := ids.node "NCMD"

/-- **The topic tells the kind.** -/
theorem TopicIds.topic_injective (ids : TopicIds) : Function.Injective ids.topic := by
  intro v w h
  have hlist := congrArg String.toList h
  cases v <;> cases w <;>
    first
    | rfl
    | (simp only [TopicIds.topic, TopicIds.node, TopicIds.device, String.toList_append,
        List.append_assoc, List.append_cancel_left_eq] at hlist
       exact absurd hlist (by simp))

/-! ## Transport -/

/-- A message that was handed to a transport, with the answer. Source:
`plc-telemetry/src/transport.rs`, `PublishedFrame`; its topic is the one of its kind. -/
structure Frame where
  verb : Verb
  qos : ℕ
  retain : Bool
  payload : Payload
  answer : Except TelemetryError Unit

/-- A connection: what it answers to its calls, and what it was handed. Source: `transport.rs`,
`Transport`. -/
structure Transport where
  answers : ℕ → Except TelemetryError Unit
  calls : ℕ
  frames : List Frame

/-- Source: `transport.rs`, `SPARKPLUG_QOS`. -/
def sparkplugQos : ℕ := 1

namespace Transport

/-- A new connection. -/
def connect (answers : ℕ → Except TelemetryError Unit) : Transport := ⟨answers, 0, []⟩

/-- Source: `transport.rs`, `Transport::publish`. -/
def publish (t : Transport) (verb : Verb) (qos : ℕ) (retain : Bool) (payload : Payload) :
    Transport × Except TelemetryError Unit :=
  let answer := t.answers t.calls
  ({ t with calls := t.calls + 1, frames := t.frames ++ [⟨verb, qos, retain, payload, answer⟩] },
    answer)

/-- Source: `transport.rs`, `Transport::subscribe`. -/
def subscribe (t : Transport) : Transport × Except TelemetryError Unit :=
  ({ t with calls := t.calls + 1 }, t.answers t.calls)

end Transport

/-! ## The publisher -/

/-- What the publisher reads from its clock, its mode source and the ring. -/
structure Readings where
  unixMs : BitVec 64
  synced : Bool
  mode : OperatingMode
  drops : BitVec 64
  overruns : BitVec 64

/-- Source: `publisher.rs`, `Publisher`. -/
structure Publisher where
  ids : TopicIds
  transport : Transport
  session : SessionState
  mqttDrops : ℕ
  born : Bool

/-- A publisher and the answer of a call. -/
abbrev Outcome := Publisher × Except TelemetryError Unit

/-- Go on unless there was an error: the operator `?`. -/
def Outcome.andThen (x : Outcome) (next : Publisher → Outcome) : Outcome :=
  match x.2 with
  | .ok () => next x.1
  | .error e => (x.1, .error e)

namespace Publisher

/-- Source: `publisher.rs`, `Publisher::new`. -/
def new (ids : TopicIds) (transport : Transport) : Publisher := ⟨ids, transport, .new, 0, false⟩

/-- A refusal is counted and swallowed. Source: `publisher.rs`, the `match` of `Publisher::send` and
of `Publisher::try_send_sub`. -/
def swallow (p : Publisher) (answer : Except TelemetryError Unit) : Outcome :=
  match answer with
  | .ok () => (p, .ok ())
  | .error .backpressured => ({ p with mqttDrops := ScanEngine.satAdd64 p.mqttDrops 1 }, .ok ())
  | .error e => (p, .error e)

/-- Source: `publisher.rs`, `Publisher::send`. -/
def send (p : Publisher) (verb : Verb) (payload : Payload) : Outcome :=
  let (transport, answer) := p.transport.publish verb sparkplugQos false payload
  { p with transport := transport }.swallow answer

/-- Source: `publisher.rs`, `Publisher::try_send_sub`. -/
def trySendSub (p : Publisher) : Outcome :=
  let (transport, answer) := p.transport.subscribe
  { p with transport := transport }.swallow answer

/-- Send a payload that the session built, if it built one. -/
def sendBuilt (p : Publisher) (verb : Verb) (built : SessionState × Option Payload) : Outcome :=
  let p := { p with session := built.1 }
  match built.2 with
  | some payload => p.send verb payload
  | none => (p, .ok ())

/-- Source: `publisher.rs`, `Publisher::publish_nbirth`. -/
def publishNbirth (p : Publisher) (r : Readings) : Outcome :=
  let built := p.session.nbirth r.unixMs r.mode r.drops r.overruns (publishQuality .good r.synced)
  p.sendBuilt .nbirth (built.1, some built.2)

/-- Source: `publisher.rs`, `Publisher::publish_dbirth`. -/
def publishDbirth (p : Publisher) (r : Readings) : Outcome :=
  p.sendBuilt .dbirth (p.session.dbirth r.unixMs r.synced)

/-- Source: `publisher.rs`, `Publisher::publish_ddeath`. -/
def publishDdeath (p : Publisher) (r : Readings) : Outcome :=
  let built := p.session.ddeath r.unixMs
  p.sendBuilt .ddeath (built.1, some built.2)

/-- Source: `publisher.rs`, `Publisher::replace_transport`. -/
def replaceTransport (p : Publisher) (transport : Transport) : Publisher :=
  { p with transport := transport, born := false }

/-- Source: `publisher.rs`, `Publisher::set_catalog`. -/
def setCatalog (p : Publisher) (catalog : TagCatalog) (death birth : Readings) : Outcome :=
  let retired : Outcome :=
    if p.born && !p.session.catalog.isEmpty then p.publishDdeath death else (p, .ok ())
  retired.andThen fun p =>
    let p := { p with session := p.session.setCatalog catalog }
    if p.born then p.publishDbirth birth else (p, .ok ())

/-- Source: `publisher.rs`, `Publisher::prepare_connect`. -/
def prepareConnect (p : Publisher) : Publisher :=
  { p with session := p.session.prepareConnect, born := false }

/-- Source: `publisher.rs`, `Publisher::on_connected`. -/
def onConnected (p : Publisher) (node device : Readings) : Outcome :=
  p.trySendSub.andThen fun p =>
    (p.publishNbirth node).andThen fun p =>
      (p.publishDbirth device).andThen fun p => ({ p with born := true }, .ok ())

/-- Publish what changed of the node. Source: `publisher.rs`, the first `if` of
`Publisher::drain`. -/
def publishNdata (p : Publisher) (r : Readings) : Outcome :=
  p.sendBuilt .ndata
    (p.session.ndata r.unixMs r.mode r.drops r.overruns (publishQuality .good r.synced))

/-- Publish samples. Source: `publisher.rs`, the second `if` of `Publisher::drain`. -/
def publishDdata (p : Publisher) (r : Readings) (samples : List TelemetrySample) : Outcome :=
  if samples = [] then (p, .ok ())
  else p.sendBuilt .ddata (p.session.ddata r.unixMs samples r.synced)

/-- Publish what was received from the ring. Source: `publisher.rs`, `Publisher::drain`. -/
def drain (p : Publisher) (r : Readings) (samples : List TelemetrySample) : Outcome :=
  if p.born then (p.publishNdata r).andThen fun p => p.publishDdata r samples else (p, .ok ())

end Publisher

/-- Source: `plc-telemetry/src/protobuf.rs`, `is_rebirth_command`; nothing is a payload that does not
decode. -/
def isRebirthCommand (payload : Option Payload) : Bool :=
  match payload with
  | none => false
  | some p => p.metrics.any fun m => m.name == some metricRebirth && m.value == some (.bool true)

/-- Source: `publisher.rs`, `Publisher::handle_incoming`. -/
def Publisher.handleIncoming (p : Publisher) (topic : String) (payload : Option Payload)
    (node device : Readings) : Outcome :=
  if topic ≠ p.ids.ncmd then (p, .ok ())
  else if isRebirthCommand payload then
    let p := { p with session := p.session.onRebirth }
    (p.publishNbirth node).andThen fun p => p.publishDbirth device
  else (p, .ok ())

/-- The operations of a publisher, with what they read. -/
inductive PublisherOp where
  | prepareConnect
  | replaceTransport (answers : ℕ → Except TelemetryError Unit)
  | onConnected (node device : Readings)
  | setCatalog (catalog : TagCatalog) (death birth : Readings)
  | drain (r : Readings) (samples : List TelemetrySample)
  | handleIncoming (topic : String) (payload : Option Payload) (node device : Readings)

/-- What an operation does. -/
def Publisher.perform (p : Publisher) : PublisherOp → Outcome
  | .prepareConnect => (p.prepareConnect, .ok ())
  | .replaceTransport answers => (p.replaceTransport (.connect answers), .ok ())
  | .onConnected node device => p.onConnected node device
  | .setCatalog catalog death birth => p.setCatalog catalog death birth
  | .drain r samples => p.drain r samples
  | .handleIncoming topic payload node device => p.handleIncoming topic payload node device

/-! ## What sending does -/

section Sending

variable {p : Publisher} {verb : Verb} {payload : Payload}

/-- The frame that the next publish leaves. -/
def Publisher.nextFrame (p : Publisher) (verb : Verb) (payload : Payload) : Frame :=
  ⟨verb, sparkplugQos, false, payload, p.transport.answers p.transport.calls⟩

@[simp] theorem swallow_fields (p : Publisher) (answer : Except TelemetryError Unit) :
    (p.swallow answer).1.ids = p.ids ∧ (p.swallow answer).1.transport = p.transport ∧
      (p.swallow answer).1.session = p.session ∧ (p.swallow answer).1.born = p.born := by
  unfold Publisher.swallow
  split <;> exact ⟨rfl, rfl, rfl, rfl⟩

/-- **What sending does**: one frame more, and nothing else but the count of refusals. -/
theorem send_fields (p : Publisher) (verb : Verb) (payload : Payload) :
    (p.send verb payload).1.ids = p.ids ∧ (p.send verb payload).1.session = p.session ∧
      (p.send verb payload).1.born = p.born ∧
      (p.send verb payload).1.transport.frames =
        p.transport.frames ++ [p.nextFrame verb payload] := by
  obtain ⟨hids, htransport, hsession, hborn⟩ := swallow_fields
    { p with transport := (p.transport.publish verb sparkplugQos false payload).1 }
    (p.transport.publish verb sparkplugQos false payload).2
  exact ⟨hids, hsession, hborn, congrArg Transport.frames htransport⟩

theorem trySendSub_fields (p : Publisher) :
    p.trySendSub.1.ids = p.ids ∧ p.trySendSub.1.session = p.session ∧
      p.trySendSub.1.born = p.born ∧ p.trySendSub.1.transport.frames = p.transport.frames := by
  obtain ⟨hids, htransport, hsession, hborn⟩ := swallow_fields
    { p with transport := p.transport.subscribe.1 } p.transport.subscribe.2
  have hframes := congrArg Transport.frames htransport
  exact ⟨hids, hsession, hborn, hframes⟩

/-- Only an error other than a refusal stops a call. -/
theorem andThen_cases {x : Outcome} {next : Publisher → Outcome} {motive : Outcome → Prop}
    (stop : ∀ e, x.2 = .error e → motive (x.1, .error e)) (go : x.2 = .ok () → motive (next x.1)) :
    motive (x.andThen next) := by
  unfold Outcome.andThen
  rcases h : x.2 with e | ⟨⟩
  · exact stop e h
  · exact go h

end Sending

/-- What a call says: these frames, for the same catalog. -/
structure Told (p p' : Publisher) (said : List Frame) : Prop where
  frames : p'.transport.frames = p.transport.frames ++ said
  ids : p'.ids = p.ids
  born : p'.born = p.born
  catalog : p'.session.catalog = p.session.catalog

namespace Told

variable {p p' p'' : Publisher} {said later : List Frame}

theorem refl (p : Publisher) : Told p p [] := ⟨(List.append_nil _).symm, rfl, rfl, rfl⟩

theorem trans (h : Told p p' said) (h' : Told p' p'' later) : Told p p'' (said ++ later) :=
  ⟨by rw [h'.frames, h.frames, List.append_assoc], h'.ids.trans h.ids, h'.born.trans h.born,
    h'.catalog.trans h.catalog⟩

theorem session {s : SessionState} (h : Told p p' said) (hs : s.catalog = p'.session.catalog) :
    Told p { p' with session := s } said :=
  ⟨h.frames, h.ids, h.born, hs.trans h.catalog⟩

theorem send (p : Publisher) {s : SessionState} (verb : Verb) (payload : Payload)
    (hs : s.catalog = p.session.catalog) :
    Told p (({ p with session := s } : Publisher).send verb payload).1 [p.nextFrame verb payload] := by
  obtain ⟨hids, hsession, hborn, hframes⟩ := send_fields { p with session := s } verb payload
  exact ⟨hframes, hids, hborn, (congrArg SessionState.catalog hsession).trans hs⟩

theorem subscribe (p : Publisher) : Told p p.trySendSub.1 [] := by
  obtain ⟨hids, hsession, hborn, hframes⟩ := trySendSub_fields p
  exact ⟨hframes.trans (List.append_nil _).symm, hids, hborn, congrArg SessionState.catalog hsession⟩

/-- Node birth. -/
theorem nbirth (p : Publisher) (r : Readings) : Told p (p.publishNbirth r).1
    [p.nextFrame .nbirth (p.session.nbirth r.unixMs r.mode r.drops r.overruns
      (publishQuality .good r.synced)).2] :=
  send p .nbirth _ rfl

/-- Device birth: nothing of an empty catalog. -/
theorem dbirth (p : Publisher) (r : Readings) :
    ∃ said, Told p (p.publishDbirth r).1 said ∧ (∀ f ∈ said, f.verb = .dbirth) ∧
      ∀ e ∈ p.session.catalog.entries, ∃ f ∈ said, ∃ m ∈ f.payload.metrics,
        m.aliasId = some (e.aliasId.setWidth 64) ∧
          m.datatype = e.tag.valueType.sparkplugDatatype := by
  unfold Publisher.publishDbirth Publisher.sendBuilt
  rcases hbuilt : p.session.dbirth r.unixMs r.synced with ⟨s, _ | payload⟩
  · obtain ⟨rfl, hempty⟩ := dbirth_none hbuilt
    refine ⟨[], .refl p, (fun _ hf => nomatch hf), ?_⟩
    intro e he
    rw [TagCatalog.isEmpty, List.isEmpty_iff] at hempty
    rw [hempty] at he
    cases he
  · obtain ⟨rfl, -, rfl⟩ := dbirth_some hbuilt
    refine ⟨_, send p .dbirth _ rfl, ?_, ?_⟩
    · intro f hf
      obtain rfl := List.mem_singleton.mp hf
      rfl
    · intro e he
      refine ⟨_, List.mem_singleton_self _, _, List.mem_map_of_mem he, rfl, rfl⟩

/-- Device death. -/
theorem ddeath (p : Publisher) (r : Readings) : Told p (p.publishDdeath r).1
    [p.nextFrame .ddeath (p.session.ddeath r.unixMs).2] :=
  send p .ddeath _ rfl

/-- Node data. -/
theorem ndata (p : Publisher) (r : Readings) :
    ∃ said, Told p (p.publishNdata r).1 said ∧ said.length ≤ 1 ∧ ∀ f ∈ said, f.verb = .ndata := by
  unfold Publisher.publishNdata Publisher.sendBuilt SessionState.ndata
  dsimp only
  split_ifs
  · exact ⟨[], (refl p).session rfl, Nat.zero_le 1, (fun _ hf => nomatch hf)⟩
  · refine ⟨_, send p .ndata _ rfl, le_refl 1, ?_⟩
    intro f hf
    obtain rfl := List.mem_singleton.mp hf
    rfl

/-- Device data: metrics of samples of slots in the catalog. -/
theorem ddata (p : Publisher) (r : Readings) (samples : List TelemetrySample) :
    ∃ said, Told p (p.publishDdata r samples).1 said ∧ said.length ≤ 1 ∧
      ∀ f ∈ said, f.verb = .ddata ∧ ∀ m ∈ f.payload.metrics, ∃ sample ∈ samples, ∃ e,
        p.session.catalog.get sample.isInput sample.tagHint = some e ∧
          m = SessionState.ddataMetric r.unixMs r.synced e sample := by
  unfold Publisher.publishDdata Publisher.sendBuilt
  split_ifs
  · exact ⟨[], refl p, Nat.zero_le 1, (fun _ hf => nomatch hf)⟩
  · rcases hbuilt : p.session.ddata r.unixMs samples r.synced with ⟨s, _ | payload⟩
    · refine ⟨[], (refl p).session ?_, Nat.zero_le 1, (fun _ hf => nomatch hf)⟩
      unfold SessionState.ddata at hbuilt
      dsimp only at hbuilt
      split_ifs at hbuilt
      · cases hbuilt
        rfl
      · cases hbuilt
    · obtain ⟨hcatalog, -, -, -, -, hmetrics⟩ := ddata_some hbuilt
      refine ⟨_, send p .ddata _ hcatalog, le_refl 1, ?_⟩
      intro f hf
      obtain rfl := List.mem_singleton.mp hf
      exact ⟨rfl, hmetrics⟩

end Told

end SoftPlc.Telemetry
