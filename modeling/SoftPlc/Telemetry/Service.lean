import SoftPlc.Telemetry.NodeMetrics

/-!
# The telemetry service

The loop of `plc-telemetry/src/service.rs`, `TelemetryService::run`: it opens a connection with a Will,
waits for CONNACK, and starts over when the connection fails. `sparkplug_numbering` says how the
messages of any run are numbered: `bdSeq` counts the connections that reached CONNACK, and the two
sequence numbers count the messages of the node and of the device since their births.
-/

namespace SoftPlc.Telemetry

open SoftPlc.Io SoftPlc.Scan SoftPlc.Lib

/-! ## The loop -/

/-- Where the loop stands. -/
inductive ServicePhase where
  /-- Before a connection is opened. -/
  | closed
  /-- In the inner loop; the flag is `session_live`. -/
  | connected (sessionLive : Bool)
  /-- The loop was left with an error. -/
  | failed
  deriving DecidableEq, Repr

/-- Source: `service.rs`, `TelemetryService`. -/
structure Service where
  publisher : Publisher
  phase : ServicePhase

/-- What happens to the loop, with what it reads. -/
inductive ServiceEvent where
  /-- A client is created; the time is that of its Will. -/
  | connect (willMs : BitVec 64) (answers : ℕ → Except TelemetryError Unit)
  /-- An incoming CONNACK, and whether it reports success. -/
  | connAck (success : Bool) (node device : Readings)
  /-- An incoming publish. -/
  | publish (topic : String) (payload : Option Payload) (node device : Readings)
  /-- `eventloop.poll` fails. -/
  | pollError
  /-- A catalog from the channel. -/
  | catalog (catalog : TagCatalog) (death birth : Readings)
  /-- The timer of 10 ms. -/
  | drain (r : Readings) (samples : List TelemetrySample)

/-- What a run leaves behind. -/
inductive Note where
  /-- A connection was opened with this Will. -/
  | opened (will : Payload)
  /-- The first successful CONNACK of the connection. -/
  | connAck
  /-- A message was handed to the connection. -/
  | sent (f : Frame)

namespace Service

/-- The service before its loop, armed with a catalog. Source: `service.rs`,
`TelemetryService::from_config`, `TelemetryService::set_catalog` and the first call of
`TelemetryService::run`. -/
def start (ids : TopicIds) (catalog : TagCatalog) (answers : ℕ → Except TelemetryError Unit) : Service where
  publisher :=
    ({ Publisher.new ids (.connect answers) with session := SessionState.new.setCatalog catalog }
      : Publisher).prepareConnect
  phase := .closed

/-- Call the publisher; an error leaves the loop. -/
def call (s : Service) (op : PublisherOp) : Service × List Note :=
  let (publisher, result) := s.publisher.perform op
  let phase := match result with
    | .ok () => s.phase
    | .error _ => .failed
  (⟨publisher, phase⟩, (s.publisher.handed op).map .sent)

/-- A successful CONNACK makes the session live, unless `on_connected` fails. -/
def becomeLive (s : Service) : Service :=
  match s.phase with
  | .connected _ => { s with phase := .connected true }
  | _ => s

/-- One event; one that cannot happen where the loop stands does nothing. Source: `service.rs`, the
`loop` of `TelemetryService::run`. -/
def handle (s : Service) : ServiceEvent → Service × List Note
  | .connect willMs answers =>
      match s.phase with
      | .closed =>
          (⟨s.publisher.replaceTransport (.connect answers), .connected false⟩,
            [.opened (s.publisher.session.ndeath willMs)])
      | _ => (s, [])
  | .connAck success node device =>
      match s.phase with
      | .connected false =>
          if success then
            let (s, notes) := s.call (.onConnected node device)
            (s.becomeLive, .connAck :: notes)
          else (s, [])
      | _ => (s, [])
  | .publish topic payload node device =>
      match s.phase with
      | .connected _ => s.call (.handleIncoming topic payload node device)
      | _ => (s, [])
  | .pollError =>
      match s.phase with
      | .connected true => (⟨s.publisher.prepareConnect, .closed⟩, [])
      | .connected false => (⟨s.publisher, .closed⟩, [])
      | _ => (s, [])
  | .catalog catalog death birth =>
      match s.phase with
      | .failed => (s, [])
      | _ => s.call (.setCatalog catalog death birth)
  | .drain r samples =>
      match s.phase with
      | .connected _ => s.call (.drain r samples)
      | _ => (s, [])

end Service

/-- Runs of the service with the notes that they leave. -/
inductive ServiceRun : Service → List Note → Prop
  | start (ids : TopicIds) (catalog : TagCatalog) (answers : ℕ → Except TelemetryError Unit) :
      ServiceRun (.start ids catalog answers) []
  | step {s : Service} {notes : List Note} (h : ServiceRun s notes) (ev : ServiceEvent) :
      ServiceRun (s.handle ev).1 (notes ++ (s.handle ev).2)

/-! ## Counters, read from the notes -/

/-- The value of `bdSeq` in a payload. -/
def bdSeqOf (p : Payload) : Option MetricValue := metricValue metricBdseq p.metrics

/-- The Will of the open connection. -/
def currentWill (notes : List Note) : Option MetricValue :=
  notes.foldl (fun will note =>
    match note with
    | .opened p => bdSeqOf p
    | _ => will) none

/-- The Will of the last connection that reached CONNACK. -/
def ackedWill (notes : List Note) : Option MetricValue :=
  (notes.foldl (fun (wills : Option MetricValue × Option MetricValue) note =>
    match note with
    | .opened p => (bdSeqOf p, wills.2)
    | .connAck => (wills.1, wills.1)
    | .sent _ => wills) (none, none)).2

/-- Whether a message is of the node, and not of the device. -/
def Verb.isNode : Verb → Bool
  | .nbirth | .ndata => true
  | .dbirth | .ddata | .ddeath => false

/-- The sequence number of the last message of the node, or of the device, on the open connection. -/
def lastSeq (node : Bool) (notes : List Note) : Option (BitVec 64) :=
  notes.foldl (fun seq note =>
    match note with
    | .opened _ => none
    | .connAck => seq
    | .sent f => if f.verb.isNode = node then f.payload.seq else seq) none

/-- The next sequence number. -/
def nextSeq (n : BitVec 64) : BitVec 64 := BitVec.ofNat 64 ((n.toNat + 1) % 256)

/-- **How a note is numbered**, after those before it. -/
def Note.Numbered (before : List Note) : Note → Prop
  | .opened will =>
      -- The first connection has 0, and each one after the last that reached CONNACK the next.
      (ackedWill before = none ∧ bdSeqOf will = some (.long 0)) ∨
        ∃ n, ackedWill before = some (.long n) ∧ bdSeqOf will = some (.long (n + 1))
  | .connAck => True
  | .sent f =>
      match f.verb with
      | .nbirth => f.payload.seq = some 0 ∧ bdSeqOf f.payload = currentWill before ∧
          (currentWill before).isSome
      | .dbirth => f.payload.seq = some 0
      | .ndata => ∃ n, lastSeq true before = some n ∧ f.payload.seq = some (nextSeq n)
      | .ddata | .ddeath => ∃ n, lastSeq false before = some n ∧ f.payload.seq = some (nextSeq n)

/-! ## Counting -/

section Counting

variable {notes : List Note} {f : Frame} {s s' : SessionState} {ts : BitVec 64}

theorem currentWill_snoc (note : Note) : currentWill (notes ++ [note]) =
    match note with
    | .opened p => bdSeqOf p
    | _ => currentWill notes := by
  unfold currentWill
  rw [List.foldl_append]
  rfl

theorem lastSeq_snoc (node : Bool) (note : Note) : lastSeq node (notes ++ [note]) =
    match note with
    | .opened _ => none
    | .connAck => lastSeq node notes
    | .sent f => if f.verb.isNode = node then f.payload.seq else lastSeq node notes := by
  unfold lastSeq
  rw [List.foldl_append]
  rfl

/-- Both Wills at once. -/
theorem wills_fst (notes : List Note) : (notes.foldl
    (fun (wills : Option MetricValue × Option MetricValue) note =>
      match note with
      | .opened p => (bdSeqOf p, wills.2)
      | .connAck => (wills.1, wills.1)
      | .sent _ => wills) (none, none)).1 = currentWill notes := by
  induction notes using List.reverseRecOn with
  | nil => rfl
  | append_singleton notes note ih =>
      rw [List.foldl_append, currentWill_snoc]
      cases note with
      | opened p => rfl
      | connAck => exact ih
      | sent f => exact ih

theorem ackedWill_snoc (note : Note) : ackedWill (notes ++ [note]) =
    match note with
    | .connAck => currentWill notes
    | _ => ackedWill notes := by
  unfold ackedWill
  rw [List.foldl_append]
  cases note with
  | opened p => rfl
  | connAck => exact wills_fst notes
  | sent f => rfl

theorem ackedWill_sent (said : List Frame) : ackedWill (notes ++ said.map .sent) = ackedWill notes := by
  induction said generalizing notes with
  | nil => rw [List.map_nil, List.append_nil]
  | cons f said ih => rw [List.map_cons, List.append_cons, ih, ackedWill_snoc]

theorem nextSeq_setWidth (n : BitVec 8) : nextSeq (n.setWidth 64) = (n + 1).setWidth 64 := by
  apply BitVec.eq_of_toNat_eq
  have hn := n.isLt
  have hone : (1 : BitVec 8).toNat = 1 := rfl
  simp only [nextSeq, BitVec.toNat_ofNat, BitVec.toNat_setWidth, BitVec.toNat_add, hone]
  omega

/-- The session of an open connection, with the notes. -/
structure Opened (s : SessionState) (notes : List Note) : Prop where
  each : EachAt id (fun before note => note.Numbered before) notes
  will : currentWill notes = some (.long s.bdSeq)
  first : s.firstSession = false

/-- The last message of the node has the number of the session. -/
def NodeCounted (s : SessionState) (notes : List Note) : Prop :=
  lastSeq true notes = some (s.nodeSeq.setWidth 64)

/-- So has the last message of the device, when there is a device. -/
def DeviceCounted (s : SessionState) (notes : List Note) : Prop :=
  s.catalog.isEmpty = false → lastSeq false notes = some (s.deviceSeq.setWidth 64)

theorem Opened.sent (h : Opened s notes) (hf : Note.Numbered notes (.sent f)) (hbd : s'.bdSeq = s.bdSeq)
    (hfirst : s'.firstSession = s.firstSession) : Opened s' (notes ++ [.sent f]) := by
  refine ⟨h.each.snoc ?_, ?_, hfirst.trans h.first⟩
  · rintro _ rfl
    exact hf
  · rw [currentWill_snoc, hbd]
    exact h.will

/-- A message of the node leaves the count of the device, and the other way round. -/
theorem lastSeq_other {node : Bool} (h : f.verb.isNode ≠ node) :
    lastSeq node (notes ++ [.sent f]) = lastSeq node notes := by
  rw [lastSeq_snoc]
  exact if_neg h

theorem lastSeq_same {node : Bool} (h : f.verb.isNode = node) :
    lastSeq node (notes ++ [.sent f]) = f.payload.seq := by
  rw [lastSeq_snoc]
  exact if_pos h

/-- Births of the node start the count again. -/
theorem Opened.nbirth (h : Opened s notes) {mode : OperatingMode} {drops overruns : BitVec 64}
    {quality : Quality} (hverb : f.verb = .nbirth)
    (hpayload : f.payload = (s.nbirth ts mode drops overruns quality).2) :
    Opened (s.nbirth ts mode drops overruns quality).1 (notes ++ [.sent f]) ∧
      NodeCounted (s.nbirth ts mode drops overruns quality).1 (notes ++ [.sent f]) ∧
      (DeviceCounted s notes →
        DeviceCounted (s.nbirth ts mode drops overruns quality).1 (notes ++ [.sent f])) := by
  have hseq : f.payload.seq = some 0 := by rw [hpayload]; rfl
  refine ⟨h.sent ?_ rfl rfl, ?_, ?_⟩
  · unfold Note.Numbered
    simp only [hverb]
    refine ⟨hseq, ?_, by rw [h.will]; rfl⟩
    rw [h.will, hpayload]
    rfl
  · unfold NodeCounted
    rw [lastSeq_same (by rw [hverb]; rfl), hseq]
    rfl
  · intro hdevice hempty
    rw [lastSeq_other (by rw [hverb]; decide)]
    exact hdevice hempty

/-- Births of the device too. -/
theorem Opened.dbirth (h : Opened s notes) {clockSynced : Bool} {p : Payload}
    (hbuilt : s.dbirth ts clockSynced = (s', some p)) (hverb : f.verb = .dbirth)
    (hpayload : f.payload = p) :
    Opened s' (notes ++ [.sent f]) ∧ DeviceCounted s' (notes ++ [.sent f]) ∧
      (NodeCounted s notes → NodeCounted s' (notes ++ [.sent f])) := by
  obtain ⟨rfl, -, rfl⟩ := dbirth_some hbuilt
  have hseq : f.payload.seq = some 0 := by rw [hpayload]
  refine ⟨h.sent ?_ rfl rfl, ?_, ?_⟩
  · unfold Note.Numbered
    simp only [hverb]
    exact hseq
  · intro _
    rw [lastSeq_same (by rw [hverb]; rfl), hseq]
    rfl
  · intro hnode
    unfold NodeCounted
    rw [lastSeq_other (by rw [hverb]; decide)]
    exact hnode

/-- Deaths of the device go on counting. -/
theorem Opened.ddeath (h : Opened s notes) (hdevice : DeviceCounted s notes)
    (hempty : s.catalog.isEmpty = false) (hverb : f.verb = .ddeath)
    (hpayload : f.payload = (s.ddeath ts).2) :
    Opened (s.ddeath ts).1 (notes ++ [.sent f]) ∧ DeviceCounted (s.ddeath ts).1 (notes ++ [.sent f]) ∧
      (NodeCounted s notes → NodeCounted (s.ddeath ts).1 (notes ++ [.sent f])) := by
  have hseq : f.payload.seq = some ((s.deviceSeq + 1).setWidth 64) := by rw [hpayload]; rfl
  refine ⟨h.sent ?_ rfl rfl, ?_, ?_⟩
  · unfold Note.Numbered
    simp only [hverb]
    exact ⟨_, hdevice hempty, by rw [hseq, nextSeq_setWidth]⟩
  · intro _
    rw [lastSeq_same (by rw [hverb]; rfl), hseq]
    rfl
  · intro hnode
    unfold NodeCounted
    rw [lastSeq_other (by rw [hverb]; decide)]
    exact hnode

/-- Data of the node. -/
theorem Opened.ndata (h : Opened s notes) (hnode : NodeCounted s notes) {mode : OperatingMode}
    {drops overruns : BitVec 64} {quality : Quality} {p : Payload}
    (hbuilt : s.ndata ts mode drops overruns quality = (s', some p)) (hverb : f.verb = .ndata)
    (hpayload : f.payload = p) :
    Opened s' (notes ++ [.sent f]) ∧ NodeCounted s' (notes ++ [.sent f]) ∧
      (DeviceCounted s notes → DeviceCounted s' (notes ++ [.sent f])) := by
  unfold SessionState.ndata at hbuilt
  dsimp only at hbuilt
  split_ifs at hbuilt
  · cases hbuilt
  · cases hbuilt
    have hseq : f.payload.seq = some ((s.nodeSeq + 1).setWidth 64) := by rw [hpayload]
    refine ⟨h.sent ?_ rfl rfl, ?_, ?_⟩
    · unfold Note.Numbered
      simp only [hverb]
      exact ⟨_, hnode, by rw [hseq, nextSeq_setWidth]⟩
    · unfold NodeCounted
      rw [lastSeq_same (by rw [hverb]; rfl), hseq]
    · intro hdevice hempty
      rw [lastSeq_other (by rw [hverb]; decide)]
      exact hdevice hempty

/-- Data of the device. -/
theorem Opened.ddata (h : Opened s notes) (hdevice : DeviceCounted s notes)
    {samples : List TelemetrySample} {clockSynced : Bool} {p : Payload}
    (hbuilt : s.ddata ts samples clockSynced = (s', some p)) (hverb : f.verb = .ddata)
    (hpayload : f.payload = p) :
    Opened s' (notes ++ [.sent f]) ∧ DeviceCounted s' (notes ++ [.sent f]) ∧
      (NodeCounted s notes → NodeCounted s' (notes ++ [.sent f])) := by
  obtain ⟨hcatalog, hbd, hnodeSeq, hdeviceSeq, hpseq, hmem⟩ := ddata_some hbuilt
  obtain ⟨hmetrics, hfirst⟩ := ddata_metrics hbuilt
  have hseq : f.payload.seq = some ((s.deviceSeq + 1).setWidth 64) := by rw [hpayload]; exact hpseq
  -- There is a metric, and so a tag.
  have hempty : s.catalog.isEmpty = false := by
    obtain ⟨m, hm⟩ := List.exists_mem_of_ne_nil _ hmetrics
    obtain ⟨sample, -, e, hget, -⟩ := hmem m hm
    have he := TagCatalog.get_mem hget
    unfold TagCatalog.isEmpty
    rw [List.isEmpty_eq_false_iff]
    exact List.ne_nil_of_mem he
  refine ⟨h.sent ?_ hbd hfirst, ?_, ?_⟩
  · unfold Note.Numbered
    simp only [hverb]
    exact ⟨_, hdevice hempty, by rw [hseq, nextSeq_setWidth]⟩
  · intro _
    rw [lastSeq_same (by rw [hverb]; rfl), hseq, hdeviceSeq]
  · intro hnode
    unfold NodeCounted
    rw [lastSeq_other (by rw [hverb]; decide), hnodeSeq]
    exact hnode

end Counting

/-! ## Calls -/

section Calls

variable {p : Publisher} {notes : List Note}

/-- What a call says keeps the numbers, and a call that succeeds ends as stated. -/
def Says (p : Publisher) (notes : List Note) (x : Outcome) (post : SessionState → List Note → Prop) :
    Prop :=
  ∃ said, x.1.transport.frames = p.transport.frames ++ said ∧
    Opened x.1.session (notes ++ said.map .sent) ∧
    (x.2 = .ok () → post x.1.session (notes ++ said.map .sent))

theorem Says.silent {x : Outcome} {post : SessionState → List Note → Prop}
    (hframes : x.1.transport.frames = p.transport.frames) (hopened : Opened x.1.session notes)
    (hpost : post x.1.session notes) : Says p notes x post := by
  refine ⟨[], by rw [hframes, List.append_nil], ?_, ?_⟩
  · rw [List.map_nil, List.append_nil]
    exact hopened
  · intro _
    rw [List.map_nil, List.append_nil]
    exact hpost

/-- One message that the session built. -/
theorem Says.built {verb : Verb} {s : SessionState} {payload : Payload}
    {post : SessionState → List Note → Prop}
    (hopened : Opened s (notes ++ [.sent (p.nextFrame verb payload)]))
    (hpost : post s (notes ++ [.sent (p.nextFrame verb payload)])) :
    Says p notes (p.sendBuilt verb (s, some payload)) post := by
  have hsession : (p.sendBuilt verb (s, some payload)).1.session = s := sendBuilt_session _ _ _
  refine ⟨[p.nextFrame verb payload], (send_fields _ _ _).2.2.2, ?_, ?_⟩
  · rw [hsession]
    exact hopened
  · intro _
    rw [hsession]
    exact hpost

/-- The session had nothing to say. -/
theorem Says.unbuilt {verb : Verb} {s : SessionState} {post : SessionState → List Note → Prop}
    (hopened : Opened s notes) (hpost : post s notes) : Says p notes (p.sendBuilt verb (s, none)) post :=
  .silent rfl hopened hpost

theorem Says.andThen {x : Outcome} {next : Publisher → Outcome}
    {mid post : SessionState → List Note → Prop} (h : Says p notes x mid)
    (hnext : ∀ notes', Opened x.1.session notes' → mid x.1.session notes' →
      Says x.1 notes' (next x.1) post) :
    Says p notes (x.andThen next) post := by
  obtain ⟨said, hframes, hopened, hmid⟩ := h
  refine @andThen_cases x next (fun x => Says p notes x post) ?_ ?_
  · intro e he
    exact ⟨said, hframes, hopened, (fun h => nomatch h)⟩
  · intro hok
    obtain ⟨later, hframes', hopened', hpost⟩ := hnext _ hopened (hmid hok)
    refine ⟨said ++ later, by rw [hframes', hframes, List.append_assoc], ?_, ?_⟩
    · rw [List.map_append, ← List.append_assoc]
      exact hopened'
    · rw [List.map_append, ← List.append_assoc]
      exact hpost

/-- The publisher may differ from the one before, except for its frames. -/
theorem Says.of_frames {q : Publisher} {x : Outcome} {post : SessionState → List Note → Prop}
    (h : Says q notes x post) (hframes : q.transport.frames = p.transport.frames) :
    Says p notes x post := by
  obtain ⟨said, hsaid, hrest⟩ := h
  exact ⟨said, hframes ▸ hsaid, hrest⟩

theorem Says.mono {x : Outcome} {mid post : SessionState → List Note → Prop} (h : Says p notes x mid)
    (himp : ∀ notes', mid x.1.session notes' → post x.1.session notes') : Says p notes x post := by
  obtain ⟨said, hframes, hopened, hmid⟩ := h
  exact ⟨said, hframes, hopened, fun hok => himp _ (hmid hok)⟩

/-! ### Messages -/

theorem says_nbirth (h : Opened p.session notes) (r : Readings) :
    Says p notes (p.publishNbirth r) fun s notes' => NodeCounted s notes' ∧
      (DeviceCounted p.session notes → DeviceCounted s notes') := by
  obtain ⟨hopened, hcounted⟩ := h.nbirth (f := p.nextFrame .nbirth (p.session.nbirth r.unixMs r.mode
    r.drops r.overruns (publishQuality .good r.synced)).2) rfl rfl
  exact .built hopened hcounted

theorem says_dbirth (h : Opened p.session notes) (r : Readings) :
    Says p notes (p.publishDbirth r) fun s notes' => DeviceCounted s notes' ∧
      (NodeCounted p.session notes → NodeCounted s notes') := by
  unfold Publisher.publishDbirth
  rcases hbuilt : p.session.dbirth r.unixMs r.synced with ⟨s, _ | payload⟩
  · obtain ⟨rfl, hempty⟩ := dbirth_none hbuilt
    refine .unbuilt h ⟨?_, id⟩
    intro hnonempty
    rw [hempty] at hnonempty
    cases hnonempty
  · obtain ⟨hopened, hcounted⟩ := h.dbirth (f := p.nextFrame .dbirth payload) hbuilt rfl rfl
    exact .built hopened hcounted

theorem says_ddeath (h : Opened p.session notes) (hdevice : DeviceCounted p.session notes)
    (hempty : p.session.catalog.isEmpty = false) (r : Readings) :
    Says p notes (p.publishDdeath r) fun s notes' => DeviceCounted s notes' ∧
      (NodeCounted p.session notes → NodeCounted s notes') := by
  obtain ⟨hopened, hcounted⟩ := h.ddeath (f := p.nextFrame .ddeath (p.session.ddeath r.unixMs).2)
    hdevice hempty rfl rfl
  exact .built hopened hcounted

theorem says_ndata (h : Opened p.session notes) (hnode : NodeCounted p.session notes) (r : Readings) :
    Says p notes (p.publishNdata r) fun s notes' => NodeCounted s notes' ∧
      (DeviceCounted p.session notes → DeviceCounted s notes') := by
  unfold Publisher.publishNdata
  rcases hbuilt : p.session.ndata r.unixMs r.mode r.drops r.overruns (publishQuality .good r.synced)
    with ⟨s, _ | payload⟩
  · -- Nothing changed: only what was sent last is noted again.
    have hs : s.bdSeq = p.session.bdSeq ∧ s.firstSession = p.session.firstSession ∧
        s.nodeSeq = p.session.nodeSeq ∧ s.deviceSeq = p.session.deviceSeq ∧
        s.catalog = p.session.catalog := by
      unfold SessionState.ndata at hbuilt
      dsimp only at hbuilt
      split_ifs at hbuilt
      · cases hbuilt
        exact ⟨rfl, rfl, rfl, rfl, rfl⟩
      · cases hbuilt
    obtain ⟨hbd, hfirst, hnodeSeq, hdeviceSeq, hcatalog⟩ := hs
    refine .unbuilt ⟨h.each, hbd ▸ h.will, hfirst.trans h.first⟩ ⟨?_, ?_⟩
    · show lastSeq true notes = _
      rw [hnodeSeq]
      exact hnode
    · intro hdevice hempty
      rw [hdeviceSeq]
      exact hdevice (hcatalog ▸ hempty)
  · obtain ⟨hopened, hcounted⟩ := h.ndata (f := p.nextFrame .ndata payload) hnode hbuilt rfl rfl
    exact .built hopened hcounted

theorem says_ddata (h : Opened p.session notes) (hdevice : DeviceCounted p.session notes)
    (r : Readings) (samples : List TelemetrySample) :
    Says p notes (p.publishDdata r samples) fun s notes' => DeviceCounted s notes' ∧
      (NodeCounted p.session notes → NodeCounted s notes') := by
  unfold Publisher.publishDdata
  split_ifs
  · exact Says.silent rfl h ⟨hdevice, id⟩
  rcases hbuilt : p.session.ddata r.unixMs samples r.synced with ⟨s, _ | payload⟩
  · have hs := ddata_none hbuilt
    refine .unbuilt ⟨h.each, ?_, ?_⟩ ⟨?_, ?_⟩
    · show currentWill notes = some (.long s.bdSeq)
      rw [hs]
      exact h.will
    · show s.firstSession = false
      rw [hs]
      exact h.first
    · show DeviceCounted s notes
      rw [hs]
      exact hdevice
    · intro hnode
      show NodeCounted s notes
      rw [hs]
      exact hnode
  · obtain ⟨hopened, hcounted⟩ := h.ddata (f := p.nextFrame .ddata payload) hdevice hbuilt rfl rfl
    exact .built hopened hcounted

/-! ### Operations -/

/-- Everything is counted from the births on. -/
def Counted (s : SessionState) (notes : List Note) : Prop := NodeCounted s notes ∧ DeviceCounted s notes

theorem says_births (h : Opened p.session notes) (node device : Readings) :
    Says p notes ((p.publishNbirth node).andThen fun p => p.publishDbirth device) Counted := by
  apply (says_nbirth h node).andThen
  intro notes' hopened hnode
  exact (says_dbirth hopened device).mono fun _ hdevice => ⟨hdevice.2 hnode.1, hdevice.1⟩

theorem says_onConnected (h : Opened p.session notes) (node device : Readings) :
    Says p notes (p.onConnected node device) Counted := by
  obtain ⟨-, hsession, -, hframes⟩ := trySendSub_fields p
  have hopened : Opened p.trySendSub.1.session notes := by
    rw [hsession]
    exact h
  have hsub : Says p notes p.trySendSub fun _ _ => True := Says.silent hframes hopened trivial
  apply hsub.andThen
  intro notes' hopened _
  apply (says_nbirth hopened node).andThen
  intro notes' hopened hnode
  have hdbirth : Says _ _ _ Counted := (says_dbirth hopened device).mono fun _ hdevice =>
    ⟨hdevice.2 hnode.1, hdevice.1⟩
  apply hdbirth.andThen
  intro notes' hopened hcounted
  exact Says.silent rfl hopened hcounted

/-- A rebirth command starts the count again, and any other message leaves it. -/
theorem says_handleIncoming (h : Opened p.session notes) (topic : String) (payload : Option Payload)
    (node device : Readings) :
    Says p notes (p.handleIncoming topic payload node device) fun s notes' =>
      Counted p.session notes → Counted s notes' := by
  unfold Publisher.handleIncoming
  split_ifs with htopic hrebirth
  · exact Says.silent rfl h id
  · have hopened : Opened p.session.onRebirth notes := ⟨h.each, h.will, h.first⟩
    have hbirths := says_births (p := { p with session := p.session.onRebirth }) hopened node device
    have hbirths' : Says p notes _ Counted := hbirths.of_frames rfl
    refine hbirths'.mono ?_
    intro _ hcounted _
    exact hcounted
  · exact Says.silent rfl h id

/-- Data goes on counting. -/
theorem says_drain (h : Opened p.session notes) (hcounted : p.born = true → Counted p.session notes)
    (r : Readings) (samples : List TelemetrySample) :
    Says p notes (p.drain r samples) fun s notes' => p.born = true → Counted s notes' := by
  unfold Publisher.drain
  split_ifs with hborn
  · obtain ⟨hnode, hdevice⟩ := hcounted hborn
    apply (says_ndata h hnode r).andThen
    intro notes' hopened hnode'
    refine (says_ddata hopened (hnode'.2 hdevice) r samples).mono ?_
    intro _ hdevice' _
    exact ⟨hdevice'.2 hnode'.1, hdevice'.1⟩
  · exact Says.silent rfl h hcounted

/-- The retirement of a catalog and the birth of the next one. -/
theorem says_setCatalog (h : Opened p.session notes)
    (hcounted : p.born = true → Counted p.session notes) (catalog : TagCatalog)
    (death birth : Readings) :
    Says p notes (p.setCatalog catalog death birth) fun s notes' => p.born = true → Counted s notes' := by
  have hretired : Says p notes (if p.born && !p.session.catalog.isEmpty then p.publishDdeath death
      else (p, .ok ())) fun s notes' => p.born = true → NodeCounted s notes' := by
    split_ifs with hdeath
    · obtain ⟨hborn, hempty⟩ := (Bool.and_eq_true _ _).mp hdeath
      refine (says_ddeath h (hcounted hborn).2 (by simpa using hempty) death).mono ?_
      intro _ hdevice _
      exact hdevice.2 (hcounted hborn).1
    · exact Says.silent rfl h fun hborn => (hcounted hborn).1
  have hborn_eq : (if p.born && !p.session.catalog.isEmpty then p.publishDdeath death
      else (p, .ok ()) : Outcome).1.born = p.born := by
    split_ifs
    · exact (Told.ddeath p death).born
    · rfl
  unfold Publisher.setCatalog
  apply hretired.andThen
  intro notes' hopened hnode
  generalize (if p.born && !p.session.catalog.isEmpty then p.publishDdeath death
    else (p, .ok ()) : Outcome).1 = q at hborn_eq hopened hnode ⊢
  rw [← hborn_eq] at hnode ⊢
  have hset : Opened (q.session.setCatalog catalog) notes' := ⟨hopened.each, hopened.will, hopened.first⟩
  dsimp only
  split_ifs with hborn
  · have hbirth := says_dbirth (p := { q with session := q.session.setCatalog catalog }) hset birth
    have hbirth' : Says q notes' _ _ := hbirth.of_frames rfl
    refine hbirth'.mono ?_
    intro _ hdevice _
    exact ⟨hdevice.2 (hnode hborn), hdevice.1⟩
  · exact Says.silent rfl hset fun hborn' => absurd hborn' hborn

/-! ### Who is born -/

theorem andThen_born {x : Outcome} {next : Publisher → Outcome} {b : Bool} (hx : x.1.born = b)
    (hnext : ∀ q : Publisher, q.born = b → (next q).1.born = b) : (x.andThen next).1.born = b :=
  @andThen_cases x next (fun x => x.1.born = b) (fun _ _ => hx) fun _ => hnext x.1 hx

theorem publishNbirth_born (r : Readings) : (p.publishNbirth r).1.born = p.born := (Told.nbirth p r).born

theorem publishDbirth_born (r : Readings) : (p.publishDbirth r).1.born = p.born := by
  obtain ⟨said, htold, -⟩ := Told.dbirth p r
  exact htold.born

/-- A CONNACK that succeeds makes the publisher born. -/
theorem onConnected_born {node device : Readings} (hok : (p.onConnected node device).2 = .ok ()) :
    (p.onConnected node device).1.born = true := by
  unfold Publisher.onConnected at hok ⊢
  refine @andThen_cases _ _ (fun x => x.2 = .ok () → x.1.born = true) (fun _ _ h => nomatch h) ?_ hok
  intro _
  refine @andThen_cases _ _ (fun x => x.2 = .ok () → x.1.born = true) (fun _ _ h => nomatch h) ?_
  intro _
  refine @andThen_cases _ _ (fun x => x.2 = .ok () → x.1.born = true) (fun _ _ h => nomatch h) ?_
  intro _ _
  rfl

theorem handleIncoming_born (topic : String) (payload : Option Payload) (node device : Readings) :
    (p.handleIncoming topic payload node device).1.born = p.born := by
  unfold Publisher.handleIncoming
  split_ifs
  · rfl
  · apply andThen_born (publishNbirth_born node)
    intro q hq
    rw [publishDbirth_born]
    exact hq
  · rfl

theorem drain_born (r : Readings) (samples : List TelemetrySample) :
    (p.drain r samples).1.born = p.born := by
  unfold Publisher.drain
  split_ifs
  · obtain ⟨said, htold, -⟩ := Told.ndata p r
    apply andThen_born htold.born
    intro q hq
    obtain ⟨said, htold, -⟩ := Told.ddata q r samples
    exact htold.born.trans hq
  · rfl

theorem setCatalog_born (catalog : TagCatalog) (death birth : Readings) :
    (p.setCatalog catalog death birth).1.born = p.born := by
  unfold Publisher.setCatalog
  apply andThen_born
  · split_ifs
    · exact (Told.ddeath p death).born
    · rfl
  · intro q hq
    dsimp only
    split_ifs
    · rw [publishDbirth_born]
      exact hq
    · exact hq

/-- Before a birth a catalog is only noted. -/
theorem setCatalog_unborn (hborn : p.born = false) (catalog : TagCatalog) (death birth : Readings) :
    p.setCatalog catalog death birth =
      ({ p with session := p.session.setCatalog catalog }, .ok ()) := by
  unfold Publisher.setCatalog Outcome.andThen
  simp only [hborn, Bool.false_and, Bool.false_eq_true, if_false]

end Calls

/-! ## The invariant -/

/-- The Will of the next connection: 0 until one reached CONNACK, and then the next number. -/
def WillDue (notes : List Note) (n : BitVec 64) : Prop :=
  (ackedWill notes = none ∧ n = 0) ∨ ∃ m, ackedWill notes = some (.long m) ∧ n = m + 1

/-- What holds of the publisher where the loop stands. -/
def ServicePhase.Holds (p : Publisher) (notes : List Note) : ServicePhase → Prop
  | .closed => p.born = false ∧ p.session.firstSession = false ∧ WillDue notes p.session.bdSeq
  | .connected false => p.born = false ∧ Opened p.session notes ∧ WillDue notes p.session.bdSeq
  | .connected true => p.born = true ∧ Opened p.session notes ∧ Counted p.session notes ∧
      ackedWill notes = currentWill notes
  | .failed => True

/-- **The invariant of the service.** -/
structure Numbering (s : Service) (notes : List Note) : Prop where
  each : EachAt id (fun before note => note.Numbered before) notes
  holds : s.phase.Holds s.publisher notes

section Invariant

variable {s : Service} {notes : List Note}

theorem currentWill_sent (said : List Frame) :
    currentWill (notes ++ said.map .sent) = currentWill notes := by
  induction said generalizing notes with
  | nil => rw [List.map_nil, List.append_nil]
  | cons f said ih => rw [List.map_cons, List.append_cons, ih, currentWill_snoc]

/-- Where the loop stands after a call. -/
def afterCall (phase : ServicePhase) (result : Except TelemetryError Unit) : ServicePhase :=
  match result with
  | .ok () => phase
  | .error _ => .failed

theorem call_eq (s : Service) (op : PublisherOp) : s.call op =
    (⟨(s.publisher.perform op).1, afterCall s.phase (s.publisher.perform op).2⟩,
      (s.publisher.handed op).map .sent) := rfl

/-- A call on an open connection. -/
theorem Says.numbering {p : Publisher} {op : PublisherOp} {phase : ServicePhase}
    {post : SessionState → List Note → Prop} (h : Says p notes (p.perform op) post)
    (hholds : ∀ notes', ackedWill notes' = ackedWill notes → currentWill notes' = currentWill notes →
      (p.perform op).2 = .ok () → Opened (p.perform op).1.session notes' →
      post (p.perform op).1.session notes' → phase.Holds (p.perform op).1 notes') :
    Numbering ⟨(p.perform op).1, afterCall phase (p.perform op).2⟩
      (notes ++ (p.handed op).map .sent) := by
  obtain ⟨said, hframes, hopened, hpost⟩ := h
  rw [handed_eq hframes]
  refine ⟨hopened.each, ?_⟩
  rcases hok : (p.perform op).2 with e | ⟨⟩
  · trivial
  · exact hholds _ (ackedWill_sent said) (currentWill_sent said) hok hopened (hpost hok)

/-- A call that leaves the phase. -/
theorem Numbering.call (op : PublisherOp) {live : Bool} (hphase : s.phase = .connected live)
    (h : Numbering s notes) (hborn : (s.publisher.perform op).1.born = s.publisher.born)
    (hsaid : Opened s.publisher.session notes →
      (s.publisher.born = true → Counted s.publisher.session notes) →
      Says s.publisher notes (s.publisher.perform op) fun session notes' =>
        s.publisher.born = true → Counted session notes') :
    Numbering (s.call op).1 (notes ++ (s.call op).2) := by
  have hholds := h.holds
  rw [hphase] at hholds
  rw [call_eq, hphase]
  cases live with
  | false =>
      obtain ⟨hunborn, hopened, hdue⟩ := hholds
      apply (hsaid hopened fun hborn => by rw [hunborn] at hborn; cases hborn).numbering
      intro notes' hacked hwill _ hopened' _
      refine ⟨hborn.trans hunborn, hopened', ?_⟩
      -- The Will has the number of the session, before and after.
      have hsame : (s.publisher.perform op).1.session.bdSeq = s.publisher.session.bdSeq := by
        have hwills := hopened'.will.symm.trans (hwill.trans hopened.will)
        simpa using hwills
      unfold WillDue
      rw [hacked, hsame]
      exact hdue
  | true =>
      obtain ⟨hlive, hopened, hcounted, hwills⟩ := hholds
      apply (hsaid hopened fun _ => hcounted).numbering
      intro notes' hacked hwill _ hopened' hcounted'
      exact ⟨hborn.trans hlive, hopened', hcounted' hlive, by rw [hacked, hwill, hwills]⟩

/-- **CONNACK** makes the number of the Will the last one that was acknowledged. -/
theorem Numbering.connAck (h : Numbering s notes) (hphase : s.phase = .connected false)
    (node device : Readings) :
    Numbering (s.call (.onConnected node device)).1.becomeLive
      (notes ++ .connAck :: (s.call (.onConnected node device)).2) := by
  have hholds := h.holds
  rw [hphase] at hholds
  obtain ⟨-, hopened, -⟩ := hholds
  have hopened' : Opened s.publisher.session (notes ++ [.connAck]) := by
    refine ⟨hopened.each.snoc ?_, ?_, hopened.first⟩
    · rintro _ rfl
      trivial
    · rw [currentWill_snoc]
      exact hopened.will
  have hlive : (s.call (.onConnected node device)).1.becomeLive =
      ⟨(s.publisher.perform (.onConnected node device)).1,
        afterCall (.connected true) (s.publisher.perform (.onConnected node device)).2⟩ := by
    rw [call_eq, hphase]
    rcases (s.publisher.perform (.onConnected node device)).2 with e | ⟨⟩ <;> rfl
  rw [hlive, List.append_cons, call_eq]
  apply Says.numbering (says_onConnected hopened' node device)
  intro notes' hacked hwill hok hopened'' hcounted
  refine ⟨onConnected_born hok, hopened'', hcounted, ?_⟩
  rw [hacked, hwill, ackedWill_snoc, currentWill_snoc]

/-- **Every event keeps the numbers.** -/
theorem Numbering.handle (h : Numbering s notes) (ev : ServiceEvent) :
    Numbering (s.handle ev).1 (notes ++ (s.handle ev).2) := by
  have hnothing : Numbering s (notes ++ []) := by
    rw [List.append_nil]
    exact h
  have hholds := h.holds
  unfold Service.handle
  cases ev with
  | connect willMs answers =>
      dsimp only
      split
      · next hphase =>
          rw [hphase] at hholds
          obtain ⟨hborn, hfirst, hdue⟩ := hholds
          have heach : EachAt id (fun before note => note.Numbered before)
              (notes ++ [.opened (s.publisher.session.ndeath willMs)]) := by
            apply h.each.snoc
            rintro _ rfl
            rcases hdue with ⟨hnone, hzero⟩ | ⟨m, hm, hsucc⟩
            · exact .inl ⟨hnone, congrArg (fun n => some (MetricValue.long n)) hzero⟩
            · exact .inr ⟨m, hm, congrArg (fun n => some (MetricValue.long n)) hsucc⟩
          refine ⟨heach, rfl, ⟨heach, ?_, hfirst⟩, ?_⟩
          · rw [currentWill_snoc]
            rfl
          · unfold WillDue
            rw [ackedWill_snoc]
            exact hdue
      · exact hnothing
  | connAck success node device =>
      dsimp only
      split
      · next hphase =>
          split_ifs
          · exact h.connAck hphase node device
          · exact hnothing
      · exact hnothing
  | publish topic payload node device =>
      dsimp only
      split
      · next live hphase =>
          apply h.call (.handleIncoming topic payload node device) hphase
            (handleIncoming_born topic payload node device)
          intro hopened hcounted
          refine (says_handleIncoming hopened topic payload node device).mono ?_
          intro notes' hkeeps hborn
          exact hkeeps (hcounted hborn)
      · exact hnothing
  | pollError =>
      dsimp only
      split
      · next hphase =>
          rw [hphase] at hholds
          obtain ⟨-, hopened, -, hwills⟩ := hholds
          rw [List.append_nil]
          refine ⟨h.each, rfl, rfl, .inr ⟨_, hwills.trans hopened.will, ?_⟩⟩
          show (if s.publisher.session.firstSession then _ else _) = _
          rw [hopened.first]
          rfl
      · next hphase =>
          rw [hphase] at hholds
          obtain ⟨hborn, hopened, hdue⟩ := hholds
          rw [List.append_nil]
          exact ⟨h.each, hborn, hopened.first, hdue⟩
      · exact hnothing
  | catalog catalog death birth =>
      dsimp only
      split
      · exact hnothing
      · next hfailed =>
          rcases hphase : s.phase with _ | live | _
          · -- Before a connection is opened, nothing is born and nothing is said.
            rw [hphase] at hholds
            obtain ⟨hborn, hfirst, hdue⟩ := hholds
            have hset : s.publisher.perform (.setCatalog catalog death birth) = _ :=
              setCatalog_unborn hborn catalog death birth
            have hhanded : s.publisher.handed (.setCatalog catalog death birth) = [] := by
              apply handed_eq
              rw [hset, List.append_nil]
            rw [call_eq, hhanded, hset, hphase, List.map_nil, List.append_nil]
            exact ⟨h.each, hborn, hfirst, hdue⟩
          · apply h.call (.setCatalog catalog death birth) hphase (setCatalog_born catalog death birth)
            intro hopened hcounted
            exact says_setCatalog hopened hcounted catalog death birth
          · exact absurd hphase hfailed
  | drain r samples =>
      dsimp only
      split
      · next live hphase =>
          apply h.call (.drain r samples) hphase (drain_born r samples)
          intro hopened hcounted
          exact says_drain hopened hcounted r samples
      · exact hnothing

end Invariant

/-! ## Numbers -/

theorem ServiceRun.numbering {s : Service} {notes : List Note} (h : ServiceRun s notes) :
    Numbering s notes := by
  induction h with
  | start ids catalog answers => exact ⟨EachAt.nil, rfl, rfl, .inl ⟨rfl, rfl⟩⟩
  | step h ev ih => exact ih.handle ev

/-- **Sparkplug numbering**: every Will, birth, death and data message of a run of the service has its
number. -/
theorem sparkplug_numbering {s : Service} {notes : List Note} (h : ServiceRun s notes) :
    EachAt id (fun before note => note.Numbered before) notes := h.numbering.each

/-- The events one after the other. -/
def Service.handleAll (s : Service) (notes : List Note) : List ServiceEvent → Service × List Note
  | [] => (s, notes)
  | ev :: evs => (s.handle ev).1.handleAll (notes ++ (s.handle ev).2) evs

theorem ServiceRun.handleAll {s : Service} {notes : List Note} (h : ServiceRun s notes)
    (evs : List ServiceEvent) : ServiceRun (s.handleAll notes evs).1 (s.handleAll notes evs).2 := by
  induction evs generalizing s notes with
  | nil => exact h
  | cons ev evs ih => exact ih (h.step ev)

/-- Two connections, the first of which fails before its CONNACK and is tried again. -/
def twoSessions : List ServiceEvent :=
  let stop := readingsAt 0 .stop
  [.connect 0 fun _ => .ok (), .pollError, .connect 0 fun _ => .ok (), .connAck true stop stop,
    .drain (readingsAt 10 .run) [runFwdOn], .pollError, .connect 20 fun _ => .ok (),
    .connAck true stop stop]

/-- The theorem on three Wills, four births and two messages of data. -/
theorem sparkplug_numbering_two_sessions : ∃ s notes, ServiceRun s notes ∧ notes.length = 11 ∧
    s.publisher.session.bdSeq = 1 ∧ EachAt id (fun before note => note.Numbered before) notes := by
  have hrun := (ServiceRun.start plantIds oneTag fun _ => .ok ()).handleAll twoSessions
  exact ⟨_, _, hrun, by decide +kernel, by decide +kernel, sparkplug_numbering hrun⟩

end SoftPlc.Telemetry
