import SoftPlc.Scan.Telemetry
import SoftPlc.Telemetry.Catalog

/-!
# The Sparkplug session

`SessionState` of `plc-telemetry/src/session.rs`: the birth and death counters and the payloads that
are built from them. No message is sent here.
-/

namespace SoftPlc.Telemetry

open SoftPlc.Io SoftPlc.Scan

/-- Last sample of a slot. Source: `session.rs`, `CachedDeviceValue`. -/
structure CachedDeviceValue where
  value : PlcValue
  quality : Quality
  forced : Bool
  deriving DecidableEq, Repr

/-! ## Names -/

/-- Source: `session.rs`, `METRIC_BDSEQ`. -/
def metricBdseq : String := "bdSeq"

/-- Source: `session.rs`, `METRIC_REBIRTH`. -/
def metricRebirth : String := "Node Control/Rebirth"

/-- Source: `session.rs`, `METRIC_MODE`. -/
def metricMode : String := "SYSTEM/Mode"

/-- Source: `session.rs`, `METRIC_DROPS`. -/
def metricDrops : String := "telemetry_drops"

/-- Source: `session.rs`, `METRIC_OVERRUNS`. -/
def metricOverruns : String := "logic_overruns"

/-- Source: `plc-types/src/mode.rs`, `OperatingMode::as_str`. -/
def modeStr : OperatingMode → String
  | .stop => "STOP"
  | .run => "RUN"
  | .fault => "FAULT"
  | .sim => "SIM"

/-! ## Metrics -/

/-- Source: `session.rs`, `metric_properties`. -/
def metricProperties (quality : Quality) (forced : Bool) (unit : String) : List Property :=
  [⟨"Quality", spInt32, .int (qualityCode quality)⟩] ++
    (if forced then [⟨"Forced", spBoolean, .bool true⟩] else []) ++
    (if unit = "" then [] else [⟨"engUnit", spString, .string unit⟩])

/-- Source: `session.rs`, `bdseq_metric`. -/
def bdseqMetric (bdSeq ts : BitVec 64) : Metric where
  name := some metricBdseq
  aliasId := none
  timestamp := some ts
  datatype := spUint64
  properties := []
  value := some (.long bdSeq)

/-- A node metric, by its name. -/
def namedMetric (name : String) (datatype : BitVec 32) (value : MetricValue) (ts : BitVec 64)
    (quality : Quality) : Metric where
  name := some name
  aliasId := none
  timestamp := some ts
  datatype := datatype
  properties := metricProperties quality false ""
  value := some value

/-- Source: `session.rs`, `named_bool`. -/
def namedBool (name : String) (value : Bool) : BitVec 64 → Quality → Metric :=
  namedMetric name spBoolean (.bool value)

/-- Source: `session.rs`, `named_string`. -/
def namedString (name : String) (value : String) : BitVec 64 → Quality → Metric :=
  namedMetric name spString (.string value)

/-- Source: `session.rs`, `named_int64`; the casts between `u64` and `i64` keep the bits. -/
def namedInt64 (name : String) (value : BitVec 64) : BitVec 64 → Quality → Metric :=
  namedMetric name spInt64 (.long value)

/-- Source: `session.rs`, `plc_matches_metric`. -/
def plcMatchesMetric : PlcValue → MetricType → Bool
  | .bool _, .bool | .int _, .int | .dint _, .dint | .real _, .real | .time _, .time => true
  | _, _ => false

/-- Source: `session.rs`, `cached_metric`. -/
def cachedMetric (cached : CachedDeviceValue) (ty : MetricType) (clockSynced : Bool) :
    Option (MetricValue × Quality × Bool) :=
  if plcMatchesMetric cached.value ty then
    some ((valueToSparkplug cached.value).2, publishQuality cached.quality clockSynced, cached.forced)
  else none

/-! ## The session -/

/-- Source: `session.rs`, `SessionState`. -/
structure SessionState where
  bdSeq : BitVec 64
  nodeSeq : BitVec 8
  deviceSeq : BitVec 8
  firstSession : Bool
  catalog : TagCatalog
  lastMode : Option OperatingMode
  lastDrops : Option (BitVec 64)
  lastOverruns : Option (BitVec 64)
  /-- The newest entry first. -/
  lastDevice : List ((Bool × ℕ) × CachedDeviceValue)

namespace SessionState

/-- Source: `session.rs`, `SessionState::new`. -/
def new : SessionState := ⟨0, 0, 0, true, .empty, none, none, none, []⟩

/-- Source: `session.rs`, `SessionState::set_catalog`. -/
def setCatalog (s : SessionState) (catalog : TagCatalog) : SessionState :=
  { s with
    catalog := catalog
    lastDevice := s.lastDevice.filter fun e => (catalog.get e.1.1 e.1.2).isSome }

/-- Source: `session.rs`, `SessionState::prepare_connect`. -/
def prepareConnect (s : SessionState) : SessionState :=
  { s with
    bdSeq := if s.firstSession then s.bdSeq else s.bdSeq + 1
    firstSession := false
    nodeSeq := 0
    deviceSeq := 0
    lastMode := none
    lastDrops := none
    lastOverruns := none }

/-- Source: `session.rs`, `SessionState::on_rebirth`. -/
def onRebirth (s : SessionState) : SessionState :=
  { s with
    nodeSeq := 0
    deviceSeq := 0
    lastMode := none
    lastDrops := none
    lastOverruns := none }

/-- Source: `session.rs`, `SessionState::ndeath`. -/
def ndeath (s : SessionState) (ts : BitVec 64) : Payload := ⟨some ts, [bdseqMetric s.bdSeq ts], some 0⟩

/-- The metrics of an NBIRTH. -/
def birthMetrics (s : SessionState) (ts : BitVec 64) (mode : OperatingMode) (drops overruns : BitVec 64)
    (quality : Quality) : List Metric :=
  [bdseqMetric s.bdSeq ts,
    namedBool metricRebirth false ts quality,
    namedString metricMode (modeStr mode) ts quality,
    namedInt64 metricDrops drops ts quality,
    namedInt64 metricOverruns overruns ts quality]

/-- Source: `session.rs`, `SessionState::nbirth`. -/
def nbirth (s : SessionState) (ts : BitVec 64) (mode : OperatingMode) (drops overruns : BitVec 64)
    (quality : Quality) : SessionState × Payload :=
  ({ s with
      nodeSeq := 0
      lastMode := some mode
      lastDrops := some drops
      lastOverruns := some overruns },
    ⟨some ts, s.birthMetrics ts mode drops overruns quality, some 0⟩)

/-- The metric of a tag in a DBIRTH. Source: `session.rs`, the `for` of `SessionState::dbirth`. -/
def dbirthMetric (s : SessionState) (ts : BitVec 64) (clockSynced : Bool) (entry : CatalogEntry) :
    Metric :=
  let cached := (s.lastDevice.lookup (entry.tag.isInput, entry.tag.slot)).bind fun c =>
    cachedMetric c entry.tag.valueType clockSynced
  let (value, quality, forced) :=
    cached.getD (entry.tag.valueType.defaultValue, publishQuality .good clockSynced, false)
  { name := some entry.tag.name
    aliasId := some (entry.aliasId.setWidth 64)
    timestamp := some ts
    datatype := entry.tag.valueType.sparkplugDatatype
    properties := metricProperties quality forced entry.tag.unit
    value := some value }

/-- Source: `session.rs`, `SessionState::dbirth`. -/
def dbirth (s : SessionState) (ts : BitVec 64) (clockSynced : Bool) : SessionState × Option Payload :=
  if s.catalog.isEmpty then (s, none)
  else
    ({ s with deviceSeq := 0 },
      some ⟨some ts, s.catalog.entries.map (s.dbirthMetric ts clockSynced), some 0⟩)

/-- Source: `session.rs`, `SessionState::ddeath` and `next_seq`. -/
def ddeath (s : SessionState) (ts : BitVec 64) : SessionState × Payload :=
  ({ s with deviceSeq := s.deviceSeq + 1 }, ⟨some ts, [], some ((s.deviceSeq + 1).setWidth 64)⟩)

/-- The metrics of an NDATA: what differs from what was sent last. -/
def changedMetrics (s : SessionState) (ts : BitVec 64) (mode : OperatingMode)
    (drops overruns : BitVec 64) (quality : Quality) : List Metric :=
  (if s.lastMode = some mode then [] else [namedString metricMode (modeStr mode) ts quality]) ++
    (if s.lastDrops = some drops then [] else [namedInt64 metricDrops drops ts quality]) ++
    (if s.lastOverruns = some overruns then []
      else [namedInt64 metricOverruns overruns ts quality])

/-- Source: `session.rs`, `SessionState::ndata`. -/
def ndata (s : SessionState) (ts : BitVec 64) (mode : OperatingMode) (drops overruns : BitVec 64)
    (quality : Quality) : SessionState × Option Payload :=
  let metrics := s.changedMetrics ts mode drops overruns quality
  let s' : SessionState :=
    { s with lastMode := some mode, lastDrops := some drops, lastOverruns := some overruns }
  if metrics = [] then (s', none)
  else
    ({ s' with nodeSeq := s.nodeSeq + 1 }, some ⟨some ts, metrics, some ((s.nodeSeq + 1).setWidth 64)⟩)

/-- The metric of a sample in a DDATA. -/
def ddataMetric (ts : BitVec 64) (clockSynced : Bool) (entry : CatalogEntry) (sample : TelemetrySample) :
    Metric :=
  let (datatype, value) := valueToSparkplug sample.value
  { name := none
    aliasId := some (entry.aliasId.setWidth 64)
    timestamp := some ts
    datatype := datatype
    properties := metricProperties (publishQuality sample.quality clockSynced) sample.forced ""
    value := some value }

/-- Samples of slots that were not seen before, from the newest on; the answer has the cache and the
metrics in the same order. Source: `session.rs`, the `for` of `SessionState::ddata`. -/
def collect (catalog : TagCatalog) (ts : BitVec 64) (clockSynced : Bool) (seen : List (Bool × ℕ))
    (cache : List ((Bool × ℕ) × CachedDeviceValue)) :
    List TelemetrySample → List ((Bool × ℕ) × CachedDeviceValue) × List Metric
  | [] => (cache, [])
  | sample :: samples =>
      let key := (sample.isInput, sample.tagHint)
      if key ∈ seen then collect catalog ts clockSynced seen cache samples
      else
        match catalog.get sample.isInput sample.tagHint with
        | none => collect catalog ts clockSynced (key :: seen) cache samples
        | some entry =>
            let cached : CachedDeviceValue := ⟨sample.value, sample.quality, sample.forced⟩
            let (cache, metrics) :=
              collect catalog ts clockSynced (key :: seen) ((key, cached) :: cache) samples
            (cache, ddataMetric ts clockSynced entry sample :: metrics)

/-- The last sample of each slot wins, and unknown slots are dropped. Source: `session.rs`,
`SessionState::ddata`. -/
def ddata (s : SessionState) (ts : BitVec 64) (samples : List TelemetrySample) (clockSynced : Bool) :
    SessionState × Option Payload :=
  let (cache, metrics) := collect s.catalog ts clockSynced [] s.lastDevice samples.reverse
  let s' : SessionState := { s with lastDevice := cache }
  if metrics = [] then (s', none)
  else
    ({ s' with deviceSeq := s.deviceSeq + 1 },
      some ⟨some ts, metrics.reverse, some ((s.deviceSeq + 1).setWidth 64)⟩)

end SessionState

/-! ## What a payload is made of -/

section Payloads

variable {s s' : SessionState} {ts : BitVec 64} {clockSynced : Bool} {p : Payload}

/-- A device birth is of the whole catalog. -/
theorem dbirth_some (h : s.dbirth ts clockSynced = (s', some p)) :
    s' = { s with deviceSeq := 0 } ∧ s.catalog.isEmpty = false ∧
      p = ⟨some ts, s.catalog.entries.map (s.dbirthMetric ts clockSynced), some 0⟩ := by
  unfold SessionState.dbirth at h
  split_ifs at h with hempty
  · cases h
  · cases h
    exact ⟨rfl, by simpa using hempty, rfl⟩

theorem dbirth_none (h : s.dbirth ts clockSynced = (s', none)) :
    s' = s ∧ s.catalog.isEmpty = true := by
  unfold SessionState.dbirth at h
  split_ifs at h with hempty
  · cases h
    exact ⟨rfl, hempty⟩
  · cases h

/-- What a round does: it skips the sample, drops it, or adds its metric. -/
theorem collect_cons (catalog : TagCatalog) (seen : List (Bool × ℕ))
    (cache : List ((Bool × ℕ) × CachedDeviceValue)) (sample : TelemetrySample)
    (samples : List TelemetrySample) :
    (∃ seen', SessionState.collect catalog ts clockSynced seen cache (sample :: samples) =
      SessionState.collect catalog ts clockSynced seen' cache samples) ∨
    ∃ entry seen' cache', catalog.get sample.isInput sample.tagHint = some entry ∧
      (SessionState.collect catalog ts clockSynced seen cache (sample :: samples)).2 =
        SessionState.ddataMetric ts clockSynced entry sample ::
          (SessionState.collect catalog ts clockSynced seen' cache' samples).2 := by
  by_cases hseen : (sample.isInput, sample.tagHint) ∈ seen
  · exact .inl ⟨seen, if_pos hseen⟩
  · rcases hget : catalog.get sample.isInput sample.tagHint with _ | entry
    · refine .inl ⟨(sample.isInput, sample.tagHint) :: seen, ?_⟩
      refine (if_neg hseen).trans ?_
      rw [hget]
    · refine .inr ⟨entry, (sample.isInput, sample.tagHint) :: seen,
        ((sample.isInput, sample.tagHint), ⟨sample.value, sample.quality, sample.forced⟩) :: cache,
        rfl, ?_⟩
      refine (congrArg Prod.snd (if_neg hseen)).trans ?_
      rw [hget]

/-- Each metric of device data comes from a sample of a slot in the catalog. -/
theorem collect_mem {catalog : TagCatalog} {seen : List (Bool × ℕ)}
    {cache : List ((Bool × ℕ) × CachedDeviceValue)} {samples : List TelemetrySample} {m : Metric}
    (h : m ∈ (SessionState.collect catalog ts clockSynced seen cache samples).2) :
    ∃ sample ∈ samples, ∃ entry, catalog.get sample.isInput sample.tagHint = some entry ∧
      m = SessionState.ddataMetric ts clockSynced entry sample := by
  induction samples generalizing seen cache with
  | nil => cases h
  | cons sample samples ih =>
      rcases collect_cons catalog seen cache sample samples with
        ⟨seen', hskip⟩ | ⟨entry, seen', cache', hentry, hadd⟩
      · rw [hskip] at h
        obtain ⟨x, hx, hrest⟩ := ih h
        exact ⟨x, List.mem_cons_of_mem _ hx, hrest⟩
      · rw [hadd] at h
        rcases List.mem_cons.mp h with rfl | h
        · exact ⟨sample, List.mem_cons_self, entry, hentry, rfl⟩
        · obtain ⟨x, hx, hrest⟩ := ih h
          exact ⟨x, List.mem_cons_of_mem _ hx, hrest⟩

theorem ddata_some {samples : List TelemetrySample} (h : s.ddata ts samples clockSynced = (s', some p)) :
    s'.catalog = s.catalog ∧ s'.bdSeq = s.bdSeq ∧ s'.nodeSeq = s.nodeSeq ∧
      s'.deviceSeq = s.deviceSeq + 1 ∧ p.seq = some ((s.deviceSeq + 1).setWidth 64) ∧
      ∀ m ∈ p.metrics, ∃ sample ∈ samples, ∃ entry,
        s.catalog.get sample.isInput sample.tagHint = some entry ∧
          m = SessionState.ddataMetric ts clockSynced entry sample := by
  unfold SessionState.ddata at h
  dsimp only at h
  split_ifs at h with hempty
  · cases h
  · cases h
    refine ⟨rfl, rfl, rfl, rfl, rfl, ?_⟩
    intro m hm
    obtain ⟨sample, hsample, hrest⟩ := collect_mem (List.mem_reverse.mp hm)
    exact ⟨sample, List.mem_reverse.mp hsample, hrest⟩

/-- Device data is never empty. -/
theorem ddata_metrics {samples : List TelemetrySample}
    (h : s.ddata ts samples clockSynced = (s', some p)) :
    p.metrics ≠ [] ∧ s'.firstSession = s.firstSession := by
  unfold SessionState.ddata at h
  dsimp only at h
  split_ifs at h with hempty
  · cases h
  · cases h
    exact ⟨fun hnil => hempty (List.reverse_eq_nil_iff.mp hnil), rfl⟩

/-- Samples of which none is in the catalog only pass through the cache. -/
theorem ddata_none {samples : List TelemetrySample}
    (h : s.ddata ts samples clockSynced = (s', none)) :
    s' = { s with lastDevice := s'.lastDevice } := by
  unfold SessionState.ddata at h
  dsimp only at h
  split_ifs at h
  · cases h
    rfl
  · cases h

end Payloads

end SoftPlc.Telemetry
