import SoftPlc.Telemetry.Births

/-!
# What a host knows of the node

`SYSTEM/Mode`, `telemetry_drops` and `logic_overruns` are sent in each NBIRTH, and in an NDATA when they
differ from what was built last. `node_metrics_converge` says that a drain leaves the host with the
values that it read, on every run in which no NBIRTH and no NDATA was refused. A refused one is not
built again (`mode_lost`).
-/

namespace SoftPlc.Telemetry

open SoftPlc.Io SoftPlc.Scan SoftPlc.Lib

/-! ## What was accepted last -/

/-- The value that an accepted NBIRTH or NDATA gives to a node metric. -/
def Frame.nodeValue (name : String) (f : Frame) : Option MetricValue :=
  if (f.verb = .nbirth ∨ f.verb = .ndata) ∧ f.taken = true then
    (f.payload.metrics.find? fun m => m.name == some name).bind Metric.value
  else none

/-- The most recent accepted value of a node metric. -/
def latest (name : String) (frames : List Frame) : Option MetricValue :=
  frames.reverse.findSome? (Frame.nodeValue name)

/-- The host knows what was read. -/
structure Knows (frames : List Frame) (r : Readings) : Prop where
  mode : latest metricMode frames = some (.string (modeStr r.mode))
  drops : latest metricDrops frames = some (.long r.drops)
  overruns : latest metricOverruns frames = some (.long r.overruns)

/-- Each NBIRTH and NDATA of an operation is accepted. -/
def NodeTaken (p : Publisher) (op : PublisherOp) : Prop :=
  ∀ f ∈ p.handed op, f.verb = .nbirth ∨ f.verb = .ndata → f.Accepted

/-- What was built last is what was accepted last. -/
structure CacheCurrent (s : SessionState) (frames : List Frame) : Prop where
  mode : ∀ mode, s.lastMode = some mode → latest metricMode frames = some (.string (modeStr mode))
  drops : ∀ n, s.lastDrops = some n → latest metricDrops frames = some (.long n)
  overruns : ∀ n, s.lastOverruns = some n → latest metricOverruns frames = some (.long n)

/-! ## Messages -/

section Messages

variable {frames said : List Frame} {f : Frame} {s s' : SessionState} {ts : BitVec 64}
  {mode : OperatingMode} {drops overruns : BitVec 64} {quality : Quality}

theorem latest_snoc (name : String) :
    latest name (frames ++ [f]) = (f.nodeValue name).or (latest name frames) := by
  unfold latest
  rw [List.reverse_append, List.reverse_singleton, List.singleton_append, List.findSome?_cons]
  rcases f.nodeValue name with _ | v
  · rfl
  · rfl

/-- Messages of the device tell nothing of the node. -/
theorem latest_append (name : String) (hsaid : ∀ f ∈ said, f.verb ≠ .nbirth ∧ f.verb ≠ .ndata) :
    latest name (frames ++ said) = latest name frames := by
  induction said generalizing frames with
  | nil => rw [List.append_nil]
  | cons f said ih =>
      obtain ⟨⟨hnbirth, hndata⟩, hsaid⟩ := List.forall_mem_cons.mp hsaid
      rw [List.append_cons, ih hsaid, latest_snoc]
      unfold Frame.nodeValue
      rw [if_neg (by simp [hnbirth, hndata])]
      rfl

theorem CacheCurrent.append (h : CacheCurrent s frames)
    (hsaid : ∀ f ∈ said, f.verb ≠ .nbirth ∧ f.verb ≠ .ndata) : CacheCurrent s (frames ++ said) := by
  refine ⟨?_, ?_, ?_⟩
  · rw [latest_append _ hsaid]
    exact h.mode
  · rw [latest_append _ hsaid]
    exact h.drops
  · rw [latest_append _ hsaid]
    exact h.overruns

/-- A session with the same cache. -/
theorem CacheCurrent.session (h : CacheCurrent s frames) (hmode : s'.lastMode = s.lastMode)
    (hdrops : s'.lastDrops = s.lastDrops) (hoverruns : s'.lastOverruns = s.lastOverruns) :
    CacheCurrent s' frames :=
  ⟨hmode ▸ h.mode, hdrops ▸ h.drops, hoverruns ▸ h.overruns⟩

/-- The value of a node metric among some. -/
def metricValue (name : String) (metrics : List Metric) : Option MetricValue :=
  (metrics.find? fun m => m.name == some name).bind Metric.value

theorem nodeValue_of_accepted (name : String) (hverb : f.verb = .nbirth ∨ f.verb = .ndata)
    (haccepted : f.Accepted) : f.nodeValue name = metricValue name f.payload.metrics :=
  if_pos ⟨hverb, Frame.taken_iff.mpr haccepted⟩

/-- A birth has all three metrics. -/
theorem birthMetrics_value :
    metricValue metricMode (s.birthMetrics ts mode drops overruns quality) =
        some (.string (modeStr mode)) ∧
      metricValue metricDrops (s.birthMetrics ts mode drops overruns quality) = some (.long drops) ∧
      metricValue metricOverruns (s.birthMetrics ts mode drops overruns quality) =
        some (.long overruns) :=
  ⟨rfl, rfl, rfl⟩

/-- Node data has what changed. -/
theorem changedMetrics_value :
    metricValue metricMode (s.changedMetrics ts mode drops overruns quality) =
        (if s.lastMode = some mode then none else some (.string (modeStr mode))) ∧
      metricValue metricDrops (s.changedMetrics ts mode drops overruns quality) =
        (if s.lastDrops = some drops then none else some (.long drops)) ∧
      metricValue metricOverruns (s.changedMetrics ts mode drops overruns quality) =
        (if s.lastOverruns = some overruns then none else some (.long overruns)) := by
  unfold SessionState.changedMetrics
  split_ifs <;> exact ⟨rfl, rfl, rfl⟩

end Messages

/-! ## The invariant -/

section Converging

variable {p : Publisher} {frames : List Frame} {f : Frame} {s : SessionState} {r : Readings}

/-- A publisher that is born has a current cache. -/
def Current (p : Publisher) : Prop := p.born = true → CacheCurrent p.session p.transport.frames

theorem CacheCurrent.of_knows (h : Knows frames r) (hmode : s.lastMode = some r.mode)
    (hdrops : s.lastDrops = some r.drops) (hoverruns : s.lastOverruns = some r.overruns) :
    CacheCurrent s frames := by
  refine ⟨?_, ?_, ?_⟩
  · intro mode hlast
    obtain rfl := Option.some.inj (hmode.symm.trans hlast)
    exact h.mode
  · intro n hlast
    obtain rfl := Option.some.inj (hdrops.symm.trans hlast)
    exact h.drops
  · intro n hlast
    obtain rfl := Option.some.inj (hoverruns.symm.trans hlast)
    exact h.overruns

/-- An accepted birth tells everything. -/
theorem knows_of_nbirth (hverb : f.verb = .nbirth) (haccepted : f.Accepted) {quality : Quality}
    (hpayload : f.payload = (s.nbirth r.unixMs r.mode r.drops r.overruns quality).2) :
    Knows (frames ++ [f]) r := by
  obtain ⟨hmode, hdrops, hoverruns⟩ :=
    @birthMetrics_value s r.unixMs r.mode r.drops r.overruns quality
  refine ⟨?_, ?_, ?_⟩
  · rw [latest_snoc, nodeValue_of_accepted _ (.inl hverb) haccepted, hpayload]
    exact congrArg (Option.or · _) hmode
  · rw [latest_snoc, nodeValue_of_accepted _ (.inl hverb) haccepted, hpayload]
    exact congrArg (Option.or · _) hdrops
  · rw [latest_snoc, nodeValue_of_accepted _ (.inl hverb) haccepted, hpayload]
    exact congrArg (Option.or · _) hoverruns

/-- What was built last, together with accepted data of what changed, is what was read. -/
theorem latest_changed {α : Type} [DecidableEq α] {name : String} {last : Option α} {now : α}
    {value : α → MetricValue} {metrics : List Metric}
    (hcache : ∀ a, last = some a → latest name frames = some (value a))
    (hmetrics : metricValue name metrics = if last = some now then none else some (value now)) :
    (metricValue name metrics).or (latest name frames) = some (value now) := by
  rw [hmetrics]
  split_ifs with hsame
  · exact hcache now hsame
  · rfl

/-- **Node data tells what changed**, and a cache that is current tells the rest. -/
theorem knows_of_ndata (h : CacheCurrent s frames) {quality : Quality} {s' : SessionState}
    {built : Option Payload}
    (hbuilt : s.ndata r.unixMs r.mode r.drops r.overruns quality = (s', built)) :
    s'.lastMode = some r.mode ∧ s'.lastDrops = some r.drops ∧ s'.lastOverruns = some r.overruns ∧
      s'.catalog = s.catalog ∧ (built = none → Knows frames r) ∧
      ∀ payload, built = some payload → f.payload = payload → f.verb = .ndata → f.Accepted →
        Knows (frames ++ [f]) r := by
  obtain ⟨hmode, hdrops, hoverruns⟩ :=
    @changedMetrics_value s r.unixMs r.mode r.drops r.overruns quality
  have hall := latest_changed h.mode hmode
  have hall' := latest_changed h.drops hdrops
  have hall'' := latest_changed h.overruns hoverruns
  unfold SessionState.ndata at hbuilt
  dsimp only at hbuilt
  split_ifs at hbuilt with hempty
  · cases hbuilt
    refine ⟨rfl, rfl, rfl, rfl, ?_, (fun _ hsome => nomatch hsome)⟩
    intro _
    rw [hempty] at hall hall' hall''
    exact ⟨hall, hall', hall''⟩
  · cases hbuilt
    refine ⟨rfl, rfl, rfl, rfl, (fun hnone => nomatch hnone), ?_⟩
    intro payload hsome hpayload hverb haccepted
    obtain rfl := Option.some.inj hsome
    refine ⟨?_, ?_, ?_⟩
    · rw [latest_snoc, nodeValue_of_accepted _ (.inr hverb) haccepted, hpayload]
      exact hall
    · rw [latest_snoc, nodeValue_of_accepted _ (.inr hverb) haccepted, hpayload]
      exact hall'
    · rw [latest_snoc, nodeValue_of_accepted _ (.inr hverb) haccepted, hpayload]
      exact hall''

theorem sendBuilt_session (p : Publisher) (verb : Verb) (built : SessionState × Option Payload) :
    (p.sendBuilt verb built).1.session = built.1 := by
  unfold Publisher.sendBuilt
  dsimp only
  split
  · exact (send_fields _ _ _).2.1
  · rfl

/-- A birth that is taken makes the cache current. -/
theorem nbirth_current (p : Publisher) (r : Readings)
    (htaken : (p.nextFrame .nbirth (p.session.nbirth r.unixMs r.mode r.drops r.overruns
      (publishQuality .good r.synced)).2).Accepted) :
    CacheCurrent (p.publishNbirth r).1.session (p.publishNbirth r).1.transport.frames := by
  rw [(Told.nbirth p r).frames]
  apply CacheCurrent.of_knows (knows_of_nbirth rfl htaken rfl)
  · unfold Publisher.publishNbirth
    rw [sendBuilt_session]
    rfl
  · unfold Publisher.publishNbirth
    rw [sendBuilt_session]
    rfl
  · unfold Publisher.publishNbirth
    rw [sendBuilt_session]
    rfl

/-- Device births leave the cache. -/
theorem CacheCurrent.dbirth (h : CacheCurrent p.session p.transport.frames) (r : Readings) :
    CacheCurrent (p.publishDbirth r).1.session (p.publishDbirth r).1.transport.frames := by
  obtain ⟨said, htold, hverb, -⟩ := Told.dbirth p r
  rw [htold.frames]
  have hsession : (p.publishDbirth r).1.session = (p.session.dbirth r.unixMs r.synced).1 :=
    sendBuilt_session _ _ _
  rw [hsession]
  refine CacheCurrent.append ?_ fun f hf => by simp [hverb f hf]
  unfold SessionState.dbirth
  split_ifs <;> exact h.session rfl rfl rfl

theorem CacheCurrent.ddeath (h : CacheCurrent p.session p.transport.frames) (r : Readings) :
    CacheCurrent (p.publishDdeath r).1.session (p.publishDdeath r).1.transport.frames := by
  rw [(Told.ddeath p r).frames]
  have hsession : (p.publishDdeath r).1.session = (p.session.ddeath r.unixMs).1 :=
    sendBuilt_session _ _ _
  rw [hsession]
  refine CacheCurrent.append ?_ ?_
  · exact h.session rfl rfl rfl
  · intro f hf
    obtain rfl := List.mem_singleton.mp hf
    exact ⟨by simp [Publisher.nextFrame], by simp [Publisher.nextFrame]⟩

theorem ddata_tells (p : Publisher) (r : Readings) (samples : List TelemetrySample) :
    ∃ said, (p.publishDdata r samples).1.transport.frames = p.transport.frames ++ said ∧
      (∀ f ∈ said, f.verb = .ddata) ∧ (p.publishDdata r samples).1.session.lastMode = p.session.lastMode ∧
      (p.publishDdata r samples).1.session.lastDrops = p.session.lastDrops ∧
      (p.publishDdata r samples).1.session.lastOverruns = p.session.lastOverruns := by
  obtain ⟨said, htold, -, hsaid⟩ := Told.ddata p r samples
  refine ⟨said, htold.frames, fun f hf => (hsaid f hf).1, ?_⟩
  unfold Publisher.publishDdata
  split_ifs
  · exact ⟨rfl, rfl, rfl⟩
  · rw [sendBuilt_session]
    unfold SessionState.ddata
    dsimp only
    split_ifs <;> exact ⟨rfl, rfl, rfl⟩

/-- Both births: an NBIRTH, which makes the cache current when it is taken, and device births. -/
theorem births_current (p : Publisher) (node device : Readings) : ∃ nb said,
    ((p.publishNbirth node).andThen fun p => p.publishDbirth device).1.transport.frames =
      p.transport.frames ++ nb :: said ∧ nb.verb = .nbirth ∧
      (nb.Accepted → CacheCurrent
        ((p.publishNbirth node).andThen fun p => p.publishDbirth device).1.session
        ((p.publishNbirth node).andThen fun p => p.publishDbirth device).1.transport.frames) := by
  have hnode := Told.nbirth p node
  unfold Outcome.andThen
  rcases (p.publishNbirth node).2 with e | ⟨⟩
  · exact ⟨_, [], hnode.frames, rfl, nbirth_current p node⟩
  · dsimp only
    obtain ⟨said, hdevice, -, -⟩ := Told.dbirth (p.publishNbirth node).1 device
    refine ⟨_, said, ?_, rfl, fun htaken => (nbirth_current p node htaken).dbirth device⟩
    rw [hdevice.frames, hnode.frames, List.append_assoc]
    rfl

theorem Current.onConnected (h : Current p) (node device : Readings)
    (hcond : NodeTaken p (.onConnected node device)) : Current (p.onConnected node device).1 := by
  have hsub := trySendSub_fields p
  have heq : (p.onConnected node device).1 = p.trySendSub.1 ∨
      ∃ b, (p.onConnected node device).1 =
        { ((p.trySendSub.1.publishNbirth node).andThen fun p => p.publishDbirth device).1 with
          born := b } := by
    unfold Publisher.onConnected Outcome.andThen
    rcases p.trySendSub.2 with e | ⟨⟩
    · exact .inl rfl
    · dsimp only
      rcases (p.trySendSub.1.publishNbirth node).2 with e | ⟨⟩
      · exact .inr ⟨_, rfl⟩
      · dsimp only
        rcases ((p.trySendSub.1.publishNbirth node).1.publishDbirth device).2 with e | ⟨⟩
        · exact .inr ⟨_, rfl⟩
        · exact .inr ⟨_, rfl⟩
  rcases heq with heq | ⟨b, heq⟩
  · rw [heq]
    intro hborn
    rw [hsub.2.1, hsub.2.2.2]
    exact h (hsub.2.2.1 ▸ hborn)
  · obtain ⟨nb, said, hframes, hverb, hcurrent⟩ := births_current p.trySendSub.1 node device
    have hhanded : p.handed (.onConnected node device) = nb :: said := by
      apply handed_eq
      rw [Publisher.perform, heq, ← hsub.2.2.2]
      exact hframes
    have htaken : nb.Accepted :=
      hcond nb (hhanded ▸ List.mem_cons_self) (.inl hverb)
    rw [heq]
    exact fun _ => hcurrent htaken

theorem Current.handleIncoming (h : Current p) (topic : String) (payload : Option Payload)
    (node device : Readings) (hcond : NodeTaken p (.handleIncoming topic payload node device)) :
    Current (p.handleIncoming topic payload node device).1 := by
  by_cases htopic : topic = p.ids.ncmd
  · by_cases hrebirth : isRebirthCommand payload = true
    · obtain ⟨nb, said, hframes, hverb, hcurrent⟩ :=
        births_current { p with session := p.session.onRebirth } node device
      have heq : p.handleIncoming topic payload node device =
          (({ p with session := p.session.onRebirth } : Publisher).publishNbirth node).andThen
            fun p => p.publishDbirth device := by
        unfold Publisher.handleIncoming
        rw [if_neg (not_not.mpr htopic), if_pos hrebirth]
      have hhanded : p.handed (.handleIncoming topic payload node device) = nb :: said := by
        apply handed_eq
        rw [Publisher.perform, heq]
        exact hframes
      rw [heq]
      exact fun _ => hcurrent (hcond nb (hhanded ▸ List.mem_cons_self) (.inl hverb))
    · unfold Publisher.handleIncoming
      rw [if_neg (not_not.mpr htopic), if_neg hrebirth]
      exact h
  · unfold Publisher.handleIncoming
    rw [if_pos htopic]
    exact h

theorem Current.setCatalog (h : Current p) (catalog : TagCatalog) (death birth : Readings) :
    Current (p.setCatalog catalog death birth).1 := by
  have hretired : Current (if p.born && !p.session.catalog.isEmpty then p.publishDdeath death
      else (p, .ok ()) : Outcome).1 := by
    split_ifs
    · intro hborn
      exact (h ((Told.ddeath p death).born ▸ hborn)).ddeath death
    · exact h
  unfold Publisher.setCatalog
  dsimp only
  generalize (if p.born && !p.session.catalog.isEmpty then p.publishDdeath death
    else (p, .ok ()) : Outcome) = retired at hretired ⊢
  refine @andThen_cases _ _ (fun x => Current x.1) (fun _ _ => hretired) fun _ => ?_
  split_ifs with hborn
  · intro _
    have hset : CacheCurrent (retired.1.session.setCatalog catalog) retired.1.transport.frames :=
      (hretired hborn).session rfl rfl rfl
    exact hset.dbirth (p := { retired.1 with session := retired.1.session.setCatalog catalog }) birth
  · intro hborn'
    exact absurd hborn' hborn

/-- **A drain** leaves a host that took its NDATA with what was read. -/
theorem Current.drain (h : Current p) (hborn : p.born = true) (r : Readings)
    (samples : List TelemetrySample) (hcond : NodeTaken p (.drain r samples)) :
    Current (p.drain r samples).1 ∧ Knows (p.drain r samples).1.transport.frames r := by
  rcases hbuilt : p.session.ndata r.unixMs r.mode r.drops r.overruns (publishQuality .good r.synced)
    with ⟨s', built⟩
  have heq : p.drain r samples = (p.publishNdata r).andThen fun p => p.publishDdata r samples := by
    unfold Publisher.drain
    rw [if_pos hborn]
  -- Whatever the end of the drain says is of the device.
  obtain ⟨said, hframes, hsaid, hmode, hdrops, hoverruns⟩ : ∃ said,
      (p.drain r samples).1.transport.frames = (p.publishNdata r).1.transport.frames ++ said ∧
        (∀ f ∈ said, f.verb = .ddata) ∧
        (p.drain r samples).1.session.lastMode = (p.publishNdata r).1.session.lastMode ∧
        (p.drain r samples).1.session.lastDrops = (p.publishNdata r).1.session.lastDrops ∧
        (p.drain r samples).1.session.lastOverruns = (p.publishNdata r).1.session.lastOverruns := by
    rw [heq]
    unfold Outcome.andThen
    rcases (p.publishNdata r).2 with e | ⟨⟩
    · exact ⟨[], (List.append_nil _).symm, (fun _ hf => nomatch hf), rfl, rfl, rfl⟩
    · exact ddata_tells _ r samples
  have hsession : (p.publishNdata r).1.session = s' := by
    unfold Publisher.publishNdata
    rw [sendBuilt_session, hbuilt]
  obtain ⟨hlastMode, hlastDrops, hlastOverruns, -, hnone, hsome⟩ :=
    @knows_of_ndata p.transport.frames (p.nextFrame .ndata (built.getD ⟨none, [], none⟩)) p.session r
      (h hborn) _ s' built hbuilt
  have hknows : Knows (p.publishNdata r).1.transport.frames r := by
    rcases built with _ | payload
    · have hsame : (p.publishNdata r).1.transport.frames = p.transport.frames := by
        unfold Publisher.publishNdata
        rw [hbuilt]
        rfl
      rw [hsame]
      exact hnone rfl
    · have hone : (p.publishNdata r).1.transport.frames =
          p.transport.frames ++ [p.nextFrame .ndata payload] := by
        unfold Publisher.publishNdata
        rw [hbuilt]
        exact (send_fields _ _ _).2.2.2
      have hhanded : p.handed (.drain r samples) = p.nextFrame .ndata payload :: said := by
        apply handed_eq
        rw [Publisher.perform, hframes, hone, List.append_assoc]
        rfl
      rw [hone]
      exact hsome payload rfl rfl rfl (hcond _ (hhanded ▸ List.mem_cons_self) (.inr rfl))
  have hdevice : ∀ f ∈ said, f.verb ≠ .nbirth ∧ f.verb ≠ .ndata := by
    intro f hf
    simp [hsaid f hf]
  have hend : Knows (p.drain r samples).1.transport.frames r := by
    rw [hframes]
    refine ⟨?_, ?_, ?_⟩
    · rw [latest_append _ hdevice]
      exact hknows.mode
    · rw [latest_append _ hdevice]
      exact hknows.drops
    · rw [latest_append _ hdevice]
      exact hknows.overruns
  refine ⟨fun _ => .of_knows hend ?_ ?_ ?_, hend⟩
  · rw [hmode, hsession, hlastMode]
  · rw [hdrops, hsession, hlastDrops]
  · rw [hoverruns, hsession, hlastOverruns]

theorem Current.perform (h : Current p) (op : PublisherOp) (hcond : NodeTaken p op) :
    Current (p.perform op).1 := by
  cases op with
  | prepareConnect => exact fun hborn => nomatch hborn
  | replaceTransport answers => exact fun hborn => nomatch hborn
  | onConnected node device => exact h.onConnected node device hcond
  | setCatalog catalog death birth => exact h.setCatalog catalog death birth
  | drain r samples =>
      by_cases hborn : p.born = true
      · exact (h.drain hborn r samples hcond).1
      · unfold Publisher.perform Publisher.drain
        dsimp only
        rw [if_neg hborn]
        exact h
  | handleIncoming topic payload node device =>
      exact h.handleIncoming topic payload node device hcond

end Converging

/-! ## Convergence -/

theorem PublisherRun.current {p : Publisher} (h : PublisherRun NodeTaken p) : Current p := by
  induction h with
  | start ids answers => exact fun hborn => nomatch hborn
  | step h op hcond ih => exact ih.perform op hcond

/-- **Node metrics converge**: after a drain of a born publisher whose messages were all taken, on a run
in which every NBIRTH and NDATA was taken, the host knows what the drain read. -/
theorem node_metrics_converge {p : Publisher} (h : PublisherRun NodeTaken p) (hborn : p.born = true)
    (r : Readings) (samples : List TelemetrySample)
    (htaken : ∀ f ∈ p.handed (.drain r samples), f.Accepted) :
    Knows (p.perform (.drain r samples)).1.transport.frames r :=
  (h.current.drain hborn r samples fun f hf _ => htaken f hf).2

/-! ## A refused change -/

/-- A client whose queue is full when the first node data is published. -/
def fullAtChange (n : ℕ) : Except TelemetryError Unit :=
  if n = 3 then .error .backpressured else .ok ()

/-- **A refused change is never sent again**: the NDATA that tells RUN is refused, a later drain sends
nothing, and the host still knows STOP. -/
theorem mode_lost : ∃ p, PublisherRun (fun _ _ => True) p ∧ p.born = true ∧
    (∀ f ∈ p.handed (.drain (readingsAt 30 .run) []), f.Accepted) ∧
      ¬Knows (p.perform (.drain (readingsAt 30 .run) [])).1.transport.frames (readingsAt 30 .run) := by
  refine ⟨startUp fullAtChange, ?_, by decide +kernel, ?_, ?_⟩
  · exact (((PublisherRun.start plantIds fullAtChange).step _ trivial).step _ trivial).step _ trivial
  · have hnone : (startUp fullAtChange).handed (.drain (readingsAt 30 .run) []) = [] := by
      have hlen : ((startUp fullAtChange).handed (.drain (readingsAt 30 .run) [])).length = 0 := by
        decide +kernel
      exact List.length_eq_zero_iff.mp hlen
    rw [hnone]
    exact fun _ hf => nomatch hf
  · intro hknows
    have hmode : latest metricMode ((startUp fullAtChange).perform
        (.drain (readingsAt 30 .run) [])).1.transport.frames = some (.string "STOP") := by
      decide +kernel
    exact absurd (hmode.symm.trans hknows.mode) (by decide +kernel)

/-- When everything is taken, the host knows of the change. -/
theorem node_metrics_converge_taken : ∃ p, PublisherRun NodeTaken p ∧
    Knows (p.perform (.drain (readingsAt 30 .fault) [])).1.transport.frames (readingsAt 30 .fault) := by
  let p₀ : Publisher := .new plantIds (.connect fun _ => .ok ())
  let p₁ := (p₀.perform (.setCatalog oneTag (readingsAt 0 .stop) (readingsAt 0 .stop))).1
  let p₂ := (p₁.perform (.onConnected (readingsAt 10 .stop) (readingsAt 10 .stop))).1
  let p₃ := (p₂.perform (.drain (readingsAt 20 .run) [runFwdOn])).1
  have hset : (p₀.handed (.setCatalog oneTag (readingsAt 0 .stop) (readingsAt 0 .stop))).all
      Frame.taken = true := by decide +kernel
  have hconnected : (p₁.handed (.onConnected (readingsAt 10 .stop) (readingsAt 10 .stop))).all
      Frame.taken = true := by decide +kernel
  have hdrained : (p₂.handed (.drain (readingsAt 20 .run) [runFwdOn])).all Frame.taken = true := by
    decide +kernel
  have hagain : (p₃.handed (.drain (readingsAt 30 .fault) [])).all Frame.taken = true := by
    decide +kernel
  have hrun : PublisherRun NodeTaken p₃ := by
    refine (((PublisherRun.start plantIds fun _ => .ok ()).step _ ?_).step _ ?_).step _ ?_
    · intro f hf _
      exact Frame.taken_iff.mp (List.all_eq_true.mp hset f hf)
    · intro f hf _
      exact Frame.taken_iff.mp (List.all_eq_true.mp hconnected f hf)
    · intro f hf _
      exact Frame.taken_iff.mp (List.all_eq_true.mp hdrained f hf)
  refine ⟨p₃, hrun, node_metrics_converge hrun (by decide +kernel) _ _ ?_⟩
  intro f hf
  exact Frame.taken_iff.mp (List.all_eq_true.mp hagain f hf)

end SoftPlc.Telemetry
