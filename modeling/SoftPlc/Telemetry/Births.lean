import SoftPlc.Telemetry.Publisher

/-!
# Births before data

A host can read data only after a birth: node data after an NBIRTH, and a metric of device data after
a DBIRTH that announced its alias. `births_before_data` says that this holds on every connection of
every run in which the births of `on_connected` and of `set_catalog` were accepted. When one of them
is refused, the publisher counts as born all the same (`data_before_birth`).
-/

namespace SoftPlc.Telemetry

open SoftPlc.Io SoftPlc.Scan SoftPlc.Lib

/-! ## The law -/

namespace Frame

/-- The transport took the message. -/
def Accepted (f : Frame) : Prop := f.answer = .ok ()

/-- Whether the transport took the message. -/
def taken (f : Frame) : Bool :=
  match f.answer with
  | .ok () => true
  | .error _ => false

theorem taken_iff {f : Frame} : f.taken = true ↔ f.Accepted := by
  unfold taken Accepted
  rcases f.answer with e | ⟨⟩
  · simp
  · simp

/-- An accepted DBIRTH with a metric of this alias. -/
def Announces (a : BitVec 64) (f : Frame) : Prop :=
  f.verb = .dbirth ∧ f.Accepted ∧ ∃ m ∈ f.payload.metrics, m.aliasId = some a

/-- An accepted DDEATH. -/
def Retires (f : Frame) : Prop := f.verb = .ddeath ∧ f.Accepted

end Frame

/-- There was an accepted NBIRTH. -/
def NodeBorn (frames : List Frame) : Prop := ∃ f ∈ frames, f.verb = .nbirth ∧ f.Accepted

/-- An alias was announced after the last accepted DDEATH. -/
def Announced (a : BitVec 64) (frames : List Frame) : Prop :=
  Since (Frame.Announces a) (fun f => ¬f.Retires) frames

/-- What data may follow which messages of the same connection. -/
structure Frame.AfterBirth (f : Frame) (before : List Frame) : Prop where
  node : f.Accepted → f.verb = .ndata ∨ f.verb = .ddata → NodeBorn before
  device : f.Accepted → f.verb = .ddata → ∀ m ∈ f.payload.metrics,
    ∃ a, m.aliasId = some a ∧ Announced a before

/-- All data of a connection comes after its births. -/
def BirthsFirst (frames : List Frame) : Prop := EachAt id (fun before f => f.AfterBirth before) frames

/-! ## Runs -/

/-- What an operation handed to its connection. -/
def Publisher.handed (p : Publisher) (op : PublisherOp) : List Frame :=
  (p.perform op).1.transport.frames.drop p.transport.frames.length

/-- The births of `on_connected` and of `set_catalog` are accepted. -/
def BirthsTaken (p : Publisher) : PublisherOp → Prop
  | .onConnected node device => ∀ f ∈ p.handed (.onConnected node device),
      f.verb = .nbirth ∨ f.verb = .dbirth → f.Accepted
  | .setCatalog catalog death birth => ∀ f ∈ p.handed (.setCatalog catalog death birth),
      f.verb = .dbirth → f.Accepted
  | _ => True

/-- Runs of a publisher whose operations all meet a condition. -/
inductive PublisherRun (cond : Publisher → PublisherOp → Prop) : Publisher → Prop
  | start (ids : TopicIds) (answers : ℕ → Except TelemetryError Unit) :
      PublisherRun cond (.new ids (.connect answers))
  | step {p : Publisher} (h : PublisherRun cond p) (op : PublisherOp) (hcond : cond p op) :
      PublisherRun cond (p.perform op).1

/-! ## The invariant -/

section Law

variable {frames : List Frame} {f : Frame} {a : BitVec 64}

theorem nodeBorn_snoc (h : NodeBorn frames) : NodeBorn (frames ++ [f]) := by
  obtain ⟨b, hb, hbirth⟩ := h
  exact ⟨b, List.mem_append_left _ hb, hbirth⟩

theorem announced_snoc (h : Announced a frames) (hf : f.verb ≠ .ddeath) :
    Announced a (frames ++ [f]) :=
  since_snoc.mpr (.inr ⟨fun hretires => hf hretires.1, h⟩)

/-- Births and deaths keep the law. -/
theorem birthsFirst_snoc (h : BirthsFirst frames) (hnode : f.verb ≠ .ndata) (hdevice : f.verb ≠ .ddata) :
    BirthsFirst (frames ++ [f]) := by
  refine h.snoc ?_
  rintro _ rfl
  refine ⟨?_, ?_⟩
  · rintro - (hverb | hverb)
    · exact absurd hverb hnode
    · exact absurd hverb hdevice
  · intro _ hverb
    exact absurd hverb hdevice

end Law

/-- A publisher that is born has announced itself and its catalog. -/
structure Ready (p : Publisher) : Prop where
  law : BirthsFirst p.transport.frames
  node : p.born = true → NodeBorn p.transport.frames
  device : p.born = true → ∀ e ∈ p.session.catalog.entries,
    Announced (e.aliasId.setWidth 64) p.transport.frames

section Ready

variable {p p' : Publisher} {said : List Frame}

theorem nodeBorn_append {frames later : List Frame} (h : NodeBorn frames) : NodeBorn (frames ++ later) := by
  obtain ⟨b, hb, hbirth⟩ := h
  exact ⟨b, List.mem_append_left _ hb, hbirth⟩

theorem announced_append {frames later : List Frame} {a : BitVec 64} (h : Announced a frames)
    (hlater : ∀ f ∈ later, ¬f.Retires) : Announced a (frames ++ later) :=
  since_append.mpr (.inr ⟨hlater, h⟩)

/-- An accepted birth among births announces. -/
theorem announced_of_mem {frames later : List Frame} {a : BitVec 64} {f : Frame} (hf : f ∈ later)
    (hannounces : f.Announces a) (hlater : ∀ f ∈ later, ¬f.Retires) : Announced a (frames ++ later) := by
  refine since_append.mpr (.inl ?_)
  obtain ⟨pre, post, rfl⟩ := List.append_of_mem hf
  refine ⟨pre, f, post, rfl, hannounces, ?_⟩
  intro g hg
  exact hlater g (List.mem_append_right _ (List.mem_cons_of_mem _ hg))

theorem birthsFirst_append {frames later : List Frame} (h : BirthsFirst frames)
    (hlater : ∀ f ∈ later, f.verb ≠ .ndata ∧ f.verb ≠ .ddata) : BirthsFirst (frames ++ later) := by
  induction later generalizing frames with
  | nil => rwa [List.append_nil]
  | cons f later ih =>
      obtain ⟨⟨hnode, hdevice⟩, hlater⟩ := List.forall_mem_cons.mp hlater
      rw [List.append_cons]
      exact ih (birthsFirst_snoc h hnode hdevice) hlater

/-- Messages that are no data and no accepted death. -/
theorem Ready.told (h : Ready p) (htold : Told p p' said)
    (hsaid : ∀ f ∈ said, f.verb ≠ .ndata ∧ f.verb ≠ .ddata ∧ ¬f.Retires) : Ready p' := by
  refine ⟨?_, ?_, ?_⟩
  · rw [htold.frames]
    exact birthsFirst_append h.law fun f hf => ⟨(hsaid f hf).1, (hsaid f hf).2.1⟩
  · intro hborn
    rw [htold.frames]
    exact nodeBorn_append (h.node (htold.born ▸ hborn))
  · intro hborn e he
    rw [htold.frames]
    exact announced_append (h.device (htold.born ▸ hborn) e (htold.catalog ▸ he))
      fun f hf => (hsaid f hf).2.2

/-- A birth is no data and no death. -/
theorem quiet_of_birth {f : Frame} (h : f.verb = .nbirth ∨ f.verb = .dbirth) :
    f.verb ≠ .ndata ∧ f.verb ≠ .ddata ∧ ¬f.Retires := by
  rcases h with h | h
  · exact ⟨by simp [h], by simp [h], fun hretires => by simp [hretires.1] at h⟩
  · exact ⟨by simp [h], by simp [h], fun hretires => by simp [hretires.1] at h⟩

theorem Ready.nbirth (h : Ready p) (r : Readings) : Ready (p.publishNbirth r).1 := by
  refine h.told (.nbirth p r) ?_
  intro f hf
  obtain rfl := List.mem_singleton.mp hf
  exact quiet_of_birth (.inl rfl)

theorem Ready.dbirth (h : Ready p) (r : Readings) : Ready (p.publishDbirth r).1 := by
  obtain ⟨said, htold, hverb, -⟩ := Told.dbirth p r
  exact h.told htold fun f hf => quiet_of_birth (.inr (hverb f hf))

theorem Ready.session {s : SessionState} (h : Ready p) (hs : s.catalog = p.session.catalog) :
    Ready { p with session := s } :=
  h.told ((Told.refl p).session hs) (fun _ hf => nomatch hf)

/-- A connection that starts, or a client that is replaced. -/
theorem Ready.unborn (h : BirthsFirst p.transport.frames) (hborn : p.born = false) : Ready p :=
  ⟨h, fun hb => absurd (hb.symm.trans hborn) (by decide),
    fun hb => absurd (hb.symm.trans hborn) (by decide)⟩

theorem handed_eq {op : PublisherOp} (htold : (p.perform op).1.transport.frames =
    p.transport.frames ++ said) : p.handed op = said := by
  unfold Publisher.handed
  rw [htold, List.drop_left]

/-- What `on_connected` says: births, all of them if it comes to its end. -/
theorem onConnected_cases (p : Publisher) (node device : Readings) : ∃ q said, Told p q said ∧
    (∀ f ∈ said, f.verb = .nbirth ∨ f.verb = .dbirth) ∧
      ((p.onConnected node device).1 = q ∨
        ((p.onConnected node device).1 = { q with born := true } ∧ (∃ f ∈ said, f.verb = .nbirth) ∧
          ∀ e ∈ p.session.catalog.entries, ∃ f ∈ said, f.verb = .dbirth ∧
            ∃ m ∈ f.payload.metrics, m.aliasId = some (e.aliasId.setWidth 64))) := by
  have hsub := Told.subscribe p
  obtain ⟨nb, hnb, hnode⟩ : ∃ nb : Frame, nb.verb = .nbirth ∧
      Told p.trySendSub.1 (p.trySendSub.1.publishNbirth node).1 [nb] := ⟨_, rfl, .nbirth _ node⟩
  obtain ⟨said, hdevice, hverb, hannounces⟩ := Told.dbirth (p.trySendSub.1.publishNbirth node).1 device
  have hsubnode := hsub.trans hnode
  have hall := hsubnode.trans hdevice
  rw [List.nil_append] at hsubnode hall
  have hbirths : ∀ f ∈ [nb] ++ said, f.verb = .nbirth ∨ f.verb = .dbirth := by
    intro f hf
    rcases List.mem_append.mp hf with hf | hf
    · obtain rfl := List.mem_singleton.mp hf
      exact .inl hnb
    · exact .inr (hverb f hf)
  unfold Publisher.onConnected Outcome.andThen
  rcases hok₁ : p.trySendSub.2 with e | ⟨⟩
  · exact ⟨_, _, hsub, (fun _ hf => nomatch hf), .inl rfl⟩
  dsimp only
  rcases hok₂ : (p.trySendSub.1.publishNbirth node).2 with e | ⟨⟩
  · exact ⟨_, _, hsubnode, fun f hf => hbirths f (List.mem_append_left said hf), .inl rfl⟩
  dsimp only
  rcases hok₃ : ((p.trySendSub.1.publishNbirth node).1.publishDbirth device).2 with e | ⟨⟩
  · exact ⟨_, _, hall, hbirths, .inl rfl⟩
  refine ⟨_, _, hall, hbirths, .inr ⟨rfl, ⟨nb, by simp, hnb⟩, ?_⟩⟩
  intro e he
  obtain ⟨f, hf, m, hm, halias, -⟩ := hannounces e (hsubnode.catalog ▸ he)
  exact ⟨f, List.mem_append_right _ hf, hverb f hf, m, hm, halias⟩

/-- **CONNACK**: the births that were taken announce the publisher. -/
theorem Ready.onConnected (h : Ready p) (node device : Readings)
    (hcond : BirthsTaken p (.onConnected node device)) : Ready (p.onConnected node device).1 := by
  obtain ⟨q, said, htold, hbirths, hcase⟩ := onConnected_cases p node device
  have hquiet : ∀ f ∈ said, f.verb ≠ .ndata ∧ f.verb ≠ .ddata ∧ ¬f.Retires :=
    fun f hf => quiet_of_birth (hbirths f hf)
  have hready := h.told htold hquiet
  rcases hcase with heq | ⟨heq, ⟨nb, hnb, hverb⟩, hannounces⟩
  · rw [heq]
    exact hready
  · have hhanded : p.handed (.onConnected node device) = said := by
      apply handed_eq
      rw [Publisher.perform, heq]
      exact htold.frames
    have htaken : ∀ f ∈ said, f.verb = .nbirth ∨ f.verb = .dbirth → f.Accepted := hhanded ▸ hcond
    rw [heq]
    refine ⟨hready.law, ?_, ?_⟩
    · intro _
      show NodeBorn q.transport.frames
      rw [htold.frames]
      exact ⟨nb, List.mem_append_right _ hnb, hverb, htaken nb hnb (.inl hverb)⟩
    · intro _ e he
      show Announced _ q.transport.frames
      rw [htold.frames]
      obtain ⟨f, hf, hfverb, m, hm, halias⟩ := hannounces e (htold.catalog ▸ he)
      exact announced_of_mem hf ⟨hfverb, htaken f hf (.inr hfverb), m, hm, halias⟩
        fun g hg => (hquiet g hg).2.2

/-- A call that fails was not a message that was taken. -/
theorem send_error {verb : Verb} {payload : Payload} {e : TelemetryError}
    (h : (p.send verb payload).2 = .error e) : ¬(p.nextFrame verb payload).Accepted := by
  intro haccepted
  unfold Publisher.send Transport.publish at h
  dsimp only at h
  rw [show p.transport.answers p.transport.calls = .ok () from haccepted] at h
  cases h

/-- The retirement of a catalog: at most a death, which was not taken if the call fails. -/
theorem retired_cases (p : Publisher) (death : Readings) : ∃ q result said,
    (if p.born && !p.session.catalog.isEmpty then p.publishDdeath death else (p, .ok ())) =
      ((q, result) : Outcome) ∧ Told p q said ∧ (∀ f ∈ said, f.verb = .ddeath) ∧
        ∀ e, result = .error e → ∀ f ∈ said, ¬f.Accepted := by
  split_ifs
  · refine ⟨(p.publishDdeath death).1, (p.publishDdeath death).2, _, rfl, .ddeath p death, ?_, ?_⟩
    · intro f hf
      obtain rfl := List.mem_singleton.mp hf
      rfl
    · intro e he f hf
      obtain rfl := List.mem_singleton.mp hf
      exact @send_error { p with session := (p.session.ddeath death.unixMs).1 } _ _ e he
  · exact ⟨p, .ok (), [], rfl, .refl p, (fun _ hf => nomatch hf), fun _ _ _ hf => nomatch hf⟩

/-- **A new catalog**: its tags are announced by the birth that was taken. -/
theorem Ready.setCatalog (h : Ready p) (catalog : TagCatalog) (death birth : Readings)
    (hcond : BirthsTaken p (.setCatalog catalog death birth)) :
    Ready (p.setCatalog catalog death birth).1 := by
  obtain ⟨q, result, said, hretired, htold, hdeath, hfailed⟩ := retired_cases p death
  have heq : p.setCatalog catalog death birth = Outcome.andThen (q, result) fun q =>
      if q.born then
        ({ q with session := q.session.setCatalog catalog } : Publisher).publishDbirth birth
      else ({ q with session := q.session.setCatalog catalog }, .ok ()) := by
    unfold Publisher.setCatalog
    rw [hretired]
  have hnodata : ∀ f ∈ said, f.verb ≠ .ndata ∧ f.verb ≠ .ddata := by
    intro f hf
    simp [hdeath f hf]
  have hlaw : BirthsFirst q.transport.frames := htold.frames ▸ birthsFirst_append h.law hnodata
  rcases result with e | ⟨⟩
  · rw [heq]
    refine h.told htold fun f hf => ⟨(hnodata f hf).1, (hnodata f hf).2, ?_⟩
    intro hretires
    exact hfailed e rfl f hf hretires.2
  by_cases hborn : q.born = true
  · -- While born, the new catalog is announced at once.
    obtain ⟨births, hbirth, hverb, hannounces⟩ :=
      Told.dbirth ({ q with session := q.session.setCatalog catalog } : Publisher) birth
    have heq' : p.setCatalog catalog death birth =
        ({ q with session := q.session.setCatalog catalog } : Publisher).publishDbirth birth :=
      heq.trans (if_pos hborn)
    have hframes : (p.setCatalog catalog death birth).1.transport.frames =
        p.transport.frames ++ said ++ births := by
      rw [heq', hbirth.frames, ← htold.frames]
    have hhanded : p.handed (.setCatalog catalog death birth) = said ++ births :=
      handed_eq (hframes.trans (List.append_assoc _ _ _))
    have htaken : ∀ f ∈ said ++ births, f.verb = .dbirth → f.Accepted := hhanded ▸ hcond
    refine ⟨?_, ?_, ?_⟩
    · rw [hframes, ← htold.frames]
      exact birthsFirst_append hlaw fun f hf =>
        ⟨(quiet_of_birth (.inr (hverb f hf))).1, (quiet_of_birth (.inr (hverb f hf))).2.1⟩
    · intro _
      rw [hframes]
      exact nodeBorn_append (nodeBorn_append (h.node (htold.born ▸ hborn)))
    · intro _ e he
      rw [heq', hbirth.catalog] at he
      obtain ⟨f, hf, m, hm, halias, -⟩ := hannounces e he
      rw [hframes]
      exact announced_of_mem hf
        ⟨hverb f hf, htaken f (List.mem_append_right _ hf) (hverb f hf), m, hm, halias⟩
        fun g hg => (quiet_of_birth (.inr (hverb g hg))).2.2
  · rw [heq.trans (if_neg hborn)]
    exact .unborn hlaw (by simpa using hborn)

/-- Data that follows its births. -/
theorem Ready.data (h : Ready p) (htold : Told p p' said) (hlen : said.length ≤ 1)
    (hdata : ∀ f ∈ said, f.AfterBirth p.transport.frames ∧ f.verb ≠ .ddeath) : Ready p' := by
  have hquiet : ∀ f ∈ said, ¬f.Retires := fun f hf hretires => (hdata f hf).2 hretires.1
  refine ⟨?_, ?_, ?_⟩
  · rw [htold.frames]
    match said, hlen with
    | [], _ =>
        rw [List.append_nil]
        exact h.law
    | [f], _ =>
        refine h.law.snoc ?_
        rintro _ rfl
        exact (hdata _ (List.mem_singleton_self _)).1
  · intro hborn
    rw [htold.frames]
    exact nodeBorn_append (h.node (htold.born ▸ hborn))
  · intro hborn e he
    rw [htold.frames]
    exact announced_append (h.device (htold.born ▸ hborn) e (htold.catalog ▸ he)) hquiet

/-- **Data of a born publisher** comes after its births. -/
theorem Ready.drain (h : Ready p) (r : Readings) (samples : List TelemetrySample) :
    Ready (p.drain r samples).1 := by
  unfold Publisher.drain
  split_ifs with hborn
  · obtain ⟨said, hnode, hlen, hverb⟩ := Told.ndata p r
    have hready : Ready (p.publishNdata r).1 := by
      refine h.data hnode hlen fun f hf => ⟨⟨fun _ _ => h.node hborn, ?_⟩, by simp [hverb f hf]⟩
      intro _ hdata
      rw [hverb f hf] at hdata
      cases hdata
    refine @andThen_cases _ _ (fun x => Ready x.1) (fun _ _ => hready) fun _ => ?_
    have hborn' : (p.publishNdata r).1.born = true := hnode.born.trans hborn
    obtain ⟨device, hdevice, hlen', hsamples⟩ := Told.ddata (p.publishNdata r).1 r samples
    refine hready.data hdevice hlen' fun f hf => ⟨⟨fun _ _ => hready.node hborn', ?_⟩, ?_⟩
    · intro _ _ m hm
      obtain ⟨sample, -, e, hget, rfl⟩ := (hsamples f hf).2 m hm
      exact ⟨_, rfl, hready.device hborn' e (TagCatalog.get_mem hget)⟩
    · simp [(hsamples f hf).1]
  · exact h

/-- **Every operation whose births are taken** keeps births first. -/
theorem Ready.perform (h : Ready p) (op : PublisherOp) (hcond : BirthsTaken p op) :
    Ready (p.perform op).1 := by
  cases op with
  | prepareConnect => exact .unborn h.law rfl
  | replaceTransport answers => exact .unborn .nil rfl
  | onConnected node device => exact h.onConnected node device hcond
  | setCatalog catalog death birth => exact h.setCatalog catalog death birth hcond
  | drain r samples => exact h.drain r samples
  | handleIncoming topic payload node device =>
      unfold Publisher.perform Publisher.handleIncoming
      dsimp only
      split_ifs
      · exact h
      · have hreborn : Ready { p with session := p.session.onRebirth } := h.session rfl
        refine @andThen_cases _ _ (fun x => Ready x.1) (fun _ _ => hreborn.nbirth node) fun _ => ?_
        exact (hreborn.nbirth node).dbirth device
      · exact h

end Ready

/-! ## Births first -/

/-- **No data before birth**, on any connection of any run in which the births of `on_connected` and
`set_catalog` are taken. -/
theorem births_before_data {p : Publisher} (h : PublisherRun BirthsTaken p) :
    BirthsFirst p.transport.frames := by
  have hready : Ready p := by
    induction h with
    | start ids answers => exact .unborn .nil rfl
    | step h op hcond ih => exact ih.perform op hcond
  exact hready.law

/-! ## A refused birth -/

/-- A device with one BOOL output. -/
def oneTag : TagCatalog := ⟨[⟨1, ⟨"RunFwd", .bool, false, 0, ""⟩⟩]⟩

/-- Identity of the device. -/
def plantIds : TopicIds := ⟨"plantA", "softplc-01", "line"⟩

/-- A clock that is synchronised, and a mode. -/
def readingsAt (ms : BitVec 64) (mode : OperatingMode) : Readings := ⟨ms, true, mode, 0, 0⟩

/-- The output is TRUE. -/
def runFwdOn : TelemetrySample := ⟨0, 0, .bool true, .good, false, 0, false⟩

/-- A client whose queue is full when the births are published, and free again later. -/
def fullAtBirth (n : ℕ) : Except TelemetryError Unit :=
  if n = 1 ∨ n = 2 then .error .backpressured else .ok ()

/-- Arm the device, connect, and drain while the output is on. -/
def startUp (answers : ℕ → Except TelemetryError Unit) : Publisher :=
  let p : Publisher := .new plantIds (.connect answers)
  let p := (p.perform (.setCatalog oneTag (readingsAt 0 .stop) (readingsAt 0 .stop))).1
  let p := (p.perform (.onConnected (readingsAt 10 .stop) (readingsAt 10 .stop))).1
  (p.perform (.drain (readingsAt 20 .run) [runFwdOn])).1

/-- **A refused birth does not hold back data**: both births are refused, the publisher counts as born,
and node and device data follow. -/
theorem data_before_birth :
    ∃ p, PublisherRun (fun _ _ => True) p ∧ p.born = true ∧ ¬BirthsFirst p.transport.frames := by
  refine ⟨startUp fullAtBirth, ?_, by decide +kernel, ?_⟩
  · exact (((PublisherRun.start plantIds fullAtBirth).step _ trivial).step _ trivial).step _ trivial
  · intro hlaw
    have hkinds : (startUp fullAtBirth).transport.frames.map (fun f => (f.verb, f.taken)) =
        [(.nbirth, false), (.dbirth, false), (.ndata, true), (.ddata, true)] := by decide +kernel
    obtain ⟨nb, l₁, hframes, hnb, h⟩ := List.map_eq_cons_iff.mp hkinds
    obtain ⟨db, l₂, rfl, hdb, h⟩ := List.map_eq_cons_iff.mp h
    obtain ⟨nd, l₃, rfl, hnd, h⟩ := List.map_eq_cons_iff.mp h
    obtain ⟨b, hb, -, htaken⟩ := (hlaw [nb, db] nd l₃ hframes).node
      (Frame.taken_iff.mp (congrArg Prod.snd hnd)) (.inl (congrArg Prod.fst hnd))
    have hnone := Frame.taken_iff.mpr htaken
    rcases List.mem_cons.mp hb with rfl | hb
    · exact absurd (hnone.symm.trans (congrArg Prod.snd hnb)) (by decide)
    · obtain rfl := List.mem_singleton.mp hb
      exact absurd (hnone.symm.trans (congrArg Prod.snd hdb)) (by decide)

/-- When both births are taken, the data comes after them. -/
theorem births_before_data_taken : ∃ p, PublisherRun BirthsTaken p ∧ p.transport.frames.length = 4 ∧
    BirthsFirst p.transport.frames := by
  have hcount : (startUp fun _ => .ok ()).transport.frames.length = 4 := by decide +kernel
  let p₁ := ((Publisher.new plantIds (.connect fun _ => .ok ())).perform
    (.setCatalog oneTag (readingsAt 0 .stop) (readingsAt 0 .stop))).1
  have hset : (((Publisher.new plantIds (.connect fun _ => .ok ())).handed
      (.setCatalog oneTag (readingsAt 0 .stop) (readingsAt 0 .stop))).all Frame.taken) = true := by
    decide +kernel
  have hconnected : ((p₁.handed (.onConnected (readingsAt 10 .stop) (readingsAt 10 .stop))).all
      Frame.taken) = true := by
    decide +kernel
  have hrun : PublisherRun BirthsTaken (startUp fun _ => .ok ()) := by
    refine (((PublisherRun.start plantIds fun _ => .ok ()).step _ ?_).step _ ?_).step _ trivial
    · intro f hf _
      exact Frame.taken_iff.mp (List.all_eq_true.mp hset f hf)
    · intro f hf _
      exact Frame.taken_iff.mp (List.all_eq_true.mp hconnected f hf)
  exact ⟨_, hrun, hcount, births_before_data hrun⟩

end SoftPlc.Telemetry
