import SoftPlc.Io.ModbusBatches
import SoftPlc.Io.ModbusFrames

/-!
# The worker and its connection

A poll of a module connects if it has to, reads the groups and writes the outputs
(`plc-io-modbus/src/driver.rs`, `ModRt::poll`). The connection is taken out of the module for a request
and put back when the request has succeeded, so that an error drops it. `responses_checked`: no request
and no poll panics, what a request returns comes from a frame that answers it, and nothing is read from
a connection after an error on it.
-/

namespace SoftPlc.Io.Modbus

open SoftPlc.Lib
open SoftPlc.Scan (OperatingMode)

/-! ## Requests of a poll -/

/-- Source: `address.rs`, `read_fc`. -/
def readFc : RegisterType → Byte
  | .coil => 1
  | .discrete => 2
  | .holding => 3
  | .input => 4

namespace Session

/-- The request for a group. Source: `driver.rs`, the `let read` of `ModRt::read_inputs`. -/
def readGroup (unit : Byte) (table : RegisterType) (g : Group) : SessionM Payload :=
  if isBitTable table then
    Payload.bits <$> readBits unit (readFc table) (BitVec.ofNat 16 g.start) (BitVec.ofNat 16 g.qty)
  else Payload.regs <$> readRegs unit (readFc table) (BitVec.ofNat 16 g.start) (BitVec.ofNat 16 g.qty)

/-- Source: `driver.rs`, the first `for` of `write_with`. -/
def writeCoilGroup (unit : Byte) (ctx : WriteCtx) (g : Group) : SessionM Unit :=
  match g.members.map fun p => coilOn (selected ctx p) p with
  | [on] => writeCoil unit (BitVec.ofNat 16 g.start) on
  | bits => writeCoils unit (BitVec.ofNat 16 g.start) bits

/-- Source: `driver.rs`, the second `for` of `write_with`. -/
def writeRegGroup (unit : Byte) (ctx : WriteCtx) (g : Group) : SessionM Unit :=
  match groupRegs ctx g with
  | [reg] => writeReg unit (BitVec.ofNat 16 g.start) reg
  | [] => pure ()
  | regs => writeRegs unit (BitVec.ofNat 16 g.start) regs

/-- A shift of 16 bits or more is a panic. Source: `driver.rs`, `1 << bit` in `write_with`. -/
def bitMask (bit : ℕ) : SessionM (BitVec 16) :=
  if bit < 16 then pure (1#16 <<< bit) else throw .panic

/-- Source: `driver.rs`, the third `for` of `write_with`. -/
def writeBit (unit : Byte) (ctx : WriteCtx) (p : PlannedPoint) : SessionM Unit := do
  let regs ← readRegs unit 3 (BitVec.ofNat 16 p.pdu) 1
  let reg := regs.headD 0
  let mask ← bitMask (p.bit.getD 0)
  writeReg unit (BitVec.ofNat 16 p.pdu)
    (if coilOn (selected ctx p) p then reg ||| mask else reg &&& ~~~mask)

/-- Source: `driver.rs`, `write_with`. -/
def writeWith (unit : Byte) (ctx : WriteCtx) (rt : ModRt) : SessionM Unit := do
  rt.coilGroups.forM (writeCoilGroup unit ctx)
  rt.regGroups.forM (writeRegGroup unit ctx)
  rt.bitOuts.forM (writeBit unit ctx)

end Session

/-! ## The worker -/

/-- A module of the worker with its connection. Source: `driver.rs`, `ModRt`. -/
structure Worker where
  unit : Byte
  rt : ModRt
  onBad : BadQualityPolicy
  quality : Quality
  stream : Option Conn
  tid : BitVec 16
  /-- How many connections have been opened. -/
  opened : ℕ
  log : List WireEvent

/-- What a poll meets. -/
structure PollEnv where
  /-- The last success is too long ago. -/
  stale : Bool
  /-- How a new connection behaves. -/
  connect : Except String (List Segment × List (Except String Unit))
  mode : OperatingMode
  mail : Mail

namespace Worker

/-- Source: `driver.rs`, the `ModRt` in `split_module`; the unit is in `1..=255`. -/
def start (plan : PlannedModule) : Worker where
  unit := BitVec.ofNat 8 plan.unit
  rt := splitModule plan
  onBad := plan.onBad
  quality := .bad
  stream := none
  tid := 1
  opened := 0
  log := []

/-- The connection, lent to a session. -/
def link (w : Worker) (conn : Conn) : Link := ⟨conn, w.tid, w.log⟩

/-- The connection comes back. -/
def giveBack (w : Worker) (s : Link) : Worker := { w with stream := some s.conn, tid := s.tid, log := s.log }

/-- The connection is dropped after an error. -/
def dropped (w : Worker) (s : Link) : Worker :=
  { w with stream := none, tid := s.tid, log := s.log ++ [.failed s.conn.id] }

/-- The inputs after a group. -/
def keep (w : Worker) (last : List PlcValue) : Worker :=
  { w with rt := { w.rt with lastInputs := last } }

/-- The groups one after the other. Source: `driver.rs`, `ModRt::read_inputs`. -/
def readInputs : List Group → Worker → Worker × Except Halt Unit
  | [], w => (w, .ok ())
  | g :: gs, w =>
      match g.members.head? with
      | none => (w, .error .panic)
      | some first =>
          match w.stream with
          | none => (w, .error (.fail (.other "no socket")))
          | some conn =>
              match Session.readGroup w.unit first.table g (w.link conn) with
              | .error e s => (w.dropped s, .error e)
              | .ok data s =>
                  match storeGroup g.start data g.members w.rt.lastInputs with
                  | (last, .error e) => ((w.keep last).dropped s, .error (.fail (.other e)))
                  | (last, .ok ()) => readInputs gs ((w.keep last).giveBack s)

/-- Source: `driver.rs`, `ModRt::write_outputs`. -/
def writeOutputs (mail : Mail) (w : Worker) : Worker × Except Halt Unit :=
  let bad := w.quality = .bad
  if !mail.armed then (w, .ok ())
  else if bad ∧ w.onBad = .holdLast then (w, .ok ())
  else
    match w.stream with
    | none => (w, .error (.fail (.other "no socket")))
    | some conn =>
        let force := mail.forceSafe || (bad ∧ w.onBad = .forceSafe)
        match Session.writeWith w.unit ⟨mail, force⟩ w.rt (w.link conn) with
        | .ok () s => (w.giveBack s, .ok ())
        | .error e s => (w.dropped s, .error e)

/-- Connect if there is no connection. Source: `driver.rs`, the first `if` on the stream in
`ModRt::poll`. -/
def connected (env : PollEnv) (w : Worker) : Option Worker :=
  match w.stream with
  | some _ => some w
  | none =>
      match env.connect with
      | .error _ => none
      | .ok (incoming, sends) =>
          some { w with stream := some ⟨w.opened, incoming, sends⟩, opened := w.opened + 1 }

/-- The quality of the module. Source: `driver.rs`, `ModRt::mark_good` and `ModRt::mark_bad`. -/
def mark (q : Quality) (w : Worker) : Worker := { w with quality := q }

/-- A poll, and whether the thread goes on. Source: `driver.rs`, `ModRt::poll`. -/
def poll (env : PollEnv) (w : Worker) : Worker × Bool :=
  let w := if env.stale then w.mark .bad else w
  match w.connected env with
  | none => (w.mark .bad, true)
  | some w =>
      match readInputs w.rt.readGroups w with
      | (w, .error .panic) => (w, false)
      | (w, .error (.fail _)) => ({ w with stream := none }.mark .bad, true)
      | (w, .ok ()) =>
          let w := w.mark .good
          if env.mode = .sim then (w, true)
          else
            match w.writeOutputs env.mail with
            | (w, .error .panic) => (w, false)
            | (w, .error (.fail _)) => ({ w with stream := none }.mark .bad, true)
            | (w, .ok ()) => (w, true)

/-- The states that the worker of a plan can reach. -/
inductive Reach (plan : PlannedModule) : Worker → Prop
  | start : Reach plan (.start plan)
  | poll {w : Worker} (h : Reach plan w) (env : PollEnv) : Reach plan (w.poll env).1

end Worker

/-! ## Requests do not panic -/

/-- An operation that does not panic and takes a piece of the stream. -/
def Safe {α : Type} (x : SessionM α) : Prop :=
  ∀ s, (∃ a t bytes, x s = .ok a t ∧ s.Took t bytes) ∨
    ∃ f t bytes, x s = .error (.fail f) t ∧ s.Took t bytes

section Safe

variable {α β : Type} {x : SessionM α}

theorem safe_pure (a : α) : Safe (pure a : SessionM α) :=
  fun s => .inl ⟨a, s, [], rfl, .refl s⟩

theorem Safe.bind {f : α → SessionM β} (hx : Safe x) (hf : ∀ a, Safe (f a)) : Safe (x >>= f) := by
  intro s
  rcases hx s with ⟨a, t, bytes, h, htook⟩ | ⟨e, t, bytes, h, htook⟩
  · rcases hf a t with ⟨b, u, bytes', h', htook'⟩ | ⟨e, u, bytes', h', htook'⟩
    · exact .inl ⟨b, u, _, (estate_bind_of_ok h).trans h', htook.trans htook'⟩
    · exact .inr ⟨e, u, _, (estate_bind_of_ok h).trans h', htook.trans htook'⟩
  · exact .inr ⟨e, t, _, estate_bind_of_error h, htook⟩

theorem Safe.map {f : α → β} (hx : Safe x) : Safe (f <$> x) := by
  intro s
  rcases hx s with ⟨a, t, bytes, h, htook⟩ | ⟨e, t, bytes, h, htook⟩
  · exact .inl ⟨f a, t, _, map_of_ok h, htook⟩
  · exact .inr ⟨e, t, _, map_of_error h, htook⟩

/-- An operation is safe if it is so under its result. -/
theorem Safe.of_map {f : α → β} (h : Safe (f <$> x)) : Safe x := by
  intro s
  rcases hx : x s with ⟨a, t⟩ | ⟨e, t⟩
  · rcases h s with ⟨b, u, bytes, h', htook⟩ | ⟨e, u, bytes, h', htook⟩
    · cases (map_of_ok hx).symm.trans h'
      exact .inl ⟨a, t, bytes, rfl, htook⟩
    · cases (map_of_ok hx).symm.trans h'
  · rcases h s with ⟨b, u, bytes, h', htook⟩ | ⟨e', u, bytes, h', htook⟩
    · cases (map_of_error hx).symm.trans h'
    · cases (map_of_error hx).symm.trans h'
      exact .inr ⟨e', t, bytes, rfl, htook⟩

theorem safe_forM {ι : Type} {f : ι → SessionM PUnit} {is : List ι} (h : ∀ i ∈ is, Safe (f i)) :
    Safe (is.forM f) := by
  induction is with
  | nil => exact safe_pure _
  | cons i is ih =>
      show Safe (f i >>= fun _ => is.forM f)
      exact (h i List.mem_cons_self).bind fun _ => ih fun j hj => h j (List.mem_cons_of_mem _ hj)

end Safe

theorem safe_run (unit : Byte) (r : Request) : Safe (r.run unit) := by
  intro s
  rcases request_checked unit r s with ⟨a, b, skipped, t, h, -, htook, -⟩ | ⟨f, skipped, last, t, h, -, htook, -⟩
  · exact .inl ⟨a, t, _, h, htook⟩
  · exact .inr ⟨f, t, _, h, htook⟩

namespace Session

variable {unit : Byte}

theorem safe_readGroup (table : RegisterType) (g : Group) : Safe (readGroup unit table g) := by
  unfold readGroup
  split_ifs
  · exact (safe_run unit (.readBits (readFc table) _ _)).of_map.map
  · exact (safe_run unit (.readRegs (readFc table) _ _)).of_map.map

theorem safe_writeCoilGroup (ctx : WriteCtx) (g : Group) : Safe (writeCoilGroup unit ctx g) := by
  unfold writeCoilGroup
  split
  · exact (safe_run unit (.writeCoil _ _)).of_map
  · exact (safe_run unit (.writeCoils _ _)).of_map

theorem safe_writeRegGroup (ctx : WriteCtx) (g : Group) : Safe (writeRegGroup unit ctx g) := by
  unfold writeRegGroup
  generalize groupRegs ctx g = regs
  rcases regs with _ | ⟨reg, _ | ⟨reg', regs⟩⟩
  · exact safe_pure ()
  · exact (safe_run unit (.writeReg _ _)).of_map
  · exact (safe_run unit (.writeRegs _ _)).of_map

theorem safe_writeBit (ctx : WriteCtx) {p : PlannedPoint} (hp : p.bit.getD 0 < 16) :
    Safe (writeBit unit ctx p) := by
  unfold writeBit bitMask
  rw [if_pos hp]
  apply Safe.bind (safe_run unit (.readRegs 3 _ _)).of_map
  intro regs
  exact (safe_pure _).bind fun mask => (safe_run unit (.writeReg _ _)).of_map

/-- Every bit of the worker is a bit of a register. -/
theorem safe_writeWith (ctx : WriteCtx) {rt : ModRt} (h : ∀ p ∈ rt.bitOuts, p.bit.getD 0 < 16) :
    Safe (writeWith unit ctx rt) := by
  unfold writeWith
  apply Safe.bind (safe_forM fun g _ => safe_writeCoilGroup ctx g)
  intro _
  apply Safe.bind (safe_forM fun g _ => safe_writeRegGroup ctx g)
  intro _
  exact safe_forM fun p hp => safe_writeBit ctx (h p hp)

end Session

/-! ## Connections after errors -/

/-- The connection of an event. -/
def WireEvent.conn : WireEvent → ℕ
  | .sent c _ | .received c _ | .failed c => c

/-- Nothing happens on a connection after an error on it. -/
def Quiet (log : List WireEvent) : Prop :=
  log.Pairwise fun e e' => ∀ c, e = .failed c → e'.conn ≠ c

/-- The log of a worker that has opened connections, one of which may be in use. -/
structure LogOk (opened : ℕ) (alive : Option ℕ) (log : List WireEvent) : Prop where
  alive : ∀ c ∈ alive, c < opened ∧ .failed c ∉ log
  known : ∀ e ∈ log, e.conn < opened
  quiet : Quiet log

namespace LogOk

variable {opened c : ℕ} {alive : Option ℕ} {log new : List WireEvent}

theorem drop (h : LogOk opened alive log) : LogOk opened none log :=
  ⟨(fun _ hc => by cases hc), h.known, h.quiet⟩

/-- A new connection has a number of its own. -/
theorem connect (h : LogOk opened alive log) : LogOk (opened + 1) (some opened) log := by
  refine ⟨?_, fun e he => (h.known e he).trans (Nat.lt_succ_self _), h.quiet⟩
  rintro _ ⟨⟩
  exact ⟨Nat.lt_succ_self _, fun hmem => absurd (h.known _ hmem) (lt_irrefl _)⟩

theorem extend (h : LogOk opened (some c) log) (hnew : ∀ e ∈ new, WireEvent.Of c e) :
    LogOk opened (some c) (log ++ new) := by
  obtain ⟨hlt, hfailed⟩ := h.alive c rfl
  have hconn : ∀ e ∈ new, e.conn = c ∧ ∀ d, e ≠ .failed d := by
    intro e he
    have hof := hnew e he
    cases e with
    | sent d bytes => exact ⟨hof, by simp⟩
    | received d bytes => exact ⟨hof, by simp⟩
    | failed d => exact hof.elim
  refine ⟨?_, ?_, List.pairwise_append.mpr ⟨h.quiet, ?_, ?_⟩⟩
  · rintro _ ⟨⟩
    refine ⟨hlt, fun hmem => ?_⟩
    rcases List.mem_append.mp hmem with hmem | hmem
    · exact hfailed hmem
    · exact (hconn _ hmem).2 c rfl
  · intro e he
    rcases List.mem_append.mp he with he | he
    · exact h.known e he
    · rw [(hconn e he).1]
      exact hlt
  · rw [List.pairwise_iff_forall_sublist]
    intro e e' hsub d hd
    exact absurd hd ((hconn e (hsub.subset List.mem_cons_self)).2 d)
  · rintro e he e' he' d rfl heq
    rw [(hconn e' he').1] at heq
    rw [heq] at hfailed
    exact hfailed he

theorem fail (h : LogOk opened (some c) log) : LogOk opened none (log ++ [.failed c]) := by
  obtain ⟨hlt, hfailed⟩ := h.alive c rfl
  refine ⟨(fun _ hc => by cases hc), ?_,
    List.pairwise_append.mpr ⟨h.quiet, List.pairwise_singleton _ _, ?_⟩⟩
  · intro e he
    rcases List.mem_append.mp he with he | he
    · exact h.known e he
    · rw [List.mem_singleton.mp he]
      exact hlt
  · intro e he e' he' d hd heq
    rw [List.mem_singleton.mp he'] at heq
    rw [hd, ← show c = d from heq] at he
    exact hfailed he

end LogOk

namespace Worker

/-- What the worker keeps: groups that are not empty, bits of registers, and a log without anything after
an error. -/
structure Ok (w : Worker) : Prop where
  groups : ∀ g ∈ w.rt.readGroups, g.members ≠ []
  bits : ∀ p ∈ w.rt.bitOuts, p.bit.getD 0 < 16
  log : LogOk w.opened (w.stream.map Conn.id) w.log

variable {w : Worker}

/-- The log after a request on the connection of the worker. -/
theorem Ok.took (h : w.Ok) {conn : Conn} (hstream : w.stream = some conn) {s : Link}
    {bytes : List Byte} (htook : (w.link conn).Took s bytes) :
    LogOk w.opened (some s.conn.id) s.log ∧ s.conn.id = conn.id := by
  obtain ⟨new, hlog, hof, -⟩ := htook.log
  have hok := h.log
  rw [hstream] at hok
  rw [hlog, htook.conn]
  exact ⟨hok.extend hof, rfl⟩

theorem Ok.giveBack (h : w.Ok) {conn : Conn} (hstream : w.stream = some conn) {s : Link}
    {bytes : List Byte} (htook : (w.link conn).Took s bytes) : (w.giveBack s).Ok :=
  ⟨h.groups, h.bits, (h.took hstream htook).1⟩

theorem Ok.dropped (h : w.Ok) {conn : Conn} (hstream : w.stream = some conn) {s : Link}
    {bytes : List Byte} (htook : (w.link conn).Took s bytes) : (w.dropped s).Ok :=
  ⟨h.groups, h.bits, (h.took hstream htook).1.fail⟩

theorem Ok.keep (h : w.Ok) (last : List PlcValue) : (w.keep last).Ok := ⟨h.groups, h.bits, h.log⟩

theorem Ok.readInputs (h : w.Ok) {gs : List Group} (hgs : ∀ g ∈ gs, g.members ≠ []) :
    (Worker.readInputs gs w).1.Ok ∧ (Worker.readInputs gs w).2 ≠ .error .panic := by
  induction gs generalizing w with
  | nil => exact ⟨h, by simp [Worker.readInputs]⟩
  | cons g gs ih =>
      obtain ⟨first, rest, hmembers⟩ := List.exists_cons_of_ne_nil (hgs g List.mem_cons_self)
      have hrest : ∀ g ∈ gs, g.members ≠ [] := fun g hg => hgs g (List.mem_cons_of_mem _ hg)
      unfold Worker.readInputs
      simp only [hmembers, List.head?_cons]
      cases hstream : w.stream with
      | none => exact ⟨h, by simp⟩
      | some conn =>
          rcases @Session.safe_readGroup w.unit first.table g (w.link conn) with
            ⟨data, s, bytes, hread, htook⟩ | ⟨f, s, bytes, hread, htook⟩
          · simp only [hread]
            split
            · rename_i last _ _
              exact ⟨Ok.dropped (h.keep last) hstream htook, by simp⟩
            · rename_i last _
              exact ih (Ok.giveBack (h.keep last) hstream htook) hrest
          · simp only [hread]
            exact ⟨h.dropped hstream htook, by simp⟩

theorem Ok.writeOutputs (h : w.Ok) (mail : Mail) :
    (w.writeOutputs mail).1.Ok ∧ (w.writeOutputs mail).2 ≠ .error .panic := by
  unfold Worker.writeOutputs
  dsimp only
  split
  · exact ⟨h, by simp⟩
  split
  · exact ⟨h, by simp⟩
  cases hstream : w.stream with
  | none => exact ⟨h, by simp⟩
  | some conn =>
      dsimp only
      rcases @Session.safe_writeWith w.unit
          ⟨mail, mail.forceSafe || decide (w.quality = .bad ∧ w.onBad = .forceSafe)⟩ w.rt h.bits
          (w.link conn) with ⟨_, s, bytes, hwrite, htook⟩ | ⟨f, s, bytes, hwrite, htook⟩
      · simp only [hwrite]
        exact ⟨h.giveBack hstream htook, by simp⟩
      · simp only [hwrite]
        exact ⟨h.dropped hstream htook, by simp⟩

theorem Ok.mark (h : w.Ok) (q : Quality) : (w.mark q).Ok := ⟨h.groups, h.bits, h.log⟩

theorem Ok.disconnect (h : w.Ok) : Worker.Ok { w with stream := none } := ⟨h.groups, h.bits, h.log.drop⟩

theorem Ok.connected (h : w.Ok) {env : PollEnv} {w' : Worker} (hw : w.connected env = some w') : w'.Ok := by
  unfold Worker.connected at hw
  split at hw
  · cases hw
    exact h
  · split at hw
    · cases hw
    · cases hw
      exact ⟨h.groups, h.bits, h.log.connect⟩

/-- A poll keeps the invariant, and the thread goes on. -/
theorem Ok.poll (h : w.Ok) (env : PollEnv) : (w.poll env).1.Ok ∧ (w.poll env).2 = true := by
  have hstale : (if env.stale then w.mark .bad else w).Ok := by
    split
    · exact h.mark .bad
    · exact h
  unfold Worker.poll
  dsimp only
  rcases hconnected : (if env.stale then w.mark .bad else w).connected env with _ | w₁
  · exact ⟨hstale.mark .bad, rfl⟩
  dsimp only
  have h₁ := hstale.connected hconnected
  obtain ⟨h₂, hpanic⟩ := h₁.readInputs h₁.groups
  rcases hread : Worker.readInputs w₁.rt.readGroups w₁ with ⟨w₂, e | u⟩
  · rw [hread] at h₂ hpanic
    cases e with
    | panic => exact absurd rfl hpanic
    | fail f => exact ⟨h₂.disconnect.mark .bad, rfl⟩
  rw [hread] at h₂
  dsimp only
  by_cases hsim : env.mode = .sim
  · rw [if_pos hsim]
    exact ⟨h₂.mark .good, rfl⟩
  rw [if_neg hsim]
  obtain ⟨h₃, hpanic'⟩ := (h₂.mark .good).writeOutputs env.mail
  rcases hwrite : (w₂.mark .good).writeOutputs env.mail with ⟨w₃, e | u⟩
  · rw [hwrite] at h₃ hpanic'
    cases e with
    | panic => exact absurd rfl hpanic'
    | fail f => exact ⟨h₃.disconnect.mark .bad, rfl⟩
  · rw [hwrite] at h₃
    exact ⟨h₃, rfl⟩

theorem ok_start {plan : PlannedModule} (h : ValidPoints plan.points) : (start plan).Ok := by
  refine ⟨?_, ?_, ⟨(fun _ hc => by cases hc), (fun e he => by cases he), List.Pairwise.nil⟩⟩
  · intro g hg
    obtain ⟨table, hof⟩ := readGroups_of h g hg
    exact hof.nonempty
  · intro p hp
    obtain ⟨hmem, hout⟩ := List.mem_filter.mp hp
    simp only [isBitOut, Bool.and_eq_true, beq_iff_eq] at hout
    obtain ⟨b, hb, hle⟩ := (h.sound p hmem).bit (by rw [hout.1.2]; rfl) hout.2
    rw [hb]
    exact Nat.lt_succ_of_le hle

theorem ok_of_reach {plan : PlannedModule} (h : ValidPoints plan.points) (hw : Reach plan w) : w.Ok := by
  induction hw with
  | start => exact ok_start h
  | poll _ env ih => exact (ih.poll env).1

end Worker

/-- **Responses are fully checked.** Whatever a peer sends, a request on a connection in any state does
not panic, passes over at most one frame, and returns only the content of a frame that answers it. No
poll of an accepted module panics, and after an error nothing more happens on the connection. -/
theorem responses_checked {moduleIndex : ℕ} {module : IoModule} {resolved : ResolvedIoMap}
    {plan : PlannedModule} (h : validateModule moduleIndex module resolved = .ok plan) :
    (∀ (unit : Byte) (r : Request) (s : Link), Request.Checked unit r s (r.run unit s)) ∧
    ∀ w, Worker.Reach plan w → (∀ env, (w.poll env).2 = true) ∧
      ∀ pre c post, w.log = pre ++ .failed c :: post → ∀ bytes, .received c bytes ∉ post := by
  refine ⟨request_checked, fun w hw => ?_⟩
  have hok := Worker.ok_of_reach (validated h) hw
  refine ⟨fun env => (hok.poll env).2, ?_⟩
  intro pre c post hlog bytes hmem
  have hquiet := hok.log.quiet
  rw [hlog] at hquiet
  have hlater := (List.pairwise_cons.mp (List.pairwise_append.mp hquiet).2.1).1 _ hmem
  exact hlater c rfl rfl

/-- The theorem on a module. -/
theorem responses_checked_pump : ∃ plan, validateModule 0 pumpModule pumpSlots = .ok plan ∧
    (∀ (unit : Byte) (r : Request) (s : Link), Request.Checked unit r s (r.run unit s)) ∧
    ∀ w, Worker.Reach plan w → (∀ env, (w.poll env).2 = true) ∧
      ∀ pre c post, w.log = pre ++ .failed c :: post → ∀ bytes, .received c bytes ∉ post := by
  obtain ⟨plan, hplan, -⟩ := pumpModule_accepted
  exact ⟨plan, hplan, responses_checked hplan⟩

end SoftPlc.Io.Modbus
