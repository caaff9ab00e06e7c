import SoftPlc.Retain.Crash
import SoftPlc.Scan.Flusher

/-!
# Retained values across a restart

The retain flusher and the shutdown of `soft-plc-runtime/src/supervisor.rs` beside the service of
`Scan/Loader`. Both call `flush_retain`: it copies the published image under the runtime lock
(`Act.read`) and gives it to `RetainStore::flush` without the lock, which reads the files of the
program (`Act.plan`) and writes a slot and the index (`Act.write`). So two flushes may overlap, and a
flush of the flusher may fail anywhere (`Act.fail`), after it has taken the image.

The last image reaches the files when the scan that produced it published it and when nothing that
`Settled` excludes happened since (`restart_keeps_retain`): an install that nobody announced, a failed
flush of that image, a second flush beside an older one.
-/

namespace SoftPlc.Scan

open SoftPlc.Ir SoftPlc.Vm SoftPlc.Retain SoftPlc.Lib

/-! ## The world -/

/-- Who flushes. -/
inductive Actor where
  /-- Source: `supervisor.rs`, `retain_flusher`. -/
  | flusher
  /-- Source: `supervisor.rs`, `flush_retain_once` in `Supervisor::shutdown`. -/
  | shutdown
  deriving DecidableEq, Repr

/-- A `RetainStore::flush` in progress: its arguments, and the writes left once it has read the
files. -/
structure Job where
  call : FlushCall
  writes : Option (List (FileName × List UInt8))

/-- The service, the files of the retain store by program id, and the flushes in progress. -/
structure World where
  plc : Plc
  disk : String → Files
  job : Actor → Option Job
  /-- The scan thread has been joined. -/
  stopped : Bool
  /-- The shutdown has taken its image. -/
  taken : Bool

/-- What happens next. -/
inductive Act where
  /-- The scan thread or a handler. -/
  | event (ev : Event)
  /-- `restore_retain` at boot. -/
  | restore
  /-- The scan thread ends. -/
  | stop
  /-- `flush_retain` up to `store.flush`. -/
  | read (who : Actor)
  /-- `store.flush` encodes the image and reads the files. -/
  | plan (who : Actor)
  /-- `store.flush` writes the next file. -/
  | write (who : Actor)
  /-- The flush of the flusher fails, the file it was writing cut at a length. -/
  | fail (cut : Option ℕ)

/-- How often an action may raise a sequence number. -/
def Act.ticks : Act → ℕ
  | .event (.scan rs) => rs.length + 1
  | .restore => 1
  | _ => 0

namespace World

/-- Replace the files of a program. -/
def setDisk (w : World) (id : String) (fs : Files) : World :=
  { w with disk := fun i => if i = id then fs else w.disk i }

/-- Replace a job. -/
def setJob (w : World) (who : Actor) (job : Option Job) : World :=
  { w with job := fun a => if a = who then job else w.job a }

/-- Source: `supervisor.rs`, `restore_retain`. -/
def restore (w : World) : World :=
  match w.plc.runtime.currentInfo, w.plc.runtime.currentLayout with
  | some info, some layout =>
      match load (w.disk info.id) info.id layout layout.retainSize with
      | .ok (image, _) =>
          { w with plc := { w.plc with runtime := w.plc.runtime.restoreRetain image } }
      | .error _ => w
  | _, _ => w

/-- Source: `supervisor.rs`, the closure of `flush_retain`. -/
def read (w : World) (who : Actor) : World :=
  let w' := { w with plc := w.plc.flushRetain.2, taken := w.taken || who == .shutdown }
  match w.plc.flushRetain.1 with
  | .flushed call => w'.setJob who (some ⟨call, none⟩)
  | _ => w'

/-- One step; none when it cannot happen. A flush of the shutdown does not fail. -/
def step (force : Bool) (w : World) : Act → Option World
  | .event ev =>
      match ev with
      | .flushRetain | .restoreRetain _ => none
      | .scan rs =>
          if w.stopped then none
          else (w.plc.handle force (.scan rs)).map fun out => { w with plc := out.2 }
      | ev => (w.plc.handle force ev).map fun out => { w with plc := out.2 }
  | .restore => if w.stopped then none else some w.restore
  | .stop => some { w with stopped := true }
  | .read who =>
      if (w.job who).isSome || who == .shutdown && (!w.stopped || w.taken) then none
      else some (w.read who)
  | .plan who =>
      match w.job who with
      | some ⟨call, none⟩ =>
          match flushWrites (w.disk call.id) call.id call.layout call.image with
          | .ok (_, ws) => some (w.setJob who (some ⟨call, some ws⟩))
          | .error _ => if who = .flusher then some (w.setJob who none) else none
      | _ => none
  | .write who =>
      match w.job who with
      | some ⟨call, some ((name, bytes) :: ws)⟩ =>
          some ((w.setDisk call.id ((w.disk call.id).write name bytes)).setJob who
            (if ws = [] then none else some ⟨call, some ws⟩))
      | _ => none
  | .fail cut =>
      match w.job .flusher with
      | some ⟨call, some ((name, bytes) :: _)⟩ =>
          match cut with
          | some n =>
              some ((w.setDisk call.id ((w.disk call.id).write name (bytes.take n))).setJob
                .flusher none)
          | none => some (w.setJob .flusher none)
      | some _ => some (w.setJob .flusher none)
      | none => none

/-- A device without a program, and any files. -/
def start (plc : Plc) (disk : String → Files) : World := ⟨plc, disk, fun _ => none, false, false⟩

/-- Histories: what happened since the start, the latest first. -/
inductive History (force : Bool) : World → List (Act × World) → Prop
  /-- A device with tasks and no program. -/
  | start (tasks : List TaskPlan) (scheduleOrder : List ℕ) (inputSlots outputSlots : ℕ)
      (disk : String → Files) :
      History force (start (Plc.start tasks scheduleOrder inputSlots outputSlots) disk) []
  /-- One more step. -/
  | step {w w' : World} {act : Act} {past : List (Act × World)} (h : History force w past)
      (hstep : w.step force act = some w') : History force w' ((act, w) :: past)

/-- Steps one after the other. -/
def run (force : Bool) (w : World) (acts : List Act) : Option World := acts.foldlM (step force) w

/-! ## When the last image reaches the files -/

/-- An image was published that nobody took. -/
def Unread (w : World) : Prop := ∃ buf, w.plc.runtime.retainSnap = some buf ∧ buf.unread = true

/-- The step publishes the retain segment of the current program: a scan after which the dirty
sequence differs from the one published last, or a restore that loads. -/
def Announces (w : World) : Act → Prop
  | .event (.scan rs) => ∃ e, w.plc.runtime.engine.applyModeBoundary.rounds rs = some e ∧
      e.retainSeq ≠ 0 ∧
      e.retainSeq ≠ ({ w.plc.runtime with engine := e } : Runtime).syncLayoutsAfterStep.lastRetainSeq
  | .restore => ∃ info layout image report, w.plc.runtime.currentInfo = some info ∧
      w.plc.runtime.currentLayout = some layout ∧
      load (w.disk info.id) info.id layout layout.retainSize = .ok (image, report)
  | _ => False

/-- The armed program needs no announcement: it retains nothing, or it is the first one and the store
has no files for it. -/
def Cold (w : World) : Prop :=
  (∀ l, w.plc.runtime.armedLayout = some l → l.retainSize = 0) ∨
    (w.plc.runtime.currentLayout = none ∧ ∀ info, w.plc.runtime.armedInfo = some info →
      w.disk info.id = .empty ∧ validateProgramId info.id = .ok ())

/-- What a flush of the current program would encode to fits a slot. -/
def Fits (w : World) : Prop :=
  ∀ layout vm, w.plc.runtime.currentLayout = some layout → w.plc.runtime.engine.vm = some vm →
    Flush.Fits ⟨layout, vm.state.retain.bytes⟩

/-- The step does not lose the last image: an install is cold, a flush that fails has been overtaken,
and the shutdown takes no image while an older one is being written. -/
def Calm (w : World) : Act → Prop
  | .event (.scan rs) => ∀ e, w.plc.runtime.engine.applyModeBoundary.rounds rs = some e →
      w.plc.runtime.engine.armed ≠ none → e.armed = none → w.Cold
  | .read who => w.Fits ∧ (who = .shutdown → w.job .flusher = none ∨ ¬w.Unread)
  | .plan who => (∃ job out, w.job who = some job ∧
      flushWrites (w.disk job.call.id) job.call.id job.call.layout job.call.image = .ok out) ∨ w.Unread
  | .fail _ => w.Unread
  | _ => True

/-- Since the last announcement, or since the start, every step was calm. -/
def Settled : List (Act × World) → Prop
  | [] => True
  | (act, w) :: past => w.Announces act ∨ (w.Calm act ∧ Settled past)

/-- Rounds, scans and restores, each of which may raise a sequence number by one. -/
def ticks : List (Act × World) → ℕ
  | [] => 0
  | (act, _) :: past => ticks past + act.ticks

end World

/-! ## Sequence numbers -/

/-- The sequence numbers of the loader after at most `n` ticks, and the buffer that goes with the
current layout. -/
structure Signals (n : ℕ) (rt : Runtime) : Prop where
  seq : rt.engine.retainSeq ≤ n
  last : rt.lastRetainSeq ≤ rt.engine.retainSeq
  buffer : ∀ buf, rt.retainSnap = some buf → ∃ l, rt.currentLayout = some l ∧
    buf.size = l.retainSize ∧ (buf.slots buf.published).length = buf.size ∧
    buf.lastTake ≤ buf.seq ∧ buf.seq ≤ n
  there : ∀ l, rt.currentLayout = some l → l.retainSize ≠ 0 → ∃ buf, rt.retainSnap = some buf

/-- What the last scan noted was published. -/
def InStep (rt : Runtime) : Prop :=
  rt.retainSnap ≠ none → rt.engine.retainSeq = 0 ∨ rt.engine.retainSeq = rt.lastRetainSeq

/-- The published image is the segment of the current machine, and nobody took it. -/
def Waits (rt : Runtime) (bytes : List UInt8) : Prop :=
  ∃ buf, rt.retainSnap = some buf ∧ buf.unread = true ∧ buf.slots buf.published = bytes

/-- A publish, while the sequence does not wrap. -/
theorem publish_waits {buf : RetainSnapshotBuffer} {image : List UInt8} {n : ℕ}
    (hlen : image.length = buf.size) (htake : buf.lastTake ≤ buf.seq) (hseq : buf.seq ≤ n)
    (hn : n + 1 < 2 ^ 64) :
    (buf.publish image).unread = true ∧
      (buf.publish image).slots (buf.publish image).published = image ∧
      (buf.publish image).size = buf.size ∧
      (buf.publish image).lastTake ≤ (buf.publish image).seq ∧ (buf.publish image).seq ≤ n + 1 := by
  have hnext : (buf.publish image).seq = buf.seq + 1 := by
    show max ((buf.seq + 1) % 2 ^ 64) 1 = buf.seq + 1
    rw [Nat.mod_eq_of_lt (by omega)]
    omega
  have htake' : (buf.publish image).lastTake = buf.lastTake := rfl
  refine ⟨?_, publish_published hlen, rfl, by omega, by omega⟩
  unfold RetainSnapshotBuffer.unread
  rw [hnext, htake', Bool.and_eq_true, bne_iff_ne, bne_iff_ne]
  omega

/-- The current machine has a segment of the size of the current layout. -/
def Sized (rt : Runtime) : Prop :=
  ∀ l, rt.currentLayout = some l → ∃ vm, rt.engine.vm = some vm ∧ vm.state.retain.len = l.retainSize

/-- The two ways a scan ends: nothing to publish, or the segment of the current machine is. -/
theorem publishRetainIfDirty_cases {n : ℕ} {rt : Runtime} (h : Signals n rt) (hsized : Sized rt) :
    ((rt.engine.retainSeq = 0 ∨ rt.engine.retainSeq = rt.lastRetainSeq ∨ rt.retainSnap = none) ∧
        rt.publishRetainIfDirty = rt) ∨
      ∃ buf l vm, rt.engine.retainSeq ≠ 0 ∧ rt.engine.retainSeq ≠ rt.lastRetainSeq ∧
        rt.retainSnap = some buf ∧ rt.currentLayout = some l ∧ rt.engine.vm = some vm ∧
        vm.state.retain.bytes.length = buf.size ∧
        rt.publishRetainIfDirty = { rt with
          retainSnap := some (buf.publish vm.state.retain.bytes)
          lastRetainSeq := rt.engine.retainSeq } := by
  unfold Runtime.publishRetainIfDirty
  dsimp only
  by_cases hseq : rt.engine.retainSeq = 0 ∨ rt.engine.retainSeq = rt.lastRetainSeq
  · rw [if_pos hseq]
    exact .inl ⟨by tauto, rfl⟩
  · rw [if_neg hseq]
    rcases hbuf : rt.retainSnap with _ | buf
    · exact .inl ⟨.inr (.inr rfl), rfl⟩
    · obtain ⟨l, hl, hsize, -⟩ := h.buffer buf hbuf
      obtain ⟨vm, hvm, hlen⟩ := hsized l hl
      rw [hvm]
      rw [not_or] at hseq
      exact .inr ⟨buf, l, vm, hseq.1, hseq.2, rfl, hl, rfl, hlen.trans hsize.symm, rfl⟩

/-- The end of a scan publishes what it noted. -/
theorem Signals.publishRetainIfDirty {n : ℕ} {rt : Runtime} (h : Signals n rt) (hn : n + 1 < 2 ^ 64)
    (hsized : Sized rt) :
    Signals (n + 1) rt.publishRetainIfDirty ∧ InStep rt.publishRetainIfDirty := by
  rcases publishRetainIfDirty_cases h hsized with
    ⟨hseq, heq⟩ | ⟨buf, l, vm, -, -, hbuf, hl, -, hlen, heq⟩
  · rw [heq]
    refine ⟨⟨h.seq.trans (Nat.le_succ n), h.last, ?_, h.there⟩, ?_⟩
    · intro buf hbuf
      obtain ⟨l, hl, hsize, hslot, htake, hle⟩ := h.buffer buf hbuf
      exact ⟨l, hl, hsize, hslot, htake, hle.trans (Nat.le_succ n)⟩
    · intro hsome
      tauto
  · rw [heq]
    obtain ⟨l', hl', hsize, -, htake, hle⟩ := h.buffer buf hbuf
    obtain ⟨-, hslot, hsize', htake', hle'⟩ := publish_waits hlen htake hle hn
    refine ⟨⟨h.seq.trans (Nat.le_succ n), le_rfl, ?_, fun _ _ _ => ⟨_, rfl⟩⟩, fun _ => .inr rfl⟩
    intro buf' hbuf'
    obtain rfl := Option.some.inj hbuf'
    exact ⟨l', hl', hsize'.trans hsize, by rw [hslot, hsize', hlen], htake', hle'⟩

/-- The three ways to a buffer for a new program. -/
theorem resizeRetainSnapshot_cases {rt : Runtime} {l : RetainLayout}
    (hl : rt.currentLayout = some l) :
    (l.retainSize = 0 ∧ rt.resizeRetainSnapshot = { rt with retainSnap := none }) ∨
      (l.retainSize ≠ 0 ∧ (∃ buf, rt.retainSnap = some buf ∧ buf.size = l.retainSize) ∧
        rt.resizeRetainSnapshot = rt) ∨
      (l.retainSize ≠ 0 ∧ rt.resizeRetainSnapshot =
        { rt with retainSnap := some (.new l.retainSize), lastRetainSeq := 0 }) := by
  have hsize : (rt.currentLayout.map RetainLayout.retainSize).getD 0 = l.retainSize := by
    rw [hl]
    rfl
  unfold Runtime.resizeRetainSnapshot
  dsimp only
  rw [hsize]
  by_cases hzero : l.retainSize = 0
  · rw [if_pos hzero]
    exact .inl ⟨hzero, rfl⟩
  · rw [if_neg hzero]
    by_cases hsame : rt.retainSnap.map RetainSnapshotBuffer.size = some l.retainSize
    · rw [if_pos hsame]
      exact .inr (.inl ⟨hzero, Option.map_eq_some_iff.mp hsame, rfl⟩)
    · rw [if_neg hsame]
      exact .inr (.inr ⟨hzero, rfl⟩)

/-- A buffer for a new program keeps the signals in order. -/
theorem Signals.resizeRetainSnapshot {n : ℕ} {rt : Runtime} (cur : Option RetainLayout)
    {l : RetainLayout} (h : Signals n { rt with currentLayout := cur })
    (hl : rt.currentLayout = some l) : Signals n rt.resizeRetainSnapshot := by
  rcases resizeRetainSnapshot_cases hl with
    ⟨hzero, heq⟩ | ⟨-, ⟨buf, hbuf, hsize⟩, heq⟩ | ⟨-, heq⟩
  · rw [heq]
    refine ⟨h.seq, h.last, (fun buf hbuf => nomatch hbuf), ?_⟩
    intro l' hl' hne
    obtain rfl := Option.some.inj (hl.symm.trans hl')
    exact absurd hzero hne
  · rw [heq]
    refine ⟨h.seq, h.last, ?_, fun _ _ _ => ⟨buf, hbuf⟩⟩
    intro buf' hbuf'
    obtain rfl := Option.some.inj (hbuf.symm.trans hbuf')
    obtain ⟨_, -, -, hslot, htake, hle⟩ := h.buffer buf hbuf
    exact ⟨l, hl, hsize, hslot, htake, hle⟩
  · rw [heq]
    refine ⟨h.seq, Nat.zero_le _, ?_, fun _ _ _ => ⟨_, rfl⟩⟩
    intro buf' hbuf'
    obtain rfl := Option.some.inj hbuf'
    exact ⟨l, hl, rfl, by simp [RetainSnapshotBuffer.new], le_rfl, Nat.zero_le n⟩

/-- What a scan noted, while the sequence does not wrap. -/
theorem Notes.le {n k seq : ℕ} {vm : Option ArmedVm} {e : ScanEngine} (h : Notes k seq vm e)
    (hseq : seq ≤ n) (hn : n + k < 2 ^ 64) :
    seq ≤ e.retainSeq ∧ e.retainSeq ≤ n + k ∧
      (e.retainSeq = seq → ∀ v', e.vm = some v' → ∃ v, vm = some v ∧ Vm.Quiet v.state v'.state) := by
  rcases h with ⟨heq, hvm⟩ | ⟨j, hj, hjk, heq⟩
  · exact ⟨heq.ge, by omega, fun _ => hvm⟩
  · rw [Nat.mod_eq_of_lt (by omega)] at heq
    exact ⟨by omega, by omega, fun hsame => by omega⟩

theorem sized_of_paired {force : Bool} {rt : Runtime} {cur arm : Option RetainLayout}
    {e : ScanEngine} (h : Paired force cur arm e) (hcur : rt.currentLayout = cur)
    (he : rt.engine = e) : Sized rt := by
  subst hcur he
  intro l hl
  have hvm := h.vm
  rw [hl] at hvm
  obtain ⟨vm, hvm⟩ := Option.isSome_iff_exists.mp hvm
  exact ⟨vm, hvm, h.len vm l hvm hl⟩

/-- Where a scan leaves the loader just before it publishes. -/
theorem Signals.scan_mid {force : Bool} {plc : Plc} {n : ℕ} {rs : List Round} {rt : Runtime}
    (hgood : Good force plc) (h : Signals n plc.runtime) (hn : n + rs.length + 1 < 2 ^ 64)
    (hscan : plc.runtime.scan rs = some rt) :
    ∃ e rt₁, plc.runtime.engine.applyModeBoundary.rounds rs = some e ∧
      rt₁ = ({ plc.runtime with engine := e } : Runtime).syncLayoutsAfterStep ∧
      rt = rt₁.publishRetainIfDirty ∧ Signals (n + rs.length) rt₁ ∧ Sized rt₁ ∧ rt₁.engine = e ∧
      plc.runtime.engine.retainSeq ≤ e.retainSeq ∧
      ((rt₁ = { plc.runtime with engine := e } ∧ (e.retainSeq = plc.runtime.engine.retainSeq →
          ∀ v', e.vm = some v' → ∃ v, plc.runtime.engine.vm = some v ∧ Vm.Quiet v.state v'.state)) ∨
        ∃ l b, plc.runtime.engine.armed ≠ none ∧ e.armed = none ∧
          plc.runtime.armedLayout = some l ∧ Shadowed force plc.runtime.currentLayout l b ∧
          rt₁ = Runtime.resizeRetainSnapshot { plc.runtime with
            engine := e, currentLayout := some l, armedLayout := none
            currentInfo := plc.runtime.armedInfo, armedInfo := none } ∧
          (e.retainSeq = plc.runtime.engine.retainSeq →
            ∀ v', e.vm = some v' → Vm.Quiet b.vm.state v'.state)) := by
  obtain ⟨e, rt₁, hrounds, hsync, hrt, ⟨hheld, hpaired, hnotes, heq⟩ |
    ⟨a, b, l, hswung, hl, hpaired, hsh, hnotes, heq⟩⟩ := scan_notes hgood hscan
  · obtain ⟨hle, hle', hquiet⟩ := hnotes.le h.seq (by omega)
    refine ⟨e, rt₁, hrounds, hsync, hrt, ?_, ?_, by rw [heq], hle, .inl ⟨heq, hquiet⟩⟩
    · rw [heq]
      refine ⟨hle', h.last.trans hle, ?_, h.there⟩
      intro buf hbuf
      obtain ⟨l, hl, hsize, hslot, htake, hseq⟩ := h.buffer buf hbuf
      exact ⟨l, hl, hsize, hslot, htake, hseq.trans (Nat.le_add_right _ _)⟩
    · rw [heq]
      exact sized_of_paired hpaired rfl rfl
  · obtain ⟨hle, hle', hquiet⟩ := hnotes.le h.seq (by omega)
    have hcore := core_resizeRetainSnapshot { plc.runtime with
      engine := e, currentLayout := some l, armedLayout := none
      currentInfo := plc.runtime.armedInfo, armedInfo := none }
    rw [← heq] at hcore
    have hengine : rt₁.engine = e := congrArg Runtime.engine hcore
    have hlayout : rt₁.currentLayout = some l := congrArg Runtime.currentLayout hcore
    refine ⟨e, rt₁, hrounds, hsync, hrt, ?_, ?_, hengine, hle, .inr ⟨l, b, ?_, hswung.armed, hl, hsh,
      heq, ?_⟩⟩
    · rw [heq]
      refine Signals.resizeRetainSnapshot plc.runtime.currentLayout
        ⟨hle', h.last.trans hle, ?_, h.there⟩ rfl
      intro buf hbuf
      obtain ⟨l, hl, hsize, hslot, htake, hseq⟩ := h.buffer buf hbuf
      exact ⟨l, hl, hsize, hslot, htake, hseq.trans (Nat.le_add_right _ _)⟩
    · exact sized_of_paired hpaired hlayout hengine
    · intro hnone
      have hwas := hswung.was
      rw [hnone] at hwas
      cases hwas
    · intro hsame v' hv'
      obtain ⟨v, hv, hq⟩ := hquiet hsame v' hv'
      obtain rfl := Option.some.inj hv
      exact hq

/-! ## What every history keeps -/

/-- The service is in a reachable state, nobody flushes before there is a program, and the shutdown
flushes once, after the scan thread has ended. -/
structure Sane (force : Bool) (n : ℕ) (w : World) : Prop where
  good : Good force w.plc
  signals : Signals n w.plc.runtime
  inStep : InStep w.plc.runtime
  idle : w.plc.runtime.currentLayout = none → ∀ who, w.job who = none
  running : w.stopped = false → w.taken = false
  before : w.taken = false → w.job .shutdown = none
  after : w.taken = true → ¬w.Unread

/-- What handlers leave alone. -/
structure SameSignals (rt rt' : Runtime) : Prop where
  info : rt'.currentInfo = rt.currentInfo
  layout : rt'.currentLayout = rt.currentLayout
  snap : rt'.retainSnap = rt.retainSnap
  last : rt'.lastRetainSeq = rt.lastRetainSeq
  vm : rt'.engine.vm = rt.engine.vm
  seq : rt'.engine.retainSeq = rt.engine.retainSeq

theorem SameSignals.refl (rt : Runtime) : SameSignals rt rt := ⟨rfl, rfl, rfl, rfl, rfl, rfl⟩

/-- Handlers leave the current program and the signals alone. -/
theorem handle_sameSignals {force : Bool} {plc plc' : Plc} {ev : Event} {res : Response}
    (h : Good force plc) (hev : plc.handle force ev = some (res, plc'))
    (hscan : ∀ rs, ev ≠ .scan rs) (hflush : ev ≠ .flushRetain) (hrestore : ∀ i, ev ≠ .restoreRetain i) :
    SameSignals plc.runtime plc'.runtime := by
  cases ev with
  | upload pkg =>
      cases hev
      exact .refl _
  | armBegin pkg =>
      have heq := Option.some.inj hev
      rcases armBegin_cases h pkg with ⟨_, hb, -⟩ | ⟨-, -, -, hb⟩
      · rw [show plc.armBegin pkg = (res, plc') from heq] at hb
        cases hb
        exact .refl _
      · rw [show plc.armBegin pkg = (res, plc') from heq] at hb
        cases hb
        exact ⟨rfl, rfl, rfl, rfl, rfl, rfl⟩
  | armFinish =>
      have heq := Option.some.inj hev
      rcases armFinish_cases h with ⟨-, hb | hb⟩ | ⟨_, _, _, _, -, -, -, -, -, hb⟩
      · rw [show plc.armFinish force = (res, plc') from heq] at hb
        cases hb
        exact .refl _
      · rw [show plc.armFinish force = (res, plc') from heq] at hb
        cases hb
        show SameSignals plc.runtime plc.runtime.abortArm
        unfold Runtime.abortArm
        split_ifs
        · exact .refl _
        · exact ⟨rfl, rfl, rfl, rfl, rfl, rfl⟩
        · exact ⟨rfl, rfl, rfl, rfl, rfl, rfl⟩
      · rw [show plc.armFinish force = (res, plc') from heq] at hb
        cases hb
        exact ⟨rfl, rfl, rfl, rfl, rfl, rfl⟩
  | activate id =>
      have heq := Option.some.inj hev
      rcases activate_cases h id with ⟨_, hb, -⟩ | ⟨_, -, -, -, -, ⟨-, hb⟩ | ⟨-, hb⟩⟩
      · rw [show plc.activate id = (res, plc') from heq] at hb
        cases hb
        exact .refl _
      · rw [show plc.activate id = (res, plc') from heq] at hb
        cases hb
        exact ⟨rfl, rfl, rfl, rfl, rfl, rfl⟩
      · rw [show plc.activate id = (res, plc') from heq] at hb
        cases hb
        exact ⟨rfl, rfl, rfl, rfl, rfl, rfl⟩
  | scan rs => exact absurd rfl (hscan rs)
  | flushRetain => exact absurd rfl hflush
  | restoreRetain image => exact absurd rfl (hrestore image)
  | requestMode req =>
      cases hev
      exact ⟨rfl, rfl, rfl, rfl, rfl, rfl⟩

/-- What a step does, in a sane state. -/
inductive Does (force : Bool) (w : World) : Act → World → Prop
  /-- A handler. -/
  | handled (ev : Event) {plc : Plc} (hgood : Good force plc)
      (hsame : SameSignals w.plc.runtime plc.runtime) (hscan : ∀ rs, ev ≠ .scan rs) :
      Does force w (.event ev) { w with plc := plc }
  /-- A scan. -/
  | scanned {rs : List Round} {rt : Runtime} (hrunning : w.stopped = false)
      (hscan : w.plc.runtime.scan rs = some rt) :
      Does force w (.event (.scan rs)) { w with plc := { w.plc with runtime := rt } }
  /-- A restore that finds nothing to load. -/
  | kept (hrunning : w.stopped = false) (hnot : ¬w.Announces .restore) : Does force w .restore w
  /-- A restore. -/
  | restored {vm : ArmedVm} {retain : ByteSegment} (hrunning : w.stopped = false)
      (hvm : w.plc.runtime.engine.vm = some vm) (hlen : retain.len = vm.state.retain.len) :
      Does force w .restore { w with plc := { w.plc with runtime := { w.plc.runtime with
        engine := { w.plc.runtime.engine with
          vm := some ⟨vm.image, vm.state.withRetain retain⟩ }
        retainSnap := w.plc.runtime.retainSnap.map fun buf => buf.publish retain.bytes } } }
  /-- The scan thread ends. -/
  | stopped : Does force w .stop { w with stopped := true }
  /-- There was nothing to take. -/
  | nothing {who : Actor} (hjob : w.job who = none) (hend : who = .shutdown → w.stopped = true)
      (hread : ¬w.Unread) :
      Does force w (.read who) { w with taken := w.taken || who == .shutdown }
  /-- The image was taken. -/
  | took {who : Actor} {info : ProgramInfo} {l : RetainLayout} {buf : RetainSnapshotBuffer}
      (hjob : w.job who = none) (hend : who = .shutdown → w.stopped = true)
      (hinfo : w.plc.runtime.currentInfo = some info)
      (hlayout : w.plc.runtime.currentLayout = some l)
      (hbuf : w.plc.runtime.retainSnap = some buf) (hread : buf.unread = true) :
      Does force w (.read who) (World.setJob { w with
        plc := { w.plc with runtime := { w.plc.runtime with
          retainSnap := some { buf with lastTake := buf.seq } } }
        taken := w.taken || who == .shutdown } who
        (some ⟨⟨info.id, l, buf.slots buf.published⟩, none⟩))
  /-- The files were read. -/
  | planned {who : Actor} {call : FlushCall} {report : FlushReport}
      {ws : List (FileName × List UInt8)} (hjob : w.job who = some ⟨call, none⟩)
      (hwrites : flushWrites (w.disk call.id) call.id call.layout call.image = .ok (report, ws)) :
      Does force w (.plan who) (w.setJob who (some ⟨call, some ws⟩))
  /-- The image does not encode. -/
  | refused {call : FlushCall} {e : RetainError} (hjob : w.job .flusher = some ⟨call, none⟩)
      (hwrites : flushWrites (w.disk call.id) call.id call.layout call.image = .error e) :
      Does force w (.plan .flusher) (w.setJob .flusher none)
  /-- A file was written. -/
  | wrote {who : Actor} {call : FlushCall} {name : FileName} {bytes : List UInt8}
      {ws : List (FileName × List UInt8)}
      (hjob : w.job who = some ⟨call, some ((name, bytes) :: ws)⟩) :
      Does force w (.write who)
        ((w.setDisk call.id ((w.disk call.id).write name bytes)).setJob who
          (if ws = [] then none else some ⟨call, some ws⟩))
  /-- A flush failed. -/
  | failed {cut : Option ℕ} {disk : String → Files} (hjob : w.job .flusher ≠ none) :
      Does force w (.fail cut) (World.setJob { w with disk := disk } .flusher none)

/-- A load fills its destination. -/
theorem load_length {fs : Files} {id : String} {layout : RetainLayout} {image : List UInt8}
    {report : LoadReport} (h : load fs id layout layout.retainSize = .ok (image, report)) :
    image.length = layout.retainSize := by
  unfold load at h
  obtain ⟨⟨⟩, -, h⟩ := except_bind_ok.mp h
  rw [if_neg (by simp)] at h
  dsimp only at h
  rcases hchoose : chooseSlot fs.readIdx fs.readSlot with _ | ⟨slot, d⟩
  · rw [hchoose] at h
    cases h
    exact List.length_replicate
  · rw [hchoose] at h
    obtain ⟨m, hm, h⟩ := except_bind_ok.mp h
    cases h
    exact (applyRecords_ok hm).1

/-- What a restore does. -/
theorem World.restore_does {force : Bool} {w : World} (h : Good force w.plc)
    (hrunning : w.stopped = false) : Does force w .restore w.restore := by
  by_cases hann : w.Announces .restore
  · obtain ⟨info, l, image, report, hinfo, hl, hload⟩ := hann
    obtain ⟨vm, hvm⟩ : ∃ vm, w.plc.runtime.engine.vm = some vm := by
      rw [← Option.isSome_iff_exists, h.paired.vm, hl]
      rfl
    have hlen := h.paired.len vm l hvm hl
    obtain ⟨retain, hretain, hlen', -⟩ := loadRetainImage_ok hlen (load_length hload)
    have heq : w.restore = { w with plc := { w.plc with runtime := { w.plc.runtime with
        engine := { w.plc.runtime.engine with
          vm := some ⟨vm.image, vm.state.withRetain retain⟩ }
        retainSnap := w.plc.runtime.retainSnap.map fun buf => buf.publish retain.bytes } } } := by
      simp only [World.restore, hinfo, hl, hload, Runtime.restoreRetain, hvm, hretain]
    rw [heq]
    exact .restored hrunning hvm (hlen'.trans hlen.symm)
  · have heq : w.restore = w := by
      unfold World.restore
      rcases hinfo : w.plc.runtime.currentInfo with _ | info
      · rfl
      · rcases hl : w.plc.runtime.currentLayout with _ | l
        · rfl
        · dsimp only
          rcases hload : load (w.disk info.id) info.id l l.retainSize with e | ⟨image, report⟩
          · rfl
          · exact absurd ⟨info, l, image, report, hinfo, hl, hload⟩ hann
    rw [heq]
    exact .kept hrunning hann

/-- What a read does. -/
theorem World.read_does {force : Bool} {n : ℕ} {w : World} {who : Actor} (h : Sane force n w)
    (hjob : w.job who = none) (hend : who = .shutdown → w.stopped = true) :
    Does force w (.read who) (w.read who) := by
  by_cases hread : w.Unread
  · obtain ⟨buf, hbuf, hunread⟩ := hread
    obtain ⟨l, hl, hsize, hslot, -, -⟩ := h.signals.buffer buf hbuf
    obtain ⟨info, hinfo⟩ : ∃ info, w.plc.runtime.currentInfo = some info := by
      rw [← Option.isSome_iff_exists, h.good.currentInfo, hl]
      rfl
    obtain ⟨image, buf', hr⟩ : ∃ image buf', buf.read l.retainSize = some (image, buf') := by
      unfold RetainSnapshotBuffer.read
      rw [if_pos hunread]
      exact ⟨_, _, rfl⟩
    obtain ⟨-, rfl, rfl⟩ := read_some hsize hslot hr
    have heq : w.plc.flushRetain = (.flushed ⟨info.id, l, buf.slots buf.published⟩,
        { w.plc with runtime := { w.plc.runtime with
          retainSnap := some { buf with lastTake := buf.seq } } }) := by
      simp only [Plc.flushRetain, hinfo, hl, hbuf, hr]
    unfold World.read
    rw [heq]
    exact .took hjob hend hinfo hl hbuf hunread
  · have heq : w.plc.flushRetain = (.none, w.plc) := by
      rcases flushRetain_cases w.plc with hb | ⟨info, l, buf, image, buf', -, hl, hbuf, hr, -⟩
      · exact hb
      · obtain ⟨l', hl', hsize, hslot, -, -⟩ := h.signals.buffer buf hbuf
        obtain rfl := Option.some.inj (hl.symm.trans hl')
        exact absurd ⟨buf, hbuf, (read_some hsize hslot hr).1⟩ hread
    unfold World.read
    rw [heq]
    exact .nothing hjob hend hread

/-- **What a step does.** -/
theorem World.step_does {force : Bool} {n : ℕ} {w w' : World} {act : Act} (h : Sane force n w)
    (hstep : w.step force act = some w') : Does force w act w' := by
  cases act with
  | event ev =>
      have hhandled : (∀ rs, ev ≠ .scan rs) → ev ≠ .flushRetain → (∀ i, ev ≠ .restoreRetain i) →
          (w.plc.handle force ev).map (fun out => { w with plc := out.2 }) = some w' →
          Does force w (.event ev) w' := by
        intro hscan hflush hrestore hmap
        obtain ⟨⟨res, plc'⟩, hev, rfl⟩ := Option.map_eq_some_iff.mp hmap
        exact .handled ev (h.good.handle hev)
          (handle_sameSignals h.good hev hscan hflush hrestore) hscan
      cases ev with
      | flushRetain => cases hstep
      | restoreRetain image => cases hstep
      | scan rs =>
          simp only [World.step] at hstep
          split_ifs at hstep with hstopped
          obtain ⟨⟨res, plc'⟩, hev, rfl⟩ := Option.map_eq_some_iff.mp hstep
          obtain ⟨rt, hscan, heq⟩ := Option.map_eq_some_iff.mp hev
          cases heq
          exact .scanned (by simpa using hstopped) hscan
      | upload pkg => exact hhandled (by simp) (by simp) (by simp) hstep
      | armBegin pkg => exact hhandled (by simp) (by simp) (by simp) hstep
      | armFinish => exact hhandled (by simp) (by simp) (by simp) hstep
      | activate id => exact hhandled (by simp) (by simp) (by simp) hstep
      | requestMode req => exact hhandled (by simp) (by simp) (by simp) hstep
  | restore =>
      simp only [World.step] at hstep
      split_ifs at hstep with hstopped
      obtain rfl := Option.some.inj hstep
      exact World.restore_does h.good (by simpa using hstopped)
  | stop =>
      cases hstep
      exact .stopped
  | read who =>
      simp only [World.step] at hstep
      split_ifs at hstep with hno
      obtain rfl := Option.some.inj hstep
      rw [Bool.or_eq_true, not_or] at hno
      refine World.read_does h (by simpa using hno.1) ?_
      intro hwho
      by_contra hrunning
      exact hno.2 (by simp [hwho, hrunning])
  | plan who =>
      simp only [World.step] at hstep
      rcases hjob : w.job who with _ | ⟨call, _ | ws⟩
      · rw [hjob] at hstep
        cases hstep
      · rw [hjob] at hstep
        dsimp only at hstep
        rcases hws : flushWrites (w.disk call.id) call.id call.layout call.image with e | ⟨report, ws⟩
        · rw [hws] at hstep
          dsimp only at hstep
          split_ifs at hstep with hwho
          obtain rfl := Option.some.inj hstep
          subst hwho
          exact .refused hjob hws
        · rw [hws] at hstep
          obtain rfl := Option.some.inj hstep
          exact .planned hjob hws
      · rw [hjob] at hstep
        cases hstep
  | write who =>
      simp only [World.step] at hstep
      rcases hjob : w.job who with _ | ⟨call, _ | (_ | ⟨⟨name, bytes⟩, ws⟩)⟩
      · rw [hjob] at hstep
        cases hstep
      · rw [hjob] at hstep
        cases hstep
      · rw [hjob] at hstep
        cases hstep
      · rw [hjob] at hstep
        obtain rfl := Option.some.inj hstep
        exact .wrote hjob
  | fail cut =>
      have hcut : ∀ (id : String) (fs : Files),
          (w.setDisk id fs).setJob .flusher none = w' → w.job .flusher ≠ none →
          Does force w (.fail cut) w' := by
        intro id fs heq hjob
        subst heq
        exact .failed hjob
      have hend : w.setJob .flusher none = w' → w.job .flusher ≠ none →
          Does force w (.fail cut) w' := by
        intro heq hjob
        subst heq
        exact .failed hjob
      simp only [World.step] at hstep
      rcases hjob : w.job .flusher with _ | ⟨call, _ | (_ | ⟨⟨name, bytes⟩, ws⟩)⟩
      · rw [hjob] at hstep
        cases hstep
      · rw [hjob] at hstep
        exact hend (Option.some.inj hstep) (by simp [hjob])
      · rw [hjob] at hstep
        exact hend (Option.some.inj hstep) (by simp [hjob])
      · rw [hjob] at hstep
        dsimp only at hstep
        rcases cut with _ | n
        · exact hend (Option.some.inj hstep) (by simp [hjob])
        · exact hcut _ _ (Option.some.inj hstep) (by simp [hjob])

/-! ### One step -/

theorem World.ticks_le (act : Act) (w : World) (past : List (Act × World)) :
    World.ticks past ≤ World.ticks ((act, w) :: past) := Nat.le_add_right _ _

theorem Signals.mono {n n' : ℕ} {rt : Runtime} (h : Signals n rt) (hle : n ≤ n') :
    Signals n' rt := by
  refine ⟨h.seq.trans hle, h.last, ?_, h.there⟩
  intro buf hbuf
  obtain ⟨l, hl, hsize, hslot, htake, hseq⟩ := h.buffer buf hbuf
  exact ⟨l, hl, hsize, hslot, htake, hseq.trans hle⟩

theorem SameSignals.signals {n : ℕ} {rt rt' : Runtime} (h : SameSignals rt rt')
    (hs : Signals n rt) : Signals n rt' := by
  refine ⟨h.seq ▸ hs.seq, h.seq ▸ h.last ▸ hs.last, ?_, ?_⟩
  · intro buf hbuf
    obtain ⟨l, hl, hrest⟩ := hs.buffer buf (h.snap ▸ hbuf)
    exact ⟨l, h.layout ▸ hl, hrest⟩
  · intro l hl hne
    obtain ⟨buf, hbuf⟩ := hs.there l (h.layout ▸ hl) hne
    exact ⟨buf, h.snap ▸ hbuf⟩

theorem SameSignals.inStep {rt rt' : Runtime} (h : SameSignals rt rt') (hs : InStep rt) :
    InStep rt' := by
  intro hsome
  rw [h.snap] at hsome
  rw [h.seq, h.last]
  exact hs hsome

/-- A step that only flushes. -/
theorem Sane.flushes {force : Bool} {n : ℕ} {w w' : World} (h : Sane force n w)
    (hplc : w'.plc = w.plc) (hstopped : w'.stopped = w.stopped) (htaken : w'.taken = w.taken)
    (hjob : ∀ who, w.job who = none → w'.job who = none) : Sane force n w' := by
  refine ⟨hplc ▸ h.good, hplc ▸ h.signals, hplc ▸ h.inStep, ?_, ?_, ?_, ?_⟩
  · intro hnone who
    exact hjob who (h.idle (hplc ▸ hnone) who)
  · rw [hstopped, htaken]
    exact h.running
  · intro hfalse
    exact hjob .shutdown (h.before (htaken ▸ hfalse))
  · intro htrue
    unfold World.Unread
    rw [hplc]
    exact h.after (htaken ▸ htrue)

/-- A scan keeps the signals in order. -/
theorem Signals.scan {force : Bool} {plc : Plc} {n : ℕ} {rs : List Round} {rt : Runtime}
    (hgood : Good force plc) (h : Signals n plc.runtime) (hn : n + rs.length + 1 < 2 ^ 64)
    (hscan : plc.runtime.scan rs = some rt) :
    Signals (n + rs.length + 1) rt ∧ InStep rt := by
  obtain ⟨e, rt₁, -, -, rfl, hmid, hsized, -⟩ := Signals.scan_mid hgood h hn hscan
  exact hmid.publishRetainIfDirty hn hsized

/-- After a scan there is a layout if there was one. -/
theorem scan_currentLayout {force : Bool} {plc : Plc} {rs : List Round} {rt : Runtime}
    (hgood : Good force plc) (hscan : plc.runtime.scan rs = some rt)
    (hnone : rt.currentLayout = none) : plc.runtime.currentLayout = none := by
  obtain ⟨e, ⟨-, -, rfl⟩ | ⟨a, l, -, -, -, rfl⟩⟩ := scan_cases hgood hscan
  · have hcore := core_publishRetainIfDirty { plc.runtime with engine := e }
    exact (congrArg Runtime.currentLayout hcore).symm.trans hnone
  · have hcore := (core_publishRetainIfDirty _).trans (core_resizeRetainSnapshot { plc.runtime with
      engine := e, currentLayout := some l, armedLayout := none
      currentInfo := plc.runtime.armedInfo, armedInfo := none })
    have hlayout := (congrArg Runtime.currentLayout hcore).symm.trans hnone
    cases hlayout

/-- A restore keeps the signals in order. -/
theorem Signals.restored {n : ℕ} {rt : Runtime} {bytes : List UInt8}
    (h : Signals n rt) (hn : n + 1 < 2 ^ 64)
    (hlen : ∀ l, rt.currentLayout = some l → bytes.length = l.retainSize) (vm' : Option ArmedVm) :
    Signals (n + 1) { rt with
      engine := { rt.engine with vm := vm' }
      retainSnap := rt.retainSnap.map fun buf => buf.publish bytes } := by
  refine ⟨h.seq.trans (Nat.le_succ n), h.last, ?_, ?_⟩
  · intro buf' hbuf'
    obtain ⟨buf, hbuf, rfl⟩ := Option.map_eq_some_iff.mp hbuf'
    obtain ⟨l, hl, hsize, -, htake, hle⟩ := h.buffer buf hbuf
    have hlen := (hlen l hl).trans hsize.symm
    obtain ⟨-, hslot, hsize', htake', hle'⟩ := publish_waits hlen htake hle hn
    exact ⟨l, hl, hsize'.trans hsize, by rw [hslot, hsize', hlen], htake', hle'⟩
  · intro l hl hne
    obtain ⟨buf, hbuf⟩ := h.there l hl hne
    exact ⟨_, Option.map_eq_some_iff.mpr ⟨buf, hbuf, rfl⟩⟩

theorem World.setJob_other {w : World} {who a : Actor} {job : Option Job} (h : who ≠ a) :
    (w.setJob who job).job a = w.job a := if_neg (Ne.symm h)

@[simp] theorem World.setJob_self (w : World) (who : Actor) (job : Option Job) :
    (w.setJob who job).job who = job := if_pos rfl

theorem World.setJob_none {w : World} {who a : Actor} (h : w.job a = none) :
    (w.setJob who none).job a = none := by
  by_cases ha : a = who
  · exact if_pos ha
  · exact (if_neg ha).trans h

@[simp] theorem World.disk_written (w : World) (id : String) (fs : Files) (who : Actor)
    (job : Option Job) : ((w.setDisk id fs).setJob who job).disk id = fs := if_pos rfl

/-- The shutdown flushes after the scan thread has ended. -/
theorem taken_running {force : Bool} {n : ℕ} {w : World} {who : Actor} (h : Sane force n w)
    (hend : who = .shutdown → w.stopped = true) (hrunning : w.stopped = false) :
    (w.taken || who == .shutdown) = false := by
  refine Bool.or_eq_false_iff.mpr ⟨h.running hrunning, ?_⟩
  apply beq_false_of_ne
  intro hwho
  rw [hend hwho] at hrunning
  cases hrunning

/-- **What every step keeps.** -/
theorem Sane.step {force : Bool} {w w' : World} {act : Act} {past : List (Act × World)}
    (h : Sane force (World.ticks past) w) (hdoes : Does force w act w')
    (hn : World.ticks ((act, w) :: past) < 2 ^ 64) :
    Sane force (World.ticks ((act, w) :: past)) w' := by
  have hle := World.ticks_le act w past
  cases hdoes with
  | handled ev hgood hsame _ =>
      refine ⟨hgood, (hsame.signals h.signals).mono hle, hsame.inStep h.inStep, ?_, h.running,
        h.before, ?_⟩
      · intro hnone
        exact h.idle (hsame.layout ▸ hnone)
      · intro htrue
        unfold World.Unread
        rw [hsame.snap]
        exact h.after htrue
  | @scanned rs rt hrunning hscan =>
      obtain ⟨hsignals, hinStep⟩ := h.signals.scan h.good hn hscan
      have hev : w.plc.handle force (.scan rs) = some (.none, { w.plc with runtime := rt }) := by
        rw [Plc.handle, hscan]
        rfl
      refine ⟨h.good.handle hev, hsignals, hinStep, ?_, h.running, h.before, ?_⟩
      · intro hnone
        exact h.idle (scan_currentLayout h.good hscan hnone)
      · intro htrue
        rw [h.running hrunning] at htrue
        cases htrue
  | kept hrunning hnot =>
      exact ⟨h.good, h.signals.mono hle, h.inStep, h.idle, h.running, h.before, h.after⟩
  | @restored vm retain hrunning hvm hlen =>
      refine ⟨h.good.withRetain hvm hlen _, h.signals.restored hn ?_ _, ?_, h.idle, h.running,
        h.before, ?_⟩
      · intro l hl
        exact hlen.trans (h.good.paired.len vm l hvm hl)
      · intro hsome
        refine h.inStep ?_
        intro hnone
        exact hsome (by simp [hnone])
      · intro htrue
        rw [h.running hrunning] at htrue
        cases htrue
  | stopped =>
      exact ⟨h.good, h.signals, h.inStep, h.idle, (fun hrunning => nomatch hrunning), h.before, h.after⟩
  | @nothing who hjob hend hread =>
      refine ⟨h.good, h.signals, h.inStep, h.idle, ?_, ?_, fun _ => hread⟩
      · intro hrunning
        exact taken_running h hend hrunning
      · intro hfalse
        exact h.before (Bool.or_eq_false_iff.mp hfalse).1
  | @took who info l buf hjob hend hinfo hlayout hbuf hread =>
      refine ⟨?_, ?_, ?_, ?_, ?_, ?_, ?_⟩
      · exact ⟨h.good.paired, h.good.armedLayout, h.good.armedInfo, h.good.currentId,
          h.good.currentHash, h.good.currentInfo, h.good.quiet, h.good.snapshot⟩
      · refine ⟨h.signals.seq, h.signals.last, ?_, fun _ _ _ => ⟨_, rfl⟩⟩
        intro buf' hbuf'
        obtain rfl := Option.some.inj hbuf'
        obtain ⟨l', hl', hsize, hslot, -, hseq⟩ := h.signals.buffer buf hbuf
        exact ⟨l', hl', hsize, hslot, le_rfl, hseq⟩
      · intro _
        exact h.inStep (by simp [hbuf])
      · intro hnone
        exact absurd (hlayout.symm.trans hnone) (by simp)
      · intro hrunning
        exact taken_running h hend hrunning
      · intro hfalse
        obtain ⟨htaken, hwho⟩ := Bool.or_eq_false_iff.mp hfalse
        rw [World.setJob_other (by simpa using hwho)]
        exact h.before htaken
      · rintro - ⟨buf', hbuf', hread'⟩
        obtain rfl := Option.some.inj hbuf'
        simp [RetainSnapshotBuffer.unread] at hread'
  | @planned who call report ws hjob hwrites =>
      refine h.flushes rfl rfl rfl ?_
      intro a ha
      rw [World.setJob_other, ha]
      rintro rfl
      rw [hjob] at ha
      cases ha
  | refused hjob hwrites =>
      exact h.flushes rfl rfl rfl fun a ha => World.setJob_none ha
  | @wrote who call name bytes ws hjob =>
      refine h.flushes rfl rfl rfl ?_
      intro a ha
      rw [World.setJob_other]
      · exact ha
      · rintro rfl
        rw [hjob] at ha
        cases ha
  | failed hjob => exact h.flushes rfl rfl rfl fun a ha => World.setJob_none ha

/-! ## Where the last image is -/

/-- A load gives the symbols of a layout their values in an image. -/
def OnDisk (fs : Files) (id : String) (l : RetainLayout) (bytes : List UInt8) : Prop :=
  ∃ image report, load fs id l l.retainSize = .ok (image, report) ∧
    ∀ s ∈ l.symbols, s.slice image = s.slice bytes

/-- Once the writes that are left are done, the files are those of a flush. -/
def Job.Sound (job : Job) (disk : String → Files) : Prop :=
  Flush.Fits ⟨job.call.layout, job.call.image⟩ ∧
    ∀ ws, job.writes = some ws → ∃ fs report,
      flush fs job.call.id job.call.layout job.call.image =
        .ok (report, (disk job.call.id).writeAll ws)

/-- The only job is one for this image. -/
def World.Flushing (w : World) (call : FlushCall) : Prop :=
  ∃ who job, w.job who = some job ∧ job.call = call ∧ job.Sound w.disk ∧
    ∀ a, who ≠ a → w.job a = none

/-- The image waits in the buffer, is being flushed, or is in the files. -/
def World.Safe (w : World) (call : FlushCall) : Prop :=
  Waits w.plc.runtime call.image ∨ (¬w.Unread ∧
    (w.Flushing call ∨
      (∀ who, w.job who = none) ∧ OnDisk (w.disk call.id) call.id call.layout call.image))

/-- The segment of the current machine is safe, unless a run that failed has changed it. -/
def World.Fresh (w : World) : Prop :=
  ∀ info l vm, w.plc.runtime.currentInfo = some info → w.plc.runtime.currentLayout = some l →
    w.plc.runtime.engine.vm = some vm → l.retainSize ≠ 0 → vm.state.retainDirty = false →
    w.Safe ⟨info.id, l, vm.state.retain.bytes⟩

/-- A completed flush can be loaded. -/
theorem onDisk_of_flush {fs fs' : Files} {id : String} {l : RetainLayout} {image : List UInt8}
    {report : FlushReport} (hfits : Flush.Fits ⟨l, image⟩)
    (h : flush fs id l image = .ok (report, fs')) : OnDisk fs' id l image := by
  have hist : Retain.History id fs' (some ⟨l, image⟩) [] := .complete (.start fs) h
  obtain ⟨image', report', hload, -, hsame | ⟨k, hk, -⟩⟩ := load_after_crashes hist (by simpa using hfits)
  · exact ⟨image', report', hload, hsame⟩
  · cases hk

/-- Without files a load gives zeros. -/
theorem onDisk_empty {id : String} {l : RetainLayout} {bytes : List UInt8}
    (hid : validateProgramId id = .ok ()) (hzero : ∀ s ∈ l.symbols, s.slice bytes = s.zeros) :
    OnDisk .empty id l bytes := by
  have hcold : ∃ report, load .empty id l l.retainSize =
      .ok (List.replicate l.retainSize 0, report) ∧ report.source = .cold := load_cold hid rfl
  obtain ⟨report, hload, -⟩ := hcold
  refine ⟨_, report, hload, ?_⟩
  intro s hs
  rw [l.slice_replicate hs, hzero s hs]

/-- A program that was armed without a current one starts with zeros. -/
theorem Shadowed.slice_zeros {force : Bool} {l : RetainLayout} {b : ArmedProgram}
    (h : Shadowed force none l b) {s : RetainSymbol} (hs : s ∈ l.symbols) :
    s.slice b.vm.state.retain.bytes = s.zeros :=
  congrArg Prod.fst (h.fresh s hs fun _ hnone => nomatch hnone)

/-- What is safe stays safe while the buffer, the jobs and the files stay. -/
theorem World.Safe.of_same {w w' : World} {call : FlushCall} (h : w.Safe call)
    (hsnap : w'.plc.runtime.retainSnap = w.plc.runtime.retainSnap) (hjob : w'.job = w.job)
    (hdisk : w'.disk = w.disk) : w'.Safe call := by
  unfold World.Safe Waits World.Unread World.Flushing at h ⊢
  rw [hsnap, hjob, hdisk]
  exact h

/-- What waits in the buffer is safe whatever is flushed. -/
theorem World.Fresh.of_waits {w w' : World} (h : w.Fresh) (hplc : w'.plc = w.plc)
    (hread : w.Unread) : w'.Fresh := by
  intro info l vm hinfo hl hvm hne hdirty
  rw [hplc] at hinfo hl hvm
  rcases h info l vm hinfo hl hvm hne hdirty with hwaits | ⟨hnot, -⟩
  · exact .inl (hplc ▸ hwaits)
  · exact absurd hread hnot

/-- A scan that publishes. -/
theorem World.Fresh.of_announced {force : Bool} {n : ℕ} {w : World} {rs : List Round} {rt : Runtime}
    (h : Sane force n w) (hn : n + rs.length + 1 < 2 ^ 64)
    (hscan : w.plc.runtime.scan rs = some rt) (hann : w.Announces (.event (.scan rs))) :
    World.Fresh { w with plc := { w.plc with runtime := rt } } := by
  obtain ⟨e, rt₁, hrounds, hsync, rfl, hmid, hsized, hengine, -⟩ :=
    Signals.scan_mid h.good h.signals hn hscan
  obtain ⟨e', hrounds', hzero, hlast⟩ := hann
  obtain rfl := Option.some.inj (hrounds.symm.trans hrounds')
  rw [← hsync, ← hengine] at hlast
  rw [← hengine] at hzero
  intro info l vm hinfo hl hvm hne hdirty
  rcases publishRetainIfDirty_cases hmid hsized with
    ⟨hseq, heq⟩ | ⟨buf, l', vm', -, -, hbuf, -, hvm', hlen, heq⟩
  · have hnone : rt₁.retainSnap = none := by tauto
    dsimp only at hl
    rw [heq] at hl
    obtain ⟨buf, hbuf⟩ := hmid.there l hl hne
    rw [hnone] at hbuf
    cases hbuf
  · dsimp only at hvm
    rw [heq] at hvm
    obtain rfl := Option.some.inj (hvm'.symm.trans hvm)
    obtain ⟨-, -, -, -, htake, hle⟩ := hmid.buffer buf hbuf
    obtain ⟨hread, hslot, -⟩ := publish_waits hlen htake hle hn
    left
    show Waits rt₁.publishRetainIfDirty vm'.state.retain.bytes
    rw [heq]
    exact ⟨_, rfl, hread, hslot⟩

/-- The first program starts with zeros, and so does a load without files. -/
theorem World.Fresh.of_first {force : Bool} {n : ℕ} {w : World} {e : ScanEngine} {l : RetainLayout}
    {b : ArmedProgram} (h : Sane force n w) (hfirst : w.plc.runtime.currentLayout = none)
    (hdisk : ∀ info, w.plc.runtime.armedInfo = some info →
      w.disk info.id = .empty ∧ validateProgramId info.id = .ok ())
    (hsh : Shadowed force w.plc.runtime.currentLayout l b)
    (hle : w.plc.runtime.engine.retainSeq ≤ e.retainSeq)
    (hquiet : e.retainSeq = w.plc.runtime.engine.retainSeq →
      ∀ v', e.vm = some v' → Vm.Quiet b.vm.state v'.state)
    {rt : Runtime} (hrt : rt = Runtime.resizeRetainSnapshot { w.plc.runtime with
      engine := e, currentLayout := some l, armedLayout := none
      currentInfo := w.plc.runtime.armedInfo, armedInfo := none })
    (hsilent : e.retainSeq = 0 ∨ e.retainSeq = rt.lastRetainSeq) :
    World.Fresh { w with plc := { w.plc with runtime := rt } } := by
  have hnobuf : w.plc.runtime.retainSnap = none := by
    rcases hbuf : w.plc.runtime.retainSnap with _ | buf
    · rfl
    · obtain ⟨_, hsome, -⟩ := h.signals.buffer buf hbuf
      rw [hfirst] at hsome
      cases hsome
  have hcases := @resizeRetainSnapshot_cases { w.plc.runtime with
    engine := e, currentLayout := some l, armedLayout := none
    currentInfo := w.plc.runtime.armedInfo, armedInfo := none } l rfl
  rcases hcases with ⟨hzero, heq⟩ | ⟨-, ⟨buf, hbuf, -⟩, -⟩ | ⟨-, heq⟩
  · obtain rfl := hrt.trans heq
    intro info l' vm hinfo hl hvm hne hdirty
    obtain rfl := Option.some.inj hl
    exact absurd hzero hne
  · rw [hnobuf] at hbuf
    cases hbuf
  · obtain rfl := hrt.trans heq
    intro info l' vm hinfo hl hvm hne hdirty
    obtain rfl := Option.some.inj hl
    obtain ⟨hempty, hvalid⟩ := hdisk info hinfo
    have hseq : e.retainSeq = 0 := by simpa using hsilent
    obtain ⟨-, hsame⟩ := hquiet (by omega) vm hvm hdirty
    refine .inr ⟨?_, .inr ⟨h.idle hfirst, ?_⟩⟩
    · rintro ⟨buf, hbuf, hread⟩
      obtain rfl := Option.some.inj hbuf
      cases hread
    · show OnDisk (w.disk info.id) info.id l vm.state.retain.bytes
      rw [hempty, hsame]
      rw [hfirst] at hsh
      exact onDisk_empty hvalid fun s hs => hsh.slice_zeros hs

/-- A scan that publishes nothing and that is calm. -/
theorem World.Fresh.of_silent {force : Bool} {n : ℕ} {w : World} {rs : List Round} {rt : Runtime}
    (h : Sane force n w) (hfresh : w.Fresh) (hn : n + rs.length + 1 < 2 ^ 64)
    (hscan : w.plc.runtime.scan rs = some rt) (hann : ¬w.Announces (.event (.scan rs)))
    (hcalm : w.Calm (.event (.scan rs))) :
    World.Fresh { w with plc := { w.plc with runtime := rt } } := by
  obtain ⟨e, rt₁, hrounds, hsync, rfl, hmid, hsized, hengine, hle, hcases⟩ :=
    Signals.scan_mid h.good h.signals hn hscan
  have hsilent : e.retainSeq = 0 ∨ e.retainSeq = rt₁.lastRetainSeq := by
    by_contra hnot
    rw [not_or] at hnot
    exact hann ⟨e, hrounds, hnot.1, hsync ▸ hnot.2⟩
  have heq : rt₁.publishRetainIfDirty = rt₁ := by
    unfold Runtime.publishRetainIfDirty
    rw [hengine]
    exact if_pos hsilent
  rw [heq]
  rcases hcases with ⟨rfl, hquiet⟩ | ⟨l, b, harmed, harmed', hl, hsh, rfl, hquiet⟩
  · intro info l vm hinfo hl hvm hne hdirty
    obtain ⟨buf, hbuf⟩ := h.signals.there l hl hne
    have hseq : e.retainSeq = w.plc.runtime.engine.retainSeq := by
      have hlast : w.plc.runtime.lastRetainSeq ≤ w.plc.runtime.engine.retainSeq := h.signals.last
      have hwas := h.inStep (by simp [hbuf])
      dsimp only at hsilent
      omega
    obtain ⟨v, hv, hq⟩ := hquiet hseq vm hvm
    obtain ⟨hclean, hsame⟩ := hq hdirty
    have hsafe := hfresh info l v hinfo hl hv hne hclean
    rw [← hsame] at hsafe
    exact hsafe.of_same rfl rfl rfl
  · rcases hcalm e hrounds harmed harmed' with hzero | ⟨hfirst, hdisk⟩
    · have hcore := core_resizeRetainSnapshot { w.plc.runtime with
        engine := e, currentLayout := some l, armedLayout := none
        currentInfo := w.plc.runtime.armedInfo, armedInfo := none }
      intro info l' vm hinfo hl' hvm hne hdirty
      have hlayout : some l = some l' := (congrArg Runtime.currentLayout hcore).symm.trans hl'
      obtain rfl := Option.some.inj hlayout
      exact absurd (hzero l hl) hne
    · exact .of_first h hfirst hdisk hsh hle hquiet rfl hsilent

/-- A restore that loads. -/
theorem World.Fresh.of_restored {force : Bool} {n : ℕ} {w : World} {vm : ArmedVm}
    {retain : ByteSegment} (h : Sane force n w) (hn : n + 1 < 2 ^ 64)
    (hvm : w.plc.runtime.engine.vm = some vm) (hlen : retain.len = vm.state.retain.len) :
    World.Fresh { w with plc := { w.plc with runtime := { w.plc.runtime with
      engine := { w.plc.runtime.engine with vm := some ⟨vm.image, vm.state.withRetain retain⟩ }
      retainSnap := w.plc.runtime.retainSnap.map fun buf => buf.publish retain.bytes } } } := by
  intro info l vm' hinfo hl hvm' hne hdirty
  obtain rfl := Option.some.inj hvm'
  obtain ⟨buf, hbuf⟩ := h.signals.there l hl hne
  obtain ⟨l', hl', hsize, -, htake, hle⟩ := h.signals.buffer buf hbuf
  obtain rfl := Option.some.inj (hl.symm.trans hl')
  have hlen' : retain.bytes.length = buf.size :=
    (hlen.trans (h.good.paired.len vm l hvm hl)).trans hsize.symm
  obtain ⟨hread, hslot, -⟩ := publish_waits hlen' htake hle hn
  exact .inl ⟨_, Option.map_eq_some_iff.mpr ⟨buf, hbuf, rfl⟩, hread, hslot⟩

/-- An image that is taken is on its way. -/
theorem World.Fresh.of_taken {force : Bool} {n : ℕ} {w : World} {who : Actor} {info : ProgramInfo}
    {l : RetainLayout} {buf : RetainSnapshotBuffer} (h : Sane force n w) (hfresh : w.Fresh)
    (hfits : w.Fits) (hcalm : who = .shutdown → w.job .flusher = none ∨ ¬w.Unread)
    (hinfo : w.plc.runtime.currentInfo = some info)
    (hlayout : w.plc.runtime.currentLayout = some l)
    (hbuf : w.plc.runtime.retainSnap = some buf) (hread : buf.unread = true) :
    World.Fresh (World.setJob { w with
      plc := { w.plc with runtime := { w.plc.runtime with
        retainSnap := some { buf with lastTake := buf.seq } } }
      taken := w.taken || who == .shutdown } who
      (some ⟨⟨info.id, l, buf.slots buf.published⟩, none⟩)) := by
  have hunread : w.Unread := ⟨buf, hbuf, hread⟩
  intro info' l' vm hinfo' hl' hvm hne hdirty
  obtain rfl := Option.some.inj (hinfo.symm.trans hinfo')
  obtain rfl := Option.some.inj (hlayout.symm.trans hl')
  obtain ⟨buf', hbuf', -, himage⟩ : Waits w.plc.runtime vm.state.retain.bytes := by
    rcases hfresh info l vm hinfo hlayout hvm hne hdirty with hwaits | ⟨hnot, -⟩
    · exact hwaits
    · exact absurd hunread hnot
  obtain rfl := Option.some.inj (hbuf.symm.trans hbuf')
  have hothers : ∀ a, who ≠ a → w.job a = none := by
    intro a ha
    rcases who with - | -
    · rcases a with - | -
      · exact absurd rfl ha
      · -- the shutdown flushes only after it has taken its image, and then nothing is published
        apply h.before
        by_contra htaken
        exact h.after (by simpa using htaken) hunread
    · rcases a with - | -
      · exact (hcalm rfl).resolve_right fun hnot => hnot hunread
      · exact absurd rfl ha
  refine .inr ⟨?_, .inl ⟨who, _, World.setJob_self _ _ _, ?_, ⟨?_, ?_⟩, ?_⟩⟩
  · rintro ⟨b, hb, hb'⟩
    obtain rfl := Option.some.inj hb
    simp [RetainSnapshotBuffer.unread] at hb'
  · rw [himage]
  · have := hfits l vm hlayout hvm
    rwa [← himage] at this
  · intro ws hws
    cases hws
  · intro a ha
    rw [World.setJob_other ha]
    exact hothers a ha

/-- The flush of the only job, in its next step. -/
theorem World.Fresh.of_flushing {w w' : World} {who : Actor} {job : Job} (h : w.Fresh)
    (hjob : w.job who = some job) (hplc : w'.plc = w.plc)
    (hnext : (∀ a, who ≠ a → w.job a = none) → job.Sound w.disk → w'.Flushing job.call ∨
      ((∀ a, w'.job a = none) ∧
        OnDisk (w'.disk job.call.id) job.call.id job.call.layout job.call.image)) : w'.Fresh := by
  intro info l vm hinfo hl hvm hne hdirty
  rw [hplc] at hinfo hl hvm
  rcases h info l vm hinfo hl hvm hne hdirty with
    hwaits | ⟨hnot, ⟨a, job', hjob', hcall, hsound, hothers⟩ | ⟨hnone, -⟩⟩
  · exact .inl (hplc ▸ hwaits)
  · have hwho : a = who := by
      by_contra hne
      rw [hothers who hne] at hjob
      cases hjob
    subst hwho
    obtain rfl := Option.some.inj (hjob.symm.trans hjob')
    rw [← hcall]
    refine .inr ⟨?_, hnext hothers hsound⟩
    unfold World.Unread
    rw [hplc]
    exact hnot
  · rw [hnone who] at hjob
    cases hjob

/-- **Where the last image is after a step.** -/
theorem World.Fresh.step {force : Bool} {w w' : World} {act : Act} {past : List (Act × World)}
    (h : Sane force (World.ticks past) w) (hdoes : Does force w act w')
    (hn : World.ticks ((act, w) :: past) < 2 ^ 64)
    (hcalm : w.Announces act ∨ (w.Calm act ∧ w.Fresh)) : w'.Fresh := by
  cases hdoes with
  | handled ev hgood hsame hscan =>
      obtain ⟨-, hfresh⟩ : w.Calm (.event ev) ∧ w.Fresh := by
        rcases hcalm with hann | hcalm
        · cases ev with
          | scan rs => exact absurd rfl (hscan rs)
          | _ => exact hann.elim
        · exact hcalm
      intro info l vm hinfo hl hvm hne hdirty
      have hsafe := hfresh info l vm (hsame.info ▸ hinfo) (hsame.layout ▸ hl) (hsame.vm ▸ hvm) hne
        hdirty
      exact hsafe.of_same hsame.snap rfl rfl
  | @scanned rs rt hrunning hscan =>
      by_cases hann : w.Announces (.event (.scan rs))
      · exact .of_announced h hn hscan hann
      · obtain ⟨hcalm, hfresh⟩ := hcalm.resolve_left hann
        exact .of_silent h hfresh hn hscan hann hcalm
  | kept hrunning hnot => exact (hcalm.resolve_left hnot).2
  | restored hrunning hvm hlen => exact .of_restored h hn hvm hlen
  | stopped => exact (hcalm.resolve_left id).2
  | nothing hjob hend hread => exact (hcalm.resolve_left id).2
  | took hjob hend hinfo hlayout hbuf hread =>
      obtain ⟨⟨hfits, hshutdown⟩, hfresh⟩ := hcalm.resolve_left id
      exact .of_taken h hfresh hfits hshutdown hinfo hlayout hbuf hread
  | @planned who call report ws hjob hwrites =>
      refine (hcalm.resolve_left id).2.of_flushing hjob rfl ?_
      intro hothers hsound
      refine .inl ⟨who, _, World.setJob_self _ _ _, rfl, ⟨hsound.1, ?_⟩, ?_⟩
      · intro ws' hws'
        obtain rfl := Option.some.inj hws'
        exact ⟨w.disk call.id, report, except_bind_ok.mpr ⟨_, hwrites, rfl⟩⟩
      · intro a ha
        rw [World.setJob_other ha]
        exact hothers a ha
  | refused hjob hwrites =>
      obtain ⟨⟨job, out, hjob', hout⟩ | hread, hfresh⟩ := hcalm.resolve_left id
      · obtain rfl := Option.some.inj (hjob.symm.trans hjob')
        rw [hwrites] at hout
        cases hout
      · exact hfresh.of_waits rfl hread
  | @wrote who call name bytes ws hjob =>
      refine (hcalm.resolve_left id).2.of_flushing hjob rfl ?_
      rintro hothers ⟨hfits, hwrites⟩
      obtain ⟨fs, report, hflush⟩ := hwrites _ rfl
      by_cases hws : ws = []
      · right
        subst hws
        refine ⟨?_, ?_⟩
        · intro a
          by_cases ha : who = a
          · subst ha
            rw [World.setJob_self, if_pos rfl]
          · rw [World.setJob_other ha]
            exact hothers a ha
        · apply onDisk_of_flush hfits
          rw [World.disk_written]
          exact hflush
      · left
        rw [if_neg hws]
        refine ⟨who, _, World.setJob_self _ _ _, rfl, ⟨hfits, ?_⟩, ?_⟩
        · intro ws' hws'
          obtain rfl := Option.some.inj hws'
          refine ⟨fs, report, ?_⟩
          rw [World.disk_written]
          exact hflush
        · intro a ha
          rw [World.setJob_other ha]
          exact hothers a ha
  | failed hjob =>
      obtain ⟨hread, hfresh⟩ := hcalm.resolve_left id
      exact hfresh.of_waits rfl hread

/-! ## Whole histories -/

/-- A history without wrapped sequence numbers. -/
theorem World.History.sane {force : Bool} {w : World} {past : List (Act × World)}
    (h : World.History force w past) (hn : World.ticks past < 2 ^ 64) :
    Sane force (World.ticks past) w := by
  induction h with
  | start tasks order nI nQ disk =>
      refine ⟨good_start force tasks order nI nQ, ⟨Nat.zero_le _, Nat.zero_le _, ?_, ?_⟩, ?_, ?_, ?_, ?_,
        ?_⟩
      · intro buf hbuf
        cases hbuf
      · intro l hl
        cases hl
      · intro hsome
        exact absurd rfl hsome
      · exact fun _ _ => rfl
      · exact fun _ => rfl
      · exact fun _ => rfl
      · intro htrue
        cases htrue
  | step h hstep ih =>
      have hsane := ih ((World.ticks_le _ _ _).trans_lt hn)
      exact hsane.step (World.step_does hsane hstep) hn

/-- After a settled history the last image waits, is on its way, or is in the files. -/
theorem World.History.fresh {force : Bool} {w : World} {past : List (Act × World)}
    (h : World.History force w past) (hn : World.ticks past < 2 ^ 64)
    (hsettled : World.Settled past) : w.Fresh := by
  induction h with
  | start tasks order nI nQ disk =>
      intro info l vm hinfo
      cases hinfo
  | @step w w' act past h hstep ih =>
      have hlt := (World.ticks_le act w past).trans_lt hn
      have hsane := h.sane hlt
      refine .step hsane (World.step_does hsane hstep) hn ?_
      rcases hsettled with hann | ⟨hcalm, hsettled⟩
      · exact .inl hann
      · exact .inr ⟨hcalm, ih hlt hsettled⟩

/-- **Retained values survive a graceful restart**, in every history that is settled, once the shutdown
has taken its image and all flushes have ended, unless the last run of the program failed after it
stored a retained value. -/
theorem restart_keeps_retain {force : Bool} {w : World} {past : List (Act × World)}
    (h : World.History force w past) (hn : World.ticks past < 2 ^ 64)
    (hsettled : World.Settled past) (htaken : w.taken = true) (hjobs : ∀ who, w.job who = none)
    {info : ProgramInfo} {l : RetainLayout} {vm : ArmedVm}
    (hinfo : w.plc.runtime.currentInfo = some info) (hl : w.plc.runtime.currentLayout = some l)
    (hvm : w.plc.runtime.engine.vm = some vm) (hclean : vm.state.retainDirty = false) :
    ∀ s ∈ l.symbols, ∃ image report,
      load (w.disk info.id) info.id l l.retainSize = .ok (image, report) ∧
        s.slice image = s.slice vm.state.retain.bytes := by
  intro s hs
  have hne : l.retainSize ≠ 0 := by
    have hb := l.bounded s hs
    have hpos := s.ty.byteWidth_pos
    unfold RetainSymbol.endOffset at hb
    omega
  rcases h.fresh hn hsettled info l vm hinfo hl hvm hne hclean with
    hwaits | ⟨-, ⟨who, job, hjob, -⟩ | ⟨-, image, report, hload, hsame⟩⟩
  · obtain ⟨buf, hbuf, hread, -⟩ := hwaits
    exact absurd ⟨buf, hbuf, hread⟩ ((h.sane hn).after htaken)
  · rw [hjobs who] at hjob
    cases hjob
  · exact ⟨image, report, hload, hsame s hs⟩

/-- A run is a history. -/
theorem World.History.run {force : Bool} {w w' : World} {past : List (Act × World)}
    (h : World.History force w past) {acts : List Act} (hrun : w.run force acts = some w') :
    ∃ past', World.History force w' past' ∧
      World.ticks past' = World.ticks past + (acts.map Act.ticks).sum := by
  induction acts generalizing w past with
  | nil =>
      cases hrun
      exact ⟨past, h, rfl⟩
  | cons act acts ih =>
      obtain ⟨w₁, hstep, hrun⟩ := Option.bind_eq_some_iff.mp hrun
      obtain ⟨past', h', hticks⟩ := ih (h.step hstep) hrun
      refine ⟨past', h', hticks.trans ?_⟩
      rw [World.ticks, List.map_cons, List.sum_cons, Nat.add_assoc]

/-- The device with an empty store. -/
def World.newDevice : World := .start device fun _ => .empty

/-- A flush from beginning to end. -/
def flushActs (who : Actor) : List Act := [.read who, .plan who, .write who, .write who]

/-- The length of what a flush of the current program would encode to. -/
def World.payloadLength (w : World) : Option ℕ := do
  let layout ← w.plc.runtime.currentLayout
  let vm ← w.plc.runtime.engine.vm
  let payload ← (encodeRecords layout vm.state.retain.bytes).toOption
  some payload.length

theorem World.fits_of_payloadLength {w : World} {n : ℕ} (h : w.payloadLength = some n)
    (hn : n < 2 ^ 32) : w.Fits := by
  intro layout vm hl hvm payload hpayload
  obtain ⟨layout', hl', h⟩ := Option.bind_eq_some_iff.mp h
  obtain ⟨vm', hvm', h⟩ := Option.bind_eq_some_iff.mp h
  obtain ⟨payload', hpayload', h⟩ := Option.bind_eq_some_iff.mp h
  cases hl.symm.trans hl'
  cases hvm.symm.trans hvm'
  cases hpayload.symm.trans (except_of_toOption hpayload')
  cases h
  exact hn

/-- What a restart has to bring back. -/
structure Retained where
  id : String
  symbols : List RetainSymbol
  dirty : Bool
  bytes : List UInt8
  deriving DecidableEq

def World.retained (w : World) : Option Retained := do
  let info ← w.plc.runtime.currentInfo
  let layout ← w.plc.runtime.currentLayout
  let vm ← w.plc.runtime.engine.vm
  some ⟨info.id, layout.symbols, vm.state.retainDirty, vm.state.retain.bytes⟩

theorem World.retained_some {w : World} {kept : Retained} (h : w.retained = some kept) :
    ∃ info l vm, w.plc.runtime.currentInfo = some info ∧ w.plc.runtime.currentLayout = some l ∧
      w.plc.runtime.engine.vm = some vm ∧
      kept = ⟨info.id, l.symbols, vm.state.retainDirty, vm.state.retain.bytes⟩ := by
  obtain ⟨info, hinfo, h⟩ := Option.bind_eq_some_iff.mp h
  obtain ⟨l, hl, h⟩ := Option.bind_eq_some_iff.mp h
  obtain ⟨vm, hvm, h⟩ := Option.bind_eq_some_iff.mp h
  cases h
  exact ⟨info, l, vm, hinfo, hl, hvm, rfl⟩

/-- Nobody flushes, and the shutdown has. -/
def World.ended (w : World) : Bool :=
  w.taken && (w.job .flusher).isNone && (w.job .shutdown).isNone

theorem World.ended_iff {w : World} :
    w.ended = true ↔ w.taken = true ∧ ∀ who, w.job who = none := by
  unfold World.ended
  rw [Bool.and_eq_true, Bool.and_eq_true, Option.isNone_iff_eq_none, Option.isNone_iff_eq_none]
  constructor
  · rintro ⟨⟨htaken, hflusher⟩, hshutdown⟩
    refine ⟨htaken, ?_⟩
    intro who
    cases who with
    | flusher => exact hflusher
    | shutdown => exact hshutdown
  · rintro ⟨htaken, hjobs⟩
    exact ⟨⟨htaken, hjobs .flusher⟩, hjobs .shutdown⟩

/-- The value of the first program is in the files after the shutdown. -/
theorem restart_keeps_retain_set :
    ∃ w past info l vm s image report, World.History false w past ∧ World.Settled past ∧
      w.plc.runtime.currentInfo = some info ∧ info.id = "set" ∧
      w.plc.runtime.currentLayout = some l ∧ w.plc.runtime.engine.vm = some vm ∧
      l.symbols = [s] ∧ s.slice vm.state.retain.bytes = [7, 0, 0, 0] ∧
      load (w.disk info.id) info.id l l.retainSize = .ok (image, report) ∧
      s.slice image = s.slice vm.state.retain.bytes := by
  have hrun : (do
      let w₁ ← World.newDevice.run false
        (((swapEvents setPackage setPackage).take 5).map Act.event)
      let w₂ ← w₁.step false (.event (.scan [roundAt 0]))
      let w₃ ← w₂.step false .stop
      let w₄ ← w₃.step false (.read .shutdown)
      let w₅ ← w₄.step false (.plan .shutdown)
      let w₆ ← w₅.step false (.write .shutdown)
      let w₇ ← w₆.step false (.write .shutdown)
      let e ← w₁.plc.runtime.engine.applyModeBoundary.rounds [roundAt 0]
      let job ← w₄.job .shutdown
      let _ ← (flushWrites (w₄.disk job.call.id) job.call.id job.call.layout
        job.call.image).toOption
      let n ← w₃.payloadLength
      let kept ← w₇.retained
      some (e.retainSeq,
        ({ w₁.plc.runtime with engine := e } : Runtime).syncLayoutsAfterStep.lastRetainSeq,
        (w₃.job .flusher).isNone, w₇.ended, n, kept)) =
      some (1, 0, true, true, 9, ⟨"set", [⟨"n", .dint, 0⟩], false, [7, 0, 0, 0]⟩) := by
    decide +kernel
  obtain ⟨w₁, h₁, hrun⟩ := Option.bind_eq_some_iff.mp hrun
  obtain ⟨w₂, h₂, hrun⟩ := Option.bind_eq_some_iff.mp hrun
  obtain ⟨w₃, h₃, hrun⟩ := Option.bind_eq_some_iff.mp hrun
  obtain ⟨w₄, h₄, hrun⟩ := Option.bind_eq_some_iff.mp hrun
  obtain ⟨w₅, h₅, hrun⟩ := Option.bind_eq_some_iff.mp hrun
  obtain ⟨w₆, h₆, hrun⟩ := Option.bind_eq_some_iff.mp hrun
  obtain ⟨w₇, h₇, hrun⟩ := Option.bind_eq_some_iff.mp hrun
  obtain ⟨e, he, hrun⟩ := Option.bind_eq_some_iff.mp hrun
  obtain ⟨job, hjob, hrun⟩ := Option.bind_eq_some_iff.mp hrun
  obtain ⟨out, hout, hrun⟩ := Option.bind_eq_some_iff.mp hrun
  obtain ⟨n, hlen, hrun⟩ := Option.bind_eq_some_iff.mp hrun
  obtain ⟨kept, hretained, hrun⟩ := Option.bind_eq_some_iff.mp hrun
  simp only [Option.some.injEq, Prod.mk.injEq] at hrun
  obtain ⟨hseq, hlast, hidle, hended, rfl, rfl⟩ := hrun
  obtain ⟨past, hist, hticks⟩ := (World.History.start _ _ _ _ _).run h₁
  have hist' := hist.step h₂ |>.step h₃ |>.step h₄ |>.step h₅ |>.step h₆ |>.step h₇
  have hsettled : World.Settled ((.write .shutdown, w₆) :: (.write .shutdown, w₅) ::
      (.plan .shutdown, w₄) :: (.read .shutdown, w₃) :: (.stop, w₂) ::
      (.event (.scan [roundAt 0]), w₁) :: past) := by
    refine .inr ⟨trivial, .inr ⟨trivial, .inr ⟨.inl ⟨job, out, hjob, except_of_toOption hout⟩, .inr ⟨⟨?_, ?_⟩,
      .inr ⟨trivial, .inl ⟨e, he, ?_, ?_⟩⟩⟩⟩⟩⟩
    · exact World.fits_of_payloadLength hlen (by norm_num)
    · exact fun _ => .inl (Option.isNone_iff_eq_none.mp hidle)
    · rw [hseq]
      decide
    · intro hsame
      exact absurd (hseq.symm.trans (hsame.trans hlast)) (by decide)
  obtain ⟨htaken, hjobs⟩ := World.ended_iff.mp hended
  obtain ⟨info, l, vm, hinfo, hl, hvm, hkept⟩ := World.retained_some hretained
  obtain ⟨hid, hsymbols, hclean, hbytes⟩ := Retained.mk.inj hkept
  have hn : World.ticks ((.write .shutdown, w₆) :: (.write .shutdown, w₅) ::
      (.plan .shutdown, w₄) :: (.read .shutdown, w₃) :: (.stop, w₂) ::
      (.event (.scan [roundAt 0]), w₁) :: past) < 2 ^ 64 := by
    have hnone : World.ticks past = 0 := hticks
    simp only [World.ticks, Act.ticks, hnone]
    decide
  obtain ⟨image, report, hload, hsame⟩ := restart_keeps_retain hist' hn hsettled htaken hjobs hinfo
    hl hvm hclean.symm ⟨"n", .dint, 0⟩ (by simp [← hsymbols])
  refine ⟨w₇, _, info, l, vm, ⟨"n", .dint, 0⟩, image, report, hist', hsettled, hinfo, hid.symm, hl,
    hvm, hsymbols.symm, ?_, hload, hsame⟩
  rw [← hbytes]
  rfl

/-- A program writes a value, the flusher stores it, and a second program with the same symbol takes it
over. The shutdown finds nothing to flush under the id of the second program. -/
theorem restart_loses_moved_value :
    ∃ w past info l vm s image report, World.History false w past ∧ World.ticks past < 2 ^ 64 ∧
      w.taken = true ∧ (∀ who, w.job who = none) ∧
      w.plc.runtime.currentInfo = some info ∧ w.plc.runtime.currentLayout = some l ∧
      w.plc.runtime.engine.vm = some vm ∧ vm.state.retainDirty = false ∧ s ∈ l.symbols ∧
      load (w.disk info.id) info.id l l.retainSize = .ok (image, report) ∧
      s.slice vm.state.retain.bytes = [7, 0, 0, 0] ∧ s.slice image = [0, 0, 0, 0] := by
  have hrun : (do
      let w ← World.newDevice.run false
        (((swapEvents setPackage (idlePackage "idle")).take 6).map Act.event ++
          flushActs .flusher ++ ((swapEvents setPackage (idlePackage "idle")).drop 6).map Act.event ++
          flushActs .flusher ++ [.event (.scan [roundAt 20]), .stop, .read .shutdown])
      let layout ← w.plc.runtime.currentLayout
      let out ← (load (w.disk "idle") "idle" layout layout.retainSize).toOption
      let kept ← w.retained
      some (w.ended, out.1, kept)) =
      some (true, [0, 0, 0, 0], ⟨"idle", [⟨"n", .dint, 0⟩], false, [7, 0, 0, 0]⟩) := by
    decide +kernel
  obtain ⟨w, hw, hrun⟩ := Option.bind_eq_some_iff.mp hrun
  obtain ⟨layout, hlayout, hrun⟩ := Option.bind_eq_some_iff.mp hrun
  obtain ⟨⟨image, report⟩, hload, hrun⟩ := Option.bind_eq_some_iff.mp hrun
  obtain ⟨kept, hretained, hrun⟩ := Option.bind_eq_some_iff.mp hrun
  simp only [Option.some.injEq, Prod.mk.injEq] at hrun
  obtain ⟨hended, himage, rfl⟩ := hrun
  obtain ⟨past, hist, hticks⟩ := (World.History.start _ _ _ _ _).run hw
  obtain ⟨htaken, hjobs⟩ := World.ended_iff.mp hended
  obtain ⟨info, l, vm, hinfo, hl, hvm, hkept⟩ := World.retained_some hretained
  obtain ⟨hid, hsymbols, hclean, hbytes⟩ := Retained.mk.inj hkept
  rw [hid] at hload
  obtain rfl := Option.some.inj (hlayout.symm.trans hl)
  refine ⟨w, past, info, layout, vm, ⟨"n", .dint, 0⟩, image, report, hist, ?_, htaken, hjobs, hinfo,
    hl, hvm, hclean.symm, by simp [← hsymbols], except_of_toOption hload, ?_, ?_⟩
  · rw [hticks]
    decide
  · rw [← hbytes]
    rfl
  · rw [himage]
    rfl

end SoftPlc.Scan
