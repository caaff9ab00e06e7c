import SoftPlc.Scan.Loop

/-!
# Deferred installs

An install attempt of `plc-scan/src/engine.rs` copies the retain values of the current machine into
the armed one before it looks at the time the copies took. `deferred_install` says that an attempt
that took too long changes nothing else, and that a later install ends as if the attempt had never
been made: copies write the same ranges every time (`blitCopies_agree`).
-/

namespace SoftPlc.Scan

open SoftPlc.Ir SoftPlc.Vm SoftPlc.Io SoftPlc.Lib

/-! ## Copies into a segment -/

/-- Some copy writes a position. -/
def Written (copies : List RetainCopy) (i : ℕ) : Prop :=
  ∃ c ∈ copies, c.dstOffset ≤ i ∧ i < c.dstOffset + c.len

/-- Two segments that agree wherever no copy writes. -/
structure AgreeOff (copies : List RetainCopy) (s t : ByteSegment) : Prop where
  len : t.len = s.len
  bytes : ∀ i, ¬Written copies i → t.bytes[i]? = s.bytes[i]?
  tags : ∀ i, ¬Written copies i → t.tags[i]? = s.tags[i]?

namespace AgreeOff

variable {copies : List RetainCopy} {s t u : ByteSegment}

theorem refl (copies : List RetainCopy) (s : ByteSegment) : AgreeOff copies s s :=
  ⟨rfl, fun _ _ => rfl, fun _ _ => rfl⟩

theorem symm (h : AgreeOff copies s t) : AgreeOff copies t s :=
  ⟨h.len.symm, fun i hi => (h.bytes i hi).symm, fun i hi => (h.tags i hi).symm⟩

theorem trans (h : AgreeOff copies s t) (h' : AgreeOff copies t u) : AgreeOff copies s u :=
  ⟨h'.len.trans h.len, fun i hi => (h'.bytes i hi).trans (h.bytes i hi),
    fun i hi => (h'.tags i hi).trans (h.tags i hi)⟩

theorem cons {c : RetainCopy} (h : AgreeOff copies s t) : AgreeOff (c :: copies) s t := by
  have hmono : ∀ i, ¬Written (c :: copies) i → ¬Written copies i := by
    rintro i hi ⟨d, hd, hrange⟩
    exact hi ⟨d, List.mem_cons_of_mem _ hd, hrange⟩
  exact ⟨h.len, fun i hi => h.bytes i (hmono i hi), fun i hi => h.tags i (hmono i hi)⟩

/-- Without copies they are the same. -/
theorem eq_of_nil (h : AgreeOff [] s t) : t = s := by
  have hnone : ∀ i, ¬Written [] i := by
    rintro i ⟨c, hc, -⟩
    cases hc
  have hbytes : t.bytes = s.bytes := List.ext_getElem? fun i => h.bytes i (hnone i)
  have htags : t.tags = s.tags := List.ext_getElem? fun i => h.tags i (hnone i)
  rcases s with ⟨sb, st, _⟩
  rcases t with ⟨tb, tt, _⟩
  cases hbytes
  cases htags
  rfl

end AgreeOff

/-- When a copy succeeds. -/
theorem blitFrom_ok_iff {s src : ByteSegment} {dst off n : ℕ} :
    (∃ s', s.blitFrom dst src off n = .ok s') ↔ dst + n ≤ s.len ∧ off + n ≤ src.len := by
  unfold ByteSegment.blitFrom
  constructor
  · rintro ⟨s', h⟩
    split_ifs at h with hout
    omega
  · intro h
    exact ⟨_, dif_neg (by omega)⟩

/-- What a copy writes. -/
theorem blitFrom_getElem? {s src s' : ByteSegment} {dst off n : ℕ}
    (h : s.blitFrom dst src off n = .ok s') :
    s'.len = s.len ∧
      (∀ i, s'.bytes[i]? = if dst ≤ i ∧ i < dst + n then src.bytes[off + (i - dst)]?
        else s.bytes[i]?) ∧
      ∀ i, s'.tags[i]? = if dst ≤ i ∧ i < dst + n then src.tags[off + (i - dst)]?
        else s.tags[i]? := by
  obtain ⟨hdst, hsrc⟩ := blitFrom_ok_iff.mp ⟨s', h⟩
  unfold ByteSegment.blitFrom at h
  rw [dif_neg (by omega)] at h
  cases h
  have hbytes : (readAt src.bytes off n).length = n := readAt_length hsrc
  have htags : (readAt src.tags off n).length = n :=
    readAt_length (hsrc.trans src.tags_length.ge)
  have hfit : dst + (readAt src.bytes off n).length ≤ s.bytes.length := by
    rw [hbytes]
    exact hdst
  have hfitTags : dst + (readAt src.tags off n).length ≤ s.tags.length := by
    rw [htags, s.tags_length]
    exact hdst
  refine ⟨writeAt_length hfit, ?_, ?_⟩
  · intro i
    rw [getElem?_writeAt hfit, hbytes]
    split_ifs with hi
    · rw [getElem?_readAt, if_pos (by omega)]
    · rfl
  · intro i
    rw [getElem?_writeAt hfitTags, htags]
    split_ifs with hi
    · rw [getElem?_readAt, if_pos (by omega)]
    · rfl

section Copies

variable {src s t s' : ByteSegment} {copies : List RetainCopy}

/-- Copies change only what they write. -/
theorem blitCopies_off {res : Except VmError Unit}
    (h : ScanEngine.blitCopies src copies s = (s', res)) : AgreeOff copies s s' := by
  induction copies generalizing s with
  | nil =>
      cases h
      exact .refl _ _
  | cons c rest ih =>
      rw [ScanEngine.blitCopies] at h
      rcases hblit : s.blitFrom c.dstOffset src c.srcOffset c.len with err | s₁
      · rw [hblit] at h
        cases h
        exact .refl _ _
      · rw [hblit] at h
        obtain ⟨hlen, hbytes, htags⟩ := blitFrom_getElem? hblit
        have hout : ∀ i, ¬Written (c :: rest) i →
            ¬(c.dstOffset ≤ i ∧ i < c.dstOffset + c.len) := fun i hi hrange =>
          hi ⟨c, List.mem_cons_self, hrange⟩
        have hfirst : AgreeOff (c :: rest) s s₁ :=
          ⟨hlen, fun i hi => by rw [hbytes, if_neg (hout i hi)],
            fun i hi => by rw [htags, if_neg (hout i hi)]⟩
        exact hfirst.trans (ih h).cons

/-- **Copies forget what they overwrite**: from segments that agree elsewhere they lead to the same
one. -/
theorem blitCopies_agree (hagree : AgreeOff copies s t)
    (h : ScanEngine.blitCopies src copies s = (s', .ok ())) :
    ScanEngine.blitCopies src copies t = (s', .ok ()) := by
  induction copies generalizing s t with
  | nil =>
      rw [hagree.eq_of_nil]
      exact h
  | cons c rest ih =>
      rw [ScanEngine.blitCopies] at h ⊢
      rcases hs : s.blitFrom c.dstOffset src c.srcOffset c.len with err | s₁
      · rw [hs] at h
        cases h
      · rw [hs] at h
        have hfits := blitFrom_ok_iff.mp ⟨s₁, hs⟩
        rw [← hagree.len] at hfits
        obtain ⟨t₁, ht⟩ := blitFrom_ok_iff.mpr hfits
        rw [ht]
        obtain ⟨hslen, hsbytes, hstags⟩ := blitFrom_getElem? hs
        obtain ⟨htlen, htbytes, httags⟩ := blitFrom_getElem? ht
        have hnot : ∀ i, ¬(c.dstOffset ≤ i ∧ i < c.dstOffset + c.len) → ¬Written rest i →
            ¬Written (c :: rest) i := by
          rintro i hc hrest ⟨d, hd, hrange⟩
          rcases List.mem_cons.mp hd with rfl | hd
          · exact hc hrange
          · exact hrest ⟨d, hd, hrange⟩
        refine ih ⟨?_, ?_, ?_⟩ h
        · rw [htlen, hslen, hagree.len]
        · intro i hi
          rw [htbytes, hsbytes]
          split_ifs with hc
          · rfl
          · exact hagree.bytes i (hnot i hc hi)
        · intro i hi
          rw [httags, hstags]
          split_ifs with hc
          · rfl
          · exact hagree.tags i (hnot i hc hi)

/-- Copies between the two segments all succeed. -/
theorem blitCopies_fit (hfit : ∀ c ∈ copies, c.dstOffset + c.len ≤ s.len ∧
    c.srcOffset + c.len ≤ src.len) : ∃ s', ScanEngine.blitCopies src copies s = (s', .ok ()) := by
  induction copies generalizing s with
  | nil => exact ⟨s, rfl⟩
  | cons c rest ih =>
      obtain ⟨s₁, hs₁⟩ := blitFrom_ok_iff.mpr (hfit c List.mem_cons_self)
      rw [ScanEngine.blitCopies, hs₁]
      apply ih
      intro d hd
      rw [(blitFrom_getElem? hs₁).1]
      exact hfit d (List.mem_cons_of_mem _ hd)

end Copies

/-! ## The armed program -/

/-- The program with another retain segment. -/
def ArmedProgram.withRetain (a : ArmedProgram) (retain : ByteSegment) : ArmedProgram :=
  { a with vm := ⟨a.vm.image, a.vm.state.withRetain retain⟩ }

/-- The same program, up to the retain values that its copies write. -/
def Reblit (a a' : ArmedProgram) : Prop :=
  ∃ retain, a' = a.withRetain retain ∧ AgreeOff a.retainCopies a.vm.state.retain retain

/-- What attempts under a current machine make of an armed program. -/
def Attempted (vm : Option ArmedVm) (a a' : ArmedProgram) : Prop :=
  a' = a ∨ (vm.isSome ∧ Reblit a a')

/-- Every copy of a program lies inside the retain segments of the two machines. -/
def CopiesFit (a : ArmedProgram) (vm : Option ArmedVm) : Prop :=
  ∀ v, vm = some v → ∀ c ∈ a.retainCopies, c.dstOffset + c.len ≤ a.vm.state.retain.len ∧
    c.srcOffset + c.len ≤ v.state.retain.len

section Programs

variable {a a' b : ArmedProgram} {vm : Option ArmedVm}

theorem withRetain_withRetain (a : ArmedProgram) (r r' : ByteSegment) :
    (a.withRetain r).withRetain r' = a.withRetain r' := rfl

/-- What an attempt under a current machine makes of an armed program. -/
theorem blitRetainInto_some {v : ArmedVm} {res : Except VmError Unit} :
    ScanEngine.blitRetainInto a (some v) = (b, res) ↔ ∃ retain,
      ScanEngine.blitCopies v.state.retain a.retainCopies a.vm.state.retain = (retain, res) ∧
        b = a.withRetain retain := by
  show (a.withRetain (ScanEngine.blitCopies v.state.retain a.retainCopies a.vm.state.retain).1,
    (ScanEngine.blitCopies v.state.retain a.retainCopies a.vm.state.retain).2) = (b, res) ↔ _
  rcases ScanEngine.blitCopies v.state.retain a.retainCopies a.vm.state.retain with ⟨r, res'⟩
  constructor
  · intro h
    cases h
    exact ⟨r, rfl, rfl⟩
  · rintro ⟨retain, h, rfl⟩
    cases h
    rfl

theorem Attempted.refl (vm : Option ArmedVm) (a : ArmedProgram) : Attempted vm a a := .inl rfl

/-- One more attempt. -/
theorem Attempted.blit {res : Except VmError Unit} (h : Attempted vm a a')
    (hblit : ScanEngine.blitRetainInto a' vm = (b, res)) : Attempted vm a b := by
  rcases vm with _ | v
  · cases hblit
    exact h
  · obtain ⟨retain, hcopies, rfl⟩ := blitRetainInto_some.mp hblit
    rcases h with rfl | ⟨-, r, rfl, hagree⟩
    · exact .inr ⟨rfl, retain, rfl, blitCopies_off hcopies⟩
    · exact .inr ⟨rfl, retain, withRetain_withRetain a r retain,
        hagree.trans (blitCopies_off hcopies)⟩

/-- **Attempts do not matter to copies that succeed.** -/
theorem Attempted.same (h : Attempted vm a a')
    (hblit : ScanEngine.blitRetainInto a' vm = (b, .ok ())) :
    ScanEngine.blitRetainInto a vm = (b, .ok ()) := by
  rcases h with rfl | ⟨hsome, r, rfl, hagree⟩
  · exact hblit
  · obtain ⟨v, rfl⟩ := Option.isSome_iff_exists.mp hsome
    obtain ⟨retain, hcopies, rfl⟩ := blitRetainInto_some.mp hblit
    apply blitRetainInto_some.mpr
    exact ⟨retain, blitCopies_agree hagree.symm hcopies, withRetain_withRetain a r retain⟩

/-- Copies that fit succeed. -/
theorem blitRetainInto_fit (h : CopiesFit a vm) :
    ∃ b, ScanEngine.blitRetainInto a vm = (b, .ok ()) := by
  rcases vm with _ | v
  · exact ⟨a, rfl⟩
  · obtain ⟨retain, hcopies⟩ := blitCopies_fit (h v rfl)
    exact ⟨_, blitRetainInto_some.mpr ⟨retain, hcopies, rfl⟩⟩

/-- Attempts leave everything but retain values alone. -/
theorem Attempted.program (h : Attempted vm a a') :
    a'.programId = a.programId ∧ a'.compatibilityHash = a.compatibilityHash ∧
      a'.taskEntries = a.taskEntries ∧ a'.retainCopies = a.retainCopies ∧
      a'.vm.image = a.vm.image := by
  rcases h with rfl | ⟨-, r, rfl, -⟩
  · exact ⟨rfl, rfl, rfl, rfl, rfl⟩
  · exact ⟨rfl, rfl, rfl, rfl, rfl⟩

end Programs

/-! ## Attempts -/

/-- An install is attempted: it is requested, and the highest task is due. Source: `engine.rs`, the
tests of `ScanEngine::try_epoch_install` before it measures. -/
structure Attempts (e : IoEngine) (c : Cycle) (a : ArmedProgram) : Prop where
  requested : e.base.activateRequested = true
  armed : e.base.armed = some a
  due : ∃ task, e.base.pickDue c.installMs = some task ∧ some task = e.base.scheduleOrder.head?

/-- The engine with another program armed and other deferral counters. -/
def rearmed (e : IoEngine) (a : ArmedProgram) (count : ℕ) (last : Bool) : IoEngine :=
  { e with base := { e.base with armed := some a, deferredCount := count, lastDeferred := last } }

/-- The engine after a deferral. -/
def deferred (e : IoEngine) (a : ArmedProgram) : IoEngine :=
  { e with base := { e.base with
      armed := some a, phase := .armed, activateRequested := false, lastDeferred := true
      deferredCount := ScanEngine.satAdd64 e.base.deferredCount 1 } }

section Attempts

variable {e e' : IoEngine} {c : Cycle} {a b : ArmedProgram}

/-- An attempt whose copies succeed is deferred when it took too long, and commits otherwise. -/
theorem attempt_cases (h : Attempts e c a)
    (hblit : ScanEngine.blitRetainInto a e.base.vm = (b, .ok ())) :
    e.tryEpochInstall c =
      if c.installUs ≥ e.base.minTaskPeriodUs then (deferred e b, [])
      else (({ e with base := ({ e.base with armed := none } : ScanEngine).commitInstall b c.commitMs }
        : IoEngine).commitIo, [.installed e.armedRestart (e.io.image.outputs.map TypedSlot.written)]) := by
  obtain ⟨hreq, harmed, task, hdue, hhead⟩ := h
  have hdue' : e.base.pickDue (IoEngine.toRound c [] false false).installMs = some task := hdue
  unfold IoEngine.tryEpochInstall ScanEngine.tryEpochInstall
  rw [if_neg (by rw [hreq]; decide), harmed]
  dsimp only
  rw [hdue']
  dsimp only
  rw [if_neg (not_not.mpr hhead), hblit]
  dsimp only
  by_cases hlate : c.installUs ≥ e.base.minTaskPeriodUs
  · rw [if_pos hlate, if_pos (show (IoEngine.toRound c [] false false).installUs ≥ _ from hlate)]
    rfl
  · rw [if_neg hlate, if_neg (show ¬(IoEngine.toRound c [] false false).installUs ≥ _ from hlate)]
    rfl

/-- A check that commits was an attempt. -/
theorem attempts_of_commit {marks : List Mark} (h : e.tryEpochInstall c = (e', marks))
    (hmarks : marks ≠ []) :
    ∃ a b, Attempts e c a ∧ ScanEngine.blitRetainInto a e.base.vm = (b, .ok ()) := by
  by_contra hnone
  apply hmarks
  have hempty : (e.tryEpochInstall c).2 = [] := by
    unfold IoEngine.tryEpochInstall ScanEngine.tryEpochInstall
    by_cases hreq : e.base.activateRequested = true
    · rw [if_neg (by rw [hreq]; decide)]
      rcases harmed : e.base.armed with _ | a
      · rfl
      · dsimp only
        rcases hdue : e.base.pickDue (IoEngine.toRound c [] false false).installMs with _ | task
        · rfl
        · dsimp only
          by_cases hhead : some task = e.base.scheduleOrder.head?
          · rw [if_neg (not_not.mpr hhead)]
            rcases hblit : ScanEngine.blitRetainInto a e.base.vm with ⟨b, err | _⟩
            · rfl
            · exact absurd ⟨a, b, ⟨hreq, harmed, task, hdue, hhead⟩, hblit⟩ hnone
          · rw [if_pos hhead]
    · rw [if_pos (by simpa using hreq)]
  rw [h] at hempty
  exact hempty

end Attempts

/-! ## Waiting -/

/-- Operations in which no program is armed and none is installed. -/
inductive WaitRun (e₀ : IoEngine) : IoEngine → Prop
  | refl : WaitRun e₀ e₀
  /-- A request from outside. -/
  | outside {e e' : IoEngine} {marks : List Mark} {ev : EngineEvent} (h : WaitRun e₀ e)
      (hscan : ∀ cs, ev ≠ .scan cs) (harm : ∀ p policy, ev ≠ .arm p policy)
      (hev : e.handle ev = some (e', marks)) : WaitRun e₀ e'
  /-- The start of a scan. -/
  | boundary {e : IoEngine} (h : WaitRun e₀ e) : WaitRun e₀ e.applyModeBoundary
  /-- A check that does not install. -/
  | check {e : IoEngine} {c : Cycle} (h : WaitRun e₀ e) (hmarks : (e.tryEpochInstall c).2 = []) :
      WaitRun e₀ (e.tryEpochInstall c).1
  /-- An invocation of the old program. -/
  | invoke {e e' : IoEngine} {c : Cycle} {task : ℕ} {inv : Invocation} (h : WaitRun e₀ e)
      (hinv : e.invoke task c = some (e', inv)) : WaitRun e₀ e'

/-- The armed program, if there is one, is what attempts make of `a`. -/
def StillArmed (a : ArmedProgram) (e : ScanEngine) : Prop :=
  ∀ b, e.armed = some b → Attempted e.vm a b

section Waiting

variable {a : ArmedProgram} {e e' : ScanEngine}

theorem StillArmed.runs (h : StillArmed a e) (hruns : Runs e e') : StillArmed a e' := by
  intro b hb
  rw [hruns.armed] at hb
  rcases h b hb with rfl | ⟨hsome, hreblit⟩
  · exact .inl rfl
  · refine .inr ⟨?_, hreblit⟩
    rcases hruns.vm with ⟨hnone, -⟩ | ⟨_, v', -, hv', -⟩
    · rw [hnone] at hsome
      cases hsome
    · rw [hv']
      rfl

theorem StillArmed.install {r : Round} (h : StillArmed a e)
    (hnot : (e.tryEpochInstall r).2 ≠ .installed) : StillArmed a (e.tryEpochInstall r).1 := by
  have hstep := tryEpochInstall_step e r
  revert hstep hnot
  generalize e.tryEpochInstall r = out
  intro hnot hstep
  cases hstep with
  | idle => exact h
  | faulted ha hblit =>
      intro b hb
      cases hb
      exact (h _ ha).blit hblit
  | deferred _ ha hblit =>
      intro b hb
      cases hb
      exact (h _ ha).blit hblit
  | installed => exact absurd rfl hnot

theorem StillArmed.requestActivate {req : ActivateRequest} (h : StillArmed a e)
    (hreq : e.requestActivate = .ok (req, e')) : StillArmed a e' := by
  unfold ScanEngine.requestActivate at hreq
  split_ifs at hreq
  rcases harmed : e.armed with _ | b
  · rw [harmed] at hreq
    cases hreq
  · rw [harmed] at hreq
    dsimp only at hreq
    split_ifs at hreq
    · cases hreq
      intro b hb
      cases hb
    · cases hreq
      intro b' hb'
      cases hb'
      exact h _ harmed

end Waiting

theorem WaitRun.stillArmed {a : ArmedProgram} {e₀ e : IoEngine} (h : WaitRun e₀ e)
    (hstart : StillArmed a e₀.base) : StillArmed a e.base := by
  induction h with
  | refl => exact hstart
  | @outside e e' marks ev _ hscan harm hev ih =>
      cases ev with
      | requestMode req =>
          cases hev
          exact ih
      | force slot value =>
          cases hev
          exact ih
      | unforce slot =>
          cases hev
          exact ih
      | arm p policy => exact absurd rfl (harm p policy)
      | disarm =>
          cases hev
          unfold IoEngine.disarm
          split_ifs
          · exact ih
          · intro b hb
            cases hb
      | requestActivate =>
          cases hev
          unfold IoEngine.requestActivate
          rcases hreq : e.base.requestActivate with err | ⟨req, base⟩
          · exact ih
          · exact ih.requestActivate hreq
      | scan cs => exact absurd rfl (hscan cs)
  | @boundary e _ ih => exact ih.runs (applyModeBoundary_runs e.base)
  | @check e c _ hmarks ih =>
      rw [IoEngine.tryEpochInstall_base e c [] false false]
      apply ih.install
      intro hinstalled
      unfold IoEngine.tryEpochInstall at hmarks
      rcases hcheck : e.base.tryEpochInstall (IoEngine.toRound c [] false false) with ⟨base, outcome⟩
      rw [hcheck] at hinstalled hmarks
      obtain rfl : outcome = .installed := hinstalled
      cases hmarks
  | invoke _ hinv ih =>
      obtain ⟨inputs, fault, trip, hbase⟩ := IoEngine.invoke_refines hinv
      exact ih.runs (invoke_runs hbase)

/-! ## The theorem -/

/-- What a deferral leaves as it was, and the program that stays armed. -/
structure StaysArmed (a : ArmedProgram) (e e' : IoEngine) : Prop where
  vm : e'.base.vm = e.base.vm
  /-- Outputs, memory and forces are part of it. -/
  io : e'.io = e.io
  id : e'.base.currentId = e.base.currentId
  hash : e'.base.currentHash = e.base.currentHash
  tasks : e'.base.tasks = e.base.tasks
  nextDue : e'.base.nextDue = e.base.nextDue
  firstScan : e'.firstScan = e.firstScan
  vmFirstScan : e'.vmFirstScan = e.vmFirstScan
  mode : e'.base.mode = e.base.mode
  phase : e'.base.phase = .armed
  armed : ∃ b, e'.base.armed = some b ∧ b.programId = a.programId ∧
    b.compatibilityHash = a.compatibilityHash ∧ b.taskEntries = a.taskEntries ∧
      b.retainCopies = a.retainCopies ∧ b.vm.image = a.vm.image
  restart : e'.armedRestart = e.armedRestart

/-- An install that commits does not notice earlier attempts. -/
theorem install_of_attempted {a b : ArmedProgram} {e e' : IoEngine} {c : Cycle} {marks : List Mark}
    (harmed : e.base.armed = some b) (hattempted : Attempted e.base.vm a b)
    (h : e.tryEpochInstall c = (e', marks)) (hmarks : marks ≠ []) (count : ℕ) (last : Bool) :
    (rearmed e a count last).tryEpochInstall c =
      ({ e' with base := { e'.base with deferredCount := count } }, marks) := by
  obtain ⟨b₀, d, hatt, hblit⟩ := attempts_of_commit h hmarks
  obtain rfl : b₀ = b := by
    have hsame := hatt.armed.symm.trans harmed
    cases hsame
    rfl
  have hatt' : Attempts (rearmed e a count last) c a := ⟨hatt.requested, rfl, hatt.due⟩
  have hblit' : ScanEngine.blitRetainInto a (rearmed e a count last).base.vm = (d, .ok ()) :=
    hattempted.same hblit
  rw [attempt_cases hatt hblit] at h
  rw [attempt_cases hatt' hblit']
  by_cases hlate : c.installUs ≥ e.base.minTaskPeriodUs
  · rw [if_pos hlate] at h
    cases h
    exact absurd rfl hmarks
  · rw [if_neg hlate] at h
    cases h
    rw [if_neg (show ¬c.installUs ≥ (rearmed e a count last).base.minTaskPeriodUs from hlate)]
    rfl

/-- **A deferred install changes nothing.** An attempt whose copies fit and that takes the shortest
task period or longer leaves the program armed and everything else as it was. Whatever the old program does
then, an install that commits leaves the engine as it leaves one in which `a` is armed as it was
before the attempt, up to the count of deferrals. -/
theorem deferred_install {a : ArmedProgram} {e : IoEngine} {c : Cycle} (h : Attempts e c a)
    (hfit : CopiesFit a e.base.vm) (hlate : c.installUs ≥ e.base.minTaskPeriodUs) :
    ∃ e₁, e.tryEpochInstall c = (e₁, []) ∧ StaysArmed a e e₁ ∧
      ∀ e₂ e₃ c' marks, WaitRun e₁ e₂ → e₂.tryEpochInstall c' = (e₃, marks) → marks ≠ [] →
        ∀ count last, (rearmed e₂ a count last).tryEpochInstall c' =
          ({ e₃ with base := { e₃.base with deferredCount := count } }, marks) := by
  obtain ⟨b, hblit⟩ := blitRetainInto_fit hfit
  have hattempted : Attempted e.base.vm a b := (Attempted.refl _ a).blit hblit
  refine ⟨deferred e b, ?_, ?_, ?_⟩
  · rw [attempt_cases h hblit, if_pos hlate]
  · exact ⟨rfl, rfl, rfl, rfl, rfl, rfl, rfl, rfl, rfl, rfl, ⟨b, rfl, hattempted.program⟩, rfl⟩
  · intro e₂ e₃ c' marks hwaits hcommit hmarks count last
    have hstart : StillArmed a (deferred e b).base := by
      intro b' hb'
      cases hb'
      exact hattempted
    obtain ⟨b', _, hatt, -⟩ := attempts_of_commit hcommit hmarks
    exact install_of_attempted hatt.armed (hwaits.stillArmed hstart _ hatt.armed) hcommit hmarks
      count last

/-! ## A copy inside the segments and one beyond them -/

/-- A program with one output and four retain bytes, which copies those of the old program to an
offset. -/
def keeper (dst : ℕ) : ArmedProgram where
  vm :=
    let m := { taskModule [.simple .halt 0] 0 with outputSlots := 1, retainSize := 4 }
    ⟨.ofModule m 1000, .cold m 0⟩
  programId := "keeper"
  compatibilityHash := "hash of keeper"
  taskEntries := ["task.main"]
  retainCopies := [⟨0, dst, 4⟩]

/-- An engine in RUN that runs such a program and is asked to install another one. -/
def keepEngine (dst : ℕ) : IoEngine :=
  let start := IoEngine.initial oneTask (oneOutput (.bool false)) (some (keeper 0).vm)
  ((start.handleAll [.requestMode .run, .arm (keeper dst) .bumpless, .requestActivate]).map
    fun p => p.1.applyModeBoundary).getD start

/-- A cycle whose install takes a period of the task. -/
def lateCycle : Cycle := { cycleAt 0 with installUs := 10000 }

theorem keepEngine_attempts {dst : ℕ}
    (harmed : (keepEngine dst).base.armed = some (keeper dst))
    (hrequested : (keepEngine dst).base.activateRequested = true)
    (hdue : (keepEngine dst).base.pickDue 0 = some 0)
    (hhead : (keepEngine dst).base.scheduleOrder.head? = some 0) :
    Attempts (keepEngine dst) lateCycle (keeper dst) :=
  ⟨hrequested, harmed, 0, hdue, hhead.symm⟩

/-- **A late install that is not deferred**: its copy ends beyond the segment, so that the attempt
enters FAULT and gives up the activation. -/
theorem late_install_faults :
    Attempts (keepEngine 1) lateCycle (keeper 1) ∧
      lateCycle.installUs ≥ (keepEngine 1).base.minTaskPeriodUs ∧
      (keepEngine 1).base.mode = .run ∧
      ((keepEngine 1).tryEpochInstall lateCycle).1.base.mode = .fault ∧
      ((keepEngine 1).tryEpochInstall lateCycle).1.base.phase = .idle ∧
      ¬StaysArmed (keeper 1) (keepEngine 1) ((keepEngine 1).tryEpochInstall lateCycle).1 := by
  have hmode : (keepEngine 1).base.mode = .run := by decide +kernel
  have hfault : ((keepEngine 1).tryEpochInstall lateCycle).1.base.mode = .fault := by
    decide +kernel
  refine ⟨?_, by decide +kernel, hmode, hfault, by decide +kernel, ?_⟩
  · apply keepEngine_attempts
    · decide +kernel
    · decide +kernel
    · decide +kernel
    · decide +kernel
  · intro hstays
    have hsame := hstays.mode
    rw [hfault, hmode] at hsame
    cases hsame

/-- With a copy inside the segments the attempt is deferred. -/
theorem late_install_deferred :
    ∃ e₁, (keepEngine 0).tryEpochInstall lateCycle = (e₁, []) ∧
      StaysArmed (keeper 0) (keepEngine 0) e₁ := by
  have hattempts : Attempts (keepEngine 0) lateCycle (keeper 0) := by
    apply keepEngine_attempts
    · decide +kernel
    · decide +kernel
    · decide +kernel
    · decide +kernel
  have hvm : (keepEngine 0).base.vm = some (keeper 0).vm := by decide +kernel
  have hfit : CopiesFit (keeper 0) (keepEngine 0).base.vm := by
    intro v hv c hc
    rw [hvm] at hv
    cases hv
    cases List.mem_singleton.mp hc
    decide +kernel
  obtain ⟨e₁, hcheck, hstays, -⟩ := deferred_install hattempts hfit (by decide +kernel)
  exact ⟨e₁, hcheck, hstays⟩

end SoftPlc.Scan
