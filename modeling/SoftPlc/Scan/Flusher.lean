import SoftPlc.Scan.Reach

/-!
# The flusher

A scan publishes the retain segment of the current machine into a buffer, and the flusher hands what
it finds there to the store, under the id and the layout that are current when it reads. The buffer
outlives an install whose retain size is that of the old program, so an image that was published and
not yet read is then flushed under the new program (`flush_of_other_program`). In histories without
such an install every flush has an image of the program it names (`flush_seen`).
-/

namespace SoftPlc.Scan

open SoftPlc.Ir SoftPlc.Vm SoftPlc.Retain SoftPlc.Lib

/-- A flush names the current program and its layout, and has its retain segment. -/
def Runtime.Holds (rt : Runtime) (call : FlushCall) : Prop :=
  rt.currentInfo.map ProgramInfo.id = some call.id ∧ rt.currentLayout = some call.layout ∧
    ∃ vm, rt.engine.vm = some vm ∧ vm.state.retain.bytes = call.image

/-- At some moment of a history the flush had its image. -/
def Seen (plc : Plc) (past : List (Event × Response × Plc)) (call : FlushCall) : Prop :=
  plc.runtime.Holds call ∨ ∃ x ∈ past, x.2.2.runtime.Holds call

/-- What was seen stays seen. -/
theorem Seen.step {plc plc' : Plc} {past : List (Event × Response × Plc)} {call : FlushCall}
    (h : Seen plc past call) (ev : Event) (res : Response) :
    Seen plc' ((ev, res, plc) :: past) call := by
  rcases h with h | ⟨x, hx, h⟩
  · exact .inr ⟨_, List.mem_cons_self, h⟩
  · exact .inr ⟨x, List.mem_cons_of_mem _ hx, h⟩

/-- An install keeps a buffer with an image that was not read. -/
def Carries (plc plc' : Plc) : Prop :=
  plc.runtime.engine.activateRequested = true ∧ plc.runtime.engine.armed ≠ none ∧
    plc'.runtime.engine.armed = none ∧
    ∃ buf l, plc.runtime.retainSnap = some buf ∧ buf.unread = true ∧
      plc.runtime.armedLayout = some l ∧ l.retainSize = buf.size

/-- No install of a history keeps a buffer with an image that was not read. -/
def Careful : Plc → List (Event × Response × Plc) → Prop
  | _, [] => True
  | plc', (_, _, plc) :: past => ¬Carries plc plc' ∧ Careful plc past

/-! ## The buffer -/

/-- The buffer has the size of the current layout, and what is to be read from it was seen. -/
def BufferInv (seen : FlushCall → Prop) (rt : Runtime) : Prop :=
  ∀ buf, rt.retainSnap = some buf → ∃ info l, rt.currentInfo = some info ∧
    rt.currentLayout = some l ∧ buf.size = l.retainSize ∧
    (buf.slots buf.published).length = buf.size ∧
    (buf.unread = true → seen ⟨info.id, l, buf.slots buf.published⟩)

theorem BufferInv.mono {seen seen' : FlushCall → Prop} {rt : Runtime} (h : BufferInv seen rt)
    (hseen : ∀ call, seen call → seen' call) : BufferInv seen' rt := by
  intro buf hbuf
  obtain ⟨info, l, hinfo, hl, hsize, hlen, hread⟩ := h buf hbuf
  exact ⟨info, l, hinfo, hl, hsize, hlen, fun hu => hseen _ (hread hu)⟩

/-- A published image of the size of the buffer is what the reader finds. -/
theorem publish_published {buf : RetainSnapshotBuffer} {image : List UInt8}
    (h : image.length = buf.size) : (buf.publish image).slots (buf.publish image).published = image := by
  simp [RetainSnapshotBuffer.publish, ← h]

/-- What the flusher reads. -/
theorem read_some {buf buf' : RetainSnapshotBuffer} {image : List UInt8} {n : ℕ}
    (hsize : buf.size = n) (hlen : (buf.slots buf.published).length = buf.size)
    (h : buf.read n = some (image, buf')) :
    buf.unread = true ∧ image = buf.slots buf.published ∧
      buf' = { buf with lastTake := buf.seq } := by
  unfold RetainSnapshotBuffer.read at h
  split_ifs at h with hu
  cases h
  refine ⟨hu, ?_, rfl⟩
  rw [hsize, min_self, List.take_of_length_le (by omega)]
  simp [hlen, hsize]

/-- Publishing the current segment keeps the buffer in order. -/
theorem BufferInv.publish {seen : FlushCall → Prop} {rt : Runtime} (h : BufferInv seen rt)
    {vm : ArmedVm} (hvm : rt.engine.vm = some vm)
    (hlen : ∀ l, rt.currentLayout = some l → vm.state.retain.len = l.retainSize)
    (hseen : ∀ call, rt.Holds call → seen call) (seq : ℕ) :
    BufferInv seen { rt with
      retainSnap := rt.retainSnap.map fun buf => buf.publish vm.state.retain.bytes
      lastRetainSeq := seq } := by
  intro buf hbuf
  obtain ⟨b, hb, rfl⟩ := Option.map_eq_some_iff.mp hbuf
  obtain ⟨info, l, hinfo, hl, hsize, -, -⟩ := h b hb
  have himage : vm.state.retain.bytes.length = b.size := (hlen l hl).trans hsize.symm
  refine ⟨info, l, hinfo, hl, hsize, by rw [publish_published himage]; exact himage, fun _ => ?_⟩
  rw [publish_published himage]
  refine hseen _ ⟨by rw [hinfo]; rfl, hl, vm, hvm, rfl⟩

/-- The end of a scan keeps the buffer in order. -/
theorem BufferInv.publishRetainIfDirty {seen : FlushCall → Prop} {rt : Runtime}
    (h : BufferInv seen rt)
    (hlen : ∀ vm l, rt.engine.vm = some vm → rt.currentLayout = some l →
      vm.state.retain.len = l.retainSize)
    (hseen : ∀ call, rt.Holds call → seen call) : BufferInv seen rt.publishRetainIfDirty := by
  unfold Runtime.publishRetainIfDirty
  dsimp only
  split_ifs
  · exact h
  · rcases hb : rt.retainSnap with _ | buf
    · exact h
    · rcases hv : rt.engine.vm with _ | vm
      · exact h
      · have hp := h.publish hv (fun l hl => hlen vm l hv hl) hseen rt.engine.retainSeq
        simp only [hb] at hp
        exact hp

/-- A buffer for a new program is in order, unless it is the old one with something to read. -/
theorem bufferInv_resize {seen : FlushCall → Prop} {rt : Runtime} {info : ProgramInfo}
    {l : RetainLayout} (hinfo : rt.currentInfo = some info) (hl : rt.currentLayout = some l)
    (hold : ∀ buf, rt.retainSnap = some buf → buf.size = l.retainSize →
      buf.unread = false ∧ (buf.slots buf.published).length = buf.size) :
    BufferInv seen rt.resizeRetainSnapshot := by
  unfold Runtime.resizeRetainSnapshot
  dsimp only
  rw [hl]
  split_ifs with hzero hsame
  · intro buf hbuf
    cases hbuf
  · intro buf hbuf
    rw [hbuf] at hsame
    have hsize : buf.size = l.retainSize := Option.some.inj hsame
    obtain ⟨hread, hlen⟩ := hold buf hbuf hsize
    refine ⟨info, l, hinfo, hl, hsize, hlen, ?_⟩
    intro hu
    rw [hread] at hu
    cases hu
  · intro buf hbuf
    cases hbuf
    refine ⟨info, l, hinfo, rfl, rfl, by simp [RetainSnapshotBuffer.new], ?_⟩
    intro hu
    cases hu

/-! ## Histories -/

section

variable {force : Bool} {plc : Plc} {past : List (Event × Response × Plc)}

/-- An event that leaves the buffer, the layout and the identity of the current program alone. -/
theorem BufferInv.of_same {plc' : Plc} (h : BufferInv (Seen plc past) plc.runtime)
    (hsnap : plc'.runtime.retainSnap = plc.runtime.retainSnap)
    (hinfo : plc'.runtime.currentInfo = plc.runtime.currentInfo)
    (hlayout : plc'.runtime.currentLayout = plc.runtime.currentLayout) (ev : Event)
    (res : Response) : BufferInv (Seen plc' ((ev, res, plc) :: past)) plc'.runtime := by
  intro buf hbuf
  rw [hsnap] at hbuf
  rw [hinfo, hlayout]
  exact (h.mono fun call hseen => hseen.step ev res) buf hbuf

/-- A scan keeps the buffer in order, unless it carries an image over. -/
theorem BufferInv.scan (hgood : Good force plc) (h : BufferInv (Seen plc past) plc.runtime)
    {rs : List Round} {rt : Runtime} (hscan : plc.runtime.scan rs = some rt) (res : Response)
    (hcareful : ¬Carries plc { plc with runtime := rt }) :
    BufferInv (Seen { plc with runtime := rt } ((.scan rs, res, plc) :: past)) rt := by
  have hholds : ∀ rt' : Runtime, rt'.core = rt.core → ∀ call, rt'.Holds call → rt.Holds call := by
    intro rt' hcore call hcall
    obtain ⟨e, cl, al, ci, ai, snap, seq⟩ := rt
    obtain ⟨e', cl', al', ci', ai', snap', seq'⟩ := rt'
    simp only [Runtime.core, Runtime.mk.injEq] at hcore
    obtain ⟨rfl, rfl, rfl, rfl, rfl, -, -⟩ := hcore
    exact hcall
  obtain ⟨e, ⟨hheld, hpaired, rfl⟩ | ⟨a, l, hswung, hl, hpaired, rfl⟩⟩ := scan_cases hgood hscan
  · refine BufferInv.publishRetainIfDirty ?_ hpaired.len
      fun call hcall => .inl (hholds _ (core_publishRetainIfDirty _).symm call hcall)
    exact h.mono fun call hseen => hseen.step _ res
  · have hcore := core_publishRetainIfDirty (Runtime.resizeRetainSnapshot { plc.runtime with
      engine := e, currentLayout := some l, armedLayout := none
      currentInfo := plc.runtime.armedInfo, armedInfo := none })
    have hresize := core_resizeRetainSnapshot { plc.runtime with
      engine := e, currentLayout := some l, armedLayout := none
      currentInfo := plc.runtime.armedInfo, armedInfo := none }
    have hengine := congrArg Runtime.engine (hcore.trans hresize)
    refine BufferInv.publishRetainIfDirty ?_ ?_
      fun call hcall => .inl (hholds _ hcore.symm call hcall)
    · obtain ⟨b, hb, -⟩ := Option.map_eq_some_iff.mp hswung.was
      have hinfo := hgood.armedInfo
      rw [hb] at hinfo
      refine bufferInv_resize hinfo rfl ?_
      intro buf hbuf hsize
      obtain ⟨-, -, -, -, -, hlen, -⟩ := h buf hbuf
      refine ⟨?_, hlen⟩
      by_contra hread
      refine hcareful ⟨hswung.requested, by rw [hb]; simp, ?_, buf, l, hbuf, by simpa using hread,
        hl, hsize.symm⟩
      exact (congrArg ScanEngine.armed hengine).trans hswung.armed
    · intro vm l' hvm hl'
      have hvm' : e.vm = some vm := by
        rw [← hvm]
        exact (congrArg (fun rt => rt.engine.vm) hresize).symm
      have hlayout : some l = some l' := by
        rw [← hl']
        exact (congrArg Runtime.currentLayout hresize).symm
      cases hlayout
      exact hpaired.len vm l hvm' rfl

/-- A restore keeps the buffer in order. -/
theorem BufferInv.restoreRetain (hgood : Good force plc)
    (h : BufferInv (Seen plc past) plc.runtime) (image : List UInt8) (res : Response) :
    BufferInv (Seen { plc with runtime := plc.runtime.restoreRetain image }
      ((.restoreRetain image, res, plc) :: past)) (plc.runtime.restoreRetain image) := by
  rcases restoreRetain_cases plc.runtime image with heq | ⟨l, vm, retain, hl, hvm, hlen, heq⟩
  · rw [heq]
    exact h.mono fun call hseen => hseen.step _ res
  · rw [heq]
    have hbase : BufferInv (Seen plc past)
        { plc.runtime with engine :=
          { plc.runtime.engine with vm := some ⟨vm.image, vm.state.withRetain retain⟩ } } := h
    refine (hbase.mono fun call hseen => hseen.step _ res).publish rfl ?_ ?_ plc.runtime.lastRetainSeq
    · intro l' hl'
      exact hlen.trans (hgood.paired.len vm l' hvm hl')
    · exact fun call hcall => .inl hcall

/-- A flush reads what was seen, and leaves the buffer in order. -/
theorem BufferInv.flushRetain (h : BufferInv (Seen plc past) plc.runtime) :
    (∀ call, plc.flushRetain.1 = .flushed call → Seen plc past call) ∧
      ∀ res, BufferInv (Seen plc.flushRetain.2 ((.flushRetain, res, plc) :: past))
        plc.flushRetain.2.runtime := by
  rcases flushRetain_cases plc with heq | ⟨info, l, buf, image, buf', hi, hl, hb, hr, heq⟩
  · rw [heq]
    exact ⟨(fun call hcall => nomatch hcall), fun res => h.mono fun call hseen => hseen.step _ res⟩
  · obtain ⟨info', l', hi', hl', hsize, hlen, hread⟩ := h buf hb
    rw [hi] at hi'
    rw [hl] at hl'
    cases hi'
    cases hl'
    obtain ⟨hu, himage, hbuf'⟩ := read_some hsize hlen hr
    rw [heq]
    constructor
    · intro call hcall
      cases hcall
      rw [himage]
      exact hread hu
    · intro res b hb'
      cases hb'
      subst hbuf'
      refine ⟨info, l, hi, hl, hsize, hlen, ?_⟩
      intro hu'
      simp [RetainSnapshotBuffer.unread] at hu'

/-- **In a careful history the buffer is in order.** -/
theorem bufferInv_of_careful (h : Plc.History force plc past) (hcareful : Careful plc past) :
    BufferInv (Seen plc past) plc.runtime := by
  induction h with
  | start tasks order nI nQ =>
      intro buf hbuf
      cases hbuf
  | @step plc plc' ev res past h hev ih =>
      have hinv := ih hcareful.2
      have hgood := h.good
      cases ev with
      | upload pkg =>
          cases hev
          exact hinv.of_same rfl rfl rfl _ _
      | armBegin pkg =>
          have heq := Option.some.inj hev
          rcases armBegin_cases hgood pkg with ⟨_, hb, -⟩ | ⟨-, -, -, hb⟩
          · rw [show plc.armBegin pkg = (res, plc') from heq] at hb
            cases hb
            exact hinv.of_same rfl rfl rfl _ _
          · rw [show plc.armBegin pkg = (res, plc') from heq] at hb
            cases hb
            exact hinv.of_same rfl rfl rfl _ _
      | armFinish =>
          have heq := Option.some.inj hev
          have hcore : plc.runtime.abortArm.retainSnap = plc.runtime.retainSnap ∧
              plc.runtime.abortArm.currentInfo = plc.runtime.currentInfo ∧
              plc.runtime.abortArm.currentLayout = plc.runtime.currentLayout := by
            unfold Runtime.abortArm
            split_ifs <;> exact ⟨rfl, rfl, rfl⟩
          rcases armFinish_cases hgood with ⟨-, hb | hb⟩ | ⟨_, _, _, _, -, -, -, -, -, hb⟩
          · rw [show plc.armFinish force = (res, plc') from heq] at hb
            cases hb
            exact hinv.of_same rfl rfl rfl _ _
          · rw [show plc.armFinish force = (res, plc') from heq] at hb
            cases hb
            exact hinv.of_same hcore.1 hcore.2.1 hcore.2.2 _ _
          · rw [show plc.armFinish force = (res, plc') from heq] at hb
            cases hb
            exact hinv.of_same rfl rfl rfl _ _
      | activate id =>
          have heq := Option.some.inj hev
          rcases activate_cases hgood id with ⟨_, hb, -⟩ | ⟨_, -, -, -, -, ⟨-, hb⟩ | ⟨-, hb⟩⟩
          · rw [show plc.activate id = (res, plc') from heq] at hb
            cases hb
            exact hinv.of_same rfl rfl rfl _ _
          · rw [show plc.activate id = (res, plc') from heq] at hb
            cases hb
            exact hinv.of_same rfl rfl rfl _ _
          · rw [show plc.activate id = (res, plc') from heq] at hb
            cases hb
            exact hinv.of_same rfl rfl rfl _ _
      | scan rs =>
          obtain ⟨rt, hscan, heq⟩ := Option.map_eq_some_iff.mp hev
          cases heq
          exact hinv.scan hgood hscan _ hcareful.1
      | flushRetain =>
          have heq : plc.flushRetain = (res, plc') := Option.some.inj hev
          have hflush := hinv.flushRetain.2 res
          rw [heq] at hflush
          exact hflush
      | restoreRetain image =>
          cases hev
          exact hinv.restoreRetain hgood image _
      | requestMode req =>
          cases hev
          exact hinv.of_same rfl rfl rfl _ _

/-- **The flusher writes only what the program it names had.** In a history in which no install keeps
a buffer with an image that was not read, every flush has an image that at some moment was the
retain segment of the program it names, while its layout was the current one. -/
theorem flush_seen (h : Plc.History force plc past) (hcareful : Careful plc past)
    {call : FlushCall} (hflush : plc.flushRetain.1 = .flushed call) : Seen plc past call :=
  (bufferInv_of_careful h hcareful).flushRetain.1 call hflush

end

/-- The id and the image of a flush. -/
def Response.flush : Response → Option (String × List UInt8)
  | .flushed call => some (call.id, call.image)
  | _ => Option.none

theorem Response.flush_some {res : Response} {id : String} {image : List UInt8}
    (h : res.flush = some (id, image)) :
    ∃ call, res = .flushed call ∧ call.id = id ∧ call.image = image := by
  cases res with
  | flushed call =>
      obtain ⟨hid, himage⟩ := Prod.mk.inj (Option.some.inj h)
      exact ⟨call, rfl, hid, himage⟩
  | none => cases h
  | refused e => cases h
  | armed => cases h
  | activated req => cases h

/-- A history without buffers carries nothing over. -/
theorem careful_of_none {plc : Plc} {past : List (Event × Response × Plc)}
    (h : ∀ x ∈ past, x.2.2.runtime.retainSnap.isNone = true) : Careful plc past := by
  induction past generalizing plc with
  | nil => trivial
  | cons x past ih =>
      refine ⟨?_, ih fun y hy => h y (List.mem_cons_of_mem _ hy)⟩
      rintro ⟨-, -, -, buf, -, hbuf, -⟩
      have hnone := h x List.mem_cons_self
      rw [hbuf] at hnone
      cases hnone

/-- The first program of a device writes a retained value, and the flusher finds it. -/
theorem flush_seen_set :
    ∃ plc past call, Plc.History false plc past ∧ Careful plc past ∧
      plc.flushRetain.1 = .flushed call ∧ call.id = "set" ∧ call.image = [7, 0, 0, 0] ∧
      Seen plc past call := by
  have hrun : (device.runWhile false (fun plc => plc.runtime.retainSnap.isNone)
      ((swapEvents setPackage setPackage).take 6)).map (fun plc => plc.flushRetain.1.flush) =
      some (some ("set", [7, 0, 0, 0])) := by
    decide +kernel
  obtain ⟨plc, hplc, hfacts⟩ := Option.map_eq_some_iff.mp hrun
  obtain ⟨past, hist, hnone⟩ := (Plc.History.start _ _ _ _).runWhile (by simp) hplc
  have hcareful : Careful plc past := careful_of_none hnone
  obtain ⟨call, hflush, hid, himage⟩ := Response.flush_some hfacts
  exact ⟨plc, past, call, hist, hcareful, hflush, hid, himage, flush_seen hist hcareful hflush⟩

/-- `m` retained at offset 0, no code. -/
def otherPackage : Package := taskPackage "other" [.simple .halt 0] 4 [⟨"m", .dint, 0⟩]

/-- An image that the first program published and nobody read is flushed under the second one, which
never had it. -/
theorem flush_of_other_program :
    ∃ plc past call, Plc.History false plc past ∧ plc.flushRetain.1 = .flushed call ∧
      call.id = "other" ∧ call.image = [7, 0, 0, 0] ∧ ¬Seen plc past call := by
  have hrun : (device.runWhile false
      (fun plc => plc.runtime.currentInfo.map ProgramInfo.id != some "other")
      (swapEvents setPackage otherPackage ++ [.scan [roundAt 20]])).map (fun plc =>
        (plc.flushRetain.1.flush, plc.runtime.engine.vm.map fun vm => vm.state.retain.bytes)) =
      some (some ("other", [7, 0, 0, 0]), some [0, 0, 0, 0]) := by
    decide +kernel
  obtain ⟨plc, hplc, hfacts⟩ := Option.map_eq_some_iff.mp hrun
  obtain ⟨past, hist, hpast⟩ := (Plc.History.start _ _ _ _).runWhile (by simp) hplc
  obtain ⟨hcall, hbytes⟩ := Prod.mk.inj hfacts
  obtain ⟨vm, hvm, hbytes⟩ := Option.map_eq_some_iff.mp hbytes
  obtain ⟨call, hflush, hid, himage⟩ := Response.flush_some hcall
  refine ⟨plc, past, call, hist, hflush, hid, himage, ?_⟩
  rintro (⟨-, -, vm', hvm', hbytes'⟩ | ⟨x, hx, hname, -⟩)
  · rw [hvm] at hvm'
    cases hvm'
    rw [hbytes, himage] at hbytes'
    cases hbytes'
  · have hother := hpast x hx
    rw [hname, hid] at hother
    exact absurd hother (by decide)

end SoftPlc.Scan
