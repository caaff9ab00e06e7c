import SoftPlc.Scan.Swap

/-!
# Reachable states of the service

`Good` is what every history keeps: the engine is paired with the layouts of the loader, the
operator-visible identities are those of the engine, and an arm in progress holds a snapshot of the
program that is still current. From it follow the two results about retain values across an install:
the bytes are those of the remap (`install_retain`), and the types are the declared ones exactly when
the tags of the kept symbols were (`install_types_iff`).
-/

namespace SoftPlc.Scan

open SoftPlc.Ir SoftPlc.Vm SoftPlc.Retain SoftPlc.Lib

/-! ## Preparing an arm -/

/-- A snapshot of the current program. -/
def SnapshotOf (cur : Option RetainLayout) (snap : Option RetainSnapshot) : Prop :=
  match cur with
  | none => snap = none
  | some l => ∃ bytes, snap = some ⟨l, bytes⟩ ∧ bytes.length = l.retainSize

/-- Use of another layer's result succeeds when that does. -/
theorem liftTo_ok {ε α : Type} {wrap : ε → RuntimeError} {x : Except ε α} {a : α} :
    liftTo wrap x = .ok a ↔ x = .ok a := by
  rcases x with e | b
  · simp [liftTo]
  · simp [liftTo]

/-- A new layout has the size it was made for. -/
theorem RetainLayout_new_size {size : ℕ} {symbols : List RetainSymbol} {l : RetainLayout}
    (h : RetainLayout.new size symbols = .ok l) : l.retainSize = size := by
  unfold RetainLayout.new at h
  split at h
  · cases h
    rfl
  · cases h

/-- A cold segment holds zeros. -/
theorem zeros_symbol {l : RetainLayout} {s : RetainSymbol} (hs : s ∈ l.symbols) :
    (ByteSegment.zeros l.retainSize).symbol s = (s.zeros, .bool) := by
  have hslice := l.slice_replicate hs
  have htag : (ByteSegment.zeros l.retainSize).tagAt s.offset = .bool := by
    have hb := l.bounded s hs
    have hpos := s.ty.byteWidth_pos
    unfold RetainSymbol.endOffset at hb
    have hlt : s.offset < l.retainSize := by omega
    simp [ByteSegment.tagAt, ByteSegment.zeros, hlt]
  rw [ByteSegment.symbol, ByteSegment.cell, htag]
  exact congrArg (·, IrType.bool) hslice

/-- **The shadow image of an arm.** -/
theorem installShadowRetain_ok {cur : Option RetainLayout} {new : RetainLayout}
    {snap : Option RetainSnapshot} {force : Bool} {retain : ByteSegment}
    {copies : List RetainCopy} (hsnap : SnapshotOf cur snap)
    (h : installShadowRetain (.zeros new.retainSize) new snap force = .ok (retain, copies))
    {a : ArmedProgram} (hretain : a.vm.state.retain = retain) (hcopies : a.retainCopies = copies) :
    Shadowed force cur new a := by
  rcases cur with _ | old
  · cases hsnap
    cases h
    refine ⟨by rw [hretain]; simp, hcopies, (fun l hl => nomatch hl), ?_, ?_⟩
    · intro s hs _
      rw [hretain]
      exact zeros_symbol hs
    · intro i hi _
      rw [hretain]
      simp [ByteSegment.zeros, hi]
  · obtain ⟨bytes, rfl, hbytes⟩ := hsnap
    obtain ⟨m, hm, h⟩ := except_bind_ok.mp h
    obtain ⟨retain', hload, h⟩ := except_bind_ok.mp h
    cases h
    have hm := liftTo_ok.mp hm
    have hload := liftTo_ok.mp hload
    obtain ⟨hlen, hslice, -⟩ := mapRetain_ok hm
    obtain ⟨t, ht, htlen, hsym, hout⟩ := loadRetainImage_ok
      (show (ByteSegment.zeros new.retainSize).len = new.retainSize by simp) hlen
    rw [ht] at hload
    cases hload
    refine ⟨by rw [hretain, htlen], hcopies, ?_, ?_, ?_⟩
    · intro l hl image himage
      cases hl
      exact mapRetain_of_length hm himage
    · intro s hs hnone
      have hzero : s.slice m.image = s.zeros := by
        rw [hslice s hs, valueOf_eq, hnone old rfl]
      rw [hretain, hsym s hs, hzero, storedBytes_zeros]
      rfl
    · intro i hi ho
      rw [hretain, hout i ho]
      simp [ByteSegment.zeros, hi]

/-- What a loaded machine is. -/
theorem load_ok {m : IrModule} {config : VmConfig} {vm : ArmedVm}
    (h : ArmedVm.load m config = .ok vm) :
    vm = ⟨.ofModule m config.instructionBudget, .cold m config.primitiveInstances⟩ := by
  unfold ArmedVm.load at h
  dsimp only at h
  split_ifs at h
  · rcases hv : verifyModule m with e | _
    · rw [hv] at h
      cases h
    · rw [hv] at h
      cases h
      rfl
  · cases h
    rfl

/-- The code of a package. -/
def Package.image (pkg : Package) : Option VmImage :=
  pkg.validated.map fun m => .ofModule m ({} : VmConfig).instructionBudget

/-- The retain layout of a package. -/
def Package.layout (pkg : Package) : Option RetainLayout :=
  pkg.validated.bind fun m => (RetainLayout.new m.retainSize pkg.manifest.retainSymbols).toOption

/-- Id and hash of a package. -/
def Manifest.info (m : Manifest) : ProgramInfo := ⟨m.id, m.compatibilityHash⟩

/-- Id and hash of an armed program. -/
def ArmedProgram.info (a : ArmedProgram) : ProgramInfo := ⟨a.programId, a.compatibilityHash⟩

/-- **What an arm prepares**: the code and the layout of the package, and a shadow of the snapshot. -/
theorem prepareArm_ok {force : Bool} {pkg : Package} {ctx : ArmContext} {p : PreparedArm}
    {cur : Option RetainLayout} (hsnap : SnapshotOf cur ctx.retain)
    (h : prepareArm force pkg ctx = .ok p) :
    pkg.image = some p.program.vm.image ∧ pkg.layout = some p.layout ∧
      p.program.info = pkg.manifest.info ∧ p.info = pkg.manifest.info ∧
      Shadowed force cur p.layout p.program := by
  unfold prepareArm at h
  rcases hm : pkg.validated with _ | m
  · simp only [hm] at h
    cases h
  · simp only [hm] at h
    split_ifs at h
    obtain ⟨entries, -, h⟩ := except_bind_ok.mp h
    obtain ⟨vm, hvm, h⟩ := except_bind_ok.mp h
    obtain ⟨layout, hlayout, h⟩ := except_bind_ok.mp h
    obtain ⟨⟨retain, copies⟩, hshadow, h⟩ := except_bind_ok.mp h
    cases h
    have hvm := load_ok (liftTo_ok.mp hvm)
    have hlayout := liftTo_ok.mp hlayout
    subst hvm
    have hsize : layout.retainSize = m.retainSize := by
      rw [RetainLayout_new_size hlayout]
      exact ByteSegment.len_zeros _
    have hshadow' : installShadowRetain (.zeros layout.retainSize) layout ctx.retain force =
        .ok (retain, copies) := by
      rw [hsize]
      exact hshadow
    refine ⟨by simp [Package.image, hm], ?_, rfl, rfl,
      installShadowRetain_ok hsnap hshadow' rfl rfl⟩
    have hlen : (VmState.cold m ({} : VmConfig).primitiveInstances).retain.len = m.retainSize :=
      ByteSegment.len_zeros _
    rw [hlen] at hlayout
    simp [Package.layout, hm, hlayout, Except.toOption]

/-- The machine of a prepared program. -/
theorem prepareArm_vm {force : Bool} {pkg : Package} {ctx : ArmContext} {p : PreparedArm}
    {m : IrModule} (hm : pkg.validated = some m) (h : prepareArm force pkg ctx = .ok p) :
    ∃ retain, p.program.vm = ⟨.ofModule m ({} : VmConfig).instructionBudget,
      (VmState.cold m ({} : VmConfig).primitiveInstances).withRetain retain⟩ := by
  unfold prepareArm at h
  simp only [hm] at h
  split_ifs at h
  obtain ⟨entries, -, h⟩ := except_bind_ok.mp h
  obtain ⟨vm, hvm, h⟩ := except_bind_ok.mp h
  obtain ⟨layout, -, h⟩ := except_bind_ok.mp h
  obtain ⟨⟨retain, copies⟩, -, h⟩ := except_bind_ok.mp h
  cases h
  have hvm := load_ok (liftTo_ok.mp hvm)
  subst hvm
  exact ⟨retain, rfl⟩

/-! ## The invariant -/

/-- What every history keeps. -/
structure Good (force : Bool) (plc : Plc) : Prop where
  /-- Engine and layouts. -/
  paired : Paired force plc.runtime.currentLayout plc.runtime.armedLayout plc.runtime.engine
  /-- No layout of an armed program without one. -/
  armedLayout : plc.runtime.engine.armed = none → plc.runtime.armedLayout = none
  /-- The identity of the armed program. -/
  armedInfo : plc.runtime.armedInfo = plc.runtime.engine.armed.map ArmedProgram.info
  /-- The identity of the current program. -/
  currentId : plc.runtime.engine.currentId = plc.runtime.currentInfo.map ProgramInfo.id
  currentHash : plc.runtime.engine.currentHash =
    plc.runtime.currentInfo.map ProgramInfo.compatibilityHash
  /-- A layout is current exactly when an identity is. -/
  currentInfo : plc.runtime.currentInfo.isSome = plc.runtime.currentLayout.isSome
  /-- While an arm is in progress nothing can be installed. -/
  quiet : plc.arming ≠ none → plc.runtime.engine.activateRequested = false
  /-- An arm in progress holds a snapshot of the current program. -/
  snapshot : ∀ pkg ctx, plc.arming = some (pkg, ctx) →
    SnapshotOf plc.runtime.currentLayout ctx.retain

/-- The start. -/
theorem good_start (force : Bool) (tasks : List TaskPlan) (order : List ℕ) (nI nQ : ℕ) :
    Good force (Plc.start tasks order nI nQ) := by
  refine ⟨⟨rfl, ?_, ?_, by simp [Plc.start]⟩, fun _ => rfl, rfl, rfl, rfl, rfl, fun _ => rfl, ?_⟩
  · intro vm l hvm
    cases hvm
  · intro a ha
    cases ha
  · intro pkg ctx h
    cases h

/-- In a good state the layouts are in step with the engine. -/
theorem sync_of_armedLayout {rt : Runtime} (h : rt.engine.armed = none → rt.armedLayout = none) :
    rt.syncLayoutsAfterStep = rt := by
  unfold Runtime.syncLayoutsAfterStep
  rcases ha : rt.engine.armed with _ | a
  · have hl := h ha
    rw [if_pos (by simp), if_neg (by simp [hl])]
    obtain ⟨_, _, _, _, _, _, _⟩ := rt
    cases hl
    rfl
  · rw [if_neg (by simp)]

/-- The current segment as a snapshot. -/
theorem snapshotOf_snapshotRetain {force : Bool} {rt : Runtime} {arm : Option RetainLayout}
    (h : Paired force rt.currentLayout arm rt.engine) :
    SnapshotOf rt.currentLayout rt.snapshotRetain := by
  unfold Runtime.snapshotRetain
  have hvm := h.vm
  rcases hl : rt.currentLayout with _ | l
  · rcases rt.engine.vm with _ | v
    · rfl
    · rfl
  · rw [hl] at hvm
    rcases hv : rt.engine.vm with _ | v
    · rw [hv] at hvm
      cases hvm
    · exact ⟨_, rfl, h.len v l hv hl⟩

/-! ## The invariant is kept -/

/-- A runtime without what it keeps for the flusher. -/
def Runtime.core (rt : Runtime) : Runtime := { rt with retainSnap := none, lastRetainSeq := 0 }

@[simp] theorem core_resizeRetainSnapshot (rt : Runtime) :
    rt.resizeRetainSnapshot.core = rt.core := by
  unfold Runtime.resizeRetainSnapshot
  dsimp only
  split_ifs
  · rfl
  · rfl
  · rfl

@[simp] theorem core_publishRetainIfDirty (rt : Runtime) :
    rt.publishRetainIfDirty.core = rt.core := by
  unfold Runtime.publishRetainIfDirty
  dsimp only
  split_ifs
  · rfl
  · rcases rt.retainSnap with _ | buf
    · rfl
    · rcases rt.engine.vm with _ | vm
      · rfl
      · rfl

/-- The invariant does not look at what is kept for the flusher. -/
theorem Good.of_core {force : Bool} {plc : Plc} {rt rt' : Runtime} (hcore : rt'.core = rt.core)
    (h : Good force { plc with runtime := rt }) : Good force { plc with runtime := rt' } := by
  obtain ⟨e, cl, al, ci, ai, snap, seq⟩ := rt
  obtain ⟨e', cl', al', ci', ai', snap', seq'⟩ := rt'
  simp only [Runtime.core, Runtime.mk.injEq] at hcore
  obtain ⟨rfl, rfl, rfl, rfl, rfl, -, -⟩ := hcore
  exact ⟨h.paired, h.armedLayout, h.armedInfo, h.currentId, h.currentHash, h.currentInfo, h.quiet,
    h.snapshot⟩

/-- What a scan leaves in the loader, everything or the armed program as the current one, and what it
noted. -/
theorem scan_notes {force : Bool} {plc : Plc} (h : Good force plc) {rs : List Round} {rt : Runtime}
    (hscan : plc.runtime.scan rs = some rt) :
    ∃ e rt₁, plc.runtime.engine.applyModeBoundary.rounds rs = some e ∧
      rt₁ = ({ plc.runtime with engine := e } : Runtime).syncLayoutsAfterStep ∧
      rt = rt₁.publishRetainIfDirty ∧
      ((Held plc.runtime.engine e ∧
          Paired force plc.runtime.currentLayout plc.runtime.armedLayout e ∧
          Notes rs.length plc.runtime.engine.retainSeq plc.runtime.engine.vm e ∧
          rt₁ = { plc.runtime with engine := e }) ∨
        ∃ a b l, Swung plc.runtime.engine e a ∧ plc.runtime.armedLayout = some l ∧
          Paired force (some l) none e ∧ Shadowed force plc.runtime.currentLayout l b ∧
          Notes rs.length plc.runtime.engine.retainSeq (some b.vm) e ∧
          rt₁ = Runtime.resizeRetainSnapshot { plc.runtime with
            engine := e, currentLayout := some l, armedLayout := none
            currentInfo := plc.runtime.armedInfo, armedInfo := none }) := by
  unfold Runtime.scan at hscan
  obtain ⟨e, hrounds, hrt⟩ := Option.bind_eq_some_iff.mp hscan
  cases hrt
  refine ⟨e, _, hrounds, rfl, rfl, ?_⟩
  have hmode := applyModeBoundary_runs plc.runtime.engine
  have hsame : plc.runtime.engine.applyModeBoundary.retainSeq = plc.runtime.engine.retainSeq ∧
      plc.runtime.engine.applyModeBoundary.vm = plc.runtime.engine.vm := by
    unfold ScanEngine.applyModeBoundary
    rcases plc.runtime.engine.pendingMode with _ | req
    · exact ⟨rfl, rfl⟩
    · dsimp only
      split_ifs
      · exact ⟨rfl, rfl⟩
      · rcases applyRequest plc.runtime.engine.mode req with _ | mode
        · exact ⟨rfl, rfl⟩
        · exact ⟨rfl, rfl⟩
  have hrounds := (h.paired.runs hmode).rounds hrounds
  rw [hsame.1, hsame.2] at hrounds
  rcases hrounds with ⟨hheld, hpaired, hnotes⟩ | ⟨a, b, l, hswung, hl, hsh, hpaired, hnotes⟩
  · left
    have hheld := hmode.held.trans hheld
    refine ⟨hheld, hpaired, hnotes, sync_of_armedLayout ?_⟩
    intro hnone
    refine h.armedLayout ?_
    have harmed := hheld.armed
    rw [show e.armed = none from hnone, Option.map_none, eq_comm, Option.map_eq_none_iff] at harmed
    exact harmed
  · right
    have hswung := hmode.held.swung hswung
    refine ⟨a, b, l, hswung, hl, hl ▸ hpaired, hsh, hnotes, ?_⟩
    unfold Runtime.syncLayoutsAfterStep
    dsimp only
    rw [if_pos (by rw [hswung.armed]; rfl), if_pos (by rw [hswung.id, hl]; rfl), hl]

/-- What a scan leaves in the loader: everything, or the armed program as the current one. -/
theorem scan_cases {force : Bool} {plc : Plc} (h : Good force plc) {rs : List Round} {rt : Runtime}
    (hscan : plc.runtime.scan rs = some rt) :
    ∃ e, (Held plc.runtime.engine e ∧
        Paired force plc.runtime.currentLayout plc.runtime.armedLayout e ∧
        rt = ({ plc.runtime with engine := e } : Runtime).publishRetainIfDirty) ∨
      ∃ a l, Swung plc.runtime.engine e a ∧ plc.runtime.armedLayout = some l ∧
        Paired force (some l) none e ∧
        rt = (Runtime.resizeRetainSnapshot { plc.runtime with
          engine := e, currentLayout := some l, armedLayout := none
          currentInfo := plc.runtime.armedInfo, armedInfo := none }).publishRetainIfDirty := by
  obtain ⟨e, rt₁, -, -, hrt, ⟨hheld, hpaired, -, rfl⟩ | ⟨a, -, l, hswung, hl, hpaired, -, -, rfl⟩⟩ :=
    scan_notes h hscan
  · exact ⟨e, .inl ⟨hheld, hpaired, hrt⟩⟩
  · exact ⟨e, .inr ⟨a, l, hswung, hl, hpaired, hrt⟩⟩

section Kept

variable {force : Bool} {plc : Plc}

/-- A scan keeps the invariant. -/
theorem Good.scan (h : Good force plc) {rs : List Round} {rt : Runtime}
    (hscan : plc.runtime.scan rs = some rt) : Good force { plc with runtime := rt } := by
  obtain ⟨e, ⟨hheld, hpaired, rfl⟩ | ⟨a, l, hswung, hl, hpaired, rfl⟩⟩ := scan_cases h hscan
  · refine Good.of_core (core_publishRetainIfDirty _) ⟨hpaired, ?_, ?_, ?_, ?_, h.currentInfo, ?_, h.snapshot⟩
    · intro hnone
      refine h.armedLayout ?_
      have harmed := hheld.armed
      rw [show e.armed = none from hnone, Option.map_none, eq_comm,
        Option.map_eq_none_iff] at harmed
      exact harmed
    · have hinfo : ∀ o : Option ArmedProgram, o.map ArmedProgram.info =
          (o.map ArmedProgram.identity).map fun p => ⟨p.2.1, p.2.2⟩ := by
        intro o
        rw [Option.map_map]
        rfl
      show plc.runtime.armedInfo = e.armed.map ArmedProgram.info
      rw [h.armedInfo, hinfo, hinfo, hheld.armed]
    · exact hheld.id.trans h.currentId
    · exact hheld.hash.trans h.currentHash
    · intro harming
      have hquiet := h.quiet harming
      rcases hr : e.activateRequested with _ | _
      · rfl
      · rw [hheld.requested hr] at hquiet
        cases hquiet
  · have hnot : plc.arming = none := by
      by_contra harming
      have hreq := hswung.requested
      rw [h.quiet harming] at hreq
      cases hreq
    obtain ⟨b, hb, hident⟩ := Option.map_eq_some_iff.mp hswung.was
    have hinfo : plc.runtime.armedInfo = some a.info := by
      rw [h.armedInfo, hb]
      exact congrArg (fun p : VmImage × String × String => some (ProgramInfo.mk p.2.1 p.2.2)) hident
    refine Good.of_core ((core_publishRetainIfDirty _).trans (core_resizeRetainSnapshot _))
      ⟨hpaired, fun _ => rfl, ?_, ?_, ?_, ?_, fun hne => absurd hnot hne, ?_⟩
    · show none = e.armed.map ArmedProgram.info
      rw [hswung.armed]
      rfl
    · show e.currentId = plc.runtime.armedInfo.map ProgramInfo.id
      rw [hswung.id, hinfo]
      rfl
    · show e.currentHash = plc.runtime.armedInfo.map ProgramInfo.compatibilityHash
      rw [hswung.hash, hinfo]
      rfl
    · show plc.runtime.armedInfo.isSome = true
      rw [hinfo]
      rfl
    · intro pkg ctx harming
      rw [show plc.arming = some (pkg, ctx) from harming] at hnot
      cases hnot

/-- The phase plays no part in the invariant, as long as it is not that of a swap. -/
theorem Good.withPhase (h : Good force plc) {phase : ProgramPhase} (hphase : phase ≠ .swapping) :
    Good force { plc with runtime :=
      { plc.runtime with engine := { plc.runtime.engine with phase := phase } } } :=
  ⟨⟨h.paired.vm, h.paired.len, h.paired.armed, hphase⟩, h.armedLayout, h.armedInfo, h.currentId,
    h.currentHash, h.currentInfo, h.quiet, h.snapshot⟩

/-- What the first part of an arm does. -/
theorem armBegin_cases (h : Good force plc) (pkg : Package) :
    (∃ res, plc.armBegin pkg = (res, plc) ∧ (res = .armed → plc.isArmed pkg.manifest = true)) ∨
      (plc.arming = none ∧ plc.runtime.engine.activateRequested = false ∧
        plc.isArmed pkg.manifest = false ∧
        plc.armBegin pkg = (.none,
          { plc with
            runtime := { plc.runtime with
              engine := { plc.runtime.engine with phase := .validating } }
            arming := some (pkg, ⟨plc.runtime.engine.tasks.map TaskPlan.name,
              plc.runtime.snapshotRetain⟩) })) := by
  unfold Plc.armBegin
  rcases harming : plc.arming with _ | _
  · dsimp only
    by_cases harmed : plc.isArmed pkg.manifest = true
    · rw [if_pos harmed]
      exact .inl ⟨_, rfl, fun _ => harmed⟩
    · rw [if_neg harmed]
      unfold Runtime.beginArm
      rw [if_neg h.paired.phase]
      by_cases hreq : plc.runtime.engine.activateRequested = true
      · rw [if_pos hreq]
        exact .inl ⟨_, rfl, fun hres => nomatch hres⟩
      · rw [if_neg hreq, sync_of_armedLayout h.armedLayout]
        exact .inr ⟨rfl, by simpa using hreq, by simpa using harmed, rfl⟩
  · exact .inl ⟨_, rfl, fun hres => nomatch hres⟩

/-- An arm begins with a snapshot of the current program. -/
theorem Good.begins (h : Good force plc) (hreq : plc.runtime.engine.activateRequested = false)
    (pkg : Package) :
    Good force { plc with
      runtime := { plc.runtime with engine := { plc.runtime.engine with phase := .validating } }
      arming := some (pkg, ⟨plc.runtime.engine.tasks.map TaskPlan.name,
        plc.runtime.snapshotRetain⟩) } := by
  have hg := h.withPhase (show ProgramPhase.validating ≠ .swapping by decide)
  refine ⟨hg.paired, hg.armedLayout, hg.armedInfo, hg.currentId, hg.currentHash, hg.currentInfo,
    fun _ => hreq, ?_⟩
  intro pkg' ctx' harming
  cases harming
  have hsnap := snapshotOf_snapshotRetain h.paired
  exact hsnap

/-- The first part of an arm keeps the invariant. -/
theorem Good.armBegin (h : Good force plc) (pkg : Package) : Good force (plc.armBegin pkg).2 := by
  rcases armBegin_cases h pkg with ⟨res, heq, -⟩ | ⟨-, hreq, -, heq⟩
  · rw [heq]
    exact h
  · rw [heq]
    exact h.begins hreq pkg

/-- Giving an arm up. -/
theorem Good.abort (h : Good force plc) :
    Good force { plc with runtime := plc.runtime.abortArm, arming := none } := by
  have hnone : ∀ {plc : Plc}, Good force plc → Good force { plc with arming := none } := by
    intro plc h
    exact ⟨h.paired, h.armedLayout, h.armedInfo, h.currentId, h.currentHash, h.currentInfo,
      fun hne => absurd rfl hne, fun _ _ hsome => nomatch hsome⟩
  unfold Runtime.abortArm
  split_ifs
  · exact hnone h
  · exact hnone (h.withPhase (by decide))
  · exact hnone (h.withPhase (by decide))

/-- What the second part of an arm does. -/
theorem armFinish_cases (h : Good force plc) :
    ((plc.armFinish force).1 ≠ .armed ∧
        ((plc.armFinish force).2 = plc ∨
          (plc.armFinish force).2 =
            { plc with runtime := plc.runtime.abortArm, arming := none })) ∨
      ∃ pkg ctx a l, plc.arming = some (pkg, ctx) ∧
        pkg.image = some a.vm.image ∧ pkg.layout = some l ∧ a.info = pkg.manifest.info ∧
        Shadowed force plc.runtime.currentLayout l a ∧
        plc.armFinish force = (.armed,
          { plc with
            runtime := { plc.runtime with
              engine := { plc.runtime.engine with
                armed := some a, phase := .armed, activateRequested := false }
              armedLayout := some l, armedInfo := some a.info }
            arming := none }) := by
  unfold Plc.armFinish
  rcases harming : plc.arming with _ | ⟨pkg, ctx⟩
  · exact .inl ⟨by simp, .inl rfl⟩
  · dsimp only
    rcases hprep : prepareArm force pkg ctx with e | p
    · exact .inl ⟨by simp, .inr rfl⟩
    · dsimp only
      rcases hcommit : plc.runtime.commitArm p with e | rt
      · exact .inl ⟨by simp, .inr rfl⟩
      · right
        obtain ⟨himage, hlayout, hinfo, hpinfo, hshadow⟩ :=
          prepareArm_ok (h.snapshot pkg ctx harming) hprep
        unfold Runtime.commitArm at hcommit
        rw [if_neg h.paired.phase] at hcommit
        obtain ⟨e, harm, hcommit⟩ := except_bind_ok.mp hcommit
        cases hcommit
        have harm := liftTo_ok.mp harm
        unfold ScanEngine.arm at harm
        split_ifs at harm
        cases harm
        refine ⟨pkg, ctx, { p.program with vm :=
          ⟨p.program.vm.image, p.program.vm.state.coldResetNonRetain⟩ }, p.layout, rfl, himage,
          hlayout, hinfo, ⟨hshadow.len, hshadow.copies, hshadow.compatible, hshadow.fresh,
            hshadow.outside⟩, ?_⟩
        rw [hpinfo, ← hinfo]
        rfl

/-- The second part of an arm keeps the invariant. -/
theorem Good.armFinish (h : Good force plc) : Good force (plc.armFinish force).2 := by
  rcases armFinish_cases h with ⟨-, heq | heq⟩ | ⟨pkg, ctx, a, l, -, -, -, -, hshadow, heq⟩
  · rw [heq]
    exact h
  · rw [heq]
    exact h.abort
  · rw [heq]
    refine ⟨⟨h.paired.vm, h.paired.len, ?_, by simp⟩, (fun hnone => nomatch hnone), rfl, h.currentId,
      h.currentHash, h.currentInfo, fun hne => absurd rfl hne, fun _ _ hsome => nomatch hsome⟩
    intro b hb
    cases hb
    exact ⟨l, rfl, hshadow⟩

/-- What an activate does. -/
theorem activate_cases (h : Good force plc) (id : String) :
    (∃ res, plc.activate id = (res, plc) ∧ ∀ req, res ≠ .activated req) ∨
      ∃ a, plc.arming = none ∧ plc.runtime.engine.armed = some a ∧ a.programId = id ∧
        plc.runtime.engine.phase ≠ .validating ∧
        ((plc.runtime.engine.isCurrent a.programId a.compatibilityHash = true ∧
            plc.activate id = (.activated .noOp,
              { plc with runtime := { plc.runtime with
                  engine := { plc.runtime.engine with
                    armed := none, activateRequested := false, phase := .idle }
                  armedLayout := none, armedInfo := none } })) ∨
          (plc.runtime.engine.isCurrent a.programId a.compatibilityHash = false ∧
            plc.activate id = (.activated .pending,
              { plc with runtime := { plc.runtime with
                  engine := { plc.runtime.engine with activateRequested := true } } }))) := by
  unfold Plc.activate
  rcases harming : plc.arming with _ | _
  · rcases hinfo : plc.runtime.armedInfo with _ | info
    · exact .inl ⟨_, rfl, fun _ => by simp⟩
    · dsimp only
      have harmed := h.armedInfo
      rw [hinfo, eq_comm] at harmed
      obtain ⟨a, ha, hainfo⟩ := Option.map_eq_some_iff.mp harmed
      by_cases hid : info.id ≠ id
      · rw [if_pos hid]
        exact .inl ⟨_, rfl, fun _ => by simp⟩
      · rw [if_neg hid]
        by_cases hval : plc.runtime.engine.phase = .validating
        · rw [if_pos hval]
          exact .inl ⟨_, rfl, fun _ => by simp⟩
        · rw [if_neg hval, if_neg h.paired.phase]
          by_cases hreq : plc.runtime.engine.activateRequested = true
          · rw [if_pos hreq]
            exact .inl ⟨_, rfl, fun _ => by simp⟩
          · rw [if_neg hreq]
            refine .inr ⟨a, rfl, ha, ?_, hval, ?_⟩
            · rw [← not_not.mp hid, ← hainfo]
              rfl
            · unfold Runtime.activate ScanEngine.requestActivate
              rw [if_neg h.paired.phase, ha]
              dsimp only
              rcases hcur : plc.runtime.engine.isCurrent a.programId a.compatibilityHash with _ | _
              · exact .inr ⟨rfl, rfl⟩
              · exact .inl ⟨rfl, rfl⟩
  · exact .inl ⟨_, rfl, fun _ => by simp⟩

/-- An activate keeps the invariant. -/
theorem Good.activate (h : Good force plc) (id : String) : Good force (plc.activate id).2 := by
  rcases activate_cases h id with ⟨res, heq, -⟩ | ⟨a, harming, -, -, -, ⟨-, heq⟩ | ⟨-, heq⟩⟩
  · rw [heq]
    exact h
  · rw [heq]
    refine ⟨⟨h.paired.vm, h.paired.len, (fun b hb => nomatch hb), by simp⟩, fun _ => rfl, rfl,
      h.currentId, h.currentHash, h.currentInfo, fun _ => rfl, h.snapshot⟩
  · rw [heq]
    refine ⟨⟨h.paired.vm, h.paired.len, h.paired.armed, h.paired.phase⟩, h.armedLayout, h.armedInfo,
      h.currentId, h.currentHash, h.currentInfo, fun hne => absurd harming hne, h.snapshot⟩

/-- An image is loaded only into a segment of its size. -/
theorem loadRetainImage_len {s s' : ByteSegment} {image : List UInt8} {layout : RetainLayout}
    (h : s.loadRetainImage image layout = .ok s') : s'.len = s.len := by
  have hload := h
  unfold ByteSegment.loadRetainImage at hload
  split_ifs at hload with h₁ h₂
  obtain ⟨t, ht, hlen, -⟩ := loadRetainImage_ok (show s.len = layout.retainSize by omega)
    (show image.length = layout.retainSize by omega)
  rw [ht] at h
  cases h
  omega

/-- What a restore does. -/
theorem restoreRetain_cases (rt : Runtime) (image : List UInt8) :
    rt.restoreRetain image = rt ∨
      ∃ layout vm retain, rt.currentLayout = some layout ∧ rt.engine.vm = some vm ∧
        retain.len = vm.state.retain.len ∧
        rt.restoreRetain image = { rt with
          engine := { rt.engine with vm := some ⟨vm.image, vm.state.withRetain retain⟩ }
          retainSnap := rt.retainSnap.map fun buf => buf.publish retain.bytes } := by
  unfold Runtime.restoreRetain
  rcases hl : rt.currentLayout with _ | layout
  · exact .inl rfl
  · rcases hv : rt.engine.vm with _ | vm
    · exact .inl rfl
    · dsimp only
      rcases hload : vm.state.retain.loadRetainImage image layout with e | retain
      · exact .inl rfl
      · exact .inr ⟨layout, vm, retain, rfl, rfl, loadRetainImage_len hload, rfl⟩

/-- A current machine with another segment of the same size keeps the invariant. -/
theorem Good.withRetain (h : Good force plc) {vm : ArmedVm} {retain : ByteSegment}
    (hvm : plc.runtime.engine.vm = some vm) (hlen : retain.len = vm.state.retain.len)
    (snap : Option RetainSnapshotBuffer) :
    Good force { plc with runtime := { plc.runtime with
      engine := { plc.runtime.engine with vm := some ⟨vm.image, vm.state.withRetain retain⟩ }
      retainSnap := snap } } :=
  ⟨Paired.runs h.paired ⟨rfl, rfl, rfl, rfl, rfl, .inr ⟨vm, _, hvm, rfl, rfl, hlen⟩⟩,
    h.armedLayout, h.armedInfo, h.currentId, h.currentHash, h.currentInfo, h.quiet, h.snapshot⟩

/-- A restore keeps the invariant. -/
theorem Good.restoreRetain (h : Good force plc) (image : List UInt8) :
    Good force { plc with runtime := plc.runtime.restoreRetain image } := by
  rcases restoreRetain_cases plc.runtime image with heq | ⟨layout, vm, retain, -, hvm, hlen, heq⟩
  · rw [heq]
    exact h
  · rw [heq]
    exact h.withRetain hvm hlen _

/-- A flush changes only the buffer. -/
theorem flushRetain_cases (plc : Plc) :
    plc.flushRetain = (.none, plc) ∨
      ∃ info layout buf image buf', plc.runtime.currentInfo = some info ∧
        plc.runtime.currentLayout = some layout ∧ plc.runtime.retainSnap = some buf ∧
        buf.read layout.retainSize = some (image, buf') ∧
        plc.flushRetain = (.flushed ⟨info.id, layout, image⟩,
          { plc with runtime := { plc.runtime with retainSnap := some buf' } }) := by
  unfold Plc.flushRetain
  rcases hi : plc.runtime.currentInfo with _ | info
  · exact .inl rfl
  · rcases hl : plc.runtime.currentLayout with _ | layout
    · exact .inl rfl
    · rcases hb : plc.runtime.retainSnap with _ | buf
      · exact .inl rfl
      · dsimp only
        rcases hr : buf.read layout.retainSize with _ | ⟨image, buf'⟩
        · exact .inl rfl
        · exact .inr ⟨info, layout, buf, image, buf', rfl, rfl, rfl, hr, rfl⟩

/-- **Every event keeps the invariant.** -/
theorem Good.handle (h : Good force plc) {ev : Event} {res : Response} {plc' : Plc}
    (hev : plc.handle force ev = some (res, plc')) : Good force plc' := by
  cases ev with
  | upload pkg =>
      cases hev
      exact ⟨h.paired, h.armedLayout, h.armedInfo, h.currentId, h.currentHash, h.currentInfo,
        h.quiet, h.snapshot⟩
  | armBegin pkg =>
      have hg := h.armBegin pkg
      rw [Option.some.inj hev] at hg
      exact hg
  | armFinish =>
      have hg := h.armFinish
      rw [Option.some.inj hev] at hg
      exact hg
  | activate id =>
      have hg := h.activate id
      rw [Option.some.inj hev] at hg
      exact hg
  | scan rs =>
      obtain ⟨rt, hscan, heq⟩ := Option.map_eq_some_iff.mp hev
      cases heq
      exact h.scan hscan
  | flushRetain =>
      rcases flushRetain_cases plc with heq | ⟨_, _, _, _, _, -, -, -, -, heq⟩
      · rw [show plc.flushRetain = (res, plc') from Option.some.inj hev] at heq
        cases heq
        exact h
      · rw [show plc.flushRetain = (res, plc') from Option.some.inj hev] at heq
        cases heq
        exact @Good.of_core force plc plc.runtime _ rfl h
  | restoreRetain image =>
      cases hev
      exact h.restoreRetain image
  | requestMode req =>
      cases hev
      exact ⟨⟨h.paired.vm, h.paired.len, h.paired.armed, h.paired.phase⟩, h.armedLayout, h.armedInfo,
        h.currentId, h.currentHash, h.currentInfo, h.quiet, h.snapshot⟩

/-- **Every history keeps the invariant.** -/
theorem Plc.History.good {past : List (Event × Response × Plc)}
    (h : Plc.History force plc past) : Good force plc := by
  induction h with
  | start tasks order nI nQ => exact good_start force tasks order nI nQ
  | step _ hev ih => exact ih.handle hev

/-! ## Installs -/

/-- Before an install inside a scan the engine is still paired with the layouts. -/
theorem Good.paired_of_install (h : Good force plc) {rs : List Round} {r : Round}
    {e e' : ScanEngine} (hrs : plc.runtime.engine.applyModeBoundary.rounds rs = some e)
    (hinst : e.tryEpochInstall r = (e', .installed)) :
    Paired force plc.runtime.currentLayout plc.runtime.armedLayout e := by
  have hmode := applyModeBoundary_runs plc.runtime.engine
  rcases (h.paired.runs hmode).rounds hrs with ⟨-, hpaired, -⟩ | ⟨_, _, _, hswung, -⟩
  · exact hpaired
  · -- A second install would need a second request.
    have hstep := tryEpochInstall_step e r
    rw [hinst] at hstep
    cases hstep with
    | installed hreq _ _ =>
        rw [hswung.done] at hreq
        cases hreq

/-- What an install puts into the retain segment of the new machine. -/
theorem Good.install (h : Good force plc) {rs : List Round} {r : Round} {e e' : ScanEngine}
    (hrs : plc.runtime.engine.applyModeBoundary.rounds rs = some e)
    (hinst : e.tryEpochInstall r = (e', .installed)) :
    ∃ new a vm', plc.runtime.armedLayout = some new ∧ e'.vm = some vm' ∧ e.armed = some a ∧
      Shadowed force plc.runtime.currentLayout new a ∧
      (plc.runtime.currentLayout = none → vm'.state.retain = a.vm.state.retain) ∧
      ∀ old, plc.runtime.currentLayout = some old →
        ∃ vm, e.vm = some vm ∧ vm.state.retain.len = old.retainSize ∧
          Shadowed force (some old) new { a with vm := vm' } ∧
          ∀ s ∈ new.symbols, vm'.state.retain.symbol s = match keeps old s with
            | some o => vm.state.retain.symbol o
            | none => (s.zeros, s.ty) := by
  have hpaired := h.paired_of_install hrs hinst
  have hstep := tryEpochInstall_step e r
  rw [hinst] at hstep
  cases hstep with
  | @installed a a' _ ha hblit =>
      obtain ⟨new, hnew, hsh⟩ := hpaired.armed a ha
      refine ⟨new, a, a'.vm, hnew, rfl, ha, hsh, ?_, ?_⟩
      · intro hnone
        have hvm := hpaired.vm
        rw [hnone, Option.isSome_none, Option.isSome_eq_false_iff, Option.isNone_iff_eq_none] at hvm
        rw [hvm] at hblit
        cases hblit
        rfl
      · intro old hold
        have hvm := hpaired.vm
        rw [hold] at hvm
        obtain ⟨vm, hv⟩ := Option.isSome_iff_exists.mp hvm
        rw [hold] at hsh
        have hlen := hpaired.len vm old hv hold
        obtain ⟨retain, hok, hsh', hsym⟩ := hsh.blit hlen
        rw [hv, hok] at hblit
        cases hblit
        exact ⟨vm, hv, hlen, hsh', hsym⟩

/-- **Retain values survive a hot-swap exactly.** Right after an install, at whatever point of
whatever history, every symbol of the new layout has the bytes that the remap of the old machine's
retain segment, as it was at the install, gives it, and everything else is zero. -/
theorem install_retain {past : List (Event × Response × Plc)} (h : Plc.History force plc past)
    {rs : List Round} {r : Round} {e e' : ScanEngine}
    (hrs : plc.runtime.engine.applyModeBoundary.rounds rs = some e)
    (hinst : e.tryEpochInstall r = (e', .installed)) {old : RetainLayout}
    (hold : plc.runtime.currentLayout = some old) :
    ∃ new vm vm' m, plc.runtime.armedLayout = some new ∧ e.vm = some vm ∧ e'.vm = some vm' ∧
      mapRetain old vm.state.retain.bytes new force = .ok m ∧
      (∀ s ∈ new.symbols, s.slice vm'.state.retain.bytes = s.slice m.image) ∧
      ∀ i < vm'.state.retain.len, new.Outside i → vm'.state.retain.bytes[i]? = some 0 := by
  obtain ⟨new, a, vm', hnew, hvm', ha, -, -, hinstall⟩ := h.good.install hrs hinst
  obtain ⟨vm, hvm, hlen, hsh, hsym⟩ := hinstall old hold
  obtain ⟨m, hm⟩ := hsh.compatible old rfl vm.state.retain.bytes hlen
  obtain ⟨-, hslice, -⟩ := mapRetain_ok hm
  refine ⟨new, vm, vm', m, hnew, hvm, hvm', hm, ?_, ?_⟩
  · intro s hs
    have hbytes : s.slice vm'.state.retain.bytes = (vm'.state.retain.symbol s).1 := rfl
    rw [hbytes, hsym s hs, hslice s hs, valueOf_eq]
    rcases keeps old s with _ | o
    · rfl
    · rfl
  · intro i hi ho
    exact hsh.outside i (hi.trans_eq hsh.len) ho

end Kept

/-- A package of one task with retained symbols. -/
def taskPackage (id : String) (code : List DecodedInstr) (retainSize : ℕ)
    (symbols : List RetainSymbol) : Package :=
  ⟨⟨id, "hash of " ++ id, primitiveAbi, [("main", "task.main")], symbols⟩,
    some { taskModule code 0 with retainSize := retainSize }⟩

/-- `n := 7` with `n` retained at offset 0. -/
def setPackage : Package :=
  taskPackage "set" [.withImm32 .pushIDint 0 7, .simple .stRetain 0, .simple .halt 0] 4
    [⟨"n", .dint, 0⟩]

/-- `n` retained at offset 4, no code. -/
def movedPackage : Package := taskPackage "moved" [.simple .halt 0] 8 [⟨"n", .dint, 4⟩]

/-- One task of 10 ms, no inputs and outputs. -/
def device : Plc := .start [⟨"main", 10, "task.main", 1⟩] [0] 0 0

/-- A round that takes no time, at one reading of the clock. -/
def roundAt (ms : ℕ) : Round := ⟨ms, 0, ms, ms, ms, [], false, false⟩

/-- Install a package on a device and arm a second one, with a scan in the middle of the arm. -/
def swapEvents (first second : Package) : List Event :=
  [.requestMode .run, .upload first, .armBegin first, .armFinish, .activate first.manifest.id,
    .scan [roundAt 0], .upload second, .armBegin second, .scan [roundAt 10], .armFinish,
    .activate second.manifest.id]

/-- The value that the first program writes is the one the second one starts with, at its own
offset. -/
theorem install_retain_moved :
    ∃ (plc : Plc) (past : _) (new : RetainLayout) (vm' : ArmedVm) (m : MappedRetain),
      Plc.History false plc past ∧ plc.runtime.armedLayout = some new ∧
      new.symbols = [⟨"n", .dint, 4⟩] ∧
      (∀ s ∈ new.symbols, s.slice vm'.state.retain.bytes = s.slice m.image) ∧
      vm'.state.retain.bytes = [0, 0, 0, 0, 7, 0, 0, 0] := by
  have hrun : (device.runWhile false (fun _ => true) (swapEvents setPackage movedPackage)).map (fun plc =>
      let out := plc.runtime.engine.applyModeBoundary.tryEpochInstall (roundAt 20)
      (out.2, plc.runtime.currentLayout.isSome, plc.runtime.armedLayout.map RetainLayout.symbols,
        out.1.vm.map fun vm => vm.state.retain.bytes)) =
      some (.installed, true, some [⟨"n", .dint, 4⟩], some [0, 0, 0, 0, 7, 0, 0, 0]) := by
    decide +kernel
  obtain ⟨plc, hplc, hfacts⟩ := Option.map_eq_some_iff.mp hrun
  simp only [Prod.mk.injEq] at hfacts
  obtain ⟨hout, hcur, hsyms, hbytes⟩ := hfacts
  obtain ⟨past, hist, -⟩ := (Plc.History.start _ _ _ _).runWhile (by simp) hplc
  obtain ⟨old, hold⟩ := Option.isSome_iff_exists.mp hcur
  obtain ⟨new, vm, vm', m, hnew, -, hvm', -, hslice, -⟩ :=
    install_retain hist (show plc.runtime.engine.applyModeBoundary.rounds [] = some _ from rfl)
      (Prod.ext rfl hout) hold
  rw [hnew] at hsyms
  rw [hvm'] at hbytes
  exact ⟨plc, past, new, vm', m, hist, hnew, Option.some.inj hsyms, hslice, Option.some.inj hbytes⟩

section Types

variable {force : Bool} {plc : Plc}

/-- The type of the value at an offset is the declared one. -/
def Typed (retain : ByteSegment) (s : RetainSymbol) : Prop :=
  ∃ v, retain.load s.offset 0 = .ok v ∧ v.irType = s.ty

/-- A load gives the declared type exactly when the tag says so. -/
theorem typed_iff {retain : ByteSegment} {s : RetainSymbol} (h : s.endOffset ≤ retain.len) :
    Typed retain s ↔ retain.tagAt s.offset = s.ty := by
  constructor
  · rintro ⟨v, hload, hty⟩
    rw [← hty, ByteSegment.irType_load hload]
  · intro htag
    refine ⟨_, ByteSegment.load_ok_iff.mpr ⟨?_, rfl⟩, ?_⟩
    · rw [htag]
      exact h
    · rw [VmValue.irType_ofPayload, htag]

/-- The tags that an install relies on: without a current program all symbols are BOOL; else every
kept symbol is tagged with its type in the old machine. -/
def TagsMatch (old : Option RetainLayout) (vm : Option ArmedVm) (new : RetainLayout) : Prop :=
  match old, vm with
  | some old, some vm =>
      ∀ s ∈ new.symbols, ∀ o, keeps old s = some o → vm.state.retain.tagAt o.offset = o.ty
  | _, _ => ∀ s ∈ new.symbols, s.ty = .bool

/-- **When retain symbols keep their declared type across an install**: exactly when the tags in the
old machine match at the install. -/
theorem install_types_iff {past : List (Event × Response × Plc)} (h : Plc.History force plc past)
    {rs : List Round} {r : Round} {e e' : ScanEngine}
    (hrs : plc.runtime.engine.applyModeBoundary.rounds rs = some e)
    (hinst : e.tryEpochInstall r = (e', .installed)) :
    ∃ new vm', plc.runtime.armedLayout = some new ∧ e'.vm = some vm' ∧
      ((∀ s ∈ new.symbols, Typed vm'.state.retain s) ↔
        TagsMatch plc.runtime.currentLayout e.vm new) := by
  obtain ⟨new, a, vm', hnew, hvm', ha, hshadow, hcold, hinstall⟩ := h.good.install hrs hinst
  refine ⟨new, vm', hnew, hvm', ?_⟩
  rcases hold : plc.runtime.currentLayout with _ | old
  · have hretain := hcold hold
    rw [hold] at hshadow
    have htag : ∀ s ∈ new.symbols, Typed vm'.state.retain s ↔ IrType.bool = s.ty := by
      intro s hs
      have hfresh : a.vm.state.retain.symbol s = (s.zeros, .bool) :=
        hshadow.fresh s hs fun l hl => nomatch hl
      have htagAt : vm'.state.retain.tagAt s.offset = .bool := by
        rw [hretain]
        exact (Prod.mk.inj hfresh).2
      rw [typed_iff (by rw [hretain, hshadow.len]; exact new.bounded s hs), htagAt]
    constructor
    · intro hall s hs
      exact ((htag s hs).mp (hall s hs)).symm
    · intro hall s hs
      exact (htag s hs).mpr (hall s hs).symm
  · obtain ⟨vm, hvm, hlen, hsh, hsym⟩ := hinstall old hold
    have htag : ∀ s ∈ new.symbols, Typed vm'.state.retain s ↔
        ∀ o, keeps old s = some o → vm.state.retain.tagAt o.offset = o.ty := by
      intro s hs
      have htagAt := (Prod.mk.inj (hsym s hs)).2
      rw [typed_iff ((new.bounded s hs).trans_eq hsh.len.symm)]
      have hcell : vm'.state.retain.tagAt s.offset = (vm'.state.retain.symbol s).2 := rfl
      rw [hcell, hsym s hs]
      rcases hk : keeps old s with _ | o
      · simp
      · rw [← (keeps_some hk).2]
        constructor
        · rintro heq o' ho'
          cases ho'
          exact heq
        · intro heq
          exact heq o rfl
    rw [hvm]
    constructor
    · intro hall s hs
      exact (htag s hs).mp (hall s hs)
    · intro hall s hs
      exact (htag s hs).mpr (hall s hs)

end Types

/-- `n` retained at offset 0, no code. -/
def idlePackage (id : String) : Package := taskPackage id [.simple .halt 0] 4 [⟨"n", .dint, 0⟩]

/-- A program that writes its retained value hands its type over. -/
theorem install_types_moved :
    ∃ (plc : Plc) (past : _) (new : RetainLayout) (vm' : ArmedVm),
      Plc.History false plc past ∧ plc.runtime.armedLayout = some new ∧
      new.symbols = [⟨"n", .dint, 4⟩] ∧ ∀ s ∈ new.symbols, Typed vm'.state.retain s := by
  have hrun : (device.runWhile false (fun _ => true) (swapEvents setPackage movedPackage)).map (fun plc =>
      let e := plc.runtime.engine.applyModeBoundary
      ((e.tryEpochInstall (roundAt 20)).2, plc.runtime.currentLayout.map RetainLayout.symbols,
        plc.runtime.armedLayout.map RetainLayout.symbols,
        e.vm.map fun vm => vm.state.retain.tagAt 0)) =
      some (.installed, some [⟨"n", .dint, 0⟩], some [⟨"n", .dint, 4⟩], some .dint) := by
    decide +kernel
  obtain ⟨plc, hplc, hfacts⟩ := Option.map_eq_some_iff.mp hrun
  simp only [Prod.mk.injEq] at hfacts
  obtain ⟨hout, hcur, hsyms, htag⟩ := hfacts
  obtain ⟨past, hist, -⟩ := (Plc.History.start _ _ _ _).runWhile (by simp) hplc
  obtain ⟨old, hold, holdsyms⟩ := Option.map_eq_some_iff.mp hcur
  obtain ⟨vm, hvm, htag⟩ := Option.map_eq_some_iff.mp htag
  obtain ⟨new, vm', hnew, -, hiff⟩ := install_types_iff hist
    (show plc.runtime.engine.applyModeBoundary.rounds [] = some _ from rfl) (Prod.ext rfl hout)
  rw [hnew] at hsyms
  refine ⟨plc, past, new, vm', hist, hnew, Option.some.inj hsyms, hiff.mpr ?_⟩
  rw [hold, hvm]
  intro s hs o ho
  have hmem := (keeps_some ho).1
  rw [holdsyms, List.mem_singleton] at hmem
  subst hmem
  exact htag

/-- A program that never wrote a retained DINT hands it over as a BOOL. -/
theorem install_types_lost :
    ∃ plc past new e' vm' s, Plc.History false plc past ∧
      plc.runtime.engine.applyModeBoundary.tryEpochInstall (roundAt 20) = (e', .installed) ∧
      plc.runtime.armedLayout = some new ∧ e'.vm = some vm' ∧ s ∈ new.symbols ∧ s.ty = .dint ∧
      vm'.state.retain.load s.offset 0 = .ok (.bool false) ∧ ¬Typed vm'.state.retain s := by
  have hrun : (device.runWhile false (fun _ => true) (swapEvents (idlePackage "a") (idlePackage "b"))).map (fun plc =>
      let out := plc.runtime.engine.applyModeBoundary.tryEpochInstall (roundAt 20)
      (out.2, plc.runtime.armedLayout.map RetainLayout.symbols,
        out.1.vm.map fun vm => (vm.state.retain.load 0 0).toOption)) =
      some (.installed, some [⟨"n", .dint, 0⟩], some (some (.bool false))) := by
    decide +kernel
  obtain ⟨plc, hplc, hfacts⟩ := Option.map_eq_some_iff.mp hrun
  simp only [Prod.mk.injEq] at hfacts
  obtain ⟨hout, hsyms, hload⟩ := hfacts
  obtain ⟨past, hist, -⟩ := (Plc.History.start _ _ _ _).runWhile (by simp) hplc
  obtain ⟨new, hnew, hnewsyms⟩ := Option.map_eq_some_iff.mp hsyms
  obtain ⟨vm', hvm', hload⟩ := Option.map_eq_some_iff.mp hload
  have hload' : vm'.state.retain.load 0 0 = .ok (.bool false) := by
    rcases hl : vm'.state.retain.load 0 0 with err | v
    · rw [hl] at hload
      cases hload
    · rw [hl] at hload
      cases hload
      rfl
  refine ⟨plc, past, new, _, vm', ⟨"n", .dint, 0⟩, hist, Prod.ext rfl hout, hnew, hvm', ?_, rfl,
    hload', ?_⟩
  · rw [hnewsyms]
    exact List.mem_singleton_self _
  · rintro ⟨v, hv, hty⟩
    rw [hload'] at hv
    cases hv
    cases hty

end SoftPlc.Scan
