import SoftPlc.Scan.Loader

/-!
# Retain values across a hot-swap

A retain value reaches the new program in three stages: the shadow image at the arm, from a snapshot
of the old program; copies of the kept symbols at the install, from the old program as it is then;
and again after every deferred install. `Paired` is what every history keeps between the engine and
the layouts of the loader: the copies of the armed program are those from the current layout to its
own, and whatever they do not write is zero.
-/

namespace SoftPlc.Scan

open SoftPlc.Ir SoftPlc.Vm SoftPlc.Retain SoftPlc.Lib

/-! ## Kept symbols -/

/-- The symbol of an old layout that keeps its value as a symbol of a new one. -/
def keeps (old : RetainLayout) (s : RetainSymbol) : Option RetainSymbol :=
  match old.get s.name with
  | some o => if o.ty = s.ty then some o else none
  | none => none

theorem keeps_some {old : RetainLayout} {s o : RetainSymbol} (h : keeps old s = some o) :
    o ∈ old.symbols ∧ o.ty = s.ty := by
  unfold keeps at h
  rcases hget : old.get s.name with _ | o'
  · rw [hget] at h
    cases h
  · rw [hget] at h
    dsimp only at h
    split_ifs at h with hty
    cases h
    exact ⟨(RetainLayout.get_some hget).1, hty⟩

/-- The value of a symbol under an old layout. -/
theorem valueOf_eq (old : RetainLayout) (image : List UInt8) (s : RetainSymbol) :
    old.valueOf image s = match keeps old s with
      | some o => o.slice image
      | none => s.zeros := by
  unfold RetainLayout.valueOf keeps
  rcases old.get s.name with _ | o
  · rfl
  · dsimp only
    split_ifs
    · rfl
    · rfl

/-- The copy of a kept symbol. -/
def copyOf (old : RetainLayout) (s : RetainSymbol) : Option RetainCopy :=
  (keeps old s).map fun o => ⟨o.offset, s.offset, o.ty.byteWidth⟩

theorem keepCopies_eq (old new : RetainLayout) :
    keepCopies old new = new.symbols.filterMap (copyOf old) := by
  unfold keepCopies
  congr 1
  funext s
  unfold copyOf keeps
  rcases old.get s.name with _ | o
  · rfl
  · dsimp only
    split_ifs
    · rfl
    · rfl

/-- The symbols behind a copy. -/
theorem mem_keepCopies {old new : RetainLayout} {c : RetainCopy} (h : c ∈ keepCopies old new) :
    ∃ s ∈ new.symbols, ∃ o ∈ old.symbols, keeps old s = some o ∧
      c = ⟨o.offset, s.offset, s.ty.byteWidth⟩ := by
  rw [keepCopies_eq, List.mem_filterMap] at h
  obtain ⟨s, hs, hc⟩ := h
  obtain ⟨o, ho, rfl⟩ := Option.map_eq_some_iff.mp hc
  obtain ⟨hmem, hty⟩ := keeps_some ho
  exact ⟨s, hs, o, hmem, ho, by rw [hty]⟩

/-- Copies write disjoint ranges. -/
theorem keepCopies_disjoint (old new : RetainLayout) :
    (keepCopies old new).Pairwise fun c d =>
      ByteSegment.Apart c.dstOffset c.len d.dstOffset d.len := by
  rw [keepCopies_eq, List.pairwise_filterMap]
  refine new.disjoint.imp ?_
  intro s t hst c hc d hd
  obtain ⟨o, ho, rfl⟩ := Option.map_eq_some_iff.mp hc
  obtain ⟨p, hp, rfl⟩ := Option.map_eq_some_iff.mp hd
  have hos := (keeps_some ho).2
  have hpt := (keeps_some hp).2
  unfold ByteSegment.Apart
  simp only [hos, hpt]
  exact hst

/-- Copies that all succeed. -/
theorem blitCopies_ok {src dst dst' : ByteSegment} {copies : List RetainCopy}
    (h : copies.foldlM (fun s (c : RetainCopy) => s.blitFrom c.dstOffset src c.srcOffset c.len)
      dst = .ok dst') : ScanEngine.blitCopies src copies dst = (dst', .ok ()) := by
  induction copies generalizing dst with
  | nil =>
      cases h
      rfl
  | cons c rest ih =>
      rw [List.foldlM_cons] at h
      obtain ⟨s₁, h₁, h⟩ := except_bind_ok.mp h
      rw [ScanEngine.blitCopies, h₁]
      exact ih h

/-- **What the copies of an install do.** They succeed; a kept symbol gets the bytes and the tag of
the old one, and everything else stays. -/
theorem blitCopies_keepCopies {old new : RetainLayout} {src dst : ByteSegment}
    (hsrc : src.len = old.retainSize) (hdst : dst.len = new.retainSize) :
    ∃ dst', ScanEngine.blitCopies src (keepCopies old new) dst = (dst', .ok ()) ∧
      dst'.len = new.retainSize ∧
      (∀ s ∈ new.symbols, dst'.symbol s = match keeps old s with
        | some o => src.symbol o
        | none => dst.symbol s) ∧
      ∀ i, new.Outside i → dst'.bytes[i]? = dst.bytes[i]? := by
  have hstep : ∀ c ∈ keepCopies old new, ∀ t : ByteSegment, t.len = new.retainSize →
      ∃ t', t.blitFrom c.dstOffset src c.srcOffset c.len = .ok t' ∧ t'.len = new.retainSize ∧
        t'.cell c.dstOffset c.len = src.cell c.srcOffset c.len ∧
        ∀ o k, 0 < k → ByteSegment.Apart o k c.dstOffset c.len → t'.cell o k = t.cell o k := by
    intro c hc t ht
    obtain ⟨s, hs, o, ho, hkeeps, rfl⟩ := mem_keepCopies hc
    have hty := (keeps_some hkeeps).2
    have hsb := new.bounded s hs
    have hob := old.bounded o ho
    unfold RetainSymbol.endOffset at hsb hob
    rw [hty] at hob
    obtain ⟨t', h', hlen, hcell, hframe⟩ := ByteSegment.blitFrom_ok
      (show s.offset + s.ty.byteWidth ≤ t.len by rw [ht]; exact hsb)
      (show o.offset + s.ty.byteWidth ≤ src.len by rw [hsrc]; exact hob) s.ty.byteWidth_pos
    exact ⟨t', h', hlen.trans ht, hcell, hframe⟩
  have hpos : ∀ c ∈ keepCopies old new, 0 < c.len := by
    intro c hc
    obtain ⟨s, -, o, -, -, rfl⟩ := mem_keepCopies hc
    exact s.ty.byteWidth_pos
  obtain ⟨dst', h', hlen, hcell, hframe⟩ :=
    ByteSegment.foldlM_cells hstep hpos (keepCopies_disjoint old new) dst hdst
  refine ⟨dst', blitCopies_ok h', hlen, ?_, ?_⟩
  · intro s hs
    rcases hkeeps : keeps old s with _ | o
    · -- No copy meets a symbol that is not kept.
      refine hframe s.offset s.ty.byteWidth s.ty.byteWidth_pos ?_
      intro c hc
      obtain ⟨t, ht, o, -, hot, rfl⟩ := mem_keepCopies hc
      refine new.disjoint_of_ne hs ht ?_
      rintro rfl
      rw [hkeeps] at hot
      cases hot
    · have hmem : (⟨o.offset, s.offset, o.ty.byteWidth⟩ : RetainCopy) ∈ keepCopies old new := by
        rw [keepCopies_eq, List.mem_filterMap]
        exact ⟨s, hs, by rw [copyOf, hkeeps]; rfl⟩
      have hsame := hcell _ hmem
      dsimp only at hsame ⊢
      rw [ByteSegment.symbol, ByteSegment.symbol, ← hsame, (keeps_some hkeeps).2]
  · intro i hi
    refine ByteSegment.getElem?_of_cell (hframe i 1 Nat.one_pos ?_)
    intro c hc
    obtain ⟨s, hs, o, -, -, rfl⟩ := mem_keepCopies hc
    have hout := hi s hs
    unfold RetainSymbol.endOffset at hout
    unfold ByteSegment.Apart
    dsimp only
    omega

/-! ## What the engine does -/

/-- What runs of the current program leave alone. -/
structure Runs (e e' : ScanEngine) : Prop where
  armed : e'.armed = e.armed
  phase : e'.phase = e.phase
  requested : e'.activateRequested = e.activateRequested
  id : e'.currentId = e.currentId
  hash : e'.currentHash = e.currentHash
  vm : (e.vm = none ∧ e'.vm = none) ∨ ∃ v v', e.vm = some v ∧ e'.vm = some v' ∧
    v'.image = v.image ∧ v'.state.retain.len = v.state.retain.len

namespace Runs

theorem of_vm {e e' : ScanEngine} (armed : e'.armed = e.armed) (phase : e'.phase = e.phase)
    (requested : e'.activateRequested = e.activateRequested) (id : e'.currentId = e.currentId)
    (hash : e'.currentHash = e.currentHash) (hvm : e'.vm = e.vm) : Runs e e' := by
  refine ⟨armed, phase, requested, id, hash, ?_⟩
  rw [hvm]
  rcases e.vm with _ | v
  · exact .inl ⟨rfl, rfl⟩
  · exact .inr ⟨v, v, rfl, rfl, rfl, rfl⟩

theorem refl (e : ScanEngine) : Runs e e := of_vm rfl rfl rfl rfl rfl rfl

theorem trans {e₁ e₂ e₃ : ScanEngine} (h₁ : Runs e₁ e₂) (h₂ : Runs e₂ e₃) : Runs e₁ e₃ := by
  refine ⟨h₂.armed.trans h₁.armed, h₂.phase.trans h₁.phase, h₂.requested.trans h₁.requested,
    h₂.id.trans h₁.id, h₂.hash.trans h₁.hash, ?_⟩
  rcases h₁.vm with ⟨hv₁, hv₂⟩ | ⟨v, v₂, hv, hv₂, himage, hlen⟩
  · rcases h₂.vm with ⟨-, hv₃⟩ | ⟨_, _, hv₂', -⟩
    · exact .inl ⟨hv₁, hv₃⟩
    · rw [hv₂] at hv₂'
      cases hv₂'
  · rcases h₂.vm with ⟨hv₂', -⟩ | ⟨w, v₃, hw, hv₃, himage', hlen'⟩
    · rw [hv₂] at hv₂'
      cases hv₂'
    · rw [hv₂] at hw
      cases hw
      exact .inr ⟨v, v₃, hv, hv₃, himage'.trans himage, hlen'.trans hlen⟩

end Runs

theorem enterFault_runs (e : ScanEngine) : Runs e e.enterFault :=
  .of_vm rfl rfl rfl rfl rfl rfl

theorem applyModeBoundary_runs (e : ScanEngine) : Runs e e.applyModeBoundary := by
  unfold ScanEngine.applyModeBoundary
  rcases e.pendingMode with _ | req
  · exact .refl e
  · dsimp only
    split_ifs
    · exact .of_vm rfl rfl rfl rfl rfl rfl
    · rcases applyRequest e.mode req with _ | mode
      · exact .of_vm rfl rfl rfl rfl rfl rfl
      · exact .of_vm rfl rfl rfl rfl rfl rfl

theorem sampleInputs_runs (e : ScanEngine) (r : Round) : Runs e (e.sampleInputs r) := by
  have hfault : Runs e (if r.inputFault then e.enterFault else e) := by
    split_ifs
    · exact enterFault_runs e
    · exact .refl e
  refine hfault.trans ⟨rfl, rfl, rfl, rfl, rfl, ?_⟩
  unfold ScanEngine.sampleInputs
  dsimp only
  rcases (if r.inputFault then e.enterFault else e).vm with _ | v
  · exact .inl ⟨rfl, rfl⟩
  · exact .inr ⟨v, _, rfl, rfl, rfl, rfl⟩

theorem runLogic_runs {e e' : ScanEngine} {task nowMs : ℕ} {ok : Bool}
    (h : e.runLogic task nowMs = some (e', ok)) : Runs e e' := by
  unfold ScanEngine.runLogic at h
  rcases hvm : e.vm with _ | v
  · simp only [hvm] at h
    cases h
    exact .refl e
  · simp only [hvm] at h
    have hlen := runEntry_retain_len v.image ((e.tasks[task]?.map TaskPlan.entry).getD "") nowMs
      v.state
    rcases hrun : runEntry v.image ((e.tasks[task]?.map TaskPlan.entry).getD "") nowMs v.state with
      ⟨(_ | _) | res, s⟩
    · rw [hrun] at h hlen
      cases h
      exact ⟨rfl, rfl, rfl, rfl, rfl, .inr ⟨v, _, hvm, rfl, rfl, hlen⟩⟩
    · rw [hrun] at h
      cases h
    · rw [hrun] at h hlen
      dsimp only at h
      split_ifs at h
      · cases h
        exact ⟨rfl, rfl, rfl, rfl, rfl, .inr ⟨v, _, hvm, rfl, rfl, hlen⟩⟩
      · cases h
        exact ⟨rfl, rfl, rfl, rfl, rfl, .inr ⟨v, _, hvm, rfl, rfl, hlen⟩⟩

theorem logic_runs {e e' : ScanEngine} {task : ℕ} {r : Round} (h : e.logic task r = some e') :
    Runs e e' := by
  unfold ScanEngine.logic at h
  split_ifs at h
  · obtain ⟨⟨e₁, ok⟩, h₁, rfl⟩ := Option.map_eq_some_iff.mp h
    refine (runLogic_runs h₁).trans ?_
    cases ok with
    | true => exact .refl e₁
    | false => exact enterFault_runs e₁
  · cases h
    exact .refl e

theorem finishInvoke_runs (e : ScanEngine) (task : ℕ) (r : Round) :
    Runs e (e.finishInvoke task r) := by
  unfold ScanEngine.finishInvoke
  split_ifs
  · exact .of_vm rfl rfl rfl rfl rfl rfl
  · exact .of_vm rfl rfl rfl rfl rfl rfl

theorem invoke_runs {e e' : ScanEngine} {task : ℕ} {r : Round} (h : e.invoke task r = some e') :
    Runs e e' := by
  obtain ⟨e₁, h₁, rfl⟩ := Option.map_eq_some_iff.mp h
  exact ((sampleInputs_runs e r).trans (logic_runs h₁)).trans (finishInvoke_runs e₁ task r)

/-- What an install check can do. -/
inductive InstallStep (e : ScanEngine) (r : Round) : ScanEngine × InstallOutcome → Prop
  /-- It is not time. -/
  | idle : InstallStep e r (e, .idle)
  /-- A copy fails. -/
  | faulted {a a' : ArmedProgram} {err : VmError} (ha : e.armed = some a)
      (hblit : ScanEngine.blitRetainInto a e.vm = (a', .error err)) :
      InstallStep e r
        ({ e.enterFault with armed := some a', activateRequested := false, phase := .idle },
          .faulted)
  /-- The copies took too long. -/
  | deferred {a a' : ArmedProgram} (hreq : e.activateRequested = true) (ha : e.armed = some a)
      (hblit : ScanEngine.blitRetainInto a e.vm = (a', .ok ())) :
      InstallStep e r
        ({ e with
            armed := some a', phase := .armed, activateRequested := false, lastDeferred := true,
            deferredCount := ScanEngine.satAdd64 e.deferredCount 1 }, .deferred)
  /-- The armed program becomes current. -/
  | installed {a a' : ArmedProgram} (hreq : e.activateRequested = true) (ha : e.armed = some a)
      (hblit : ScanEngine.blitRetainInto a e.vm = (a', .ok ())) :
      InstallStep e r (({ e with armed := none } : ScanEngine).commitInstall a' r.commitMs, .installed)

theorem tryEpochInstall_step (e : ScanEngine) (r : Round) :
    InstallStep e r (e.tryEpochInstall r) := by
  unfold ScanEngine.tryEpochInstall
  by_cases hreq : e.activateRequested = true
  · rw [if_neg (by rw [hreq]; decide)]
    rcases ha : e.armed with _ | a
    · exact .idle
    · rcases hdue : e.pickDue r.installMs with _ | due
      · exact .idle
      · dsimp only
        by_cases hhead : some due = e.scheduleOrder.head?
        · rw [if_neg (not_not.mpr hhead)]
          rcases hblit : ScanEngine.blitRetainInto a e.vm with ⟨a', err | _⟩
          · exact .faulted ha hblit
          · dsimp only
            by_cases hlate : r.installUs ≥ e.minTaskPeriodUs
            · rw [if_pos hlate]
              exact .deferred hreq ha hblit
            · rw [if_neg hlate]
              exact .installed hreq ha hblit
        · rw [if_pos hhead]
          exact .idle
  · rw [if_pos (by simpa using hreq)]
    exact .idle

/-! ## The invariant -/

/-- What an armed program holds before its install, when the current program has layout `old` and
its own is `new`. -/
structure Shadowed (force : Bool) (old : Option RetainLayout) (new : RetainLayout)
    (a : ArmedProgram) : Prop where
  /-- The segment has the size of the layout. -/
  len : a.vm.state.retain.len = new.retainSize
  /-- The copies are those from the current layout. -/
  copies : a.retainCopies = match old with
    | some l => keepCopies l new
    | none => []
  /-- The remap from the current layout succeeds. -/
  compatible : ∀ l, old = some l → ∀ image : List UInt8, image.length = l.retainSize →
    ∃ m, mapRetain l image new force = .ok m
  /-- What no copy will write is zero, with its type if there was a snapshot. -/
  fresh : ∀ s ∈ new.symbols, (∀ l, old = some l → keeps l s = none) →
    a.vm.state.retain.symbol s = (s.zeros, if old.isSome then s.ty else .bool)
  /-- Outside the symbols everything is zero. -/
  outside : ∀ i < new.retainSize, new.Outside i → a.vm.state.retain.bytes[i]? = some 0

/-- The engine agrees with the layouts of the current and of the armed program. -/
structure Paired (force : Bool) (cur arm : Option RetainLayout) (e : ScanEngine) : Prop where
  /-- A machine is current exactly when a layout is. -/
  vm : e.vm.isSome = cur.isSome
  /-- The current segment has the size of the current layout. -/
  len : ∀ vm l, e.vm = some vm → cur = some l → vm.state.retain.len = l.retainSize
  /-- The armed program. -/
  armed : ∀ a, e.armed = some a → ∃ l, arm = some l ∧ Shadowed force cur l a
  /-- Outside of a round no swap is in progress. -/
  phase : e.phase ≠ .swapping

/-- Runs keep the pairing. -/
theorem Paired.runs {force : Bool} {cur arm : Option RetainLayout} {e e' : ScanEngine}
    (h : Paired force cur arm e) (hruns : Runs e e') : Paired force cur arm e' := by
  refine ⟨?_, ?_, ?_, ?_⟩
  · rcases hruns.vm with ⟨hv, hv'⟩ | ⟨v, v', hv, hv', -, -⟩
    · rw [hv', ← h.vm, hv]
    · rw [hv', ← h.vm, hv]
      rfl
  · intro vm l hvm hl
    rcases hruns.vm with ⟨-, hv'⟩ | ⟨v, v', hv, hv', -, hlen⟩
    · rw [hv'] at hvm
      cases hvm
    · rw [hv'] at hvm
      cases hvm
      exact hlen.trans (h.len v l hv hl)
  · intro a ha
    rw [hruns.armed] at ha
    exact h.armed a ha
  · rw [hruns.phase]
    exact h.phase

/-- **What the copies make of an armed program**, when there is a current one: every symbol is as in
the remap of the current segment, but for its tag, which a kept symbol takes from there. -/
theorem Shadowed.blit {force : Bool} {old new : RetainLayout} {a : ArmedProgram} {cur : ArmedVm}
    (h : Shadowed force (some old) new a) (hlen : cur.state.retain.len = old.retainSize) :
    ∃ retain, ScanEngine.blitRetainInto a (some cur) =
        ({ a with vm := ⟨a.vm.image, a.vm.state.withRetain retain⟩ }, .ok ()) ∧
      Shadowed force (some old) new
        { a with vm := ⟨a.vm.image, a.vm.state.withRetain retain⟩ } ∧
      ∀ s ∈ new.symbols, retain.symbol s = match keeps old s with
        | some o => cur.state.retain.symbol o
        | none => (s.zeros, s.ty) := by
  obtain ⟨retain, hblit, hlen', hsym, hout⟩ := blitCopies_keepCopies hlen h.len
  have hcopies : a.retainCopies = keepCopies old new := h.copies
  have hfresh : ∀ s ∈ new.symbols, keeps old s = none →
      a.vm.state.retain.symbol s = (s.zeros, s.ty) := by
    intro s hs hnone
    refine h.fresh s hs ?_
    rintro l hl
    cases hl
    exact hnone
  have hafter : ∀ s ∈ new.symbols, retain.symbol s = match keeps old s with
      | some o => cur.state.retain.symbol o
      | none => (s.zeros, s.ty) := by
    intro s hs
    rw [hsym s hs]
    rcases hk : keeps old s with _ | o
    · exact hfresh s hs hk
    · rfl
  refine ⟨retain, ?_, ⟨hlen', h.copies, h.compatible, ?_, ?_⟩, hafter⟩
  · simp only [ScanEngine.blitRetainInto, hcopies, hblit]
  · intro s hs hnone
    have hk := hnone old rfl
    have hs' := hafter s hs
    rw [hk] at hs'
    exact hs'
  · intro i hi ho
    exact (hout i ho).trans (h.outside i hi ho)

/-- The copies of an armed program always succeed. -/
theorem Paired.blit {force : Bool} {cur arm : Option RetainLayout} {e : ScanEngine}
    (h : Paired force cur arm e) {a : ArmedProgram} (ha : e.armed = some a) :
    ∃ retain l, arm = some l ∧
      ScanEngine.blitRetainInto a e.vm =
        ({ a with vm := ⟨a.vm.image, a.vm.state.withRetain retain⟩ }, .ok ()) ∧
      Shadowed force cur l { a with vm := ⟨a.vm.image, a.vm.state.withRetain retain⟩ } := by
  obtain ⟨l, hl, hsh⟩ := h.armed a ha
  have hvm := h.vm
  rcases hcur : cur with _ | old
  · rw [hcur] at hvm hsh
    rcases hv : e.vm with _ | v
    · exact ⟨a.vm.state.retain, l, hl, rfl, hsh⟩
    · rw [hv] at hvm
      cases hvm
  · rw [hcur] at hvm hsh
    rcases hv : e.vm with _ | v
    · rw [hv] at hvm
      cases hvm
    · obtain ⟨retain, hblit, hsh', -⟩ := hsh.blit (h.len v old hv hcur)
      exact ⟨retain, l, hl, hblit, hsh'⟩

/-! ## Rounds -/

/-- What tells an armed program from another one: its code, id and hash. -/
def ArmedProgram.identity (a : ArmedProgram) : VmImage × String × String :=
  (a.vm.image, a.programId, a.compatibilityHash)

/-- Nothing was installed between two states of the engine. -/
structure Held (e e' : ScanEngine) : Prop where
  image : e'.vm.map ArmedVm.image = e.vm.map ArmedVm.image
  id : e'.currentId = e.currentId
  hash : e'.currentHash = e.currentHash
  armed : e'.armed.map ArmedProgram.identity = e.armed.map ArmedProgram.identity
  requested : e'.activateRequested = true → e.activateRequested = true
  phase : e'.phase = e.phase ∨ (e'.phase = .armed ∧ e.activateRequested = true ∧ e.armed ≠ none)

/-- The armed program was installed between two states of the engine. -/
structure Swung (e e' : ScanEngine) (a : ArmedProgram) : Prop where
  requested : e.activateRequested = true
  was : e.armed.map ArmedProgram.identity = some a.identity
  image : e'.vm.map ArmedVm.image = some a.vm.image
  id : e'.currentId = some a.programId
  hash : e'.currentHash = some a.compatibilityHash
  armed : e'.armed = none
  idle : e'.phase = .idle
  done : e'.activateRequested = false

theorem Runs.held {e e' : ScanEngine} (h : Runs e e') : Held e e' := by
  refine ⟨?_, h.id, h.hash, by rw [h.armed], fun hr => by rw [← h.requested, hr], .inl h.phase⟩
  rcases h.vm with ⟨hv, hv'⟩ | ⟨v, v', hv, hv', himage, -⟩
  · rw [hv, hv']
  · rw [hv, hv', Option.map_some, Option.map_some, himage]

theorem Held.trans {e₁ e₂ e₃ : ScanEngine} (h₁ : Held e₁ e₂) (h₂ : Held e₂ e₃) : Held e₁ e₃ := by
  refine ⟨h₂.image.trans h₁.image, h₂.id.trans h₁.id, h₂.hash.trans h₁.hash,
    h₂.armed.trans h₁.armed, fun h => h₁.requested (h₂.requested h), ?_⟩
  rcases h₂.phase with hp | ⟨hp, hreq, hne⟩
  · rw [hp]
    exact h₁.phase
  · refine .inr ⟨hp, h₁.requested hreq, ?_⟩
    intro hnone
    have harmed := h₁.armed
    rw [hnone, Option.map_none, Option.map_eq_none_iff] at harmed
    exact hne harmed

theorem Held.swung {e₁ e₂ e₃ : ScanEngine} {a : ArmedProgram} (h₁ : Held e₁ e₂)
    (h₂ : Swung e₂ e₃ a) : Swung e₁ e₃ a :=
  ⟨h₁.requested h₂.requested, h₁.armed.symm.trans h₂.was, h₂.image, h₂.id, h₂.hash, h₂.armed,
    h₂.idle, h₂.done⟩

/-- After an install nothing is armed, so that nothing more is installed. -/
theorem Swung.held {e₁ e₂ e₃ : ScanEngine} {a : ArmedProgram} (h₁ : Swung e₁ e₂ a)
    (h₂ : Held e₂ e₃) : Swung e₁ e₃ a := by
  have hreq : e₃.activateRequested = false := by
    rcases hr : e₃.activateRequested with _ | _
    · rfl
    · have := h₂.requested hr
      rw [h₁.done] at this
      cases this
  have hphase : e₃.phase = .idle := by
    rcases h₂.phase with hp | ⟨-, hreq', -⟩
    · rw [hp, h₁.idle]
    · rw [h₁.done] at hreq'
      cases hreq'
  have harmed : e₃.armed = none := by
    have := h₂.armed
    rw [h₁.armed, Option.map_none, Option.map_eq_none_iff] at this
    exact this
  exact ⟨h₁.requested, h₁.was, h₂.image.trans h₁.image, h₂.id.trans h₁.id, h₂.hash.trans h₁.hash,
    harmed, hphase, hreq⟩

section Scans

variable {force : Bool} {cur arm : Option RetainLayout} {e e' : ScanEngine}

/-- What a scan did to the dirty sequence and to the machine, from a sequence and a machine: no
notification, and the segment changed only with the flag up; or up to `n` notifications. -/
def Notes (n seq : ℕ) (vm : Option ArmedVm) (e' : ScanEngine) : Prop :=
  (e'.retainSeq = seq ∧ ∀ v', e'.vm = some v' → ∃ v, vm = some v ∧ Quiet v.state v'.state) ∨
    ∃ k, 0 < k ∧ k ≤ n ∧ e'.retainSeq = (seq + k) % 2 ^ 64

theorem Notes.of_vm {seq : ℕ} {vm : Option ArmedVm} (hseq : e'.retainSeq = seq) (hvm : e'.vm = vm)
    (n : ℕ) : Notes n seq vm e' := by
  refine .inl ⟨hseq, fun v' hv' => ⟨v', ?_, .refl _⟩⟩
  rw [← hvm, hv']

/-- What an earlier machine noted counts as well. -/
theorem Notes.before {n k seq : ℕ} {vm vm' : Option ArmedVm} {e₁ e₂ : ScanEngine}
    (h₁ : Notes n seq vm e₁) (h₂ : Notes k e₁.retainSeq vm' e₂) : Notes (n + k) seq vm' e₂ := by
  rcases h₁ with ⟨hseq₁, -⟩ | ⟨i, hi, hin, hseq₁⟩
  · rcases h₂ with ⟨hseq₂, hvm₂⟩ | ⟨j, hj, hjk, hseq₂⟩
    · exact .inl ⟨hseq₂.trans hseq₁, hvm₂⟩
    · exact .inr ⟨j, hj, Nat.le_add_left_of_le hjk, by rw [hseq₂, hseq₁]⟩
  · rcases h₂ with ⟨hseq₂, -⟩ | ⟨j, hj, hjk, hseq₂⟩
    · exact .inr ⟨i, hi, Nat.le_add_right_of_le hin, hseq₂.trans hseq₁⟩
    · refine .inr ⟨i + j, Nat.add_pos_left hi j, Nat.add_le_add hin hjk, ?_⟩
      rw [hseq₂, hseq₁, Nat.mod_add_mod, Nat.add_assoc]

theorem Notes.trans {n k seq : ℕ} {vm : Option ArmedVm} {e₁ e₂ : ScanEngine}
    (h₁ : Notes n seq vm e₁) (h₂ : Notes k e₁.retainSeq e₁.vm e₂) : Notes (n + k) seq vm e₂ := by
  rcases h₁ with ⟨hseq₁, hvm₁⟩ | hk
  · rcases h₂ with ⟨hseq₂, hvm₂⟩ | hk
    · refine .inl ⟨hseq₂.trans hseq₁, fun v' hv' => ?_⟩
      obtain ⟨v₁, hv₁, hq⟩ := hvm₂ v' hv'
      obtain ⟨v, hv, hq'⟩ := hvm₁ v₁ hv₁
      exact ⟨v, hv, hq'.trans hq⟩
    · exact @Notes.before _ _ _ vm _ _ _ (.inl ⟨hseq₁, hvm₁⟩) (.inr hk)
  · rcases h₂ with ⟨hseq₂, -⟩ | hk'
    · obtain ⟨i, hi, hin, hseq₁⟩ := hk
      exact .inr ⟨i, hi, Nat.le_add_right_of_le hin, hseq₂.trans hseq₁⟩
    · exact @Notes.before _ _ _ vm _ _ _ (.inr hk) (.inr hk')

/-- A run of the current machine. -/
theorem runLogic_notes {task nowMs : ℕ} {ok : Bool} (h : e.runLogic task nowMs = some (e', ok)) :
    Notes 1 e.retainSeq e.vm e' := by
  unfold ScanEngine.runLogic at h
  rcases hvm : e.vm with _ | v
  · simp only [hvm] at h
    cases h
    exact .of_vm rfl hvm 1
  · simp only [hvm] at h
    have hq := runEntry_quiet v.image ((e.tasks[task]?.map TaskPlan.entry).getD "") nowMs v.state
    rcases hrun : runEntry v.image ((e.tasks[task]?.map TaskPlan.entry).getD "") nowMs v.state with
      ⟨(_ | _) | res, s⟩
    · rw [hrun] at h hq
      cases h
      refine .inl ⟨rfl, fun v' hv' => ⟨v, rfl, ?_⟩⟩
      cases hv'
      exact hq
    · rw [hrun] at h
      cases h
    · rw [hrun] at h hq
      dsimp only at h
      split_ifs at h
      · cases h
        exact .inr ⟨1, Nat.one_pos, le_rfl, rfl⟩
      · cases h
        refine .inl ⟨rfl, fun v' hv' => ⟨v, rfl, ?_⟩⟩
        cases hv'
        exact hq

/-- An invocation. -/
theorem invoke_notes {task : ℕ} {r : Round} (h : e.invoke task r = some e') :
    Notes 1 e.retainSeq e.vm e' := by
  obtain ⟨e₂, h₂, rfl⟩ := Option.map_eq_some_iff.mp h
  have hsample : Notes 0 e.retainSeq e.vm (e.sampleInputs r) := by
    refine .inl ⟨?_, ?_⟩
    · unfold ScanEngine.sampleInputs
      dsimp only
      split_ifs <;> rfl
    · intro v' hv'
      unfold ScanEngine.sampleInputs at hv'
      dsimp only at hv'
      have hfault : (if r.inputFault then e.enterFault else e).vm = e.vm := by
        split_ifs <;> rfl
      rw [hfault] at hv'
      obtain ⟨v, hv, rfl⟩ := Option.map_eq_some_iff.mp hv'
      exact ⟨v, hv, .of_same rfl rfl⟩
  have hlogic : Notes 1 (e.sampleInputs r).retainSeq (e.sampleInputs r).vm e₂ := by
    unfold ScanEngine.logic at h₂
    split_ifs at h₂
    · obtain ⟨⟨e₃, ok⟩, h₃, rfl⟩ := Option.map_eq_some_iff.mp h₂
      have hrun := runLogic_notes h₃
      cases ok with
      | true => exact hrun
      | false => exact hrun.trans (.of_vm rfl rfl 0)
    · cases h₂
      exact .of_vm rfl rfl 1
  have hfinish : Notes 0 e₂.retainSeq e₂.vm (e₂.finishInvoke task r) := by
    unfold ScanEngine.finishInvoke
    split_ifs
    · exact .of_vm rfl rfl 0
    · exact .of_vm rfl rfl 0
  have hall := (hsample.trans hlogic).trans hfinish
  rwa [Nat.zero_add] at hall

/-- An install check either installs a program that the copies have completed, or keeps what is
there. -/
theorem Paired.tryEpochInstall (h : Paired force cur arm e) (r : Round) :
    (Held e (e.tryEpochInstall r).1 ∧ Paired force cur arm (e.tryEpochInstall r).1 ∧
        Notes 0 e.retainSeq e.vm (e.tryEpochInstall r).1 ∧ (e.tryEpochInstall r).2 ≠ .installed) ∨
      ∃ a b l, Swung e (e.tryEpochInstall r).1 a ∧ arm = some l ∧ Shadowed force cur l b ∧
        Paired force arm none (e.tryEpochInstall r).1 ∧
        Notes 0 e.retainSeq (some b.vm) (e.tryEpochInstall r).1 := by
  have hstep := tryEpochInstall_step e r
  generalize e.tryEpochInstall r = out at hstep
  cases hstep with
  | idle => exact .inl ⟨(Runs.refl e).held, h, .of_vm rfl rfl 0, by simp⟩
  | faulted ha hblit =>
      obtain ⟨_, _, -, hok, -⟩ := h.blit ha
      rw [hok] at hblit
      cases hblit
  | @deferred a a' hreq ha hblit =>
      obtain ⟨retain, l, hl, hok, hsh⟩ := h.blit ha
      rw [hok] at hblit
      cases hblit
      refine .inl ⟨⟨rfl, rfl, rfl, ?_, ?_, ?_⟩, ⟨h.vm, h.len, ?_, by simp⟩, .of_vm rfl rfl 0,
        by simp⟩
      · rw [ha]
        rfl
      · intro hr
        cases hr
      · exact .inr ⟨rfl, hreq, by rw [ha]; simp⟩
      · intro b hb
        cases hb
        exact ⟨l, hl, hsh⟩
  | @installed a a' hreq ha hblit =>
      obtain ⟨retain, l, hl, hok, hsh⟩ := h.blit ha
      rw [hok] at hblit
      cases hblit
      refine .inr ⟨a, _, l, ⟨hreq, by rw [ha]; rfl, rfl, rfl, rfl, rfl, rfl, rfl⟩, hl, hsh,
        ⟨?_, ?_, ?_, ?_⟩, .of_vm rfl rfl 0⟩
      · rw [hl]
        rfl
      · intro vm l' hvm hl'
        cases hvm
        rw [hl] at hl'
        cases hl'
        exact hsh.len
      · intro b hb
        cases hb
      · simp [ScanEngine.commitInstall]

/-- **A scan either installs the armed program once or keeps what is there.** -/
theorem Paired.rounds {rs : List Round} (h : Paired force cur arm e) (hrs : e.rounds rs = some e') :
    (Held e e' ∧ Paired force cur arm e' ∧ Notes rs.length e.retainSeq e.vm e') ∨
      ∃ a b l, Swung e e' a ∧ arm = some l ∧ Shadowed force cur l b ∧ Paired force arm none e' ∧
        Notes rs.length e.retainSeq (some b.vm) e' := by
  induction rs generalizing e cur arm with
  | nil =>
      cases hrs
      exact .inl ⟨(Runs.refl _).held, h, .of_vm rfl rfl 0⟩
  | cons r rs ih =>
      rw [ScanEngine.rounds, List.foldlM_cons] at hrs
      obtain ⟨e₁, hr, hrs⟩ := Option.bind_eq_some_iff.mp hrs
      obtain ⟨hruns, hnotes⟩ : Runs (e.tryEpochInstall r).1 e₁ ∧
          Notes 1 (e.tryEpochInstall r).1.retainSeq (e.tryEpochInstall r).1.vm e₁ := by
        unfold ScanEngine.round at hr
        dsimp only at hr
        rcases hdue : (e.tryEpochInstall r).1.pickDue r.nowMs with _ | task
        · rw [hdue] at hr
          cases hr
          exact ⟨.refl _, .of_vm rfl rfl 1⟩
        · rw [hdue] at hr
          exact ⟨invoke_runs hr, invoke_notes hr⟩
      have hlen : 0 + 1 + rs.length = (r :: rs).length := by
        rw [List.length_cons]
        omega
      rcases h.tryEpochInstall r with
        ⟨hheld, hpaired, hnotes₀, -⟩ | ⟨a, b, l, hswung, hl, hsh, hpaired, hnotes₀⟩
      · have hnotes₁ := hnotes₀.trans hnotes
        rcases ih (hpaired.runs hruns) hrs with
          ⟨hheld', hpaired', hnotes'⟩ | ⟨a, b, l, hswung', hl, hsh, hpaired', hnotes'⟩
        · exact .inl ⟨(hheld.trans hruns.held).trans hheld', hpaired', hlen ▸ hnotes₁.trans hnotes'⟩
        · refine .inr ⟨a, b, l, (hheld.trans hruns.held).swung hswung', hl, hsh, hpaired', ?_⟩
          exact hlen ▸ hnotes₁.before hnotes'
      · have hswung := hswung.held hruns.held
        rcases ih (hpaired.runs hruns) hrs with ⟨hheld', hpaired', hnotes'⟩ | ⟨_, _, _, hswung', -⟩
        · exact .inr ⟨a, b, l, hswung.held hheld', hl, hsh, hpaired',
            hlen ▸ (hnotes₀.trans hnotes).trans hnotes'⟩
        · have := hswung'.requested
          rw [hswung.done] at this
          cases this

end Scans

end SoftPlc.Scan
