import SoftPlc.Retain.Layout
import SoftPlc.Vm.Sessions

/-!
# The retain segment as an image

What the arm path and the install do to the retain segment of a machine (`plc-vm/src/memory.rs` and
`exec.rs`): `loadRetainImage` stores an image symbol by symbol through typed values, `blitFrom`
copies bytes and type tags of one range from another segment.

Both are loops that write disjoint ranges one after the other. `foldlM_cells` says once what such a
loop leaves: in every range what its own step wrote, and everything else as it was.

A run of a machine keeps the length of its retain segment, whether it succeeds or fails
(`runEntry_retain_len`).
-/

namespace SoftPlc.Vm

open SoftPlc.Ir SoftPlc.Lib SoftPlc.Retain

/-! ## Copying a range -/

namespace ByteSegment

/-- Zero bytes and clear tags. Source: `memory.rs`, `ByteSegment::fill_zero`. -/
def fillZero (s : ByteSegment) : ByteSegment := .zeros s.len

/-- Copy bytes and type tags. Source: `memory.rs`, `ByteSegment::blit_from`. -/
def blitFrom (s : ByteSegment) (dst : ℕ) (src : ByteSegment) (srcOff len : ℕ) :
    Except VmError ByteSegment :=
  if h : dst + len > s.len ∨ srcOff + len > src.len then
    .error (.bounds 0 ("blit dst " ++ toString dst ++ "+" ++ toString len ++ " (seg " ++
      toString s.len ++ ") src " ++ toString srcOff ++ "+" ++ toString len ++ " (seg " ++
      toString src.len ++ ")"))
  else
    .ok
      { bytes := writeAt s.bytes dst (readAt src.bytes srcOff len)
        tags := writeAt s.tags dst (readAt src.tags srcOff len)
        tags_length := by
          rw [not_or, Nat.not_lt, Nat.not_lt] at h
          have hsrc : srcOff + len ≤ src.bytes.length := h.2
          have hbytes : (readAt src.bytes srcOff len).length = len := readAt_length hsrc
          have htags : (readAt src.tags srcOff len).length = len :=
            readAt_length (hsrc.trans src.tags_length.ge)
          have hdst : dst + len ≤ s.bytes.length := h.1
          rw [writeAt_length (by rw [htags, s.tags_length]; exact hdst),
            writeAt_length (by rw [hbytes]; exact hdst), s.tags_length] }

/-- A range of a segment as a load sees it: its bytes, and the type at its start. -/
def cell (s : ByteSegment) (off n : ℕ) : List UInt8 × IrType := (readAt s.bytes off n, s.tagAt off)

/-- Two ranges that do not meet. -/
def Apart (off n off' n' : ℕ) : Prop := off + n ≤ off' ∨ off' + n' ≤ off

/-- A store writes its own range. -/
theorem cell_store {s s' : ByteSegment} {off : ℕ} {v : VmValue} {pc : ℕ}
    (h : s.store off v pc = .ok s') : s'.cell off v.byteWidth = (v.payload, v.irType) := by
  obtain ⟨hle, hb, -⟩ := store_eq_ok h
  have hfit : off + v.payload.length ≤ s.bytes.length := by simpa [len] using hle
  rw [cell, tagAt_store_same h, hb, ← v.payload_length, readAt_writeAt_same hfit]

/-- A store leaves the other ranges alone. -/
theorem cell_store_of_apart {s s' : ByteSegment} {off off' n' : ℕ} {v : VmValue} {pc : ℕ}
    (h : s.store off v pc = .ok s') (hn : 0 < n') (hd : Apart off' n' off v.byteWidth) :
    s'.cell off' n' = s.cell off' n' := by
  obtain ⟨hle, hb, -⟩ := store_eq_ok h
  have hfit : off + v.payload.length ≤ s.bytes.length := by simpa [len] using hle
  have htag : s'.tagAt off' = s.tagAt off' := by
    refine tagAt_store_of_disjoint h ?_
    unfold Apart at hd
    omega
  rw [cell, cell, htag, hb, readAt_writeAt_of_disjoint hfit]
  rw [v.payload_length]
  exact hd

/-- What a copy does when both ranges are inside: it succeeds, keeps the length, makes its range a
copy, and leaves the other ranges alone. -/
theorem blitFrom_ok {s src : ByteSegment} {dst srcOff n : ℕ} (hdst : dst + n ≤ s.len)
    (hsrc : srcOff + n ≤ src.len) (hn : 0 < n) :
    ∃ s', s.blitFrom dst src srcOff n = .ok s' ∧ s'.len = s.len ∧
      s'.cell dst n = src.cell srcOff n ∧
      ∀ off' n', 0 < n' → Apart off' n' dst n → s'.cell off' n' = s.cell off' n' := by
  have hbytes : (readAt src.bytes srcOff n).length = n := readAt_length hsrc
  have htags : (readAt src.tags srcOff n).length = n :=
    readAt_length (hsrc.trans src.tags_length.ge)
  have hfit : dst + (readAt src.bytes srcOff n).length ≤ s.bytes.length := by
    rw [hbytes]
    exact hdst
  have hfitTags : dst + (readAt src.tags srcOff n).length ≤ s.tags.length := by
    rw [htags, s.tags_length]
    exact hdst
  refine ⟨_, dif_neg (by omega), writeAt_length hfit, ?_, ?_⟩
  · have htag : (writeAt s.tags dst (readAt src.tags srcOff n))[dst]? = src.tags[srcOff]? := by
      rw [getElem?_writeAt hfitTags, if_pos (by omega), Nat.sub_self, getElem?_readAt, if_pos hn,
        Nat.add_zero]
    have hread := readAt_writeAt_same hfit
    rw [hbytes] at hread
    simp only [cell, tagAt, htag, hread]
  · intro off' n' hn' hd
    have htag : (writeAt s.tags dst (readAt src.tags srcOff n))[off']? = s.tags[off']? := by
      unfold Apart at hd
      rw [getElem?_writeAt hfitTags, if_neg (by omega)]
    have hread : readAt (writeAt s.bytes dst (readAt src.bytes srcOff n)) off' n' =
        readAt s.bytes off' n' := by
      refine readAt_writeAt_of_disjoint hfit ?_
      rw [hbytes]
      exact hd
    simp only [cell, tagAt, htag, hread]

/-! ## Loops over disjoint ranges -/

/-- **A loop that writes disjoint ranges.** When every step succeeds on segments of one length,
keeps the length, puts a cell into its own range and leaves the other ranges alone, then the loop
succeeds, every range holds its cell, and whatever meets no range is as before. -/
theorem foldlM_cells {α : Type} {f : ByteSegment → α → Except VmError ByteSegment} {off n : α → ℕ}
    {c : α → List UInt8 × IrType} {size : ℕ} {xs : List α}
    (hstep : ∀ x ∈ xs, ∀ s : ByteSegment, s.len = size → ∃ s', f s x = .ok s' ∧ s'.len = size ∧
      s'.cell (off x) (n x) = c x ∧
      ∀ o k, 0 < k → Apart o k (off x) (n x) → s'.cell o k = s.cell o k)
    (hpos : ∀ x ∈ xs, 0 < n x) (hdisj : xs.Pairwise fun x y => Apart (off x) (n x) (off y) (n y))
    (s : ByteSegment) (hs : s.len = size) :
    ∃ s', xs.foldlM f s = .ok s' ∧ s'.len = size ∧ (∀ x ∈ xs, s'.cell (off x) (n x) = c x) ∧
      ∀ o k, 0 < k → (∀ x ∈ xs, Apart o k (off x) (n x)) → s'.cell o k = s.cell o k := by
  induction xs generalizing s with
  | nil => exact ⟨s, rfl, hs, by simp, fun _ _ _ _ => rfl⟩
  | cons x xs ih =>
      rw [List.pairwise_cons] at hdisj
      obtain ⟨s₁, h₁, hlen₁, hcell₁, hframe₁⟩ := hstep x List.mem_cons_self s hs
      obtain ⟨s', h', hlen', hcell', hframe'⟩ := ih
        (fun y hy => hstep y (List.mem_cons_of_mem _ hy))
        (fun y hy => hpos y (List.mem_cons_of_mem _ hy)) hdisj.2 s₁ hlen₁
      refine ⟨s', ?_, hlen', ?_, ?_⟩
      · rw [List.foldlM_cons]
        exact except_bind_ok.mpr ⟨s₁, h₁, h'⟩
      · intro y hy
        rcases List.mem_cons.mp hy with rfl | hy
        · rw [hframe' _ _ (hpos y List.mem_cons_self) hdisj.1, hcell₁]
        · exact hcell' y hy
      · intro o k hk hap
        rw [hframe' o k hk fun y hy => hap y (List.mem_cons_of_mem _ hy),
          hframe₁ o k hk (hap x List.mem_cons_self)]

/-- The byte of a cell of one byte. -/
theorem getElem?_of_cell {s t : ByteSegment} {i : ℕ} (h : s.cell i 1 = t.cell i 1) :
    s.bytes[i]? = t.bytes[i]? := by
  have hread : (readAt s.bytes i 1)[0]? = (readAt t.bytes i 1)[0]? := by rw [(Prod.mk.inj h).1]
  simpa [getElem?_readAt] using hread

end ByteSegment

/-! ## Loading an image -/

/-- Store one symbol of an image. Source: `exec.rs`, the `for` body of `Vm::load_retain_image`. -/
def loadSymbol (image : List UInt8) (s : ByteSegment) (sym : RetainSymbol) :
    Except VmError ByteSegment :=
  if sym.endOffset > image.length then
    .error (.bounds 0 ("retain symbol " ++ sym.name ++ " OOB"))
  else s.store sym.offset (.ofPayload sym.ty (sym.slice image)) 0

/-- Tag and store a packed retain image. Source: `exec.rs`, `Vm::load_retain_image`. -/
def ByteSegment.loadRetainImage (s : ByteSegment) (image : List UInt8) (layout : RetainLayout) :
    Except VmError ByteSegment :=
  if image.length ≠ s.len then
    .error (.bounds 0 ("retain image " ++ toString image.length ++ " != segment " ++
      toString s.len))
  else if layout.retainSize ≠ image.length then
    .error (.bounds 0 ("retain layout size " ++ toString layout.retainSize ++ " != image " ++
      toString image.length))
  else layout.symbols.foldlM (loadSymbol image) s

/-- The range of a symbol. -/
def ByteSegment.symbol (s : ByteSegment) (sym : RetainSymbol) : List UInt8 × IrType :=
  s.cell sym.offset sym.ty.byteWidth

/-- What a typed store makes of the bytes of a symbol. -/
def storedBytes (sym : RetainSymbol) (bytes : List UInt8) : List UInt8 :=
  (VmValue.ofPayload sym.ty bytes).payload

/-- Zero is stored as zero. -/
theorem storedBytes_zeros (sym : RetainSymbol) : storedBytes sym sym.zeros = sym.zeros := by
  unfold storedBytes RetainSymbol.zeros
  cases sym.ty <;> decide

/-- The value of a symbol is as wide as the symbol. -/
theorem byteWidth_ofPayload (ty : IrType) (bytes : List UInt8) :
    (VmValue.ofPayload ty bytes).byteWidth = ty.byteWidth := by
  rw [VmValue.byteWidth_eq, VmValue.irType_ofPayload]

/-- **Loading an image** of the right size succeeds: every symbol holds its value with its type, and
everything else is as before. -/
theorem loadRetainImage_ok {s : ByteSegment} {image : List UInt8} {layout : RetainLayout}
    (hs : s.len = layout.retainSize) (himage : image.length = layout.retainSize) :
    ∃ s', s.loadRetainImage image layout = .ok s' ∧ s'.len = layout.retainSize ∧
      (∀ sym ∈ layout.symbols, s'.symbol sym = (storedBytes sym (sym.slice image), sym.ty)) ∧
      ∀ i, layout.Outside i → s'.bytes[i]? = s.bytes[i]? := by
  have hstep : ∀ sym ∈ layout.symbols, ∀ t : ByteSegment, t.len = layout.retainSize →
      ∃ t', loadSymbol image t sym = .ok t' ∧ t'.len = layout.retainSize ∧
        t'.cell sym.offset sym.ty.byteWidth = (storedBytes sym (sym.slice image), sym.ty) ∧
        ∀ o k, 0 < k → ByteSegment.Apart o k sym.offset sym.ty.byteWidth →
          t'.cell o k = t.cell o k := by
    intro sym hsym t ht
    have hb := layout.bounded sym hsym
    have hw := byteWidth_ofPayload sym.ty (sym.slice image)
    obtain ⟨t', hstore⟩ : ∃ t', t.store sym.offset (.ofPayload sym.ty (sym.slice image)) 0 = .ok t' :=
      by
        rw [ByteSegment.store_ok_iff, hw, ht]
        exact hb
    refine ⟨t', ?_, (ByteSegment.len_store hstore).trans ht, ?_, ?_⟩
    · rw [loadSymbol, if_neg (by omega)]
      exact hstore
    · have hcell := ByteSegment.cell_store hstore
      rw [hw, VmValue.irType_ofPayload] at hcell
      exact hcell
    · intro o k hk hd
      refine ByteSegment.cell_store_of_apart hstore hk ?_
      rw [hw]
      exact hd
  obtain ⟨s', h', hlen, hcell, hframe⟩ := ByteSegment.foldlM_cells hstep
    (fun sym _ => sym.ty.byteWidth_pos) layout.disjoint s hs
  refine ⟨s', ?_, hlen, hcell, ?_⟩
  · unfold ByteSegment.loadRetainImage
    rw [if_neg (by omega), if_neg (by omega)]
    exact h'
  · intro i hi
    refine ByteSegment.getElem?_of_cell (hframe i 1 Nat.one_pos ?_)
    intro sym hsym
    have hout := hi sym hsym
    unfold RetainSymbol.endOffset at hout
    unfold ByteSegment.Apart
    omega

/-! ## Machines -/

/-- Reset slots to BOOL false. Source: `memory.rs`, `SlotImage::fill_bool_false`. -/
def SlotImage.fillBoolFalse (s : SlotImage) : SlotImage := .bools s.len

/-- Reset a controller; its gains stay. Source: `plc-fb-primitives/src/pid.rs`,
`Pid::cold_reset`. -/
def coldResetPid (p : Fb.Pid) : Fb.Pid :=
  { p with out := F32.zero, integral := F32.zero, lastErr := F32.zero, lastNowMs := 0,
           initialized := false }

/-- Reset every instance. Source: `plc-fb-primitives/src/dispatch.rs`,
`PrimitiveStore::cold_reset_all`. -/
def coldResetAll (p : Fb.PrimitiveStore) : Fb.PrimitiveStore where
  ton := p.ton.map fun _ => .new
  tof := p.tof.map fun _ => .new
  tp := p.tp.map fun _ => .new
  ctu := p.ctu.map fun _ => .new
  ctd := p.ctd.map fun _ => .new
  rs := p.rs.map fun _ => .new
  sr := p.sr.map fun _ => .new
  rTrig := p.rTrig.map fun _ => .new
  fTrig := p.fTrig.map fun _ => .new
  pid := p.pid.map coldResetPid

/-- Cold-reset everything but the retain segment. Source: `exec.rs`,
`Vm::cold_reset_non_retain`. -/
def VmState.coldResetNonRetain (s : VmState) : VmState :=
  { s with
    data := s.data.fillZero
    outputs := s.outputs.fillBoolFalse
    primitives := coldResetAll s.primitives
    stack := []
    frames := []
    dataBase := 0
    div0Count := 0 }

/-- The state with another retain segment. -/
def VmState.withRetain (s : VmState) (retain : ByteSegment) : VmState := { s with retain := retain }

/-! ## Runs keep the length -/

/-- **A run keeps the length of the retain segment.** -/
theorem runAt_retain_len (image : VmImage) (startPc nowMs : ℕ) (s : VmState) :
    (runAt image startPc nowMs s).2.retain.len = s.retain.len := by
  have hpres : ∀ c c' : Config, c.state.retain.len = s.retain.len →
      stepVm image nowMs c = .go c' → c'.state.retain.len = s.retain.len := by
    intro c c' hc hstep
    obtain ⟨i, -, -, hexec⟩ := stepVm_go hstep
    rcases hexec.retain with hr | ⟨_, _, _, -, -, hr⟩
    · rw [hr, hc]
    · rw [ByteSegment.len_store hr, hc]
  have hstop : ∀ (c : Config) (r : RunResult), c.state.retain.len = s.retain.len →
      stepVm image nowMs c = .stop r → r.2.retain.len = s.retain.len := by
    intro c r hc hstop
    have hmem := congrArg Memory.retain (stepVm_stop_memory hstop)
    exact (congrArg ByteSegment.len hmem).trans hc
  exact iterate_post hpres hstop (fun _ h => h) _ _ rfl

/-- A run of an entry keeps the length of the retain segment. -/
theorem runEntry_retain_len (image : VmImage) (name : String) (nowMs : ℕ) (s : VmState) :
    (runEntry image name nowMs s).2.retain.len = s.retain.len := by
  unfold runEntry
  rcases image.entryPc name with e | pc
  · rfl
  · exact runAt_retain_len image pc nowMs s

/-! ## Frames of whole runs -/

/-- A relation that holds across everything an instruction can do. -/
structure FramedRun (R : VmState → VmState → Prop) : Prop extends Framed R where
  control : ∀ s frames dataBase, R s { s with frames := frames, dataBase := dataBase }
  data : ∀ s data, R s { s with data := data }
  outputs : ∀ s outputs, R s { s with outputs := outputs }
  retain : ∀ s retain, R s { s with retain := retain, retainDirty := true }

namespace FramedRun

variable {R : VmState → VmState → Prop} (hR : FramedRun R)

include hR

/-- A store of a segment. -/
theorem store {α : Type} {f : VmState → VmValue → Except VmError α} {g : VmState → α → VmState}
    (hg : ∀ s a, R s (g s a)) (pc next : ℕ) :
    Frames R (do
      let v ← Vm.pop pc
      let s ← MonadState.get
      let a ← Vm.liftErr (f s v)
      MonadState.set (g s a)
      Pure.pure (Control.goto next)) := by
  refine hR.bind (hR.pop pc) fun v => ?_
  intro s
  rw [estate_bind_of_ok (show (MonadState.get : VmM VmState) s = .ok s s from rfl)]
  rcases f s v with e | a
  · exact hR.refl s
  · exact hg s a

theorem execInstr (image : VmImage) (nowMs pc size : ℕ) (i : DecodedInstr) :
    Frames R (Vm.execInstr image nowMs pc size i) := by
  cases i with
  | simple op payload =>
      cases op with
      | nop | halt | jmp => exact hR.pure _
      | ret =>
          intro s
          simp only [Vm.execInstr, returnFromFb]
          rcases s.frames with _ | ⟨frame, rest⟩
          · exact hR.refl s
          · exact hR.control s _ _
      | pushIBool => exact hR.next (hR.push _ pc) _
      | ldData | ldRetain | ldI | ldQ => exact hR.load pc _
      | ldIq =>
          exact hR.bind hR.get fun _ => hR.bind (hR.liftErr _) fun _ => hR.next (hR.push _ pc) _
      | stData => exact hR.store (g := fun s a => { s with data := a }) hR.data pc _
      | stQ => exact hR.store (g := fun s a => { s with outputs := a }) hR.outputs pc _
      | stRetain =>
          exact hR.store (g := fun s a => { s with retain := a, retainDirty := true }) hR.retain pc _
      | add | sub | mul | div | and | or | xor | eq | ne | lt | le | gt | ge =>
          exact hR.binary _ pc _
      | neg | not => exact hR.unary pc _
      | jmpIf | jmpIfNot => exact hR.bind (hR.pop pc) fun _ => hR.pure _
      | conv =>
          refine hR.bind (hR.pop pc) fun a => ?_
          rcases IrType.fromU8 (UInt8.ofNat payload) with _ | ty
          · exact hR.fail _
          · exact hR.next (hR.push _ pc) _
      | pushIDint | pushIReal | pushTime | callFb => exact hR.fail _
  | withImm32 op payload imm =>
      cases op with
      | pushIDint | pushIReal | pushTime => exact hR.next (hR.push _ pc) _
      | _ => exact hR.fail _
  | callFb fbKind fbId base =>
      simp only [Vm.execInstr]
      split_ifs
      · exact hR.next (hR.callPrim _ _ _ _) _
      · intro s
        unfold callUserFb
        rcases image.userFbPc[fbId]?.join with _ | entry
        · exact hR.refl s
        · dsimp only
          split_ifs
          · exact hR.refl s
          · exact hR.control s _ _

theorem stepVm (image : VmImage) (nowMs : ℕ) (c : Config) :
    match Vm.stepVm image nowMs c with
    | .go c' => R c.state c'.state
    | .stop r => R c.state r.2 := by
  unfold Vm.stepVm
  rcases decodeInstruction image.code c.pc with e | ⟨i, size⟩
  · exact hR.refl _
  · have hframes := hR.execInstr image nowMs c.pc size i c.state
    dsimp only
    rcases hexec : Vm.execInstr image nowMs c.pc size i c.state with ⟨ctl, s'⟩ | ⟨f, s'⟩
    · rw [hexec] at hframes
      cases ctl with
      | goto pc => exact hframes
      | done res => exact hframes
    · rw [hexec] at hframes
      exact hframes

theorem step {image : VmImage} {nowMs : ℕ} {s : VmState} (c c' : Config) (h : R s c.state)
    (hstep : Vm.stepVm image nowMs c = .go c') : R s c'.state := by
  have hframes := hR.stepVm image nowMs c
  rw [hstep] at hframes
  exact hR.trans h hframes

theorem enter (s : VmState) : R s s.enter :=
  hR.trans (hR.trans (hR.stack s []) (hR.control _ [] 0)) (hR.outputs _ s.outputs.clearWritten)

/-- Every state of a run. -/
theorem passes {image : VmImage} {nowMs startPc k : ℕ} {s : VmState} {c : Config}
    (h : Passes image nowMs startPc s k c) : R s c.state := by
  let Inv (c : Config) : Prop := R s c.state
  have hpres : ∀ c c' : Config, Inv c → Vm.stepVm image nowMs c = .go c' → Inv c' := hR.step
  have hinv : Inv c := Steps.invariant h hpres (hR.enter s)
  exact hinv

/-- The state that a run leaves behind, however it ends. -/
theorem runEntry (image : VmImage) (name : String) (nowMs : ℕ) (s : VmState) :
    R s (Vm.runEntry image name nowMs s).2 := by
  unfold Vm.runEntry
  rcases image.entryPc name with e | pc
  · exact hR.refl s
  · have hstop : ∀ (c : Config) (r : RunResult), R s c.state →
        Vm.stepVm image nowMs c = .stop r → R s r.2 := by
      intro c r hc hstep
      have hframes := hR.stepVm image nowMs c
      rw [hstep] at hframes
      exact hR.trans hc hframes
    exact iterate_post hR.step hstop (fun _ h => h) _ _ (hR.enter s)

end FramedRun

/-! ## The dirty flag

An `ST_RETAIN` raises a flag of the machine that only the engine clears, so a segment that has changed
since then has its flag up. -/

/-- Between two states the retain segment changed only with the flag up at the end. -/
def Quiet (s s' : VmState) : Prop :=
  s'.retainDirty = false → s.retainDirty = false ∧ s'.retain = s.retain

theorem Quiet.refl (s : VmState) : Quiet s s := fun h => ⟨h, rfl⟩

theorem Quiet.trans {s t u : VmState} (h : Quiet s t) (h' : Quiet t u) : Quiet s u := by
  intro hu
  obtain ⟨ht, heq⟩ := h' hu
  obtain ⟨hs, heq'⟩ := h ht
  exact ⟨hs, heq.trans heq'⟩

/-- A state with the same segment and flag. -/
theorem Quiet.of_same {s s' : VmState} (hd : s'.retainDirty = s.retainDirty)
    (hr : s'.retain = s.retain) : Quiet s s' := fun h => ⟨hd ▸ h, hr⟩

theorem framedRun_quiet : FramedRun Quiet where
  refl := Quiet.refl
  trans := Quiet.trans
  stack _ _ := .of_same rfl rfl
  primitives _ _ _ := .of_same rfl rfl
  div0Count _ _ := .of_same rfl rfl
  control _ _ _ := .of_same rfl rfl
  data _ _ := .of_same rfl rfl
  outputs _ _ := .of_same rfl rfl
  retain _ _ := by
    intro h
    cases h

/-- **No run changes the retain segment without raising the flag.** -/
theorem runEntry_quiet (image : VmImage) (name : String) (nowMs : ℕ) (s : VmState) :
    Quiet s (runEntry image name nowMs s).2 :=
  framedRun_quiet.runEntry image name nowMs s

end SoftPlc.Vm
