import SoftPlc.Vm.Runs

/-!
# Sessions from cold memory

A session is what a machine goes through from the cold start on: runs of any entries one after the
other, each of them to its end, into a fault or until its budget is used up, with new inputs between
two runs. A session keeps the record of the places that were written.

An instruction that fails leaves the memory as it was (`execInstr_error_memory`). So memory changes
by stores only, and a place that no store has met is as cold as at the start: a load of it gives
BOOL FALSE, whatever was declared there (`Session.load_cold`).
-/

namespace SoftPlc.Vm

open SoftPlc.Ir SoftPlc.Lib

/-! ## Failing instructions -/

/-- The memory of a machine. -/
structure Memory where
  data : ByteSegment
  retain : ByteSegment
  inputs : SlotImage
  outputs : SlotImage

/-- The memory of a state. -/
def VmState.memory (s : VmState) : Memory := ⟨s.data, s.retain, s.inputs, s.outputs⟩

/-- An action that fails leaves the memory as it was. -/
def FailsClean {α : Type} (x : VmM α) : Prop :=
  ∀ s f s', x s = .error f s' → s'.memory = s.memory

/-- An action relates its states, whether it succeeds or fails. -/
def Frames (R : VmState → VmState → Prop) {α : Type} (x : VmM α) : Prop :=
  ∀ s, match x s with
    | .ok _ s' => R s s'
    | .error _ s' => R s s'

/-- A relation that does not look at the operand stack and the count of divisions by zero, and that
holds across a call of a primitive. -/
structure Framed (R : VmState → VmState → Prop) : Prop where
  refl : ∀ s, R s s
  trans : ∀ {s t u}, R s t → R t u → R s u
  stack : ∀ s stack, R s { s with stack := stack }
  primitives : ∀ s store,
    (∃ id inst inputs nowMs out, Fb.callPrimitive s.primitives id inst inputs nowMs = .ok (store, out)) →
    R s { s with primitives := store }
  div0Count : ∀ s div0Count, R s { s with div0Count := div0Count }

/-- Whatever an action does, it leaves the memory alone. -/
def Keeps {α : Type} (x : VmM α) : Prop := Frames (fun s s' => s'.memory = s.memory) x

theorem framed_memory : Framed fun s s' => s'.memory = s.memory where
  refl _ := rfl
  trans h h' := h'.trans h
  stack _ _ := rfl
  primitives _ _ _ := rfl
  div0Count _ _ := rfl

/-- Before an action that fails clean. -/
theorem Keeps.bind_failsClean {α β : Type} {x : VmM α} {f : α → VmM β} (hx : Keeps x)
    (hf : ∀ a, FailsClean (f a)) : FailsClean (x >>= f) := by
  intro s e s' h
  have hx := hx s
  rcases estate_bind_error.mp h with h | ⟨a, s₁, ha, h⟩
  · rw [h] at hx
    exact hx
  · rw [ha] at hx
    exact (hf a s₁ e s' h).trans hx

theorem Keeps.failsClean {α : Type} {x : VmM α} (hx : Keeps x) : FailsClean x := by
  intro s e s' h
  have hs := hx s
  rw [h] at hs
  exact hs

namespace Framed

variable {R : VmState → VmState → Prop} {α β : Type} (hR : Framed R)
include hR

/-- In sequence. -/
theorem bind {x : VmM α} {f : α → VmM β} (hx : Frames R x) (hf : ∀ a, Frames R (f a)) :
    Frames R (x >>= f) := by
  intro s
  have h := hx s
  rcases hr : x s with ⟨a, s₁⟩ | ⟨e, s₁⟩
  · rw [hr] at h
    rw [estate_bind_of_ok hr]
    have h' := hf a s₁
    rcases hr' : f a s₁ with ⟨b, s₂⟩ | ⟨e, s₂⟩
    · rw [hr'] at h'
      exact hR.trans h h'
    · rw [hr'] at h'
      exact hR.trans h h'
  · rw [hr] at h
    rw [estate_bind_of_error hr]
    exact h

theorem pure (a : α) : Frames R (Pure.pure a : VmM α) := fun s => hR.refl s

theorem fail (e : VmError) : Frames R (Vm.fail e : VmM α) := fun s => hR.refl s

theorem panicWith (m : String) : Frames R (Vm.panicWith m : VmM α) := fun s => hR.refl s

theorem liftErr (x : Except VmError α) : Frames R (Vm.liftErr x) := by
  rcases x with e | a
  · exact hR.fail e
  · exact hR.pure a

theorem get : Frames R (MonadState.get : VmM VmState) := fun s => hR.refl s

theorem push (v : VmValue) (pc : ℕ) : Frames R (Vm.push v pc) := by
  intro s
  unfold Vm.push
  split_ifs
  · exact hR.refl s
  · exact hR.stack s _

theorem pop (pc : ℕ) : Frames R (Vm.pop pc) := by
  intro s
  unfold Vm.pop
  rcases s.stack with _ | ⟨v, rest⟩
  · exact hR.refl s
  · exact hR.stack s rest

theorem bumpDiv0 : Frames R Vm.bumpDiv0 := by
  intro s
  unfold Vm.bumpDiv0
  split_ifs
  · exact hR.refl s
  · exact hR.div0Count s _

theorem divOp {w : ℕ} (x y : BitVec w) : Frames R (Vm.divOp x y) := by
  unfold Vm.divOp
  split_ifs
  · exact hR.bind hR.bumpDiv0 fun _ => hR.pure _
  · exact hR.panicWith _
  · exact hR.pure _

theorem intArith (op : Opcode) (x y : BitVec 32) : Frames R (Vm.intArith op x y) := by
  unfold Vm.intArith
  split
  · exact hR.pure _
  · exact hR.pure _
  · exact hR.pure _
  · exact hR.divOp x y
  · exact hR.pure _

theorem arithOp (op : Opcode) (a b : VmValue) (pc : ℕ) : Frames R (Vm.arithOp op a b pc) := by
  unfold Vm.arithOp
  split
  · split
    · exact hR.pure _
    · exact hR.pure _
    · exact hR.pure _
    · split_ifs
      · exact hR.bind hR.bumpDiv0 fun _ => hR.pure _
      · exact hR.pure _
    · exact hR.fail _
  · exact hR.bind (hR.intArith _ _ _) fun _ => hR.pure _
  · exact hR.bind (hR.intArith _ _ _) fun _ => hR.pure _
  · exact hR.bind (hR.intArith _ _ _) fun _ => hR.pure _
  · split
    · exact hR.pure _
    · exact hR.pure _
    · exact hR.pure _
    · exact hR.bind (hR.divOp _ _) fun _ => hR.pure _
    · exact hR.fail _
  · exact hR.bind (hR.intArith _ _ _) fun _ => hR.pure _
  · exact hR.bind (hR.intArith _ _ _) fun _ => hR.pure _
  · exact hR.fail _

theorem binop (op : Opcode) (a b : VmValue) (pc : ℕ) : Frames R (Vm.binop op a b pc) := by
  unfold Vm.binop
  split
  all_goals first
    | exact hR.liftErr _
    | exact hR.pure _
    | exact hR.arithOp _ _ _ _
    | exact hR.fail _

theorem popArgs (pc n : ℕ) : Frames R (Vm.popArgs pc n) := by
  induction n with
  | zero => exact hR.pure _
  | succ n ih => exact hR.bind (hR.pop pc) fun _ => hR.bind ih fun _ => hR.pure _

theorem pushResults (timer : Bool) (pc i : ℕ) (out : List Fb.StackValue) :
    Frames R (Vm.pushResults timer pc i out) := by
  induction out generalizing i with
  | nil => exact hR.pure _
  | cons v later ih => exact hR.bind (ih (i + 1)) fun _ => hR.push _ pc

theorem callPrim (fbId inst nowMs pc : ℕ) : Frames R (Vm.callPrim fbId inst nowMs pc) := by
  unfold Vm.callPrim
  rcases PrimitiveId.fromU32 fbId with _ | id
  · exact hR.fail _
  · refine hR.bind (hR.popArgs pc _) fun inputs => hR.bind ?_ fun out => hR.pushResults _ _ _ _
    intro s
    unfold invokePrimitive
    rcases hcall : Fb.callPrimitive s.primitives id inst inputs nowMs with (e | _) | ⟨store, out⟩
    · exact hR.refl s
    · exact hR.refl s
    · exact hR.primitives s store ⟨id, inst, inputs, nowMs, out, hcall⟩

/-- An action followed by the next pc. -/
theorem next {x : VmM Unit} (hx : Frames R x) (pc : ℕ) :
    Frames R (do x; Pure.pure (Control.goto pc)) :=
  hR.bind hx fun _ => hR.pure _

/-- A load followed by a push. -/
theorem load {f : VmState → Except VmError VmValue} (pc : ℕ) (next : ℕ) :
    Frames R (do
      let s ← MonadState.get
      let v ← Vm.liftErr (f s)
      Vm.push v pc
      Pure.pure (Control.goto next)) :=
  hR.bind hR.get fun _ => hR.bind (hR.liftErr _) fun v => hR.next (hR.push v pc) next

/-- A pop followed by a pushed result. -/
theorem unary {f : VmValue → Except VmError VmValue} (pc : ℕ) (next : ℕ) :
    Frames R (do
      let a ← Vm.pop pc
      let r ← Vm.liftErr (f a)
      Vm.push r pc
      Pure.pure (Control.goto next)) :=
  hR.bind (hR.pop pc) fun _ => hR.bind (hR.liftErr _) fun r => hR.next (hR.push r pc) next

/-- Two pops followed by a pushed result. -/
theorem binary (op : Opcode) (pc : ℕ) (next : ℕ) :
    Frames R (do
      let b ← Vm.pop pc
      let a ← Vm.pop pc
      let r ← Vm.binop op a b pc
      Vm.push r pc
      Pure.pure (Control.goto next)) :=
  hR.bind (hR.pop pc) fun b => hR.bind (hR.pop pc) fun a => hR.bind (hR.binop op a b pc) fun r =>
    hR.next (hR.push r pc) next

end Framed

/-- A store fails before it writes. -/
theorem failsClean_store {α : Type} {f : VmState → VmValue → Except VmError α}
    {g : VmState → α → VmState} (pc next : ℕ) :
    FailsClean (do
      let v ← Vm.pop pc
      let s ← MonadState.get
      let a ← Vm.liftErr (f s v)
      MonadState.set (g s a)
      Pure.pure (Control.goto next)) := by
  have hR := framed_memory
  refine Keeps.bind_failsClean (hR.pop pc) fun v => Keeps.bind_failsClean hR.get fun s => ?_
  refine Keeps.bind_failsClean (hR.liftErr _) fun a => ?_
  intro t e t' h
  cases h

/-- **An instruction that fails leaves the memory as it was.** -/
theorem failsClean_execInstr (image : VmImage) (nowMs pc size : ℕ) (i : DecodedInstr) :
    FailsClean (execInstr image nowMs pc size i) := by
  have hR := framed_memory
  unfold execInstr
  split
  · split
    case h_1 => exact Keeps.failsClean (hR.pure _)
    case h_2 => exact Keeps.failsClean (hR.pure _)
    case h_3 =>
      intro s e s' h
      unfold returnFromFb at h
      split at h
      · cases h
      · cases h
    case h_4 => exact Keeps.failsClean (hR.next (hR.push _ pc) _)
    case h_5 => exact Keeps.failsClean (hR.load pc _)
    case h_6 => exact failsClean_store pc _
    case h_7 => exact Keeps.failsClean (hR.load pc _)
    case h_8 => exact failsClean_store pc _
    case h_9 => exact Keeps.failsClean (hR.load pc _)
    case h_10 => exact failsClean_store pc _
    case h_11 => exact Keeps.failsClean (hR.load pc _)
    case h_12 =>
      exact Keeps.failsClean (hR.bind hR.get fun _ => hR.bind (hR.liftErr _) fun _ =>
        hR.next (hR.push _ pc) _)
    all_goals first
      | exact Keeps.failsClean (hR.pure _)
      | exact Keeps.failsClean (hR.fail _)
      | exact Keeps.failsClean (hR.binary _ pc _)
      | exact Keeps.failsClean (hR.unary pc _)
      | exact Keeps.failsClean (hR.bind (hR.pop pc) fun _ => hR.pure _)
      | skip
    refine Keeps.bind_failsClean (hR.pop pc) fun a => ?_
    rename_i payload _
    rcases IrType.fromU8 (UInt8.ofNat payload) with _ | ty
    · exact Keeps.failsClean (hR.fail _)
    · exact Keeps.failsClean (hR.next (hR.push _ pc) _)
  · split
    · exact Keeps.failsClean (hR.next (hR.push _ pc) _)
    · exact Keeps.failsClean (hR.next (hR.push _ pc) _)
    · exact Keeps.failsClean (hR.next (hR.push _ pc) _)
    · exact Keeps.failsClean (hR.fail _)
  · split_ifs
    · exact Keeps.failsClean (hR.next (hR.callPrim _ _ _ _) _)
    · intro s e s' h
      unfold callUserFb at h
      split at h
      · cases h
        rfl
      · split_ifs at h
        cases h
        rfl

/-- A step that ends a run leaves the memory as it was. -/
theorem stepVm_stop_memory {image : VmImage} {nowMs : ℕ} {c : Config} {r : RunResult}
    (h : stepVm image nowMs c = .stop r) : r.2.memory = c.state.memory := by
  unfold stepVm at h
  rcases hdec : decodeInstruction image.code c.pc with e | ⟨i, size⟩
  · simp only [hdec] at h
    cases h
    rfl
  · obtain ⟨rfl, -, -⟩ := decodeInstruction_ok hdec
    simp only [hdec] at h
    rcases hexec : execInstr image nowMs c.pc i.size i c.state with ⟨ctl, s'⟩ | ⟨f, s'⟩
    · rw [hexec] at h
      cases ctl with
      | goto pc => cases h
      | done res =>
          cases h
          cases (execInstr_ok hexec).control with
          | returned hi hframes hs' => rw [hs']
          | halted hi hs' => rw [hs']
    · rw [hexec] at h
      cases h
      exact failsClean_execInstr image nowMs c.pc i.size i c.state f s' hexec

/-! ## Cold cells -/

namespace ByteSegment

/-- An offset at which nothing was stored: a zero byte without a tag. -/
def ColdAt (s : ByteSegment) (a : ℕ) : Prop :=
  s.bytes[a]?.getD 0 = 0 ∧ s.tags[a]?.getD tagUnset = tagUnset

theorem coldAt_zeros (size a : ℕ) : (zeros size).ColdAt a := by
  constructor
  · by_cases h : a < size <;> simp [zeros, h]
  · by_cases h : a < size <;> simp [zeros, h]

/-- A store leaves the offsets outside its range cold. -/
theorem ColdAt.store {s s' : ByteSegment} {offset a : ℕ} {v : VmValue} {pc : ℕ} (h : s.ColdAt a)
    (hs : s.store offset v pc = .ok s') (ha : ¬(offset ≤ a ∧ a < offset + v.byteWidth)) :
    s'.ColdAt a := by
  obtain ⟨hle, hbytes, htags⟩ := store_eq_ok hs
  have hb : offset + v.payload.length ≤ s.bytes.length := by simpa [len] using hle
  have ht : offset + (tagPayload v).length ≤ s.tags.length := by
    simpa [s.tags_length, len] using hle
  constructor
  · rw [hbytes, getElem?_writeAt hb, if_neg (by simpa using ha)]
    exact h.1
  · rw [htags, getElem?_writeAt ht, if_neg (by simpa using ha)]
    exact h.2

/-- **A load of a cold offset gives BOOL FALSE.** -/
theorem ColdAt.load {s : ByteSegment} {a pc : ℕ} {v : VmValue} (h : s.ColdAt a)
    (hl : s.load a pc = .ok v) : v = .bool false := by
  have htag : s.tagAt a = .bool := by simp [tagAt, h.2]
  obtain ⟨hle, rfl⟩ := load_ok_iff.mp hl
  rw [htag] at hle ⊢
  have hlt : a < s.bytes.length := hle
  have hread : readAt s.bytes a 1 = [0] := by
    apply List.ext_getElem?
    intro i
    rw [getElem?_readAt]
    rcases i with _ | i
    · have hbyte := h.1
      rw [List.getElem?_eq_getElem hlt, Option.getD_some] at hbyte
      simp [List.getElem?_eq_getElem hlt, hbyte]
    · simp
  have hread' : readAt s.bytes a IrType.bool.byteWidth = [0] := hread
  rw [hread']
  rfl

end ByteSegment

/-- A slot image is BOOL FALSE at a slot, if it has the slot. -/
def SlotImage.ColdAt (s : SlotImage) (slot : ℕ) : Prop :=
  s.values[slot]?.getD (.bool false) = .bool false

theorem SlotImage.ColdAt.get {s : SlotImage} {slot pc : ℕ} {v : VmValue} (h : s.ColdAt slot)
    (hg : s.get slot pc = .ok v) : v = .bool false := by
  unfold SlotImage.get at hg
  unfold SlotImage.ColdAt at h
  rcases hv : s.values[slot]? with _ | w
  · simp [hv] at hg
  · rw [hv] at hg h
    cases hg
    exact h

/-! ## Sessions -/

/-- What a store can write: a byte of a segment, or a slot. -/
inductive Place where
  | data (a : ℕ)
  | retain (a : ℕ)
  | input (slot : ℕ)
  | output (slot : ℕ)
  deriving DecidableEq

/-- The place that a load reads first. -/
def loadPlace (s : VmState) : DecodedInstr → Option Place
  | .simple .ldData payload => some (.data (s.address payload))
  | .simple .ldRetain payload => some (.retain (s.address payload))
  | .simple .ldI payload => some (.input payload)
  | .simple .ldQ payload => some (.output payload)
  | _ => none

/-- The instruction at a configuration writes a place. -/
def Writes (image : VmImage) (c : Config) : Place → Prop
  | .data a => ∃ payload n v rest,
      decodeInstruction image.code c.pc = .ok (.simple .stData payload, n) ∧
      c.state.stack = v :: rest ∧ c.state.address payload ≤ a ∧
      a < c.state.address payload + v.byteWidth
  | .retain a => ∃ payload n v rest,
      decodeInstruction image.code c.pc = .ok (.simple .stRetain payload, n) ∧
      c.state.stack = v :: rest ∧ c.state.address payload ≤ a ∧
      a < c.state.address payload + v.byteWidth
  | .output slot => ∃ n, decodeInstruction image.code c.pc = .ok (.simple .stQ slot, n)
  | .input _ => False

/-- The state with other inputs. -/
def VmState.withInputs (s : VmState) (inputs : SlotImage) : VmState := { s with inputs := inputs }

/-- A place of the inputs. -/
def Place.IsInput (p : Place) : Prop := ∃ slot, p = .input slot

/-- `Session image s₀ c W`: from the state `s₀` a machine came to the configuration `c`, through
runs from any pcs at any times, and wrote the places `W` on the way. -/
inductive Session (image : VmImage) (s₀ : VmState) : Config → (Place → Prop) → Prop
  /-- The first run starts. -/
  | start (pc : ℕ) : Session image s₀ ⟨s₀.enter, pc⟩ fun _ => False
  /-- A run goes on. -/
  | step {c c' : Config} {W : Place → Prop} {nowMs : ℕ} (h : Session image s₀ c W)
      (hstep : stepVm image nowMs c = .go c') :
      Session image s₀ c' fun p => W p ∨ Writes image c p
  /-- A run ends or faults, and another one starts with new inputs. -/
  | ended {c : Config} {W : Place → Prop} {nowMs : ℕ} {r : RunResult} (h : Session image s₀ c W)
      (hstop : stepVm image nowMs c = .stop r) (inputs : SlotImage) (pc : ℕ) :
      Session image s₀ ⟨(r.2.withInputs inputs).enter, pc⟩ fun p => W p ∨ p.IsInput
  /-- A run has used up its budget, and another one starts with new inputs. -/
  | cut {c : Config} {W : Place → Prop} (h : Session image s₀ c W) (inputs : SlotImage) (pc : ℕ) :
      Session image s₀ ⟨(c.state.withInputs inputs).enter, pc⟩ fun p => W p ∨ p.IsInput

/-- Every place that was not written is cold. -/
structure Untouched (W : Place → Prop) (m : Memory) : Prop where
  data : ∀ a, ¬W (.data a) → m.data.ColdAt a
  retain : ∀ a, ¬W (.retain a) → m.retain.ColdAt a
  inputs : ∀ slot, ¬W (.input slot) → m.inputs.ColdAt slot
  outputs : ∀ slot, ¬W (.output slot) → m.outputs.ColdAt slot

theorem untouched_cold (m : IrModule) (instances : ℕ) (W : Place → Prop) :
    Untouched W (VmState.cold m instances).memory := by
  have hslots : ∀ n slot, (SlotImage.bools n).ColdAt slot := by
    intro n slot
    by_cases h : slot < n <;> simp [SlotImage.ColdAt, SlotImage.bools, h]
  exact ⟨fun a _ => ByteSegment.coldAt_zeros _ a, fun a _ => ByteSegment.coldAt_zeros _ a,
    fun slot _ => hslots _ slot, fun slot _ => hslots _ slot⟩

/-- A step writes what it stores. -/
theorem Untouched.step {image : VmImage} {nowMs : ℕ} {c c' : Config} {W : Place → Prop}
    (h : Untouched W c.state.memory) (hstep : stepVm image nowMs c = .go c') :
    Untouched (fun p => W p ∨ Writes image c p) c'.state.memory := by
  obtain ⟨i, hdec, -, hexec⟩ := stepVm_go hstep
  refine ⟨?_, ?_, ?_, ?_⟩
  · intro a ha
    rw [not_or] at ha
    rcases hexec.data with heq | ⟨payload, v, rest, rfl, hstack, hstore⟩
    · show c'.state.data.ColdAt a
      rw [heq]
      exact h.data a ha.1
    · refine (h.data a ha.1).store hstore fun hin => ?_
      exact ha.2 ⟨payload, _, v, rest, hdec, hstack, hin.1, hin.2⟩
  · intro a ha
    rw [not_or] at ha
    rcases hexec.retain with heq | ⟨payload, v, rest, rfl, hstack, hstore⟩
    · show c'.state.retain.ColdAt a
      rw [heq]
      exact h.retain a ha.1
    · refine (h.retain a ha.1).store hstore fun hin => ?_
      exact ha.2 ⟨payload, _, v, rest, hdec, hstack, hin.1, hin.2⟩
  · intro slot hs
    rw [not_or] at hs
    show c'.state.inputs.ColdAt slot
    rw [hexec.inputs]
    exact h.inputs slot hs.1
  · intro slot hs
    rw [not_or] at hs
    rcases hexec.outputs with heq | ⟨payload, v, rest, rfl, hstack, hset⟩
    · show c'.state.outputs.ColdAt slot
      rw [heq]
      exact h.outputs slot hs.1
    · have hne : payload ≠ slot := by
        rintro rfl
        exact hs.2 ⟨_, hdec⟩
      have hcold : c.state.outputs.ColdAt slot := h.outputs slot hs.1
      unfold SlotImage.set at hset
      split_ifs at hset
      show c'.state.outputs.ColdAt slot
      rw [← Except.ok.inj hset]
      simpa [SlotImage.ColdAt, List.getElem?_set, hne] using hcold

/-- New inputs are written from outside. -/
theorem Untouched.withInputs {W : Place → Prop} {s : VmState} (h : Untouched W s.memory)
    (inputs : SlotImage) :
    Untouched (fun p => W p ∨ p.IsInput) (s.withInputs inputs).enter.memory := by
  refine ⟨fun a ha => h.data a fun hw => ha (.inl hw), fun a ha => h.retain a fun hw => ha (.inl hw),
    fun slot hs => absurd (.inr ⟨slot, rfl⟩) hs, fun slot hs => ?_⟩
  exact h.outputs slot fun hw => hs (.inl hw)

/-- **Memory changes by stores only**: from a cold start on, a place that was not written is
cold. -/
theorem Session.untouched {image : VmImage} {s₀ : VmState} {c : Config} {W : Place → Prop}
    (h : Session image s₀ c W) (h₀ : Untouched (fun _ => False) s₀.memory) :
    Untouched W c.state.memory := by
  induction h with
  | start pc => exact ⟨h₀.data, h₀.retain, h₀.inputs, h₀.outputs⟩
  | step _ hstep ih => exact ih.step hstep
  | ended _ hstop inputs pc ih =>
      rw [← stepVm_stop_memory hstop] at ih
      exact ih.withInputs inputs
  | cut _ inputs pc ih => exact ih.withInputs inputs

/-- **A load of a place that was not written gives BOOL FALSE.** -/
theorem Session.load_cold {image : VmImage} {m : IrModule} {instances nowMs pc : ℕ} {c : Config}
    {W : Place → Prop} (h : Session image (.cold m instances) c W) {i : DecodedInstr} {ctl : Control}
    {s' : VmState} (hexec : Executes image nowMs pc i c.state ctl s') {p : Place}
    (hp : loadPlace c.state i = some p) (hW : ¬W p) :
    s'.stack = .bool false :: c.state.stack := by
  have hcold := h.untouched (untouched_cold m instances _)
  obtain ⟨vals, hres, -, hstack⟩ := hexec.stack
  unfold loadPlace at hp
  split at hp
  · cases hp
    obtain ⟨v, hv, rfl⟩ := hres
    rw [hstack, (hcold.data _ hW).load hv]
    rfl
  · cases hp
    obtain ⟨v, hv, rfl⟩ := hres
    rw [hstack, (hcold.retain _ hW).load hv]
    rfl
  · cases hp
    obtain ⟨v, hv, rfl⟩ := hres
    rw [hstack, (hcold.inputs _ hW).get hv]
    rfl
  · cases hp
    obtain ⟨v, hv, rfl⟩ := hres
    rw [hstack, (hcold.outputs _ hW).get hv]
    rfl
  · cases hp

/-! ## The output mask -/

/-- A write marks its slot and leaves the others. -/
theorem SlotImage.set_frame {o o' : SlotImage} {slot pc : ℕ} {v : VmValue}
    (h : o.set slot v pc = .ok o') (i : ℕ) :
    o'.len = o.len ∧ (o'.written.getD i false = false →
      o.written.getD i false = false ∧ o'.values[i]? = o.values[i]?) := by
  unfold SlotImage.set at h
  split_ifs at h with hslot
  cases h
  refine ⟨by simp [SlotImage.len], fun hw => ?_⟩
  have hslot' : slot < o.written.length := by rw [o.written_length]; exact hslot
  by_cases hi : slot = i
  · subst hi
    simp [hslot'] at hw
  · simp only [List.getD_eq_getElem?_getD, List.getElem?_set_ne hi] at hw ⊢
    exact ⟨hw, trivial⟩

/-- **A slot that a run did not store keeps its value**, however the run ends. -/
theorem runEntry_outputs (image : VmImage) (name : String) (nowMs : ℕ) (s : VmState) (i : ℕ) :
    (runEntry image name nowMs s).2.outputs.len = s.outputs.len ∧
      ((runEntry image name nowMs s).2.outputs.written.getD i false = false →
        (runEntry image name nowMs s).2.outputs.values[i]? = s.outputs.values[i]?) := by
  unfold runEntry
  rcases image.entryPc name with e | pc
  · exact ⟨rfl, fun _ => rfl⟩
  · let Inv (o : SlotImage) : Prop := o.len = s.outputs.len ∧
      (o.written.getD i false = false → o.values[i]? = s.outputs.values[i]?)
    have hpres : ∀ c c' : Config, Inv c.state.outputs → stepVm image nowMs c = .go c' →
        Inv c'.state.outputs := by
      intro c c' hc hstep
      obtain ⟨instr, -, -, hexec⟩ := stepVm_go hstep
      rcases hexec.outputs with ho | ⟨_, _, _, -, -, ho⟩
      · rw [ho]
        exact hc
      · obtain ⟨hlen, hframe⟩ := SlotImage.set_frame ho i
        refine ⟨hlen.trans hc.1, fun hw => ?_⟩
        obtain ⟨hw, hv⟩ := hframe hw
        exact hv.trans (hc.2 hw)
    have hstop : ∀ (c : Config) (r : RunResult), Inv c.state.outputs →
        stepVm image nowMs c = .stop r → Inv r.2.outputs := by
      intro c r hc hstop
      have hmem := congrArg Memory.outputs (stepVm_stop_memory hstop)
      rw [show r.2.outputs = c.state.outputs from hmem]
      exact hc
    exact iterate_post hpres hstop (fun _ h => h) _ _ ⟨rfl, fun _ => rfl⟩

end SoftPlc.Vm
