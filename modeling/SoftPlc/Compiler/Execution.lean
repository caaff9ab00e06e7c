import SoftPlc.Compiler.Boundary
import SoftPlc.Lib.Enact
import SoftPlc.St.Semantics

/-!
# What emitted items do

Rules for a machine that runs compiled code, one for each kind of emitted item. `Stands` says where
in the code items stand, `Target` that the code is linked. `Mirrors` compares the machine with a
computation of the language: a body that ends normally leads on in the code, `RETURN` ends the run, a
fault ends it with an error. A full operand stack excuses the machine; the verifier excludes it where
no user function block is called, and no step of these rules calls one (`Calm`).
-/

namespace SoftPlc.Compiler

open SoftPlc.Ir SoftPlc.St SoftPlc.Lib SoftPlc.Vm

variable {items : List Item} {image : VmImage} {nowMs pc : ℕ}

/-! ## Places -/

/-- The items stand at a pc. -/
def Stands (items : List Item) (pc : ℕ) (xs : List Item) : Prop :=
  ∃ pre post, items = pre ++ (xs ++ post) ∧ itemsSize pre = pc

theorem Stands.left {xs ys : List Item} (h : Stands items pc (xs ++ ys)) : Stands items pc xs := by
  obtain ⟨pre, post, hitems, hpc⟩ := h
  exact ⟨pre, ys ++ post, by rw [hitems, List.append_assoc], hpc⟩

theorem Stands.right {xs ys : List Item} (h : Stands items pc (xs ++ ys)) :
    Stands items (pc + itemsSize xs) ys := by
  obtain ⟨pre, post, hitems, hpc⟩ := h
  exact ⟨pre ++ xs, post, by rw [hitems]; simp [List.append_assoc], by rw [itemsSize_append, hpc]⟩

theorem Stands.head {x : Item} {xs : List Item} (h : Stands items pc (x :: xs)) :
    Stands items pc [x] :=
  Stands.left (show Stands items pc ([x] ++ xs) from h)

theorem Stands.tail {x : Item} {xs : List Item} (h : Stands items pc (x :: xs)) :
    Stands items (pc + x.size) xs :=
  Stands.right (show Stands items pc ([x] ++ xs) from h)

/-- What the emitter appended stands where it was. -/
theorem stands_adds {g : Codegen} {xs : List Item} (h : (g.adds xs).items <+: items) :
    Stands items g.pc xs := by
  obtain ⟨post, hpost⟩ := h
  exact ⟨g.items, post, by rw [← hpost, Codegen.adds_items, List.append_assoc], rfl⟩

/-- Code that stands for items. -/
structure Target (image : VmImage) (items : List Item) : Prop where
  /-- Everything is at its place. -/
  linked : Linked items image.code

theorem Target.decode (C : Target image items) {i : DecodedInstr}
    (h : Stands items pc [.instr i]) (hwf : i.WellFormed) :
    decodeInstruction image.code pc = .ok (i, i.size) := by
  obtain ⟨pre, post, hitems, rfl⟩ := h
  exact C.linked.instr hitems hwf

theorem Target.decode_jump (C : Target image items) {op : Opcode} {l : Label} {q : ℕ}
    (h : Stands items pc [.jump op l]) (hl : Stands items q [.label l])
    (hop : Opcode.isJump op = true) : decodeInstruction image.code pc = .ok (.simple op q, 4) := by
  obtain ⟨pre, post, hitems, rfl⟩ := h
  obtain ⟨pre', post', hitems', rfl⟩ := hl
  exact C.linked.jump hitems hitems' hop

/-- An operand that fits its field. -/
theorem wellFormed_simple {op : Opcode} {payload : ℕ} (himm : op.hasImm32 = false)
    (hcall : op ≠ .callFb) (h : payload < 2 ^ 24) : (DecodedInstr.simple op payload).WellFormed :=
  ⟨himm, hcall, h⟩

/-! ## Runs -/

/-- The run stopped because the operand stack was full. -/
def Overflow (r : RunResult) : Prop := ∃ pc, r.1 = .error (.err (.stackOverflow pc))

/-- How a run ends when a body ends early. -/
def Ends (R : Store → VmState → Prop) : Exit → Store → RunResult → Prop
  | .returned, σ, r => r.1 = .ok .returned ∧ R σ r.2
  | .fault, _, r => ∃ f, r.1 = .error f

/-- The next step calls no user function block. -/
def Calm (image : VmImage) (c : Config) : Prop :=
  ∀ i n, decodeInstruction image.code c.pc = .ok (i, n) → i.isUserCall = false

/-- The machine does what a computation of the language says. -/
abbrev Mirrors (image : VmImage) (nowMs : ℕ) (R : Store → VmState → Prop) {α : Type}
    (m : EStateM.Result Exit Store α) (post : α → Store → Config → Prop) : Config → Prop :=
  Enacts (stepVm image nowMs) (Calm image) (Ends R) Overflow m post

section Steps

variable {s t : VmState} {R : Store → VmState → Prop} {α : Type} {m : EStateM.Result Exit Store α}
  {post : α → Store → Config → Prop} {i : DecodedInstr} {n : ℕ}

theorem calm_of_decode (hdec : decodeInstruction image.code pc = .ok (i, n))
    (hi : i.isUserCall = false) : Calm image ⟨s, pc⟩ := by
  intro j k hj
  rw [hdec] at hj
  cases hj
  exact hi

/-- A step that goes on. -/
theorem Mirrors.next {q : ℕ} (hdec : decodeInstruction image.code pc = .ok (i, n))
    (hi : i.isUserCall = false) (h : execInstr image nowMs pc n i s = .ok (.goto q) t)
    (hk : Mirrors image nowMs R m post ⟨t, q⟩) : Mirrors image nowMs R m post ⟨s, pc⟩ :=
  .go (calm_of_decode hdec hi) (by simp only [stepVm, hdec, h]) hk

/-- A step that ends the run. -/
theorem Mirrors.done {e : Exit} {x : Store} {r : ExecResult}
    (hdec : decodeInstruction image.code pc = .ok (i, n)) (hi : i.isUserCall = false)
    (h : execInstr image nowMs pc n i s = .ok (.done r) t) (hm : m = .error e x)
    (hends : Ends R e x (.ok r, t)) : Mirrors image nowMs R m post ⟨s, pc⟩ :=
  .exit (calm_of_decode hdec hi) hm (by simp only [stepVm, hdec, h]) hends

/-- A step that fails, as the computation does. -/
theorem Mirrors.fault {x : Store} {f : VmFault}
    (hdec : decodeInstruction image.code pc = .ok (i, n)) (hi : i.isUserCall = false)
    (h : execInstr image nowMs pc n i s = .error f t) (hm : m = .error .fault x) :
    Mirrors image nowMs R m post ⟨s, pc⟩ :=
  .exit (calm_of_decode hdec hi) hm (r := (.error f, t)) (by simp only [stepVm, hdec, h]) ⟨f, rfl⟩

/-- A step that finds the operand stack full. -/
theorem Mirrors.full (hdec : decodeInstruction image.code pc = .ok (i, n))
    (hi : i.isUserCall = false)
    (h : execInstr image nowMs pc n i s = .error (.err (.stackOverflow pc)) t) :
    Mirrors image nowMs R m post ⟨s, pc⟩ :=
  .excuse (calm_of_decode hdec hi) (r := (.error (.err (.stackOverflow pc)), t))
    (by simp only [stepVm, hdec, h]) ⟨pc, rfl⟩

end Steps

/-- Addresses of task code: no instance base, and every place can be addressed by an operand. -/
structure Addressable (s : VmState) : Prop where
  base : s.dataBase = 0
  data : s.data.len ≤ 2 ^ 24
  retain : s.retain.len ≤ 2 ^ 24
  inputs : s.inputs.len ≤ 2 ^ 24
  outputs : s.outputs.len ≤ 2 ^ 24

variable {s t : VmState}

theorem Addressable.same (h : Addressable s) (hbase : t.dataBase = s.dataBase)
    (hdata : t.data.len = s.data.len) (hretain : t.retain.len = s.retain.len)
    (hinputs : t.inputs.len = s.inputs.len) (houtputs : t.outputs.len = s.outputs.len) :
    Addressable t :=
  ⟨hbase.trans h.base, hdata ▸ h.data, hretain ▸ h.retain, hinputs ▸ h.inputs,
    houtputs ▸ h.outputs⟩

/-- Payloads are addresses. -/
theorem Addressable.address (h : Addressable s) {p : ℕ} (hp : p < 2 ^ 24) : s.address p = p := by
  rw [VmState.address, h.base, satAdd32, Nat.zero_add, Nat.min_eq_left]
  rw [u32Max]
  omega

/-- A value is stored at an offset. -/
def Holds (d : ByteSegment) (off : ℕ) (v : VmValue) : Prop :=
  ∀ pc, d.load off pc = .ok v

theorem Holds.fits {d : ByteSegment} {off : ℕ} {v : VmValue} (h : Holds d off v) :
    off + v.byteWidth ≤ d.len := by
  have hty := ByteSegment.irType_load (h 0)
  have hle := (ByteSegment.load_ok_iff.mp (h 0)).1
  rwa [← hty, ← VmValue.byteWidth_eq] at hle

/-- Values have bytes. -/
theorem byteWidth_pos (v : VmValue) : 0 < v.byteWidth := by
  rw [VmValue.byteWidth_eq]
  exact v.irType.byteWidth_pos

section Rules

variable (C : Target image items) {R : Store → VmState → Prop} {α : Type}
  {m : EStateM.Result Exit Store α} {post : α → Store → Config → Prop} {v a b : VmValue}
  {rest : List VmValue} {off : ℕ}

/-- Any instruction that ends with a push. -/
theorem Mirrors.push {i : DecodedInstr} {n q : ℕ}
    (hdec : decodeInstruction image.code pc = .ok (i, n)) (hi : i.isUserCall = false)
    (hexec : execInstr image nowMs pc n i s = (push v pc >>= fun _ => pure (.goto q)) t)
    (hk : Mirrors image nowMs R m post ⟨t.withStack (v :: t.stack), q⟩) :
    Mirrors image nowMs R m post ⟨s, pc⟩ := by
  by_cases hfull : t.stack.length < maxStack
  · have hpush : Vm.push v pc t = .ok () (t.withStack (v :: t.stack)) := push_ok.mpr ⟨hfull, rfl⟩
    rw [estate_bind_of_ok hpush] at hexec
    exact .next hdec hi hexec hk
  · have hpush : Vm.push v pc t = .error (.err (.stackOverflow pc)) t :=
      push_error.mpr ⟨Nat.le_of_not_lt hfull, rfl, rfl⟩
    rw [estate_bind_of_error hpush] at hexec
    exact .full hdec hi hexec

/-- Any load from memory. -/
theorem Mirrors.load {i : DecodedInstr} {n q : ℕ} {x : Except VmError VmValue}
    (hdec : decodeInstruction image.code pc = .ok (i, n)) (hi : i.isUserCall = false)
    (hexec : execInstr image nowMs pc n i s =
      (liftErr x >>= fun v => Vm.push v pc >>= fun _ => pure (.goto q)) s)
    (hx : x = .ok v) (hk : Mirrors image nowMs R m post ⟨s.withStack (v :: s.stack), q⟩) :
    Mirrors image nowMs R m post ⟨s, pc⟩ := by
  subst hx
  exact .push hdec hi hexec hk

include C

/-- Load from the data segment. -/
theorem Mirrors.ldData (h : Stands items pc [.simple .ldData off]) (ha : Addressable s)
    (hv : Holds s.data off v)
    (hk : Mirrors image nowMs R m post ⟨s.withStack (v :: s.stack), pc + 4⟩) :
    Mirrors image nowMs R m post ⟨s, pc⟩ := by
  have hoff : off < 2 ^ 24 := by
    have hfits := hv.fits
    have hpos := byteWidth_pos v
    have hdata := ha.data
    omega
  refine .load (C.decode h (wellFormed_simple rfl (by decide) hoff)) rfl rfl ?_ hk
  rw [ha.address hoff]
  exact hv pc

/-- Load from the retain segment. -/
theorem Mirrors.ldRetain (h : Stands items pc [.simple .ldRetain off]) (ha : Addressable s)
    (hv : Holds s.retain off v)
    (hk : Mirrors image nowMs R m post ⟨s.withStack (v :: s.stack), pc + 4⟩) :
    Mirrors image nowMs R m post ⟨s, pc⟩ := by
  have hoff : off < 2 ^ 24 := by
    have hfits := hv.fits
    have hpos := byteWidth_pos v
    have hretain := ha.retain
    omega
  refine .load (C.decode h (wellFormed_simple rfl (by decide) hoff)) rfl rfl ?_ hk
  rw [ha.address hoff]
  exact hv pc

/-- Read a `%I` slot. -/
theorem Mirrors.ldI (h : Stands items pc [.simple .ldI off]) (ha : Addressable s)
    (hv : s.inputs.values[off]? = some v)
    (hk : Mirrors image nowMs R m post ⟨s.withStack (v :: s.stack), pc + 4⟩) :
    Mirrors image nowMs R m post ⟨s, pc⟩ := by
  have hoff : off < s.inputs.len := (List.getElem?_eq_some_iff.mp hv).1
  refine .load (C.decode h (wellFormed_simple rfl (by decide) (hoff.trans_le ha.inputs))) rfl rfl ?_
    hk
  rw [SlotImage.get, hv]

/-- Read a `%Q` slot. -/
theorem Mirrors.ldQ (h : Stands items pc [.simple .ldQ off]) (ha : Addressable s)
    (hv : s.outputs.values[off]? = some v)
    (hk : Mirrors image nowMs R m post ⟨s.withStack (v :: s.stack), pc + 4⟩) :
    Mirrors image nowMs R m post ⟨s, pc⟩ := by
  have hoff : off < s.outputs.len := (List.getElem?_eq_some_iff.mp hv).1
  refine .load (C.decode h (wellFormed_simple rfl (by decide) (hoff.trans_le ha.outputs))) rfl rfl ?_
    hk
  rw [SlotImage.get, hv]

/-- Read the quality of a `%I` slot. -/
theorem Mirrors.ldIq {good : Bool} (h : Stands items pc [.simple .ldIq off]) (ha : Addressable s)
    (hv : s.inputs.qualityGood[off]? = some good)
    (hk : Mirrors image nowMs R m post ⟨s.withStack (.bool good :: s.stack), pc + 4⟩) :
    Mirrors image nowMs R m post ⟨s, pc⟩ := by
  have hoff : off < s.inputs.len :=
    (List.getElem?_eq_some_iff.mp hv).1.trans_eq s.inputs.quality_length
  have hx : s.inputs.qualityAt off pc = .ok good := by rw [SlotImage.qualityAt, hv]
  refine .push (C.decode h (wellFormed_simple rfl (by decide) (hoff.trans_le ha.inputs))) rfl
    (t := s) ?_ hk
  show (liftErr (s.inputs.qualityAt off pc) >>= fun g =>
    Vm.push (.bool g) pc >>= fun _ => pure (.goto (pc + 4)) : VmM Control) s = _
  rw [hx]
  rfl

/-- Store to the data segment. -/
theorem Mirrors.stData {d : ByteSegment} (h : Stands items pc [.simple .stData off])
    (ha : Addressable s) (hs : s.stack = v :: rest) (hd : s.data.store off v pc = .ok d)
    (hk : Mirrors image nowMs R m post ⟨{ s with data := d, stack := rest }, pc + 4⟩) :
    Mirrors image nowMs R m post ⟨s, pc⟩ := by
  have hoff : off < 2 ^ 24 := by
    have hfits := ByteSegment.store_ok_iff.mp ⟨d, hd⟩
    have hpos := byteWidth_pos v
    have hdata := ha.data
    omega
  have haddr : (s.withStack rest).address off = off := ha.address hoff
  refine .next (C.decode h (wellFormed_simple rfl (by decide) hoff)) rfl ?_ hk
  have hpop : pop pc s = .ok v (s.withStack rest) := pop_ok.mpr ⟨rest, hs, rfl⟩
  simp only [execInstr]
  rw [estate_bind_of_ok hpop, estate_bind_of_ok (estate_get _), haddr]
  simp only [VmState.withStack_data, hd]
  rfl

/-- Store to the retain segment. -/
theorem Mirrors.stRetain {d : ByteSegment} (h : Stands items pc [.simple .stRetain off])
    (ha : Addressable s) (hs : s.stack = v :: rest) (hd : s.retain.store off v pc = .ok d)
    (hk : Mirrors image nowMs R m post
      ⟨{ s with retain := d, retainDirty := true, stack := rest }, pc + 4⟩) :
    Mirrors image nowMs R m post ⟨s, pc⟩ := by
  have hoff : off < 2 ^ 24 := by
    have hfits := ByteSegment.store_ok_iff.mp ⟨d, hd⟩
    have hpos := byteWidth_pos v
    have hretain := ha.retain
    omega
  have haddr : (s.withStack rest).address off = off := ha.address hoff
  refine .next (C.decode h (wellFormed_simple rfl (by decide) hoff)) rfl ?_ hk
  have hpop : pop pc s = .ok v (s.withStack rest) := pop_ok.mpr ⟨rest, hs, rfl⟩
  simp only [execInstr]
  rw [estate_bind_of_ok hpop, estate_bind_of_ok (estate_get _), haddr]
  simp only [VmState.withStack_retain, hd]
  rfl

/-- Write a `%Q` slot. -/
theorem Mirrors.stQ {o : SlotImage} (h : Stands items pc [.simple .stQ off]) (ha : Addressable s)
    (hoff : off < s.outputs.len) (hs : s.stack = v :: rest) (ho : s.outputs.set off v pc = .ok o)
    (hk : Mirrors image nowMs R m post ⟨{ s with outputs := o, stack := rest }, pc + 4⟩) :
    Mirrors image nowMs R m post ⟨s, pc⟩ := by
  refine .next (C.decode h (wellFormed_simple rfl (by decide) (hoff.trans_le ha.outputs))) rfl ?_ hk
  have hpop : pop pc s = .ok v (s.withStack rest) := pop_ok.mpr ⟨rest, hs, rfl⟩
  simp only [execInstr]
  rw [estate_bind_of_ok hpop, estate_bind_of_ok (estate_get _)]
  simp only [VmState.withStack_outputs, ho]
  rfl

/-- Push a DINT constant. -/
theorem Mirrors.dint {imm : ℕ} (h : Stands items pc [.dint imm]) (himm : imm < 2 ^ 32)
    (hk : Mirrors image nowMs R m post
      ⟨s.withStack (.dint (BitVec.ofNat 32 imm) :: s.stack), pc + 8⟩) :
    Mirrors image nowMs R m post ⟨s, pc⟩ :=
  .push (C.decode h ⟨rfl, by decide, himm⟩) rfl rfl hk

/-- A binary operator. -/
theorem Mirrors.binop {op : BinaryOp} {code : Opcode} (h : Stands items pc [.simple code 0])
    (hcode : binaryOpcode op = some code) (hs : s.stack = b :: a :: rest)
    (hk : ∀ r t, binop code a b pc (s.withStack rest) = .ok r t →
      Mirrors image nowMs R m post ⟨t.withStack (r :: t.stack), pc + 4⟩)
    (hf : ∀ f t, binop code a b pc (s.withStack rest) = .error f t → ∃ x, m = .error .fault x) :
    Mirrors image nowMs R m post ⟨s, pc⟩ := by
  have hpop : pop pc s = .ok b (s.withStack (a :: rest)) := pop_ok.mpr ⟨_, hs, rfl⟩
  have hpop' : pop pc (s.withStack (a :: rest)) = .ok a (s.withStack rest) :=
    pop_ok.mpr ⟨_, rfl, rfl⟩
  have hexec : execInstr image nowMs pc 4 (.simple code 0) s =
      (Vm.binop code a b pc >>= fun r => Vm.push r pc >>= fun _ => pure (.goto (pc + 4)))
        (s.withStack rest) := by
    have hshape : execInstr image nowMs pc 4 (.simple code 0) =
        (pop pc >>= fun b => pop pc >>= fun a => Vm.binop code a b pc >>= fun r =>
          Vm.push r pc >>= fun _ => pure (.goto (pc + 4))) := by
      cases op <;> cases hcode <;> rfl
    rw [hshape, estate_bind_of_ok hpop, estate_bind_of_ok hpop']
  have hdec : decodeInstruction image.code pc = .ok (.simple code 0, 4) := by
    refine C.decode h (wellFormed_simple ?_ ?_ (by decide))
    · cases op <;> cases hcode <;> rfl
    · cases op <;> cases hcode <;> decide
  rcases hr : Vm.binop code a b pc (s.withStack rest) with ⟨r, t⟩ | ⟨f, t⟩
  · rw [estate_bind_of_ok hr] at hexec
    exact .push hdec rfl hexec (hk r t hr)
  · rw [estate_bind_of_error hr] at hexec
    obtain ⟨x, hm⟩ := hf f t hr
    exact .fault hdec rfl hexec hm

/-- NOT and NEG. -/
theorem Mirrors.unary {code : Opcode} {r : VmValue} (h : Stands items pc [.simple code 0])
    (hcode : code = .neg ∨ code = .not) (hs : s.stack = a :: rest)
    (hr : unaryOp code a pc = .ok r)
    (hk : Mirrors image nowMs R m post ⟨s.withStack (r :: rest), pc + 4⟩) :
    Mirrors image nowMs R m post ⟨s, pc⟩ := by
  have hpop : pop pc s = .ok a (s.withStack rest) := pop_ok.mpr ⟨rest, hs, rfl⟩
  have hwf : (DecodedInstr.simple code 0).WellFormed := by
    rcases hcode with rfl | rfl <;> exact wellFormed_simple rfl (by decide) (by decide)
  refine .push (C.decode h hwf) rfl (t := s.withStack rest) ?_ hk
  have hshape : execInstr image nowMs pc 4 (.simple code 0) =
      (pop pc >>= fun a => liftErr (unaryOp code a pc) >>= fun r =>
        Vm.push r pc >>= fun _ => pure (.goto (pc + 4))) := by
    rcases hcode with rfl | rfl <;> rfl
  show execInstr image nowMs pc 4 (.simple code 0) s = _
  rw [hshape, estate_bind_of_ok hpop, hr]
  rfl

/-- Jump. -/
theorem Mirrors.jmp {l : Label} {q : ℕ} (h : Stands items pc [.jump .jmp l])
    (hl : Stands items q [.label l]) (hk : Mirrors image nowMs R m post ⟨s, q⟩) :
    Mirrors image nowMs R m post ⟨s, pc⟩ :=
  .next (C.decode_jump h hl rfl) rfl rfl hk

/-- Jump on TRUE. -/
theorem Mirrors.jmpIf {l : Label} {q : ℕ} (h : Stands items pc [.jump .jmpIf l])
    (hl : Stands items q [.label l]) (hs : s.stack = a :: rest)
    (hk : Mirrors image nowMs R m post ⟨s.withStack rest, if a.asBool then q else pc + 4⟩) :
    Mirrors image nowMs R m post ⟨s, pc⟩ := by
  have hpop : pop pc s = .ok a (s.withStack rest) := pop_ok.mpr ⟨rest, hs, rfl⟩
  refine .next (C.decode_jump h hl rfl) rfl ?_ hk
  simp only [execInstr]
  rw [estate_bind_of_ok hpop]
  rfl

/-- Jump on FALSE. -/
theorem Mirrors.jmpIfNot {l : Label} {q : ℕ} (h : Stands items pc [.jump .jmpIfNot l])
    (hl : Stands items q [.label l]) (hs : s.stack = a :: rest)
    (hk : Mirrors image nowMs R m post ⟨s.withStack rest, if a.asBool then pc + 4 else q⟩) :
    Mirrors image nowMs R m post ⟨s, pc⟩ := by
  have hpop : pop pc s = .ok a (s.withStack rest) := pop_ok.mpr ⟨rest, hs, rfl⟩
  refine .next (C.decode_jump h hl rfl) rfl ?_ hk
  simp only [execInstr]
  rw [estate_bind_of_ok hpop]
  cases a.asBool <;> rfl

end Rules

end SoftPlc.Compiler
