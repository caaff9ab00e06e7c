import SoftPlc.Io.GpioDriver

/-!
# What the lines get

The words that the driver sends, bit by bit. `Driven` says what a word for a module means;
`wiring_driven` reads it off the words that the driver builds, and the lemmas about the calls carry it
to the three ways by which words reach the kernel.
-/

namespace SoftPlc.Io.Gpio

open SoftPlc.Lib
open SoftPlc.Scan (OperatingMode)

/-! ## Bits -/

theorem getLsbD_one_shiftLeft {b : ℕ} (hb : b < 64) (i : ℕ) :
    (1#64 <<< b).getLsbD i = decide (i = b) := by
  rw [← BitVec.twoPow_eq, BitVec.getLsbD_twoPow]
  simp only [hb, decide_true, Bool.true_and, eq_comm]

theorem getLsbD_lineMask (n i : ℕ) (hn : n ≤ 64) : (lineMask n).getLsbD i = decide (i < n) := by
  unfold lineMask
  split_ifs with h
  · obtain rfl : n = 64 := le_antisymm hn h
    rw [BitVec.getLsbD_allOnes]
  · have hpow : 2 ^ n < 2 ^ 64 := Nat.pow_lt_pow_right (by norm_num) (by omega)
    have hpos : 0 < 2 ^ n := Nat.two_pow_pos n
    have hshift : (1#64 <<< n).toNat = 2 ^ n := by
      rw [BitVec.toNat_shiftLeft, BitVec.toNat_ofNat, Nat.shiftLeft_eq]
      omega
    have htoNat : ((1#64 <<< n) - 1#64).toNat = 2 ^ n - 1 := by
      rw [BitVec.toNat_sub, hshift, BitVec.toNat_ofNat]
      omega
    rw [BitVec.getLsbD, htoNat, Nat.testBit_two_pow_sub_one]

section Words

variable {m : PlannedModule} {p : PlannedPoint}

theorem foldl_slots_other {points : List PlannedPoint} {b : ℕ} (h : ∀ p ∈ points, p.bit ≠ b)
    (slots : List (Option ℕ)) :
    (points.foldl (fun slots p => slots.set p.bit (some p.slot)) slots)[b]? = slots[b]? := by
  induction points generalizing slots with
  | nil => rfl
  | cons q points ih =>
      rw [List.foldl_cons, ih fun p hp => h p (List.mem_cons_of_mem _ hp)]
      exact List.getElem?_set_ne (h q List.mem_cons_self)

theorem length_foldl_slots (points : List PlannedPoint) (slots : List (Option ℕ)) :
    (points.foldl (fun slots p => slots.set p.bit (some p.slot)) slots).length = slots.length := by
  induction points generalizing slots with
  | nil => rfl
  | cons q points ih => rw [List.foldl_cons, ih, List.length_set]

theorem foldl_slots_get {points : List PlannedPoint} (hapart : (points.map PlannedPoint.bit).Nodup)
    (hp : p ∈ points) {slots : List (Option ℕ)} (hlt : p.bit < slots.length) :
    (points.foldl (fun slots p => slots.set p.bit (some p.slot)) slots)[p.bit]? =
      some (some p.slot) := by
  induction points generalizing slots with
  | nil => cases hp
  | cons q points ih =>
      rw [List.map_cons, List.nodup_cons] at hapart
      rw [List.foldl_cons]
      rcases List.mem_cons.mp hp with rfl | hp
      · have hother : ∀ q ∈ points, q.bit ≠ p.bit :=
          fun q hq heq => hapart.1 (heq ▸ List.mem_map_of_mem hq)
        rw [foldl_slots_other hother]
        exact List.getElem?_set_self hlt
      · apply ih hapart.2 hp
        rwa [List.length_set]

/-- A line without a binding has no slot. -/
theorem slots_other {b : ℕ} (h : ∀ p ∈ m.points, p.bit ≠ b) : m.slots[b]?.join = none := by
  unfold PlannedModule.slots
  rw [foldl_slots_other h, List.getElem?_replicate]
  split_ifs <;> rfl

/-- A line with a binding has its slot. -/
theorem slots_get (hm : m.Sound) (hp : p ∈ m.points) : m.slots[p.bit]?.join = some p.slot := by
  unfold PlannedModule.slots
  rw [foldl_slots_get hm.apart hp]
  · rfl
  · rw [List.length_replicate]
    exact (List.getElem?_eq_some_iff.mp (hm.bits p hp)).1

/-- Bits of points are bits of words. -/
theorem PlannedModule.Sound.bit_lt (hm : m.Sound) (hp : p ∈ m.points) :
    p.bit < m.offsets.length ∧ p.bit < 64 := by
  have hlt := (List.getElem?_eq_some_iff.mp (hm.bits p hp)).1
  exact ⟨hlt, hlt.trans_le hm.lines.2⟩

theorem getLsbD_foldl_safe {points : List PlannedPoint} {i : ℕ}
    (hbits : ∀ p ∈ points, p.bit < 64) (bits : BitVec 64) :
    (points.foldl (fun bits p => if p.safe then bits ||| (1#64 <<< p.bit) else bits) bits).getLsbD i =
      (bits.getLsbD i || points.any fun p => p.safe && p.bit == i) := by
  induction points generalizing bits with
  | nil => simp
  | cons p points ih =>
      have hbit : (if p.safe then bits ||| (1#64 <<< p.bit) else bits).getLsbD i =
          (bits.getLsbD i || (p.safe && p.bit == i)) := by
        cases p.safe with
        | false => simp
        | true =>
            rw [if_pos rfl, BitVec.getLsbD_or,
              getLsbD_one_shiftLeft (hbits p List.mem_cons_self), Bool.true_and]
            congr 1
            rw [Bool.eq_iff_iff, decide_eq_true_iff, beq_iff_eq, eq_comm]
      rw [List.foldl_cons, ih fun q hq => hbits q (List.mem_cons_of_mem _ hq), hbit, List.any_cons,
        Bool.or_assoc]

theorem getLsbD_imageBits {image : OutputImage} {slots : List (Option ℕ)} {k i : ℕ}
    (hk : k + slots.length ≤ 64) (bits : BitVec 64) :
    (imageBits image k slots bits).getLsbD i =
      (bits.getLsbD i || (decide (k ≤ i) && (slots[i - k]?.join).any (processValue image))) := by
  induction slots generalizing k bits with
  | nil => simp [imageBits]
  | cons slot slots ih =>
      rw [List.length_cons] at hk
      unfold imageBits
      rw [ih (by omega)]
      have hbit : (if slot.any (processValue image) then bits ||| (1#64 <<< k) else bits).getLsbD i =
          (bits.getLsbD i || (decide (i = k) && slot.any (processValue image))) := by
        cases slot.any (processValue image) with
        | false => simp
        | true => rw [if_pos rfl, BitVec.getLsbD_or, getLsbD_one_shiftLeft (by omega), Bool.and_true]
      rw [hbit, Bool.or_assoc]
      congr 1
      rcases lt_trichotomy i k with hlt | rfl | hgt
      · simp [show ¬k + 1 ≤ i by omega, show ¬i = k by omega, show ¬k ≤ i by omega]
      · simp
      · rw [show i - k = (i - (k + 1)) + 1 by omega, List.getElem?_cons_succ]
        simp [show k + 1 ≤ i by omega, show ¬i = k by omega, show k ≤ i by omega]

/-! ## What a word means -/

/-- Words of the module are inverted. -/
def PlannedModule.inverted (m : PlannedModule) : Bool := m.drive = some .openDrain

/-- The value of a point in a cycle. -/
def PlannedPoint.commanded (mode : OperatingMode) (image : OutputImage) (p : PlannedPoint) : Bool :=
  if mode = .sim ∨ image.forceSafe = true then p.safe else processValue image p.slot

/-- A word and its mask give every line of a module what its binding asks for. -/
structure PlannedModule.Driven (m : PlannedModule) (value : PlannedPoint → Bool)
    (bits mask : BitVec 64) : Prop where
  bound : ∀ p ∈ m.points, bits.getLsbD p.bit = (value p ^^ m.inverted)
  /-- A line without a binding is inactive. -/
  unbound : ∀ b < m.offsets.length, (∀ p ∈ m.points, p.bit ≠ b) → bits.getLsbD b = m.inverted
  outside : ∀ b, m.offsets.length ≤ b → bits.getLsbD b = false
  mask : ∀ b, mask.getLsbD b = decide (b < m.offsets.length)

/-- There is one such word. -/
theorem PlannedModule.Driven.unique {value : PlannedPoint → Bool} {bits bits' mask mask' : BitVec 64}
    (h : m.Driven value bits mask) (h' : m.Driven value bits' mask') : bits = bits' ∧ mask = mask' := by
  constructor
  · apply BitVec.eq_of_getLsbD_eq
    intro b _
    by_cases hlt : b < m.offsets.length
    · by_cases hbound : ∃ p ∈ m.points, p.bit = b
      · obtain ⟨p, hp, rfl⟩ := hbound
        rw [h.bound p hp, h'.bound p hp]
      · push Not at hbound
        rw [h.unbound b hlt hbound, h'.unbound b hlt hbound]
    · rw [h.outside b (not_lt.mp hlt), h'.outside b (not_lt.mp hlt)]
  · apply BitVec.eq_of_getLsbD_eq
    intro b _
    rw [h.mask b, h'.mask b]

/-- A process word of a module. -/
structure PlannedModule.Process (m : PlannedModule) (value : PlannedPoint → Bool)
    (bits : BitVec 64) : Prop where
  bound : ∀ p ∈ m.points, bits.getLsbD p.bit = value p
  other : ∀ b, (∀ p ∈ m.points, p.bit ≠ b) → bits.getLsbD b = false

/-- The encoding of a process word. -/
theorem PlannedModule.Process.driven (hm : m.Sound) {value : PlannedPoint → Bool} {bits : BitVec 64}
    (h : m.Process value bits) : m.Driven value (kernelOutputBits m.wiring bits) m.wiring.mask := by
  have hmask : ∀ b, m.wiring.mask.getLsbD b = decide (b < m.offsets.length) :=
    fun b => getLsbD_lineMask _ b hm.lines.2
  have hbits : ∀ b, (kernelOutputBits m.wiring bits).getLsbD b =
      (bits.getLsbD b ^^ (m.inverted && decide (b < m.offsets.length))) := by
    intro b
    unfold kernelOutputBits
    have hdrain : m.wiring.openDrain = m.inverted := rfl
    rw [hdrain]
    cases m.inverted with
    | false => simp
    | true => rw [if_pos rfl, BitVec.getLsbD_xor, hmask, Bool.true_and]
  constructor
  · intro p hp
    rw [hbits, h.bound p hp]
    simp [(hm.bit_lt hp).1]
  · intro b hlt hfree
    rw [hbits, h.other b hfree]
    simp [hlt]
  · intro b hle
    have hfree : ∀ p ∈ m.points, p.bit ≠ b := by
      rintro p hp rfl
      have hlt := (hm.bit_lt hp).1
      omega
    rw [hbits, h.other b hfree]
    simp [hle]
  · exact hmask

theorem safeBits_process (hm : m.Sound) : m.Process PlannedPoint.safe m.safeBits := by
  have hbits : ∀ b, m.safeBits.getLsbD b = m.points.any fun p => p.safe && p.bit == b := by
    intro b
    unfold PlannedModule.safeBits
    rw [getLsbD_foldl_safe fun p hp => (hm.bit_lt hp).2]
    simp
  constructor
  · intro p hp
    rw [hbits]
    cases hsafe : p.safe with
    | true => exact List.any_eq_true.mpr ⟨p, hp, by simp [hsafe]⟩
    | false =>
        rw [List.any_eq_false]
        intro q hq hqp
        simp only [Bool.and_eq_true, beq_iff_eq] at hqp
        obtain rfl := List.inj_on_of_nodup_map hm.apart hq hp hqp.2
        rw [hsafe] at hqp
        exact Bool.false_ne_true hqp.1
  · intro b hfree
    rw [hbits, List.any_eq_false]
    intro q hq hqb
    simp only [Bool.and_eq_true, beq_iff_eq] at hqb
    exact hfree q hq hqb.2

theorem desiredBits_process (hm : m.Sound) (mode : OperatingMode) (image : OutputImage) :
    m.Process (PlannedPoint.commanded mode image) (desiredBits m.wiring image (mode = .sim)) := by
  unfold desiredBits PlannedPoint.commanded
  by_cases hsafe : mode = .sim ∨ image.forceSafe = true
  · have hcond : (decide (mode = .sim) || image.forceSafe) = true := by simpa using hsafe
    rw [if_pos hcond]
    simp only [if_pos hsafe]
    exact safeBits_process hm
  · have hcond : ¬(decide (mode = .sim) || image.forceSafe) = true := by simpa using hsafe
    rw [if_neg hcond]
    simp only [if_neg hsafe]
    have hlen : 0 + m.wiring.slots.length ≤ 64 := by
      rw [Nat.zero_add]
      show m.slots.length ≤ 64
      unfold PlannedModule.slots
      rw [length_foldl_slots, List.length_replicate]
      exact hm.lines.2
    have hbits : ∀ b, (imageBits image 0 m.wiring.slots 0#64).getLsbD b =
        (m.slots[b]?.join).any (processValue image) := by
      intro b
      rw [getLsbD_imageBits hlen]
      simp only [BitVec.getLsbD_zero, Bool.false_or, Nat.zero_le, decide_true, Bool.true_and,
        Nat.sub_zero]
      rfl
    constructor
    · intro p hp
      rw [hbits, slots_get hm hp]
      rfl
    · intro b hfree
      rw [hbits, slots_other hfree]
      rfl

end Words

/-! ## Calls -/

section Calls

variable {k : Kernel} {call : Ioctl}

theorem mem_attempts {α : Type} {ask : Ioctl} {answer : ℕ → Except ℤ α} {ns : List ℕ} {last : ℤ}
    (h : call ∈ (attempts ask answer ns last).1) : call = ask := by
  induction ns generalizing last with
  | nil => cases h
  | cons n ns ih =>
      unfold attempts at h
      split at h
      · exact List.mem_singleton.mp h
      · split at h
        · rcases List.mem_cons.mp h with rfl | h
          · rfl
          · exact ih h
        · exact List.mem_singleton.mp h

theorem ask_mem_attempts {α : Type} (ask : Ioctl) (answer : ℕ → Except ℤ α) (last : ℤ) :
    ask ∈ (attempts ask answer ioctlAttempts last).1 := by
  show ask ∈ (attempts ask answer [0, 1, 2, 3] last).1
  unfold attempts
  split
  · exact List.mem_singleton_self _
  · split
    · exact List.mem_cons_self
    · exact List.mem_singleton_self _

theorem mem_ioctlValues {request : ℕ} {ask : Ioctl} :
    call ∈ (ioctlValues k request ask).1 ↔ call = ask :=
  ⟨mem_attempts, fun h => h ▸ ask_mem_attempts _ _ _⟩

theorem mem_releaseReq {request : ℕ} {req : LineReq} {bits : BitVec 64} :
    call ∈ releaseReq k request req bits ↔
      req.fd = true ∧ (req.isOutput = true ∧ call = .setValues request bits req.mask ∨
        call = .close request) := by
  unfold releaseReq
  split_ifs with hfd hout
  · simp only [List.mem_append, mem_ioctlValues, List.mem_singleton, hfd, hout, true_and]
  · simp only [List.nil_append, List.mem_singleton, hfd, hout, true_and, false_and, false_or,
      Bool.false_eq_true]
  · simp [hfd]

/-- A call that sends a word sends the one that the values ask for. -/
def Ioctl.Sends (plan : List PlannedModule) (value : PlannedPoint → Bool) : Ioctl → Prop
  | .getLine request chipPath offsets flags values =>
      ∃ m, plan[request]? = some m ∧ chipPath = m.path ∧ offsets = m.offsets ∧
        flags = configFlags (m.direction = .input) m.activeLow m.bias m.drive ∧
        match m.direction with
        | .input => values = none
        | .output => ∃ bits mask, values = some (bits, mask) ∧ m.Driven value bits mask
  | .setValues request bits mask =>
      ∃ m, plan[request]? = some m ∧ m.direction = .output ∧ m.Driven value bits mask
  | .getValues _ _ | .close _ => True

/-- What a claim asks first. -/
def LineClaim.ask (request : ℕ) (c : LineClaim) : Ioctl :=
  .getLine request c.chipPath (c.offsets.take 64) c.flags
    (if c.isOutput then some (c.initialValues, c.mask) else none)

theorem mem_requestOne {request : ℕ} {c : LineClaim} (h : call ∈ (requestOne k request c).1) :
    call = c.ask request := by
  unfold requestOne at h
  split at h
  · cases h
  · dsimp only at h
    rcases hask : attempts (c.ask request) (k.getLine request) ioctlAttempts 5 with ⟨calls, result⟩
    have hmem : ∀ x ∈ calls, x = c.ask request := by
      intro x hx
      apply mem_attempts
      rw [hask]
      exact hx
    unfold LineClaim.ask at hask hmem
    rw [hask] at h
    split at h <;> rename_i heq <;> cases heq <;> exact hmem _ h

theorem ask_mem_requestOne {request : ℕ} {c : LineClaim} (h : (requestOne k request c).2 = .ok ()) :
    c.ask request ∈ (requestOne k request c).1 := by
  unfold requestOne at h ⊢
  split at h
  · cases h
  · have hmem := ask_mem_attempts (c.ask request) (k.getLine request) 5
    dsimp only at h ⊢
    unfold LineClaim.ask at hmem ⊢
    split at h
    · rename_i heq
      rw [heq] at hmem
      exact hmem
    · cases h
    · cases h

theorem mem_releaseClaims {claims : List LineClaim} (h : call ∈ releaseClaims k claims) :
    ∃ i c, claims[i]? = some c ∧
      (c.isOutput = true ∧ call = .setValues i c.initialValues c.mask ∨ call = .close i) := by
  unfold releaseClaims at h
  obtain ⟨calls, hcalls, hcall⟩ := List.mem_flatten.mp h
  obtain ⟨i, hi, rfl⟩ := List.mem_mapIdx.mp hcalls
  obtain ⟨-, hcall⟩ := mem_releaseReq.mp hcall
  refine ⟨i, claims[i], List.getElem?_eq_getElem hi, ?_⟩
  rcases hcall with ⟨hout, rfl⟩ | rfl
  · have hout' : claims[i].isOutput = true := hout
    exact .inl ⟨hout', by rw [if_pos hout']; rfl⟩
  · exact .inr rfl

theorem claimFrom_spec {granted claims all : List LineClaim} (hall : granted ++ claims = all) :
    (∀ call ∈ (claimFrom k granted claims).1, ∃ i c, all[i]? = some c ∧
      (call = c.ask i ∨ c.isOutput = true ∧ call = .setValues i c.initialValues c.mask ∨
        call = .close i)) ∧
    ∀ reqs, (claimFrom k granted claims).2 = .ok reqs → reqs = all.map LineClaim.req ∧
      ∀ i c, granted.length ≤ i → all[i]? = some c → c.ask i ∈ (claimFrom k granted claims).1 := by
  induction claims generalizing granted with
  | nil =>
      rw [List.append_nil] at hall
      subst hall
      refine ⟨by simp [claimFrom], ?_⟩
      intro reqs hreqs
      cases hreqs
      refine ⟨rfl, fun i c hi hc => ?_⟩
      have hlt := (List.getElem?_eq_some_iff.mp hc).1
      omega
  | cons claim claims ih =>
      have hclaim : all[granted.length]? = some claim := by
        rw [← hall]
        simp
      obtain ⟨hcalls, hok⟩ := @ih (granted ++ [claim]) (by simpa using hall)
      rcases hone : requestOne k granted.length claim with ⟨calls, result⟩
      have hfirst : ∀ x ∈ calls, x = claim.ask granted.length := by
        intro x hx
        apply mem_requestOne (k := k)
        rw [hone]
        exact hx
      unfold claimFrom
      cases result with
      | ok u =>
          simp only [hone]
          refine ⟨?_, ?_⟩
          · intro call hcall
            rcases List.mem_append.mp hcall with hcall | hcall
            · exact ⟨_, _, hclaim, .inl (hfirst _ hcall)⟩
            · exact hcalls _ hcall
          · intro reqs hreqs
            obtain ⟨hreqs', hasks⟩ := hok reqs hreqs
            refine ⟨hreqs', fun i c hi hc => ?_⟩
            rcases hi.eq_or_lt with rfl | hlt
            · obtain rfl := Option.some.inj (hclaim.symm.trans hc)
              have hmem := @ask_mem_requestOne k granted.length claim (by rw [hone])
              rw [hone] at hmem
              exact List.mem_append_left _ hmem
            · refine List.mem_append_right _ (hasks i c ?_ hc)
              rw [List.length_append, List.length_singleton]
              omega
      | error e =>
          simp only [hone]
          refine ⟨?_, fun reqs hreqs => by cases hreqs⟩
          intro call hcall
          rcases List.mem_append.mp hcall with hcall | hcall
          · exact ⟨_, _, hclaim, .inl (hfirst _ hcall)⟩
          · obtain ⟨i, c, hc, hwhat⟩ := mem_releaseClaims hcall
            refine ⟨i, c, ?_, .inr hwhat⟩
            rw [← hall, List.getElem?_append_left (List.getElem?_eq_some_iff.mp hc).1]
            exact hc

theorem mem_readBits {reqs : List LineReq} {module : ℕ} (h : call ∈ (readBits k reqs module).1) :
    ∃ i mask, call = .getValues i mask := by
  unfold readBits at h
  split at h
  · cases h
  · split_ifs at h
    · exact ⟨_, _, mem_ioctlValues.mp h⟩
    · cases h

theorem pollModules_spec {reqs : List LineReq} {index : ℕ} {modules : List ModuleRt} {p : Pass}
    {out : InputUpdate} :
    ((pollModules k reqs index modules p out).1.map ModuleRt.toWiring =
      modules.map ModuleRt.toWiring) ∧
    ∀ call ∈ (pollModules k reqs index modules p out).2.2.2, ∃ i mask, call = .getValues i mask := by
  induction modules generalizing index p out with
  | nil => exact ⟨rfl, fun call hcall => by cases hcall⟩
  | cons module modules ih =>
      unfold pollModules
      split_ifs with hdir
      · exact ⟨congrArg (List.cons _) ih.1, ih.2⟩
      · rcases hread : readBits k reqs index with ⟨reads, result⟩
        have hreads : ∀ x ∈ reads, ∃ i mask, x = .getValues i mask := by
          intro x hx
          apply @mem_readBits k x reqs index
          rw [hread]
          exact hx
        cases result with
        | ok bits =>
            refine ⟨congrArg (List.cons _) ih.1, ?_⟩
            intro call hcall
            rcases List.mem_append.mp hcall with hcall | hcall
            · exact hreads _ hcall
            · exact ih.2 _ hcall
        | error e =>
            refine ⟨congrArg (List.cons _) ih.1, ?_⟩
            intro call hcall
            rcases List.mem_append.mp hcall with hcall | hcall
            · exact hreads _ hcall
            · exact ih.2 _ hcall

/-- The call for an output in a cycle. -/
def Wiring.write (module : Wiring) (index : ℕ) (image : OutputImage) (simMode : Bool) : Ioctl :=
  .setValues index (kernelOutputBits module (desiredBits module image simMode)) module.mask

theorem mem_writeBits {reqs : List LineReq} {index : ℕ} {module : Wiring} {bits mask : BitVec 64}
    (hreq : reqs[index]? = some module.claim.req) (hout : module.isInput = false) :
    call ∈ (writeBits k reqs index bits mask).1 ↔ call = .setValues index bits mask := by
  have hreq' : module.claim.req = ⟨true, true, module.mask⟩ := by
    simp [LineClaim.req, Wiring.claim, hout]
  unfold writeBits
  simp only [hreq, hreq', Bool.not_true, Bool.false_eq_true, if_false, if_true]
  exact mem_ioctlValues

/-- A pass sends each output module its word, and nothing else. -/
theorem applyModules_spec {reqs : List LineReq} {simMode : Bool} {image : OutputImage} {index : ℕ}
    {modules : List ModuleRt} {p : Pass}
    (hreqs : ∀ j rt, modules[j]? = some rt → reqs[index + j]? = some rt.claim.req) :
    ((applyModules k reqs simMode image index modules p).1.map ModuleRt.toWiring =
      modules.map ModuleRt.toWiring) ∧
    ∀ call, call ∈ (applyModules k reqs simMode image index modules p).2.2 ↔
      ∃ (j : ℕ) (rt : ModuleRt), modules[j]? = some rt ∧ rt.isInput = false ∧
        call = rt.toWiring.write (index + j) image simMode := by
  induction modules generalizing index p with
  | nil => simp [applyModules]
  | cons module modules ih =>
      have hrest : ∀ j rt, modules[j]? = some rt → reqs[index + 1 + j]? = some rt.claim.req := by
        intro j rt hj
        rw [show index + 1 + j = index + (j + 1) by omega]
        exact hreqs (j + 1) rt (by simpa using hj)
      -- the calls of the modules that follow, as calls of modules of the whole list
      have hshift : ∀ call, (∃ (j : ℕ) (rt : ModuleRt), modules[j]? = some rt ∧ rt.isInput = false ∧
            call = rt.toWiring.write (index + 1 + j) image simMode) ↔
          ∃ (j : ℕ) (rt : ModuleRt), (module :: modules)[j + 1]? = some rt ∧ rt.isInput = false ∧
            call = rt.toWiring.write (index + (j + 1)) image simMode := by
        intro call
        simp only [List.getElem?_cons_succ, Nat.add_right_comm index 1, Nat.add_assoc]
      have hsplit : ∀ call, (∃ (j : ℕ) (rt : ModuleRt), (module :: modules)[j]? = some rt ∧
            rt.isInput = false ∧
            call = rt.toWiring.write (index + j) image simMode) ↔
          (module.isInput = false ∧ call = module.toWiring.write index image simMode) ∨
          ∃ (j : ℕ) (rt : ModuleRt), (module :: modules)[j + 1]? = some rt ∧ rt.isInput = false ∧
            call = rt.toWiring.write (index + (j + 1)) image simMode := by
        intro call
        constructor
        · rintro ⟨_ | j, rt, hrt, hdir, hcall⟩
          · obtain rfl : module = rt := Option.some.inj hrt
            exact .inl ⟨hdir, hcall⟩
          · exact .inr ⟨j, rt, hrt, hdir, hcall⟩
        · rintro (⟨hdir, hcall⟩ | ⟨j, rt, hrt, hdir, hcall⟩)
          · exact ⟨0, module, rfl, hdir, hcall⟩
          · exact ⟨j + 1, rt, hrt, hdir, hcall⟩
      unfold applyModules
      split_ifs with hdir
      · obtain ⟨hmodules, hcalls⟩ := ih (p := p) hrest
        refine ⟨congrArg (List.cons _) hmodules, fun call => ?_⟩
        rw [hsplit, ← hshift]
        simp only [hdir, Bool.true_eq_false, false_and, false_or]
        exact hcalls call
      · have hout : module.isInput = false := by simpa using hdir
        have hwrites : ∀ call, call ∈ (writeBits k reqs index
              (kernelOutputBits module.toWiring (desiredBits module.toWiring image simMode))
              module.mask).1 ↔ call = module.toWiring.write index image simMode :=
          fun call => mem_writeBits (hreqs 0 module rfl) hout
        dsimp only
        rcases hwrite : writeBits k reqs index
            (kernelOutputBits module.toWiring (desiredBits module.toWiring image simMode))
            module.mask with ⟨writes, result⟩
        rw [hwrite] at hwrites
        cases result with
        | ok bits =>
            obtain ⟨hmodules, hcalls⟩ := ih (p := { p with saw := true }) hrest
            refine ⟨congrArg (List.cons _) hmodules, fun call => ?_⟩
            rw [hsplit, ← hshift, ← hcalls]
            simp only [hout, true_and, ← hwrites call]
            exact List.mem_append
        | error errno =>
            obtain ⟨hmodules, hcalls⟩ := ih (p := p.failed errno) hrest
            refine ⟨congrArg (List.cons _) hmodules, fun call => ?_⟩
            rw [hsplit, ← hshift, ← hcalls]
            simp only [hout, true_and, ← hwrites call]
            exact List.mem_append

end Calls

/-! ## Runs of the driver -/

/-- A driver of a plan: its modules are wired as planned, and its requests are theirs. -/
structure GpioDriver.Wired (plan : List PlannedModule) (d : GpioDriver) : Prop where
  modules : d.modules.map ModuleRt.toWiring = plan.map PlannedModule.wiring
  backend : ∀ reqs, d.backend = some reqs → reqs = plan.map fun m => m.wiring.claim.req
  running : d.running = d.backend.isSome

namespace GpioDriver.Wired

variable {plan : List PlannedModule} {d : GpioDriver}

theorem get (h : d.Wired plan) {j : ℕ} {rt : ModuleRt} (hrt : d.modules[j]? = some rt) :
    ∃ m, plan[j]? = some m ∧ rt.toWiring = m.wiring := by
  have hj := congrArg (fun l => l[j]?) h.modules
  simp only [List.getElem?_map, hrt, Option.map_some] at hj
  obtain ⟨m, hm, heq⟩ := Option.map_eq_some_iff.mp hj.symm
  exact ⟨m, hm, heq.symm⟩

theorem get' (h : d.Wired plan) {j : ℕ} {m : PlannedModule} (hm : plan[j]? = some m) :
    ∃ rt, d.modules[j]? = some rt ∧ rt.toWiring = m.wiring := by
  have hj := congrArg (fun l => l[j]?) h.modules
  simp only [List.getElem?_map, hm, Option.map_some] at hj
  exact Option.map_eq_some_iff.mp hj

theorem claims (h : d.Wired plan) :
    (d.modules.map fun m => m.claim) = plan.map fun m => m.wiring.claim := by
  calc (d.modules.map fun m => m.claim) = (d.modules.map ModuleRt.toWiring).map Wiring.claim := by
        rw [List.map_map]
        rfl
    _ = plan.map fun m => m.wiring.claim := by
        rw [h.modules, List.map_map]
        rfl

theorem req (h : d.Wired plan) {reqs : List LineReq} (hreqs : d.backend = some reqs) {j : ℕ}
    {rt : ModuleRt} (hrt : d.modules[j]? = some rt) : reqs[j]? = some rt.claim.req := by
  obtain ⟨m, hm, heq⟩ := h.get hrt
  rw [h.backend reqs hreqs, List.getElem?_map, hm, heq]
  rfl

end GpioDriver.Wired

theorem GpioDriver.wired_of_reach {plan : List PlannedModule} {d : GpioDriver} (h : Reach plan d) :
    d.Wired plan := by
  induction h with
  | new =>
      refine ⟨?_, (fun reqs hreqs => by cases hreqs), rfl⟩
      unfold GpioDriver.new
      rw [List.map_map]
      rfl
  | @start d _ k ih =>
      unfold GpioDriver.start
      split_ifs
      · exact ih
      · rcases hclaim : claimFrom k [] (d.modules.map fun m => m.claim) with ⟨calls, reqs | reqs⟩
        · simp only [hclaim]
          exact ih
        · have hspec := (claimFrom_spec (k := k) (List.nil_append (d.modules.map fun m => m.claim))).2
          rw [hclaim] at hspec
          simp only [hclaim]
          refine ⟨ih.modules, ?_, rfl⟩
          rintro reqs' ⟨⟩
          rw [(hspec reqs rfl).1, ih.claims, List.map_map]
          rfl
  | @stop d _ k ih =>
      unfold GpioDriver.stop
      split
      · rename_i hnone
        exact ⟨ih.modules, ih.backend, by rw [hnone]; rfl⟩
      · exact ⟨ih.modules, (fun reqs hreqs => by cases hreqs), rfl⟩
  | @poll d _ k mode out ih =>
      unfold GpioDriver.pollInputs
      split_ifs
      · exact ih
      · exact ih
      · split
        · exact ih
        · exact ⟨pollModules_spec.1.trans ih.modules, ih.backend, ih.running⟩
  | @apply d _ k mode image ih =>
      unfold GpioDriver.applyOutputs
      split_ifs
      · exact ih
      · split
        · exact ih
        · rename_i reqs hreqs
          have hall : ∀ j rt, d.modules[j]? = some rt → reqs[0 + j]? = some rt.claim.req := by
            intro j rt hrt
            rw [Nat.zero_add]
            exact ih.req hreqs hrt
          exact ⟨(applyModules_spec hall).1.trans ih.modules, ih.backend, ih.running⟩

/-- The words that a driver sends, and that it does send them. -/
structure GpioDriver.DrivesAsMapped (plan : List PlannedModule) (d : GpioDriver) : Prop where
  start : ∀ k, ∀ call ∈ (d.start k).2.1, call.Sends plan PlannedPoint.safe
  apply : ∀ k mode image, ∀ call ∈ (d.applyOutputs k mode image).2.1,
    call.Sends plan (PlannedPoint.commanded mode image)
  stop : ∀ k, ∀ call ∈ (d.stop k).2, call.Sends plan PlannedPoint.safe
  poll : ∀ k mode out, ∀ call ∈ (d.pollInputs k mode out).2.1, ∃ i mask, call = .getValues i mask
  claimed : ∀ k, d.running = false → (d.start k).2.2 = .ok () →
    ∀ (i : ℕ) (m : PlannedModule), plan[i]? = some m →
    m.wiring.claim.ask i ∈ (d.start k).2.1
  written : ∀ k mode image, d.running = true →
    ∀ (i : ℕ) (m : PlannedModule), plan[i]? = some m → m.direction = .output →
    ∃ bits mask, .setValues i bits mask ∈ (d.applyOutputs k mode image).2.1
  released : ∀ k, d.running = true →
    ∀ (i : ℕ) (m : PlannedModule), plan[i]? = some m → m.direction = .output →
    ∃ bits mask, .setValues i bits mask ∈ (d.stop k).2

section Driver

variable {plan : List PlannedModule} {d : GpioDriver}

theorem isInput_iff {m : PlannedModule} : m.wiring.isInput = true ↔ m.direction = .input := by
  simp [PlannedModule.wiring]

theorem direction_of_isInput {m : PlannedModule} (h : m.wiring.isInput = false) :
    m.direction = .output := by
  have hne : m.direction ≠ .input := by simpa [PlannedModule.wiring] using h
  cases hm : m.direction with
  | input => exact absurd hm hne
  | output => rfl

theorem PlannedModule.Sound.safe_driven {m : PlannedModule} (hm : m.Sound) :
    m.Driven PlannedPoint.safe (kernelOutputBits m.wiring m.wiring.safeBits) m.wiring.mask :=
  (safeBits_process hm).driven hm

/-- What a claim asks for a module. -/
theorem sends_claim (hplan : ∀ m ∈ plan, m.Sound) {i : ℕ} {m : PlannedModule}
    (hm : plan[i]? = some m) {call : Ioctl}
    (h : call = m.wiring.claim.ask i ∨ m.wiring.claim.isOutput = true ∧
      call = .setValues i m.wiring.claim.initialValues m.wiring.claim.mask ∨ call = .close i) :
    call.Sends plan PlannedPoint.safe := by
  have hsound := hplan m (List.mem_of_getElem? hm)
  have hdriven := hsound.safe_driven
  rcases h with rfl | ⟨hout, rfl⟩ | rfl
  · refine ⟨m, hm, rfl, List.take_of_length_le hsound.lines.2, rfl, ?_⟩
    cases hdir : m.direction with
    | input =>
        have hin : m.wiring.claim.isOutput = false := by
          simp [Wiring.claim, isInput_iff.mpr hdir]
        rw [hin]
        rfl
    | output =>
        have hout : m.wiring.claim.isOutput = true := by
          simp [Wiring.claim, PlannedModule.wiring, hdir]
        rw [hout]
        exact ⟨_, _, rfl, hdriven⟩
  · have hdir : m.wiring.isInput = false := by simpa [Wiring.claim] using hout
    exact ⟨m, hm, direction_of_isInput hdir, hdriven⟩
  · trivial

theorem GpioDriver.Wired.start_sends (hplan : ∀ m ∈ plan, m.Sound) (h : d.Wired plan) (k : Kernel) :
    (∀ call ∈ (d.start k).2.1, call.Sends plan PlannedPoint.safe) ∧
    (d.running = false → (d.start k).2.2 = .ok () →
      ∀ (i : ℕ) (m : PlannedModule), plan[i]? = some m →
      m.wiring.claim.ask i ∈ (d.start k).2.1) := by
  unfold GpioDriver.start
  split_ifs with hrunning
  · exact ⟨(fun call hcall => by cases hcall),
      fun hstopped => absurd (hrunning.symm.trans hstopped) (by decide)⟩
  rw [h.claims]
  obtain ⟨hcalls, hok⟩ :=
    claimFrom_spec (k := k) (List.nil_append (plan.map fun m => m.wiring.claim))
  have hsends : ∀ call ∈ (claimFrom k [] (plan.map fun m => m.wiring.claim)).1,
      call.Sends plan PlannedPoint.safe := by
    intro call hcall
    obtain ⟨i, c, hc, hwhat⟩ := hcalls call hcall
    rw [List.getElem?_map] at hc
    obtain ⟨m, hm, rfl⟩ := Option.map_eq_some_iff.mp hc
    exact sends_claim hplan hm hwhat
  rcases hclaim : claimFrom k [] (plan.map fun m => m.wiring.claim) with ⟨calls, error | reqs⟩
  · rw [hclaim] at hsends
    simp only [hclaim]
    exact ⟨hsends, fun _ hstarted => by cases hstarted⟩
  · rw [hclaim] at hsends hok
    simp only [hclaim]
    refine ⟨hsends, fun _ _ i m hm => (hok reqs rfl).2 i _ (Nat.zero_le i) ?_⟩
    rw [List.getElem?_map, hm]
    rfl

theorem GpioDriver.Wired.stop_sends (hplan : ∀ m ∈ plan, m.Sound) (h : d.Wired plan) (k : Kernel) :
    (∀ call ∈ (d.stop k).2, call.Sends plan PlannedPoint.safe) ∧
    (d.running = true → ∀ (i : ℕ) (m : PlannedModule), plan[i]? = some m → m.direction = .output →
      ∃ bits mask, .setValues i bits mask ∈ (d.stop k).2) := by
  unfold GpioDriver.stop
  split
  · rename_i hnone
    refine ⟨(fun call hcall => by cases hcall), fun hrunning => ?_⟩
    rw [h.running, hnone] at hrunning
    cases hrunning
  rename_i reqs hreqs
  constructor
  · intro call hcall
    obtain ⟨calls, hcalls, hcall⟩ := List.mem_flatten.mp hcall
    obtain ⟨i, hi, rfl⟩ := List.mem_mapIdx.mp hcalls
    have hrt := List.getElem?_eq_getElem hi
    obtain ⟨m, hm, heq⟩ := h.get hrt
    rw [h.req hreqs hrt] at hcall
    obtain ⟨-, ⟨hout, rfl⟩ | rfl⟩ := mem_releaseReq.mp hcall
    · have hdir : d.modules[i].isInput = false := by simpa [LineClaim.req, Wiring.claim] using hout
      refine sends_claim hplan hm (.inr (.inl ⟨?_, ?_⟩))
      · rw [← heq]
        exact hout
      · rw [if_neg (by simp [hdir]), ← heq]
        rfl
    · trivial
  · intro _ i m hm hdir
    obtain ⟨rt, hrt, heq⟩ := h.get' hm
    have hin : rt.isInput = false := by
      rw [heq]
      simp [PlannedModule.wiring, hdir]
    have hi := (List.getElem?_eq_some_iff.mp hrt).1
    refine ⟨kernelOutputBits rt.toWiring rt.safeBits, rt.mask, List.mem_flatten.mpr ⟨_,
      List.mem_mapIdx.mpr ⟨i, hi, rfl⟩, ?_⟩⟩
    obtain rfl : d.modules[i] = rt := (List.getElem?_eq_some_iff.mp hrt).2
    rw [h.req hreqs hrt]
    refine mem_releaseReq.mpr ⟨rfl, .inl ⟨?_, ?_⟩⟩
    · simp [LineClaim.req, Wiring.claim, hin]
    · rw [if_neg (by simp [hin])]
      rfl

theorem GpioDriver.Wired.apply_sends (hplan : ∀ m ∈ plan, m.Sound) (h : d.Wired plan) (k : Kernel)
    (mode : OperatingMode) (image : OutputImage) :
    (∀ call ∈ (d.applyOutputs k mode image).2.1,
      call.Sends plan (PlannedPoint.commanded mode image)) ∧
    (d.running = true → ∀ (i : ℕ) (m : PlannedModule), plan[i]? = some m → m.direction = .output →
      ∃ bits mask, .setValues i bits mask ∈ (d.applyOutputs k mode image).2.1) := by
  unfold GpioDriver.applyOutputs
  split_ifs with hstopped
  · refine ⟨(fun call hcall => by cases hcall), fun hrunning => ?_⟩
    rw [hrunning] at hstopped
    cases hstopped
  split
  · rename_i hnone
    refine ⟨(fun call hcall => by cases hcall), fun hrunning => ?_⟩
    rw [h.running, hnone] at hrunning
    cases hrunning
  rename_i reqs hreqs
  have hall : ∀ j rt, d.modules[j]? = some rt → reqs[0 + j]? = some rt.claim.req := by
    intro j rt hrt
    rw [Nat.zero_add]
    exact h.req hreqs hrt
  have hcalls :=
    (@applyModules_spec k reqs (mode = .sim) image 0 d.modules ⟨d.fails, false, 0⟩ hall).2
  constructor
  · intro call hcall
    obtain ⟨j, rt, hrt, hin, rfl⟩ := (hcalls call).mp hcall
    obtain ⟨m, hm, heq⟩ := h.get hrt
    have hsound := hplan m (List.mem_of_getElem? hm)
    rw [Nat.zero_add]
    refine ⟨m, hm, direction_of_isInput (heq ▸ hin), ?_⟩
    rw [heq]
    exact (desiredBits_process hsound mode image).driven hsound
  · intro _ i m hm hdir
    obtain ⟨rt, hrt, heq⟩ := h.get' hm
    have hin : rt.isInput = false := by
      rw [heq]
      simp [PlannedModule.wiring, hdir]
    have hwrite := (hcalls (rt.toWiring.write (0 + i) image (mode = .sim))).mpr ⟨i, rt, hrt, hin, rfl⟩
    rw [Nat.zero_add] at hwrite
    exact ⟨_, _, hwrite⟩

/-- A driver of a plan sends what the plan says. -/
theorem GpioDriver.Wired.drives (hplan : ∀ m ∈ plan, m.Sound) (h : d.Wired plan) :
    d.DrivesAsMapped plan where
  start k := (h.start_sends hplan k).1
  apply k mode image := (h.apply_sends hplan k mode image).1
  stop k := (h.stop_sends hplan k).1
  poll k mode out call hcall := by
    unfold GpioDriver.pollInputs at hcall
    split_ifs at hcall
    · cases hcall
    · cases hcall
    · split at hcall
      · cases hcall
      · exact pollModules_spec.2 call hcall
  claimed k := (h.start_sends hplan k).2
  written k mode image := (h.apply_sends hplan k mode image).2
  released k := (h.stop_sends hplan k).2

/-! ## Lines -/

/-- No line of a device is requested twice, and none has two bindings. -/
structure LinesApart (plan : List PlannedModule) : Prop where
  requested : (plan.flatMap fun m => m.offsets.map fun offset => (m.path, offset)).Nodup
  bound : (plan.flatMap fun m => m.points.map fun p => (m.path, p.offset)).Nodup

theorem linesApart (hplan : ∀ m ∈ plan, m.Sound) (h : (plan.flatMap PlannedModule.lines).Nodup) :
    LinesApart plan := by
  have hdevice : Function.Injective fun line : String × Fin (2 ^ 32) => ("/dev/" ++ line.1, line.2) := by
    rintro ⟨chip, offset⟩ ⟨chip', offset'⟩ heq
    simpa using heq
  have hlines : (plan.flatMap fun m => m.offsets.map fun offset => (m.path, offset)) =
      (plan.flatMap PlannedModule.lines).map fun line => ("/dev/" ++ line.1, line.2) := by
    rw [List.map_flatMap]
    apply List.flatMap_congr
    intro m hm
    unfold PlannedModule.lines
    rw [List.map_map, (hplan m hm).path]
    rfl
  have hrequested : (plan.flatMap fun m => m.offsets.map fun offset => (m.path, offset)).Nodup := by
    rw [hlines]
    exact h.map hdevice
  refine ⟨hrequested, ?_⟩
  obtain ⟨-, hdisjoint⟩ := List.nodup_flatMap.mp hrequested
  have hsub : ∀ m ∈ plan, ∀ line ∈ m.points.map fun p => (m.path, p.offset),
      line ∈ m.offsets.map fun offset => (m.path, offset) := by
    intro m hm line hline
    obtain ⟨p, hp, rfl⟩ := List.mem_map.mp hline
    exact List.mem_map_of_mem (List.mem_of_getElem? ((hplan m hm).bits p hp))
  refine List.nodup_flatMap.mpr ⟨?_, ?_⟩
  · intro m hm
    have hsound := hplan m hm
    apply List.Nodup.map_on _ (List.Nodup.of_map _ hsound.apart)
    intro p hp q hq heq
    -- one line has one place in the request, and so one bit
    have hoffset : p.offset = q.offset := congrArg Prod.snd heq
    have hbit : p.bit = q.bit := by
      have hpbit := hsound.bits p hp
      rw [hoffset, ← hsound.bits q hq] at hpbit
      exact (List.getElem?_inj (hsound.bit_lt hp).1 hsound.distinct).mp hpbit
    exact List.inj_on_of_nodup_map hsound.apart hp hq hbit
  · refine hdisjoint.imp_of_mem ?_
    intro m m' hm hm' hd line hline hline'
    exact hd (hsub m hm line hline) (hsub m' hm' line hline')

end Driver

/-! ## The driver of a map -/

/-- **GPIO outputs are driven as mapped.** For an accepted map, every point carries out its binding, no
line is owned twice, and in every state that the driver reaches, each word that it sends in a cycle has
the values of the slots or the safe states, and each word of a start or a stop has the safe states. -/
theorem gpio_driven_as_mapped {num : JsonNumbers} {modules : List IoModule} {map : FieldMap}
    {plan : List PlannedModule} (hmap : resolveMap num modules = .ok map)
    (hplan : validateMap modules map = .ok plan) :
    (∀ m ∈ plan, m.Sound ∧ ∃ i module, modules[i]? = some module ∧ module.driver = "gpio" ∧
      List.Forall₂ (PointOf num map i m.direction) module.bindings.zipIdx m.points) ∧
    LinesApart plan ∧
    ∀ d, GpioDriver.Reach plan d → d.DrivesAsMapped plan := by
  obtain ⟨hmodules, hlines⟩ := validateMap_sound hmap hplan
  have hsound : ∀ m ∈ plan, m.Sound := fun m hm => (hmodules m hm).1
  exact ⟨hmodules, linesApart hsound hlines, fun d hd => (GpioDriver.wired_of_reach hd).drives hsound⟩

/-- An output of a GPIO module. -/
def lineBinding (tag : String) (bit : Option ℕ) (safe : Bool) : FieldBinding where
  tag := tag
  image := .q
  valueType := .bool
  bit := bit
  scale := ⟨0x3FF0000000000000#64⟩
  offset := ⟨0#64⟩
  clamp := none
  register := none
  registerType := none
  rawType := none
  slot := none
  unit := ""
  safeState := some (.bool safe)

/-- Two lines of a chip, the second one bound first. -/
def outputModule : IoModule where
  id := "do"
  driver := "gpio"
  config := .ok ⟨"/dev/gpiochip1", [7, 8], false, .asIs, none⟩
  onBadQuality := .holdLast
  bindings := [lineBinding "Run" (some 1) false, lineBinding "Alarm" none true]

theorem gpio_driven_as_mapped_two : ∃ map plan, resolveMap noNumbers [outputModule] = .ok map ∧
    validateMap [outputModule] map = .ok plan ∧
    (∀ m ∈ plan, m.Sound ∧ ∃ i module, [outputModule][i]? = some module ∧ module.driver = "gpio" ∧
      List.Forall₂ (PointOf noNumbers map i m.direction) module.bindings.zipIdx m.points) ∧
    LinesApart plan ∧ ∀ d, GpioDriver.Reach plan d → d.DrivesAsMapped plan := by
  obtain ⟨map, hmap, hplan⟩ : ∃ map, resolveMap noNumbers [outputModule] = .ok map ∧
      ∃ plan, validateMap [outputModule] map = .ok plan := by
    obtain ⟨map, hmap, hok⟩ : ∃ map, resolveMap noNumbers [outputModule] = .ok map ∧
        ((validateMap [outputModule] map).toOption.map List.length) = some 1 :=
      except_of_decide (by decide +kernel)
    refine ⟨map, hmap, ?_⟩
    rcases hplan : validateMap [outputModule] map with e | plan
    · rw [hplan] at hok
      cases hok
    · exact ⟨plan, rfl⟩
  obtain ⟨plan, hplan⟩ := hplan
  exact ⟨map, plan, hmap, hplan, gpio_driven_as_mapped hmap hplan⟩

end SoftPlc.Io.Gpio
