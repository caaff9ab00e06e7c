import SoftPlc.Vm.ExecSpec

/-!
# Runs of the interpreter

`stepVm_go` and `stepVm_stop` take one step of a run apart, `runAt_cases` a whole run. The first
property of whole runs is that of integer arithmetic: `arithTotal_iff` says that a run meets the
contract of the arithmetic opcodes exactly when none of its divisions faults.
-/

namespace SoftPlc.Vm

open SoftPlc.Ir SoftPlc.Lib

variable {image : VmImage} {nowMs : ℕ}

/-! ## Taking runs apart -/

/-- What a step that goes on did. -/
theorem stepVm_go {c c' : Config} (h : stepVm image nowMs c = .go c') :
    ∃ i, decodeInstruction image.code c.pc = .ok (i, i.size) ∧ i.WellFormed ∧
      Executes image nowMs c.pc i c.state (.goto c'.pc) c'.state := by
  unfold stepVm at h
  rcases hdec : decodeInstruction image.code c.pc with e | ⟨i, size⟩
  · simp only [hdec] at h
    cases h
  · obtain ⟨rfl, -, hwf⟩ := decodeInstruction_ok hdec
    simp only [hdec] at h
    rcases hexec : execInstr image nowMs c.pc i.size i c.state with ⟨ctl, s'⟩ | ⟨f, s'⟩
    · rw [hexec] at h
      cases ctl with
      | goto pc =>
          cases h
          exact ⟨i, rfl, hwf, execInstr_ok hexec⟩
      | done r => cases h
    · rw [hexec] at h
      cases h

/-- Why a step stops: the code does not decode, the run ends, or an instruction fails. -/
theorem stepVm_stop {c : Config} {r : RunResult} (h : stepVm image nowMs c = .stop r) :
    (∃ e detail, decodeInstruction image.code c.pc = .error e ∧
        r.1 = .error (.err (.decode c.pc detail))) ∨
      ∃ i, decodeInstruction image.code c.pc = .ok (i, i.size) ∧ i.WellFormed ∧
        ((∃ res, r.1 = .ok res ∧ Executes image nowMs c.pc i c.state (.done res) r.2) ∨
          ∃ f, r.1 = .error f ∧ FaultCause image i c.state f ∧
            execInstr image nowMs c.pc i.size i c.state = .error f r.2) := by
  unfold stepVm at h
  rcases hdec : decodeInstruction image.code c.pc with e | ⟨i, size⟩
  · simp only [hdec] at h
    cases h
    exact .inl ⟨e, _, rfl, rfl⟩
  · right
    obtain ⟨rfl, -, hwf⟩ := decodeInstruction_ok hdec
    simp only [hdec] at h
    refine ⟨i, rfl, hwf, ?_⟩
    rcases hexec : execInstr image nowMs c.pc i.size i c.state with ⟨ctl, s'⟩ | ⟨f, s'⟩
    · rw [hexec] at h
      cases ctl with
      | goto pc => cases h
      | done res =>
          cases h
          exact .inl ⟨res, rfl, execInstr_ok hexec⟩
    · rw [hexec] at h
      cases h
      exact .inr ⟨f, rfl, execInstr_error hexec, rfl⟩

/-- The configurations that a run started at `startPc` in state `s` passes through. -/
def Passes (image : VmImage) (nowMs startPc : ℕ) (s : VmState) (k : ℕ) (c : Config) : Prop :=
  Steps (stepVm image nowMs) k ⟨s.enter, startPc⟩ c

/-- A run uses up its budget, or stops in a configuration that it passes through. -/
theorem runAt_cases (image : VmImage) (startPc nowMs : ℕ) (s : VmState) :
    (runAt image startPc nowMs s).1 = .error (.err (.budget image.instructionBudget)) ∨
      ∃ k c, k < image.instructionBudget ∧ Passes image nowMs startPc s k c ∧
        stepVm image nowMs c = .stop (runAt image startPc nowMs s) := by
  have hcases : (∃ c, Passes image nowMs startPc s image.instructionBudget c ∧
      runAt image startPc nowMs s =
        (.error (.err (.budget image.instructionBudget)), c.state)) ∨
      ∃ k c r, k < image.instructionBudget ∧ Passes image nowMs startPc s k c ∧
        stepVm image nowMs c = .stop r ∧ runAt image startPc nowMs s = r :=
    iterate_cases _ _
  rcases hcases with ⟨c, -, heq⟩ | ⟨k, c, r, hk, hsteps, hstop, heq⟩
  · left
    rw [heq]
  · right
    refine ⟨k, c, hk, hsteps, ?_⟩
    rw [heq, hstop]

/-! ## Arithmetic over whole runs -/

/-- The arithmetic opcodes. -/
def isArith : Opcode → Bool
  | .add | .sub | .mul | .div | .neg => true
  | _ => false

/-- The operands of an arithmetic opcode on the stack are INT, DINT, TIME or LINT. -/
def IntegerOperands (op : Opcode) (stack : List VmValue) : Prop :=
  op.pops ≤ stack.length ∧ ∀ v ∈ stack.take op.pops, v.isInteger = true

/-- The contract of the arithmetic opcodes at one configuration: on integer operands the
instruction gives a value or an error value, and a division gives its quotient, which the working
width represents, or zero with one count when the divisor is zero. -/
structure ArithGood (image : VmImage) (nowMs : ℕ) (c : Config) : Prop where
  /-- No panic. -/
  no_panic : ∀ op payload, decodeInstruction image.code c.pc = .ok (.simple op payload, 4) →
    isArith op = true → IntegerOperands op c.state.stack →
    ∀ msg s', execInstr image nowMs c.pc 4 (.simple op payload) c.state ≠ .error (.panic msg) s'
  /-- Divisions. -/
  div : ∀ payload b a rest, decodeInstruction image.code c.pc = .ok (.simple .div payload, 4) →
    c.state.stack = b :: a :: rest → a.isInteger = true → b.isInteger = true →
    DivGood c.pc (c.state.withStack rest) a b

/-- The instruction at a configuration is an integer division that faults. -/
def DivFaultsAt (image : VmImage) (c : Config) : Prop :=
  ∃ payload b a rest, decodeInstruction image.code c.pc = .ok (.simple .div payload, 4) ∧
    c.state.stack = b :: a :: rest ∧ a.isInteger = true ∧ b.isInteger = true ∧
    divFaults c.state.div0Count a b = true

/-- An arithmetic opcode other than DIV does not panic. -/
theorem execInstr_panic {pc payload : ℕ} {op : Opcode} {s s' : VmState} {msg : String}
    (h : execInstr image nowMs pc 4 (.simple op payload) s = .error (.panic msg) s') :
    op = .div := by
  obtain ⟨p, hi⟩ | ⟨fbId, inst, hi⟩ := execInstr_error_simple h
  · cases hi
    rfl
  · cases hi

/-- A DIV that panics does so in its division. -/
theorem execInstr_div_panic {pc payload : ℕ} {s s' : VmState} {msg : String} {a b : VmValue}
    {rest : List VmValue} (hstack : s.stack = b :: a :: rest)
    (h : execInstr image nowMs pc 4 (.simple .div payload) s = .error (.panic msg) s') :
    arithOp .div a b pc (s.withStack rest) = .error (.panic msg) s' := by
  have hb : pop pc s = .ok b (s.withStack (a :: rest)) := pop_ok.mpr ⟨_, hstack, rfl⟩
  have ha : pop pc (s.withStack (a :: rest)) = .ok a (s.withStack rest) :=
    pop_ok.mpr ⟨_, rfl, rfl⟩
  simp only [execInstr] at h
  rw [estate_bind_of_ok hb, estate_bind_of_ok ha, estate_bind_error] at h
  obtain h | ⟨r, t, -, h⟩ := h
  · exact h
  · simp only [estate_bind_error, push_error, estate_pure, reduceCtorEq, and_false, exists_false,
      or_false, false_and] at h

/-- **The arithmetic contract holds at a configuration exactly when it is not a faulting
division.** -/
theorem arithGood_iff (c : Config) : ArithGood image nowMs c ↔ ¬DivFaultsAt image c := by
  constructor
  · rintro h ⟨payload, b, a, rest, hdec, hstack, ha, hb, hf⟩
    have hgood := h.div payload b a rest hdec hstack ha hb
    rw [divGood_iff ha hb] at hgood
    exact Bool.eq_false_iff.mp hgood hf
  · intro h
    have hdiv : ∀ payload b a rest,
        decodeInstruction image.code c.pc = .ok (.simple .div payload, 4) →
        c.state.stack = b :: a :: rest → a.isInteger = true → b.isInteger = true →
        DivGood c.pc (c.state.withStack rest) a b := by
      intro payload b a rest hdec hstack ha hb
      rw [divGood_iff ha hb, Bool.eq_false_iff]
      exact fun hf => h ⟨payload, b, a, rest, hdec, hstack, ha, hb, hf⟩
    refine ⟨?_, hdiv⟩
    intro op payload hdec _ ⟨hlen, hint⟩ msg s' hpanic
    obtain rfl := execInstr_panic hpanic
    obtain ⟨b, a, rest, hstack⟩ : ∃ b a rest, c.state.stack = b :: a :: rest := by
      rcases hs : c.state.stack with _ | ⟨b, _ | ⟨a, rest⟩⟩
      · simp [hs, Opcode.pops] at hlen
      · simp [hs, Opcode.pops] at hlen
      · exact ⟨b, a, rest, rfl⟩
    rw [hstack] at hint
    have ha : a.isInteger = true := hint a (by simp [Opcode.pops])
    have hb : b.isInteger = true := hint b (by simp [Opcode.pops])
    exact (hdiv payload b a rest hdec hstack ha hb).no_panic msg s'
      (execInstr_div_panic hstack hpanic)

/-- The arithmetic contract over a whole run. -/
def ArithTotal (image : VmImage) (startPc nowMs : ℕ) (s : VmState) : Prop :=
  ∀ k c, k < image.instructionBudget → Passes image nowMs startPc s k c →
    ArithGood image nowMs c

/-- **Arithmetic over whole runs.** Every arithmetic opcode that a run executes on integer operands
meets its contract exactly when the run executes no integer division that faults: no `MIN / -1` in
32 or 64 bits, and no division by zero once the counter is full. -/
theorem arithTotal_iff (image : VmImage) (startPc nowMs : ℕ) (s : VmState) :
    ArithTotal image startPc nowMs s ↔
      ∀ k c, k < image.instructionBudget → Passes image nowMs startPc s k c →
        ¬DivFaultsAt image c := by
  constructor
  · intro h k c hk hc
    exact (arithGood_iff c).mp (h k c hk hc)
  · intro h k c hk hc
    exact (arithGood_iff c).mpr (h k c hk hc)

/-- A module with one task at pc 0. -/
def taskModule (code : List DecodedInstr) (dataSize : ℕ) : IrModule where
  irMajor := 0
  irMinor := 1
  constSize := 0
  dataSize := dataSize
  retainSize := 0
  inputSlots := 0
  outputSlots := 0
  entries := [⟨"task.main", 0, false⟩]
  constData := []
  code := code.flatMap encodeInstruction

/-- `PUSHI_DINT -2147483648; PUSHI_DINT -1; DIV; HALT`. -/
def divMinModule : IrModule :=
  taskModule [.withImm32 .pushIDint 0 0x80000000, .withImm32 .pushIDint 0 0xFFFFFFFF,
    .simple .div 0, .simple .halt 0] 0

/-- The least DINT divided by minus one panics, in a module that the verifier accepts. -/
theorem divMin_not_arithTotal :
    verifyModule divMinModule = .ok () ∧
      (runAt (.ofModule divMinModule 10) 0 0 (.cold divMinModule 1)).1 =
        .error (.panic "attempt to divide with overflow") ∧
      ¬ArithTotal (.ofModule divMinModule 10) 0 0 (.cold divMinModule 1) := by
  refine ⟨rfl, rfl, ?_⟩
  intro h
  have hgood := h 2 _ (by decide) (.succ rfl (.succ rfl (.zero _)))
  exact hgood.no_panic .div 0 rfl rfl ⟨by decide, by decide⟩ _ _ rfl

end SoftPlc.Vm
