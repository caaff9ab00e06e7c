import SoftPlc.Lib.Bind
import SoftPlc.Vm.Exec

/-!
# Operators of the interpreter

What the operators of `exec.rs` return, by the types of their operands, and when the arithmetic
opcodes panic.

* `arithOp_ok`, `logicOp_ok`, `unaryOp_ok` and `binop_ok` give the type of the result.
* `arithOp_div_spec` says what an integer division does outside the two faulting cases of
  `divFaults`: a quotient without representation, and a division by zero once the counter is full.
* `arithOp_panic` says that these are the only panics.
-/

namespace SoftPlc.Vm

open SoftPlc.Ir SoftPlc.Lib

variable {s s' : VmState} {pc : ℕ} {f : VmFault}

/-! ## Actions that do not touch the state -/

/-- `fail` fails. -/
@[simp] theorem fail_apply {α : Type} (e : VmError) :
    (fail e : VmM α) s = .error (.err e) s := rfl

/-- `panicWith` panics. -/
@[simp] theorem panicWith_apply {α : Type} (msg : String) :
    (panicWith msg : VmM α) s = .error (.panic msg) s := rfl

/-- When a memory operation succeeds. -/
theorem liftErr_ok {α : Type} {x : Except VmError α} {a : α} :
    liftErr x s = .ok a s' ↔ x = .ok a ∧ s' = s := by
  cases x with
  | ok b => simp [liftErr, eq_comm]
  | error e => simp [liftErr]

/-- When a memory operation fails. -/
theorem liftErr_error {α : Type} {x : Except VmError α} :
    liftErr x s = .error f s' ↔ ∃ e, x = .error e ∧ f = .err e ∧ s' = s := by
  cases x with
  | ok b => simp [liftErr]
  | error e => simp [liftErr, eq_comm]

/-! ## Integer values -/

/-- The value is INT, DINT, TIME or LINT. -/
def VmValue.isInteger : VmValue → Bool
  | .int _ | .dint _ | .time _ | .lint _ => true
  | _ => false

/-- Type of the result of an arithmetic opcode on two types, where there is one. -/
def arithType : IrType → IrType → Option IrType
  | .real, .real => some .real
  | .time, .time => some .time
  | .dint, .dint | .int, .dint | .dint, .int => some .dint
  | .int, .int => some .int
  | .lint, .lint => some .lint
  | _, _ => none

/-- Width in which an arithmetic opcode computes. -/
def workWidth : VmValue → ℕ
  | .lint _ => 64
  | _ => 32

/-- The value of an integer type that an integer wraps to. -/
def VmValue.ofInt : IrType → ℤ → VmValue
  | .int, z => .int (BitVec.ofInt 16 z)
  | .dint, z => .dint (BitVec.ofInt 32 z)
  | .time, z => .time (BitVec.ofInt 32 z)
  | .lint, z => .lint (BitVec.ofInt 64 z)
  | t, _ => .zero t

/-! ## When division faults -/

/-- The quotient is `2 ^ (w - 1)` in the working width `w`. -/
def quotientOverflows : VmValue → VmValue → Bool
  | .dint x, .dint y => x == BitVec.intMin 32 && y == -1#32
  | .time x, .time y => x == BitVec.intMin 32 && y == -1#32
  | .dint x, .int y => x == BitVec.intMin 32 && y == -1#16
  | .lint x, .lint y => x == BitVec.intMin 64 && y == -1#64
  | _, _ => false

/-- The operands have an integer quotient type and the divisor is zero. -/
def zeroDivisor (a b : VmValue) : Bool :=
  a.isInteger && b.isInteger && (arithType a.irType b.irType).isSome && b.asI64 == some 0

/-- The two faulting cases of an integer division, given the number of divisions by zero so
far. -/
def divFaults (count : ℕ) (a b : VmValue) : Bool :=
  quotientOverflows a b || (zeroDivisor a b && decide (u32Max ≤ count))

/-! ## Division in one width -/

/-- Division by zero counts once and gives zero while the counter has room. -/
theorem divOp_zero {w : ℕ} (x : BitVec w) (hcount : s.div0Count < u32Max) :
    divOp x 0#w s = .ok 0#w { s with div0Count := s.div0Count + 1 } := by
  have hbump : bumpDiv0 s = .ok () { s with div0Count := s.div0Count + 1 } := by
    rw [bumpDiv0, if_neg (Nat.not_le_of_gt hcount)]
  rw [divOp, if_pos rfl, estate_bind_of_ok hbump]
  rfl

/-- Division by zero panics once the counter is full. -/
theorem divOp_zero_full {w : ℕ} (x : BitVec w) (hcount : u32Max ≤ s.div0Count) :
    divOp x 0#w s = .error (.panic "attempt to add with overflow") s := by
  have hbump : bumpDiv0 s = .error (.panic "attempt to add with overflow") s := by
    rw [bumpDiv0, if_pos hcount]
  rw [divOp, if_pos rfl, estate_bind_of_error hbump]

/-- Division by a nonzero divisor gives the quotient when that is representable. -/
theorem divOp_quotient {w : ℕ} {x y : BitVec w} (hy : y ≠ 0#w)
    (hrep : ¬(x = BitVec.intMin w ∧ y = -1#w)) : divOp x y s = .ok (x.sdiv y) s := by
  rw [divOp, if_neg hy, if_neg hrep]
  rfl

/-- Division of the least number by minus one panics. -/
theorem divOp_overflow {w : ℕ} (hw : -1#w ≠ 0#w) :
    divOp (BitVec.intMin w) (-1#w) s = .error (.panic "attempt to divide with overflow") s := by
  rw [divOp, if_neg hw, if_pos ⟨rfl, rfl⟩, panicWith_apply]

/-- A division that succeeds touches only the counter. -/
theorem divOp_ok {w : ℕ} {x y q : BitVec w} (h : divOp x y s = .ok q s') :
    ∃ n, s' = { s with div0Count := n } := by
  by_cases hy : y = 0#w
  · subst hy
    by_cases hcount : u32Max ≤ s.div0Count
    · rw [divOp_zero_full x hcount] at h
      cases h
    · rw [divOp_zero x (Nat.lt_of_not_le hcount)] at h
      cases h
      exact ⟨_, rfl⟩
  · rw [divOp, if_neg hy] at h
    split_ifs at h
    · cases h
    · cases h
      exact ⟨_, rfl⟩

/-- A division fails only by a panic. -/
theorem divOp_error {w : ℕ} {x y : BitVec w} (h : divOp x y s = .error f s') :
    ∃ msg, f = .panic msg := by
  by_cases hy : y = 0#w
  · subst hy
    by_cases hcount : u32Max ≤ s.div0Count
    · rw [divOp_zero_full x hcount] at h
      cases h
      exact ⟨_, rfl⟩
    · rw [divOp_zero x (Nat.lt_of_not_le hcount)] at h
      cases h
  · rw [divOp, if_neg hy] at h
    split_ifs at h
    · cases h
      exact ⟨_, rfl⟩
    · cases h

/-! ## Sign extension of INT operands -/

/-- Sign extension keeps the integer. -/
theorem toInt_signExtend32 (x : BitVec 16) : (x.signExtend 32).toInt = x.toInt :=
  BitVec.toInt_signExtend_of_le (by decide)

/-- A sign-extended INT is never the least DINT. -/
theorem signExtend32_ne_intMin (x : BitVec 16) : x.signExtend 32 ≠ BitVec.intMin 32 := by
  intro h
  have hx := toInt_signExtend32 x
  have hlow := x.le_toInt
  rw [h] at hx
  have hmin : (BitVec.intMin 32).toInt = -2147483648 := by decide
  omega

/-- Only zero extends to zero. -/
theorem signExtend32_eq_zero {x : BitVec 16} : x.signExtend 32 = 0#32 ↔ x = 0#16 := by
  rw [← BitVec.toInt_inj, ← BitVec.toInt_inj, toInt_signExtend32]
  rfl

/-- Only minus one extends to minus one. -/
theorem signExtend32_eq_neg_one {x : BitVec 16} : x.signExtend 32 = -1#32 ↔ x = -1#16 := by
  rw [← BitVec.toInt_inj, ← BitVec.toInt_inj, toInt_signExtend32]
  have h₁ : (-1#32).toInt = -1 := by decide
  have h₂ : (-1#16).toInt = -1 := by decide
  rw [h₁, h₂]

/-! ## Arithmetic opcodes -/

/-- The state differs from another in the division-by-zero counter only. -/
def OnlyDiv0 (s s' : VmState) : Prop := ∃ n, s' = { s with div0Count := n }

/-- 32-bit arithmetic that succeeds touches only the counter. -/
theorem intArith_ok {op : Opcode} {x y r : BitVec 32} (h : intArith op x y s = .ok r s') :
    OnlyDiv0 s s' := by
  cases op with
  | div => exact divOp_ok h
  | _ =>
      cases h
      exact ⟨_, rfl⟩

/-- 32-bit arithmetic fails only in a division. -/
theorem intArith_error {op : Opcode} {x y : BitVec 32} (h : intArith op x y s = .error f s') :
    op = .div ∧ divOp x y s = .error f s' := by
  cases op with
  | div => exact ⟨rfl, h⟩
  | _ => cases h

/-- An arithmetic opcode that succeeds gives a value of the result type and touches only the
counter. -/
theorem arithOp_ok {op : Opcode} {a b r : VmValue} (h : arithOp op a b pc s = .ok r s') :
    arithType a.irType b.irType = some r.irType ∧ OnlyDiv0 s s' := by
  unfold arithOp at h
  split at h
  · -- REAL
    split at h
    · cases h
      exact ⟨rfl, _, rfl⟩
    · cases h
      exact ⟨rfl, _, rfl⟩
    · cases h
      exact ⟨rfl, _, rfl⟩
    · split_ifs at h
      · obtain ⟨⟨⟩, t, hbump, hr⟩ := estate_bind_ok.mp h
        unfold bumpDiv0 at hbump
        split_ifs at hbump
        cases hbump
        cases hr
        exact ⟨rfl, _, rfl⟩
      · cases h
        exact ⟨rfl, _, rfl⟩
    · cases h
  · obtain ⟨q, t, hq, hr⟩ := estate_bind_ok.mp h
    cases hr
    exact ⟨rfl, intArith_ok hq⟩
  · obtain ⟨q, t, hq, hr⟩ := estate_bind_ok.mp h
    cases hr
    exact ⟨rfl, intArith_ok hq⟩
  · obtain ⟨q, t, hq, hr⟩ := estate_bind_ok.mp h
    cases hr
    exact ⟨rfl, intArith_ok hq⟩
  · -- LINT
    split at h
    · cases h
      exact ⟨rfl, _, rfl⟩
    · cases h
      exact ⟨rfl, _, rfl⟩
    · cases h
      exact ⟨rfl, _, rfl⟩
    · obtain ⟨q, t, hq, hr⟩ := estate_bind_ok.mp h
      cases hr
      exact ⟨rfl, divOp_ok hq⟩
    · cases h
  · obtain ⟨q, t, hq, hr⟩ := estate_bind_ok.mp h
    cases hr
    exact ⟨rfl, intArith_ok hq⟩
  · obtain ⟨q, t, hq, hr⟩ := estate_bind_ok.mp h
    cases hr
    exact ⟨rfl, intArith_ok hq⟩
  · cases h

/-- An arithmetic opcode fails by a type error, or by a panic of a division. -/
theorem arithOp_error {op : Opcode} {a b : VmValue} (h : arithOp op a b pc s = .error f s') :
    (∃ detail, f = .err (.type pc detail)) ∨ (op = .div ∧ ∃ msg, f = .panic msg) := by
  have hint : ∀ {x y : BitVec 32} {wrap : BitVec 32 → VmValue},
      (intArith op x y >>= fun r => pure (wrap r) : VmM VmValue) s = .error f s' →
        op = .div ∧ ∃ msg, f = .panic msg := by
    intro x y wrap h
    rcases estate_bind_error.mp h with h | ⟨_, _, -, h⟩
    · obtain ⟨hop, h⟩ := intArith_error h
      exact ⟨hop, divOp_error h⟩
    · cases h
  unfold arithOp at h
  split at h
  · -- REAL
    split at h
    · cases h
    · cases h
    · cases h
    · split_ifs at h
      · rcases estate_bind_error.mp h with h | ⟨_, _, -, h⟩
        · unfold bumpDiv0 at h
          split_ifs at h
          cases h
          exact .inr ⟨rfl, _, rfl⟩
        · cases h
      · cases h
    · cases h
      exact .inl ⟨_, rfl⟩
  · exact .inr (hint h)
  · exact .inr (hint h)
  · exact .inr (hint h)
  · -- LINT
    split at h
    · cases h
    · cases h
    · cases h
    · rcases estate_bind_error.mp h with h | ⟨_, _, -, h⟩
      · exact .inr ⟨rfl, divOp_error h⟩
      · cases h
    · cases h
      exact .inl ⟨_, rfl⟩
  · exact .inr (hint h)
  · exact .inr (hint h)
  · cases h
    exact .inl ⟨_, rfl⟩

/-! ## The other operators -/

/-- Type of the result of a binary opcode on two types, where there is one. -/
def binType : Opcode → IrType → IrType → Option IrType
  | .add, t, u | .sub, t, u | .mul, t, u | .div, t, u => arithType t u
  | .and, t, u | .or, t, u | .xor, t, u => if t = u then some t else none
  | _, _, _ => some .bool

/-- A logic opcode that succeeds keeps the type of its operands. -/
theorem logicOp_ok {op : Opcode} {a b r : VmValue} (h : logicOp op a b pc = .ok r) :
    a.irType = b.irType ∧ r.irType = a.irType := by
  unfold logicOp at h
  split at h <;> cases h <;> exact ⟨rfl, rfl⟩

/-- A logic opcode fails by a type error. -/
theorem logicOp_error {op : Opcode} {a b : VmValue} {e : VmError}
    (h : logicOp op a b pc = .error e) : ∃ detail, e = .type pc detail := by
  unfold logicOp at h
  split at h <;> cases h
  exact ⟨_, rfl⟩

/-- A comparison that succeeds gives a BOOL. -/
theorem cmpOp_ok {op : Opcode} {a b r : VmValue} (h : cmpOp op a b pc = .ok r) :
    r.irType = .bool := by
  unfold cmpOp at h
  split at h
  · cases h
    rfl
  · split at h <;> cases h
    rfl

/-- A comparison fails by a type error. -/
theorem cmpOp_error {op : Opcode} {a b : VmValue} {e : VmError} (h : cmpOp op a b pc = .error e) :
    ∃ detail, e = .type pc detail := by
  unfold cmpOp at h
  split at h
  · cases h
  · split at h <;> cases h
    exact ⟨_, rfl⟩

/-- A binary opcode that succeeds gives a value of the result type and touches only the
counter. -/
theorem binop_ok {op : Opcode} {a b r : VmValue} (h : binop op a b pc s = .ok r s') :
    binType op a.irType b.irType = some r.irType ∧ OnlyDiv0 s s' := by
  cases op with
  | add | sub | mul | div =>
      simp only [binop] at h
      exact arithOp_ok h
  | and | or | xor =>
      simp only [binop, liftErr_ok] at h
      obtain ⟨hab, hr⟩ := logicOp_ok h.1
      exact ⟨by rw [binType, if_pos hab, hr], _, h.2⟩
  | eq | ne =>
      cases h
      exact ⟨rfl, _, rfl⟩
  | lt | le | gt | ge =>
      simp only [binop, liftErr_ok] at h
      exact ⟨by rw [cmpOp_ok h.1]; rfl, _, h.2⟩
  | _ => cases h

/-- A binary opcode fails by a type error, or by a panic of a division. -/
theorem binop_error {op : Opcode} {a b : VmValue} (h : binop op a b pc s = .error f s') :
    (∃ detail, f = .err (.type pc detail)) ∨ (op = .div ∧ ∃ msg, f = .panic msg) := by
  cases op with
  | add | sub | mul | div =>
      simp only [binop] at h
      exact arithOp_error h
  | and | or | xor =>
      simp only [binop, liftErr_error] at h
      obtain ⟨e, he, rfl, -⟩ := h
      obtain ⟨detail, rfl⟩ := logicOp_error he
      exact .inl ⟨detail, rfl⟩
  | lt | le | gt | ge =>
      simp only [binop, liftErr_error] at h
      obtain ⟨e, he, rfl, -⟩ := h
      obtain ⟨detail, rfl⟩ := cmpOp_error he
      exact .inl ⟨detail, rfl⟩
  | eq | ne => cases h
  | _ =>
      cases h
      exact .inl ⟨_, rfl⟩

/-- NOT and NEG keep the type of their operand. -/
theorem unaryOp_ok {op : Opcode} {a r : VmValue} (h : unaryOp op a pc = .ok r) :
    r.irType = a.irType := by
  cases op with
  | not | neg => cases a <;> cases h <;> rfl
  | _ => cases h

/-- NOT and NEG fail by a type error. -/
theorem unaryOp_error {op : Opcode} {a : VmValue} {e : VmError} (h : unaryOp op a pc = .error e) :
    ∃ detail, e = .type pc detail := by
  cases op with
  | not | neg =>
      cases a <;> cases h
      exact ⟨_, rfl⟩
  | _ =>
      cases h
      exact ⟨_, rfl⟩

/-! ## Integer division -/

/-- Cutting a 32-bit number to INT wraps it. -/
theorem ofInt_setWidth16 (q : BitVec 32) : VmValue.int (q.setWidth 16) = .ofInt .int q.toInt := by
  have hnat : (q.setWidth 16).toNat = (BitVec.ofInt 16 q.toInt).toNat := by
    rw [BitVec.toNat_setWidth, BitVec.toNat_ofInt, BitVec.toInt_eq_toNat_cond]
    split_ifs <;> omega
  rw [VmValue.ofInt, BitVec.eq_of_toNat_eq hnat]

/-- Every integer division is `divOp` on the operands taken to the working width, with the result
wrapped to its type. -/
theorem arithOp_div_work {a b : VmValue} {t : IrType} (ha : a.isInteger = true)
    (ht : arithType a.irType b.irType = some t) :
    ∃ (w : ℕ) (x y : BitVec w) (wrap : BitVec w → VmValue),
      w = workWidth a ∧ -1#w ≠ 0#w ∧
      (∀ pc s, arithOp .div a b pc s = (divOp x y >>= fun q => pure (wrap q) : VmM VmValue) s) ∧
      a.asI64 = some x.toInt ∧ b.asI64 = some y.toInt ∧ (∀ q, wrap q = .ofInt t q.toInt) ∧
      (quotientOverflows a b = true ↔ x = BitVec.intMin w ∧ y = -1#w) := by
  have hdint : ∀ q : BitVec 32, VmValue.dint q = .ofInt .dint q.toInt := by
    simp [VmValue.ofInt]
  cases a with
  | int x =>
      cases b with
      | int y =>
          cases ht
          refine ⟨32, x.signExtend 32, y.signExtend 32, fun q => .int (q.setWidth 16), rfl,
            by decide, fun _ _ => rfl, ?_, ?_, ofInt_setWidth16, ?_⟩
          · rw [toInt_signExtend32, VmValue.asI64]
          · rw [toInt_signExtend32, VmValue.asI64]
          · simp [quotientOverflows, signExtend32_ne_intMin]
      | dint y =>
          cases ht
          refine ⟨32, x.signExtend 32, y, .dint, rfl, by decide, fun _ _ => rfl, ?_, rfl, hdint, ?_⟩
          · rw [toInt_signExtend32, VmValue.asI64]
          · simp [quotientOverflows, signExtend32_ne_intMin]
      | _ => cases ht
  | dint x =>
      cases b with
      | int y =>
          cases ht
          refine ⟨32, x, y.signExtend 32, .dint, rfl, by decide, fun _ _ => rfl, rfl, ?_, hdint, ?_⟩
          · rw [toInt_signExtend32, VmValue.asI64]
          · simp only [quotientOverflows, Bool.and_eq_true, beq_iff_eq, signExtend32_eq_neg_one]
      | dint y =>
          cases ht
          exact ⟨32, x, y, .dint, rfl, by decide, fun _ _ => rfl, rfl, rfl, hdint,
            by simp only [quotientOverflows, Bool.and_eq_true, beq_iff_eq]⟩
      | _ => cases ht
  | time x =>
      cases b with
      | time y =>
          cases ht
          exact ⟨32, x, y, .time, rfl, by decide, fun _ _ => rfl, rfl, rfl, by simp [VmValue.ofInt],
            by simp only [quotientOverflows, Bool.and_eq_true, beq_iff_eq]⟩
      | _ => cases ht
  | lint x =>
      cases b with
      | lint y =>
          cases ht
          exact ⟨64, x, y, .lint, rfl, by decide, fun _ _ => rfl, rfl, rfl, by simp [VmValue.ofInt],
            by simp only [quotientOverflows, Bool.and_eq_true, beq_iff_eq]⟩
      | _ => cases ht
  | bool _ => cases ha
  | real _ => cases ha

/-- What an integer division should do: never panic, give zero and count once when the divisor is
zero, and otherwise give the quotient, which the working width represents. -/
structure DivGood (pc : ℕ) (s : VmState) (a b : VmValue) : Prop where
  /-- No panic. -/
  no_panic : ∀ msg s', arithOp .div a b pc s ≠ .error (.panic msg) s'
  /-- Division by zero. -/
  by_zero : ∀ t, arithType a.irType b.irType = some t → b.asI64 = some 0 →
    arithOp .div a b pc s = .ok (.zero t) { s with div0Count := s.div0Count + 1 }
  /-- The quotient is representable and is the result. -/
  quotient : ∀ t x y, arithType a.irType b.irType = some t → a.asI64 = some x →
    b.asI64 = some y → y ≠ 0 →
    -2 ^ (workWidth a - 1) ≤ x.tdiv y ∧ x.tdiv y < 2 ^ (workWidth a - 1) ∧
      arithOp .div a b pc s = .ok (.ofInt t (x.tdiv y)) s

/-- The zero of the result type is the wrapped zero. -/
theorem ofInt_zero {a b : VmValue} {t : IrType} (ht : arithType a.irType b.irType = some t) :
    VmValue.ofInt t 0 = .zero t := by
  cases t <;> rfl

/-- An integer division that faults, panics. -/
theorem arithOp_div_faults {a b : VmValue} (ha : a.isInteger = true)
    (hf : divFaults s.div0Count a b = true) :
    ∃ msg, arithOp .div a b pc s = .error (.panic msg) s := by
  have hsome : (arithType a.irType b.irType).isSome = true := by
    simp only [divFaults, Bool.or_eq_true, Bool.and_eq_true] at hf
    rcases hf with hf | ⟨hf, -⟩
    · unfold quotientOverflows at hf
      split at hf <;> first | rfl | cases hf
    · simp only [zeroDivisor, Bool.and_eq_true] at hf
      exact hf.1.2
  obtain ⟨t, ht⟩ := Option.isSome_iff_exists.mp hsome
  obtain ⟨w, x, y, wrap, -, hneg, hwork, -, hy, -, hover⟩ := arithOp_div_work ha ht
  simp only [divFaults, Bool.or_eq_true, Bool.and_eq_true, decide_eq_true_eq, hover] at hf
  rw [hwork]
  rcases hf with ⟨rfl, rfl⟩ | ⟨hzero, hcount⟩
  · exact ⟨_, estate_bind_of_error (divOp_overflow hneg)⟩
  · simp only [zeroDivisor, Bool.and_eq_true, beq_iff_eq, hy, Option.some.injEq] at hzero
    have hy0 : y = 0#w := by
      rw [← BitVec.toInt_inj, hzero.2, BitVec.toInt_zero]
    subst hy0
    exact ⟨_, estate_bind_of_error (divOp_zero_full x hcount)⟩

/-- An integer division that does not fault, does what it should. -/
theorem divGood_of_not_faults {a b : VmValue} (ha : a.isInteger = true) (hb : b.isInteger = true)
    (hf : divFaults s.div0Count a b = false) : DivGood pc s a b := by
  rcases ht : arithType a.irType b.irType with _ | t
  · have hnone : ∀ {t}, arithType a.irType b.irType ≠ some t := by simp [ht]
    refine ⟨?_, fun t h => absurd h hnone, fun t x y h => absurd h hnone⟩
    -- Operands without a result type give a type error.
    intro msg s' h
    unfold arithOp at h
    split at h
    all_goals first | exact hnone rfl | cases h
  obtain ⟨w, x, y, wrap, rfl, -, hwork, hx, hy, hwrap, hover⟩ := arithOp_div_work ha ht
  simp only [divFaults, Bool.or_eq_false_iff, Bool.and_eq_false_iff, decide_eq_false_iff_not] at hf
  have hrep : ¬(x = BitVec.intMin _ ∧ y = -1#_) := by
    rw [← hover, hf.1]
    exact Bool.false_ne_true
  by_cases hy0 : y = 0#_
  · have hzero : zeroDivisor a b = true := by
      simp [zeroDivisor, ha, hb, ht, hy, hy0]
    have hcount : s.div0Count < u32Max := by
      rcases hf.2 with h | h
      · rw [hzero] at h
        cases h
      · exact Nat.lt_of_not_le h
    have heq : arithOp .div a b pc s = .ok (.zero t) { s with div0Count := s.div0Count + 1 } := by
      rw [hwork, hy0, estate_bind_of_ok (divOp_zero x hcount), estate_pure, hwrap,
        BitVec.toInt_zero, ofInt_zero ht]
    refine ⟨by simp [heq], ?_, ?_⟩
    · intro t' ht' _
      rw [ht] at ht'
      cases ht'
      exact heq
    · intro t' x' y' _ _ hy' hne
      rw [hy, hy0, BitVec.toInt_zero] at hy'
      cases hy'
      exact absurd rfl hne
  · have hquot : (x.sdiv y).toInt = x.toInt.tdiv y.toInt :=
      BitVec.toInt_sdiv_of_ne_or_ne x y (not_and_or.mp hrep)
    have heq : arithOp .div a b pc s = .ok (.ofInt t (x.toInt.tdiv y.toInt)) s := by
      rw [hwork, estate_bind_of_ok (divOp_quotient hy0 hrep), estate_pure, hwrap, hquot]
    refine ⟨by simp [heq], ?_, ?_⟩
    · intro t' _ hz
      rw [hy, Option.some.injEq] at hz
      exact absurd (BitVec.toInt_inj.mp (hz.trans BitVec.toInt_zero.symm)) hy0
    · intro t' x' y' ht' hx' hy' _
      rw [ht] at ht'
      rw [hx] at hx'
      rw [hy] at hy'
      cases ht'
      cases hx'
      cases hy'
      exact ⟨hquot ▸ BitVec.le_toInt _, hquot ▸ BitVec.toInt_lt, heq⟩

/-- **An integer division does what it should exactly when it does not fault.** -/
theorem divGood_iff {a b : VmValue} (ha : a.isInteger = true) (hb : b.isInteger = true) :
    DivGood pc s a b ↔ divFaults s.div0Count a b = false := by
  refine ⟨fun h => ?_, divGood_of_not_faults ha hb⟩
  rw [Bool.eq_false_iff]
  intro hf
  obtain ⟨msg, hmsg⟩ : ∃ msg, arithOp .div a b pc s = .error (.panic msg) s :=
    arithOp_div_faults ha hf
  exact h.no_panic msg s hmsg

end SoftPlc.Vm
