import SoftPlc.Compiler.Execution

/-!
# Operators

On operands of one type, the opcode of an operator computes what the language says: the machine wraps
where the language wraps, counts where the language counts, and fails where the language faults.
-/

namespace SoftPlc.Compiler

open SoftPlc.Ir SoftPlc.St SoftPlc.Lib SoftPlc.Vm

variable {a b r : VmValue} {t u : IrType} {code : Opcode}

/-- The machine's result of a binary opcode is the language's, with the same count of divisions by
zero, or both fail. -/
def Agrees (code : Opcode) (u : IrType) (a b : VmValue) (m : StM VmValue) : Prop :=
  ∀ (σ : Store) (s : VmState) (pc : ℕ), s.div0Count = σ.div0 →
    (∃ r n, m σ = .ok r { σ with div0 := n } ∧
      binop code a b pc s = .ok r { s with div0Count := n } ∧ r.irType = u) ∨
    (m σ = .error .fault σ ∧ ∃ f s', binop code a b pc s = .error f s')

/-- Operators without a count. -/
theorem Agrees.of_pure (h : ∀ pc s, binop code a b pc s = .ok r s) (hr : r.irType = u) :
    Agrees code u a b (pure r) := by
  intro σ s pc hdiv
  refine .inl ⟨r, σ.div0, rfl, ?_, hr⟩
  rw [h, ← hdiv]

/-! ## Comparisons -/

/-- On values of one type, the machine's equality is equality. -/
theorem valuesEq_eq (h : a.irType = b.irType) : valuesEq a b = decide (a = b) := by
  cases a with
  | bool x =>
      cases b <;> cases h
      simp [valuesEq, beq_eq_decide]
  | int x =>
      cases b <;> cases h
      simp [valuesEq, VmValue.asI64, BitVec.toInt_inj, beq_eq_decide]
  | dint x =>
      cases b <;> cases h
      simp [valuesEq, VmValue.asI64, BitVec.toInt_inj, beq_eq_decide]
  | real x =>
      cases b <;> cases h
      rename_i y
      cases x
      cases y
      simp [valuesEq, beq_eq_decide]
  | time x =>
      cases b <;> cases h
      simp [valuesEq, VmValue.asI64, BitVec.toInt_inj, beq_eq_decide]
  | lint x =>
      cases b <;> cases h
      simp [valuesEq, VmValue.asI64, BitVec.toInt_inj, beq_eq_decide]

/-- The order opcodes. -/
theorem agrees_order {real : F32 → F32 → Bool} {int : ℤ → ℤ → Bool} (h : a.irType = b.irType)
    (hcmp : ∀ pc s, binop code a b pc s = liftErr (cmpOp code a b pc) s)
    (hreal : ∀ x y, cmpReal code x y = real x y) (hint : ∀ x y, cmpInt code x y = int x y) :
    Agrees code .bool a b (orderValues real int a b) := by
  have hnumbers : ∀ {x y : ℤ}, a.asI64 = some x → b.asI64 = some y →
      Agrees code .bool a b (pure (.bool (int x y))) := by
    intro x y ha hb
    refine .of_pure (fun pc s => ?_) rfl
    have hne : ∀ x', a ≠ .real x' := by
      rintro x' rfl
      cases ha
    rw [hcmp, ← hint]
    unfold cmpOp
    split
    · exact absurd rfl (hne _)
    · rw [ha, hb]
      rfl
  cases a with
  | real x =>
      cases b <;> cases h
      refine .of_pure (fun pc s => ?_) rfl
      rw [hcmp, ← hreal]
      rfl
  | _ =>
      cases b <;> cases h
      exact hnumbers rfl rfl

/-! ## Arithmetic -/

/-- Wrapping at 32 bits and then at 16 is wrapping at 16. -/
theorem setWidth16_ofInt (z : ℤ) : (BitVec.ofInt 32 z).setWidth 16 = BitVec.ofInt 16 z := by
  apply BitVec.eq_of_toNat_eq
  rw [BitVec.toNat_setWidth, BitVec.toNat_ofInt, BitVec.toNat_ofInt]
  omega

/-- Wrapping a difference. -/
theorem ofInt_toInt_sub {w : ℕ} (x y : BitVec w) : BitVec.ofInt w (x.toInt - y.toInt) = x - y := by
  rw [sub_eq_add_neg, BitVec.ofInt_add, BitVec.ofInt_neg, BitVec.ofInt_toInt, BitVec.ofInt_toInt,
    BitVec.sub_eq_add_neg]

/-- Opcodes that are ring operations. -/
inductive RingOp : Opcode → (ℤ → ℤ → ℤ) → Prop
  | add : RingOp .add fun x y => x + y
  | sub : RingOp .sub fun x y => x - y
  | mul : RingOp .mul fun x y => x * y

/-- In one width, a ring operation wraps the integer result. -/
theorem RingOp.intArith {f : ℤ → ℤ → ℤ} (h : RingOp code f) (x y : BitVec 32) (s : VmState) :
    intArith code x y s = .ok (BitVec.ofInt 32 (f x.toInt y.toInt)) s := by
  cases h with
  | add => simp [Vm.intArith, BitVec.ofInt_add]
  | sub => simp [Vm.intArith, ofInt_toInt_sub]
  | mul => simp [Vm.intArith, BitVec.ofInt_mul]

/-- On two integers of one type, a ring operation wraps the integer result. -/
theorem RingOp.arithOp {f : ℤ → ℤ → ℤ} (h : RingOp code f) {x y : ℤ} (hint : a.isInteger = true)
    (hty : a.irType = b.irType) (ha : a.asI64 = some x) (hb : b.asI64 = some y) (pc : ℕ)
    (s : VmState) : arithOp code a b pc s = .ok (.ofInt a.irType (f x y)) s := by
  cases a with
  | int v =>
      cases b <;> cases hty
      cases ha
      cases hb
      rename_i w
      show (Vm.intArith code (v.signExtend 32) (w.signExtend 32) >>= fun r =>
        pure (.int (r.setWidth 16)) : VmM VmValue) s = _
      rw [estate_bind_of_ok (h.intArith _ _ s), toInt_signExtend32, toInt_signExtend32,
        setWidth16_ofInt]
      rfl
  | dint v =>
      cases b <;> cases hty
      cases ha
      cases hb
      rename_i w
      show (Vm.intArith code v w >>= fun r => pure (.dint r) : VmM VmValue) s = _
      rw [estate_bind_of_ok (h.intArith _ _ s)]
      rfl
  | time v =>
      cases b <;> cases hty
      cases ha
      cases hb
      rename_i w
      show (Vm.intArith code v w >>= fun r => pure (.time r) : VmM VmValue) s = _
      rw [estate_bind_of_ok (h.intArith _ _ s)]
      rfl
  | lint v =>
      cases b <;> cases hty
      cases ha
      cases hb
      cases h with
      | add => simp [Vm.arithOp, VmValue.ofInt, VmValue.irType, BitVec.ofInt_add]
      | sub => simp [Vm.arithOp, VmValue.ofInt, VmValue.irType, ofInt_toInt_sub]
      | mul => simp [Vm.arithOp, VmValue.ofInt, VmValue.irType, BitVec.ofInt_mul]
  | bool _ => cases hint
  | real _ => cases hint

/-- Wrapping to an integer type gives a value of it. -/
theorem irType_ofInt (h : a.isInteger = true) (z : ℤ) :
    (VmValue.ofInt a.irType z).irType = a.irType := by
  cases a with
  | int v | dint v | time v | lint v => rfl
  | bool _ | real _ => cases h

/-- Two integers of one type have a result type. -/
theorem arithType_self (h : a.isInteger = true) : arithType a.irType a.irType = some a.irType := by
  cases a with
  | int v | dint v | time v | lint v => rfl
  | bool _ | real _ => cases h

/-- Division of two integers of one type. -/
theorem agrees_intDiv {x y : ℤ} (hint : a.isInteger = true) (hty : a.irType = b.irType)
    (ha : a.asI64 = some x) (hb : b.asI64 = some y) :
    Agrees .div a.irType a b (intBinary .div a.irType a b x y) := by
  have hat : arithType a.irType b.irType = some a.irType := by
    rw [← hty]
    exact arithType_self hint
  obtain ⟨w, p, q, wrap, -, hone, hop, hp, hq, hwrap, hover⟩ := arithOp_div_work hint hat
  rw [ha] at hp
  rw [hb] at hq
  cases hp
  cases hq
  intro σ s pc hdiv
  have hbin : binop .div a b pc s = (divOp p q >>= fun r => pure (wrap r) : VmM VmValue) s :=
    hop pc s
  by_cases hzero : q = 0#w
  · subst hzero
    have hz : (0#w).toInt = 0 := BitVec.toInt_zero
    have hzw : wrap 0#w = .zero a.irType := by
      rw [hwrap, hz]
      exact ofInt_zero hat
    by_cases hcount : σ.div0 < u32Max
    · refine .inl ⟨.zero a.irType, σ.div0 + 1, ?_, ?_, by simp⟩
      · simp [intBinary, hz, divideByZero, hcount]
      · rw [hbin, estate_bind_of_ok (divOp_zero p (hdiv ▸ hcount)), hdiv, ← hzw]
        rfl
    · refine .inr ⟨?_, .panic "attempt to add with overflow", s, ?_⟩
      · simp [intBinary, hz, divideByZero, hcount]
      · rw [hbin, estate_bind_of_error (divOp_zero_full p (by omega))]
  · have hy : q.toInt ≠ 0 := by
      intro h
      apply hzero
      rw [← BitVec.toInt_inj, h, BitVec.toInt_zero]
    by_cases hrep : p = BitVec.intMin w ∧ q = -1#w
    · refine .inr ⟨?_, .panic "attempt to divide with overflow", s, ?_⟩
      · simp [intBinary, hy, hover.mpr hrep, fault]
      · obtain ⟨rfl, rfl⟩ := hrep
        rw [hbin, estate_bind_of_error (divOp_overflow hone)]
    · have hno : quotientOverflows a b = false := by
        rw [Bool.eq_false_iff]
        exact fun h => hrep (hover.mp h)
      have hvalue : wrap (p.sdiv q) = .ofInt a.irType (p.toInt.tdiv q.toInt) := by
        rw [hwrap, BitVec.toInt_sdiv_of_ne_or_ne]
        by_contra hboth
        rw [not_or, not_not, not_not] at hboth
        exact hrep hboth
      refine .inl ⟨.ofInt a.irType (p.toInt.tdiv q.toInt), σ.div0, ?_, ?_, irType_ofInt hint _⟩
      · simp [intBinary, hy, hno]
      · rw [hbin, estate_bind_of_ok (divOp_quotient hzero hrep), hvalue, ← hdiv]
        rfl

/-- Arithmetic on two REAL values. -/
theorem agrees_real {op : BinaryOp} (hop : op = .add ∨ op = .sub ∨ op = .mul ∨ op = .div)
    (hcode : binaryOpcode op = some code) (x y : F32) :
    Agrees code .real (.real x) (.real y) (realBinary op x y) := by
  rcases hop with rfl | rfl | rfl | rfl
  · cases hcode
    exact .of_pure (fun _ _ => rfl) rfl
  · cases hcode
    exact .of_pure (fun _ _ => rfl) rfl
  · cases hcode
    exact .of_pure (fun _ _ => rfl) rfl
  · cases hcode
    by_cases hy : y.isZero = true
    · intro σ s pc hdiv
      have hbin : binop .div (.real x) (.real y) pc s =
          (bumpDiv0 >>= fun _ => pure (.real F32.zero) : VmM VmValue) s := by
        simp [binop, arithOp, hy]
      by_cases hcount : σ.div0 < u32Max
      · refine .inl ⟨.real F32.zero, σ.div0 + 1, ?_, ?_, rfl⟩
        · simp [realBinary, hy, divideByZero, hcount, VmValue.zero]
        · have hbump : bumpDiv0 s = .ok () { s with div0Count := s.div0Count + 1 } := by
            rw [bumpDiv0, if_neg (by omega)]
          rw [hbin, estate_bind_of_ok hbump, hdiv]
          rfl
      · refine .inr ⟨?_, .panic "attempt to add with overflow", s, ?_⟩
        · simp [realBinary, hy, divideByZero, hcount]
        · have hbump : bumpDiv0 s = .error (.panic "attempt to add with overflow") s := by
            rw [bumpDiv0, if_pos (by omega)]
          rw [hbin, estate_bind_of_error hbump]
    · have hm : realBinary .div x y = pure (.real (x.div y)) := by simp [realBinary, hy]
      rw [hm]
      refine .of_pure (fun pc s => ?_) rfl
      simp [binop, arithOp, hy]

/-- Arithmetic on two integers of one type. -/
theorem agrees_integer {op : BinaryOp} (hop : op = .add ∨ op = .sub ∨ op = .mul ∨ op = .div)
    (hcode : binaryOpcode op = some code) (hint : a.isInteger = true) (hty : a.irType = b.irType)
    {x y : ℤ} (ha : a.asI64 = some x) (hb : b.asI64 = some y) :
    Agrees code a.irType a b (intBinary op a.irType a b x y) := by
  rcases hop with rfl | rfl | rfl | rfl
  · cases hcode
    exact .of_pure (fun pc s => RingOp.add.arithOp hint hty ha hb pc s) (irType_ofInt hint _)
  · cases hcode
    exact .of_pure (fun pc s => RingOp.sub.arithOp hint hty ha hb pc s) (irType_ofInt hint _)
  · cases hcode
    exact .of_pure (fun pc s => RingOp.mul.arithOp hint hty ha hb pc s) (irType_ofInt hint _)
  · cases hcode
    exact agrees_intDiv hint hty ha hb

/-! ## All operators -/

/-- The arithmetic operators. -/
theorem agrees_arith {op : BinaryOp} (hop : op = .add ∨ op = .sub ∨ op = .mul ∨ op = .div)
    (hcode : binaryOpcode op = some code) (hty : a.irType = b.irType) (hbool : a.irType ≠ .bool) :
    Agrees code a.irType a b (binaryValue op a b) := by
  cases a with
  | bool _ => exact absurd rfl hbool
  | real x =>
      cases b <;> cases hty
      have hm : ∀ y, binaryValue op (.real x) (.real y) = realBinary op x y := by
        rcases hop with rfl | rfl | rfl | rfl <;> exact fun _ => rfl
      rw [hm]
      exact agrees_real hop hcode x _
  | int x =>
      cases b <;> cases hty
      rename_i y
      have hm : binaryValue op (.int x) (.int y) =
          intBinary op .int (.int x) (.int y) x.toInt y.toInt := by
        rcases hop with rfl | rfl | rfl | rfl <;> rfl
      rw [hm]
      exact agrees_integer (a := .int x) (b := .int y) hop hcode rfl rfl rfl rfl
  | dint x =>
      cases b <;> cases hty
      rename_i y
      have hm : binaryValue op (.dint x) (.dint y) =
          intBinary op .dint (.dint x) (.dint y) x.toInt y.toInt := by
        rcases hop with rfl | rfl | rfl | rfl <;> rfl
      rw [hm]
      exact agrees_integer (a := .dint x) (b := .dint y) hop hcode rfl rfl rfl rfl
  | time x =>
      cases b <;> cases hty
      rename_i y
      have hm : binaryValue op (.time x) (.time y) =
          intBinary op .time (.time x) (.time y) x.toInt y.toInt := by
        rcases hop with rfl | rfl | rfl | rfl <;> rfl
      rw [hm]
      exact agrees_integer (a := .time x) (b := .time y) hop hcode rfl rfl rfl rfl
  | lint x =>
      cases b <;> cases hty
      rename_i y
      have hm : binaryValue op (.lint x) (.lint y) =
          intBinary op .lint (.lint x) (.lint y) x.toInt y.toInt := by
        rcases hop with rfl | rfl | rfl | rfl <;> rfl
      rw [hm]
      exact agrees_integer (a := .lint x) (b := .lint y) hop hcode rfl rfl rfl rfl

/-- Exclusive or. -/
theorem agrees_xor (hty : a.irType = b.irType)
    (ha : a.irType = .bool ∨ a.irType = .int ∨ a.irType = .dint) :
    Agrees .xor a.irType a b (xorValues a b) := by
  cases a with
  | bool x | int x | dint x =>
      cases b <;> cases hty
      exact .of_pure (fun _ _ => rfl) rfl
  | real x | time x | lint x => simp [VmValue.irType] at ha

/-- **Every strict binary operator** on operands of one type. -/
theorem agrees_binary {op : BinaryOp} (hcode : binaryOpcode op = some code) (ha : a.irType = t)
    (hb : b.irType = t) (hu : binaryType op t = some u) :
    Agrees code u a b (binaryValue op a b) := by
  subst ha
  have hty : a.irType = b.irType := hb.symm
  cases op with
  | add | sub | mul | div =>
      simp only [binaryType] at hu
      split_ifs at hu with hbool
      cases hu
      exact agrees_arith (by simp) hcode hty hbool
  | xor =>
      cases hcode
      simp only [binaryType] at hu
      split_ifs at hu with hbits
      cases hu
      exact agrees_xor hty hbits
  | eq =>
      cases hcode
      cases hu
      refine .of_pure (fun pc s => ?_) rfl
      show (pure (.bool (valuesEq a b)) : VmM VmValue) s = _
      rw [valuesEq_eq hty]
      rfl
  | ne =>
      cases hcode
      cases hu
      refine .of_pure (fun pc s => ?_) rfl
      show (pure (.bool (!valuesEq a b)) : VmM VmValue) s = _
      rw [valuesEq_eq hty, ← decide_not]
      rfl
  | lt | le | gt | ge =>
      cases hcode
      cases hu
      exact agrees_order hty (fun _ _ => rfl) (fun _ _ => rfl) (fun _ _ => rfl)
  | mod | and | or => cases hcode

/-- The opcode of a unary operator. Source: `bind.rs`, the `Unary` arm of `Codegen::emit_expr`. -/
def unaryOpcode : UnaryOp → Opcode
  | .not => .not
  | .neg => .neg

/-- **Every unary operator** on an operand that it has a type for. -/
theorem agrees_unary {op : UnaryOp} (hu : unaryType op a.irType = some u) :
    ∃ r, unaryValue op a = pure r ∧ (∀ pc, unaryOp (unaryOpcode op) a pc = .ok r) ∧
      r.irType = u := by
  cases op with
  | not =>
      cases a <;> cases hu <;> exact ⟨_, rfl, fun _ => rfl, rfl⟩
  | neg =>
      cases a with
      | bool x => cases hu
      | real x =>
          cases hu
          exact ⟨_, rfl, fun _ => rfl, rfl⟩
      | int x | dint x | time x | lint x =>
          cases hu
          refine ⟨_, rfl, fun pc => ?_, rfl⟩
          simp [unaryOp, unaryOpcode, VmValue.ofInt, BitVec.ofInt_neg]

end SoftPlc.Compiler
