import SoftPlc.Ir.Verify
import SoftPlc.Lib.Bind

/-!
# Static effect of an instruction

What an instruction does to the operand stack and to the control flow can be read off its
decoding: how many values it pops and pushes, and which pcs may follow. The verifier and the
interpreter are two independent programs; each is shown to follow the static effect, here for the
verifier (`verifyInstr_effect`), in `Vm/ExecSpec` for the interpreter.

`Reach m p q` is reachability along static successors, a user call counting as an instruction that
falls through.
-/

namespace SoftPlc.Ir

open SoftPlc.Lib

/-! ## Stack effect -/

/-- Operands that a one-word opcode pops. -/
def Opcode.pops : Opcode → ℕ
  | .stData | .stRetain | .stQ | .neg | .not | .jmpIf | .jmpIfNot | .conv => 1
  | .add | .sub | .mul | .div | .and | .or | .xor | .eq | .ne | .lt | .le | .gt | .ge => 2
  | _ => 0

/-- Results that a one-word opcode pushes. -/
def Opcode.pushes : Opcode → ℕ
  | .pushIBool | .ldData | .ldRetain | .ldI | .ldQ | .ldIq | .neg | .not | .conv => 1
  | .add | .sub | .mul | .div | .and | .or | .xor | .eq | .ne | .lt | .le | .gt | .ge => 1
  | _ => 0

/-- Operands that an instruction pops. -/
def DecodedInstr.pops : DecodedInstr → ℕ
  | .simple op _ => op.pops
  | .withImm32 _ _ _ => 0
  | .callFb fbKind fbId _ =>
      if fbKind = 0 then ((PrimitiveId.fromU32 fbId).map PrimitiveId.inputCount).getD 0 else 0

/-- Results that an instruction pushes. -/
def DecodedInstr.pushes : DecodedInstr → ℕ
  | .simple op _ => op.pushes
  | .withImm32 _ _ _ => 1
  | .callFb fbKind fbId _ =>
      if fbKind = 0 then ((PrimitiveId.fromU32 fbId).map PrimitiveId.outputCount).getD 0 else 0

/-- Pcs that may follow an instruction at `pc` within its body. -/
def DecodedInstr.successors (pc : ℕ) : DecodedInstr → List ℕ
  | .simple .halt _ | .simple .ret _ => []
  | .simple .jmp target => [target]
  | .simple .jmpIf target | .simple .jmpIfNot target => [target, pc + 4]
  | i => [pc + i.size]

/-- The instruction calls a user function block. -/
def DecodedInstr.isUserCall : DecodedInstr → Bool
  | .callFb fbKind _ _ => fbKind != 0
  | _ => false

/-! ## Reachability -/

/-- One static step of the control flow. -/
def Succ (m : IrModule) (p q : ℕ) : Prop :=
  ∃ i n, decodeInstruction m.code p = .ok (i, n) ∧ q ∈ i.successors p

/-- Reachability along static successors. -/
def Reach (m : IrModule) : ℕ → ℕ → Prop := Relation.ReflTransGen (Succ m)

/-- A property of the instructions that are reachable from a pc. -/
def AllReach (m : IrModule) (entry : ℕ) (P : ℕ → DecodedInstr → Prop) : Prop :=
  ∀ pc i n, Reach m entry pc → decodeInstruction m.code pc = .ok (i, n) → P pc i

/-- No user function block is called from the code reachable from `entry`. -/
def NoUserCall (m : IrModule) (entry : ℕ) : Prop :=
  AllReach m entry fun _ i => i.isUserCall = false

/-! ## The verifier follows the static effect -/

/-- When a push succeeds, and with what. -/
theorem push_ok {stack stack' : AbsStack} {ty : Option IrType} :
    push stack ty = .ok stack' ↔ stack.length < maxStack ∧ stack' = ty :: stack := by
  unfold push
  split_ifs with h
  · constructor
    · intro h'
      cases h'
    · exact fun h' => absurd h'.1 (Nat.not_lt_of_ge h)
  · rw [Except.ok.injEq, eq_comm]
    exact ⟨fun h' => ⟨Nat.lt_of_not_ge h, h'⟩, fun h' => h'.2⟩

/-- When a pop succeeds, and with what. -/
theorem pop_ok {stack rest : AbsStack} {ty : Option IrType} :
    pop stack = .ok (ty, rest) ↔ stack = ty :: rest := by
  cases stack with
  | nil => simp [pop]
  | cons t r =>
      simp only [pop, Except.ok.injEq, Prod.mk.injEq, List.cons.injEq]

/-- Popping the inputs of a primitive drops them. -/
theorem popInputs_ok {n : ℕ} {stack rest : AbsStack} :
    popInputs n stack = .ok rest ↔ n ≤ stack.length ∧ rest = stack.drop n := by
  induction n generalizing stack with
  | zero => simp [popInputs, eq_comm]
  | succ n ih =>
      cases stack with
      | nil => simp [popInputs, except_bind_ok, pop]
      | cons t stack => simp [popInputs, except_bind_ok, pop, ih]

/-- The abstract outputs `i, …, i + n - 1` of a primitive, the last on top. -/
def outputTypes (i : ℕ) : ℕ → AbsStack
  | 0 => []
  | n + 1 => outputTypes (i + 1) n ++ [if i = 0 then some .bool else some .time]

/-- A primitive has as many abstract outputs as it pushes. -/
@[simp] theorem outputTypes_length (i n : ℕ) : (outputTypes i n).length = n := by
  induction n generalizing i with
  | zero => rfl
  | succ n ih => simp [outputTypes, ih]

/-- Pushing the outputs of a primitive puts them on the stack. -/
theorem pushOutputs_ok {i n : ℕ} {stack stack' : AbsStack} :
    pushOutputs i n stack = .ok stack' ↔
      (n = 0 ∨ stack.length + n ≤ maxStack) ∧ stack' = outputTypes i n ++ stack := by
  induction n generalizing i stack with
  | zero => simp [pushOutputs, outputTypes, eq_comm]
  | succ n ih =>
      simp only [pushOutputs, except_bind_ok, push_ok, ih, outputTypes, List.append_assoc,
        List.singleton_append]
      constructor
      · rintro ⟨a, ⟨h₁, rfl⟩, h₂, rfl⟩
        refine ⟨.inr ?_, rfl⟩
        simp only [List.length_cons] at h₂
        omega
      · rintro ⟨h, rfl⟩
        refine ⟨_, ⟨by omega, rfl⟩, .inr ?_, rfl⟩
        simp only [List.length_cons]
        omega

/-- Abstract types of the results of an instruction, as the verifier computes them from the stack
before it. -/
def DecodedInstr.outTypes (stack : AbsStack) : DecodedInstr → AbsStack
  | .simple op payload =>
      let b := stack.head?.join
      let a := stack[1]?.join
      match op with
      | .pushIBool | .ldIq | .eq | .ne | .lt | .le | .gt | .ge => [some .bool]
      | .ldData | .ldRetain | .ldI | .ldQ => [none]
      | .add | .sub | .mul | .div => [a.or b]
      | .and | .or | .xor => [(a.or b).or (some .bool)]
      | .neg => [b]
      | .not => [b.or (some .bool)]
      | .conv => [IrType.fromU8 (UInt8.ofNat payload)]
      | _ => []
  | .withImm32 op _ _ =>
      match op with
      | .pushIReal => [some .real]
      | .pushTime => [some .time]
      | _ => [some .dint]
  | .callFb fbKind fbId _ =>
      if fbKind = 0 then
        outputTypes 0 (((PrimitiveId.fromU32 fbId).map PrimitiveId.outputCount).getD 0)
      else []

/-- As many result types as results. -/
@[simp] theorem DecodedInstr.outTypes_length (stack : AbsStack) (i : DecodedInstr) :
    (i.outTypes stack).length = i.pushes := by
  cases i with
  | simple op payload => cases op <;> rfl
  | withImm32 op payload imm => cases op <;> rfl
  | callFb fbKind fbId instanceBase =>
      simp only [outTypes, pushes]
      split_ifs <;> simp

/-- The checks of the verifier on a single instruction and the abstract stack before it. -/
def DecodedInstr.Checked (m : IrModule) (isUserFb : Bool) (stack : AbsStack) : DecodedInstr → Prop
  | .simple op payload =>
      match op with
      | .add | .sub | .mul | .div | .and | .or | .xor =>
          ∀ x y, stack[1]?.join = some x → stack.head?.join = some y → x = y
      | .jmpIf | .jmpIfNot => ∀ x, stack.head?.join = some x → x = .bool
      | .halt => isUserFb = false
      | .ldData | .stData => m.dataSize = 0 ∨ payload < m.dataSize
      | .ldRetain | .stRetain => m.retainSize = 0 ∨ payload < m.retainSize
      | .ldI | .ldIq => payload < m.inputSlots
      | .stQ | .ldQ => payload < m.outputSlots
      | .conv => (IrType.fromU8 (UInt8.ofNat payload)).isSome
      | .pushIDint | .pushIReal | .pushTime | .callFb => False
      | _ => True
  | .withImm32 op _ _ => op.hasImm32
  | .callFb fbKind fbId _ => fbKind = 0 → (PrimitiveId.fromU32 fbId).isSome

/-- What the verifier's transfer function says when it succeeds. -/
structure FollowsEffect (m : IrModule) (isUserFb : Bool) (pc : ℕ) (stack : AbsStack)
    (i : DecodedInstr) (flow : Flow) : Prop where
  /-- The operands are there. -/
  pops_le : i.pops ≤ stack.length
  /-- The results replace the operands. -/
  stack_eq : flow.stack = i.outTypes stack ++ stack.drop i.pops
  /-- There was room for the results. -/
  room : i.pushes = 0 ∨ stack.length - i.pops + i.pushes ≤ maxStack
  /-- The successors are the static ones. -/
  succ : flow.nextPcs.map Prod.fst = i.successors pc
  /-- Paths end where there is no successor. -/
  terminal : flow.terminal = true ↔ i.successors pc = []
  /-- The instruction passed its own checks. -/
  checked : i.Checked m isUserFb stack

variable {m : IrModule} {isUserFb : Bool} {name : String} {pc depth : ℕ} {stack : AbsStack}
  {flow : Flow}

/-- When an offset check succeeds. -/
theorem checkOffset_ok {off size : ℕ} {u : Unit} :
    checkOffset off size = .ok u ↔ size = 0 ∨ off < size := by
  unfold checkOffset
  split_ifs with h
  · simp only [false_iff]
    omega
  · simp only [true_iff]
    omega

/-- The result type of an arithmetic opcode is the first known operand type, and two known operand
types are equal. -/
theorem binaryNumeric_ok {a b r : Option IrType} (h : binaryNumeric a b = .ok r) :
    r = a.or b ∧ ∀ x y, a = some x → b = some y → x = y := by
  unfold binaryNumeric at h
  split at h
  · rename_i x y
    split_ifs at h with h₁ h₂
    · cases h
      refine ⟨rfl, ?_⟩
      rintro _ _ ⟨⟩ ⟨⟩
      exact h₁.1
    · cases h
      refine ⟨rfl, ?_⟩
      rintro _ _ ⟨⟩ ⟨⟩
      exact not_not.mp h₂
  · rename_i hne
    cases h
    exact ⟨rfl, fun x y hx hy => absurd hy (hne x y hx)⟩

/-- The result type of a logic opcode is the first known operand type, else BOOL, and two known
operand types are equal. -/
theorem binaryLogic_ok {a b r : Option IrType} (h : binaryLogic a b = .ok r) :
    r = (a.or b).or (some .bool) ∧ ∀ x y, a = some x → b = some y → x = y := by
  unfold binaryLogic at h
  split at h
  · cases h
    refine ⟨rfl, ?_⟩
    rintro _ _ ⟨⟩ ⟨⟩
    rfl
  · split_ifs at h with heq
    cases h
    refine ⟨rfl, ?_⟩
    rintro _ _ ⟨⟩ ⟨⟩
    exact heq.1
  · rename_i hne
    cases h
    exact ⟨rfl, fun x y hx hy => absurd hy (hne x y hx)⟩

/-- An instruction that falls through, given what it pops. -/
theorem FollowsEffect.fallThrough (used : AbsStack) {rest : AbsStack} {i : DecodedInstr}
    (hstack : stack = used ++ rest) (hpops : used.length = i.pops)
    (hroom : i.pushes = 0 ∨ rest.length + i.pushes ≤ maxStack)
    (hsucc : i.successors pc = [pc + i.size]) (hchecked : i.Checked m isUserFb stack) :
    FollowsEffect m isUserFb pc stack i
      ⟨i.outTypes stack ++ rest, [(pc + i.size, depth)], false⟩ where
  pops_le := by simp [hstack, ← hpops]
  stack_eq := by rw [← hpops, hstack, List.drop_left]
  room := by simpa [hstack, ← hpops] using hroom
  succ := by simp [hsucc]
  terminal := by simp [hsucc]
  checked := hchecked

/-- The verifier's transfer function follows the static effect, on one-word instructions. -/
theorem verifyInstr_effect_simple {op : Opcode} {payload : ℕ}
    (h : verifyInstr m isUserFb name pc 4 depth stack (.simple op payload) = .ok flow) :
    FollowsEffect m isUserFb pc stack (.simple op payload) flow := by
  cases op with
  | nop =>
      cases h
      exact .fallThrough [] rfl rfl (.inl rfl) rfl trivial
  | halt =>
      simp only [verifyInstr] at h
      split_ifs at h with hfb
      cases h
      exact ⟨Nat.zero_le _, rfl, .inl rfl, rfl, by simp [DecodedInstr.successors],
        Bool.eq_false_iff.mpr hfb⟩
  | ret =>
      cases h
      exact ⟨Nat.zero_le _, rfl, .inl rfl, rfl, by simp [DecodedInstr.successors], trivial⟩
  | pushIBool =>
      simp only [verifyInstr, except_bind_ok, push_ok, Except.ok.injEq] at h
      obtain ⟨_, ⟨hroom, rfl⟩, rfl⟩ := h
      exact .fallThrough [] rfl rfl (.inr hroom) rfl trivial
  | ldData | ldRetain =>
      simp only [verifyInstr, except_bind_ok, checkOffset_ok, push_ok, Except.ok.injEq] at h
      obtain ⟨_, hoff, _, ⟨hroom, rfl⟩, rfl⟩ := h
      exact .fallThrough [] rfl rfl (.inr hroom) rfl hoff
  | ldI | ldQ | ldIq =>
      simp only [verifyInstr, reduceCtorEq, if_false, if_true] at h
      split_ifs at h with hslot
      simp only [except_bind_ok, push_ok, Except.ok.injEq] at h
      obtain ⟨_, ⟨hroom, rfl⟩, rfl⟩ := h
      exact .fallThrough [] rfl rfl (.inr hroom) rfl (Nat.lt_of_not_ge hslot)
  | stData | stRetain =>
      simp only [verifyInstr, except_bind_ok, checkOffset_ok, Prod.exists, pop_ok,
        Except.ok.injEq] at h
      obtain ⟨_, hoff, v, rest, rfl, rfl⟩ := h
      exact .fallThrough [v] rfl rfl (.inl rfl) rfl hoff
  | stQ =>
      simp only [verifyInstr] at h
      split_ifs at h with hslot
      simp only [except_bind_ok, Prod.exists, pop_ok, Except.ok.injEq] at h
      obtain ⟨v, rest, rfl, rfl⟩ := h
      exact .fallThrough [v] rfl rfl (.inl rfl) rfl (Nat.lt_of_not_ge hslot)
  | add | sub | mul | div =>
      simp only [verifyInstr, except_bind_ok, Prod.exists, pop_ok, push_ok, Except.ok.injEq] at h
      obtain ⟨b, _, rfl, a, rest, rfl, r, hr, _, ⟨hroom, rfl⟩, rfl⟩ := h
      obtain ⟨rfl, hsame⟩ := binaryNumeric_ok hr
      exact .fallThrough [b, a] rfl rfl (.inr hroom) rfl hsame
  | and | or | xor =>
      simp only [verifyInstr, except_bind_ok, Prod.exists, pop_ok, push_ok, Except.ok.injEq] at h
      obtain ⟨b, _, rfl, a, rest, rfl, r, hr, _, ⟨hroom, rfl⟩, rfl⟩ := h
      obtain ⟨rfl, hsame⟩ := binaryLogic_ok hr
      exact .fallThrough [b, a] rfl rfl (.inr hroom) rfl hsame
  | eq | ne | lt | le | gt | ge =>
      simp only [verifyInstr, except_bind_ok, Prod.exists, pop_ok, push_ok, Except.ok.injEq] at h
      obtain ⟨b, _, rfl, a, rest, rfl, _, ⟨hroom, rfl⟩, rfl⟩ := h
      exact .fallThrough [b, a] rfl rfl (.inr hroom) rfl trivial
  | neg | not =>
      simp only [verifyInstr, except_bind_ok, Prod.exists, pop_ok, push_ok, Except.ok.injEq] at h
      obtain ⟨a, rest, rfl, _, ⟨hroom, rfl⟩, rfl⟩ := h
      exact .fallThrough [a] rfl rfl (.inr hroom) rfl trivial
  | jmp =>
      simp only [verifyInstr, except_bind_ok, Except.ok.injEq] at h
      obtain ⟨_, -, rfl⟩ := h
      exact ⟨Nat.zero_le _, rfl, .inl rfl, rfl, by simp [DecodedInstr.successors], trivial⟩
  | jmpIf | jmpIfNot =>
      simp only [verifyInstr, except_bind_ok, Prod.exists, pop_ok] at h
      obtain ⟨c, rest, rfl, h⟩ := h
      split_ifs at h with hcond
      simp only [except_bind_ok, Except.ok.injEq] at h
      obtain ⟨_, -, rfl⟩ := h
      refine ⟨Nat.le_add_left _ _, rfl, .inl rfl, rfl, by simp [DecodedInstr.successors], ?_⟩
      intro x hx
      obtain rfl : c = some x := hx
      simpa using hcond
  | conv =>
      simp only [verifyInstr, except_bind_ok, Prod.exists, pop_ok] at h
      obtain ⟨a, rest, rfl, h⟩ := h
      split at h
      · cases h
      · rename_i ty hty
        simp only [except_bind_ok, push_ok, Except.ok.injEq] at h
        obtain ⟨_, ⟨hroom, rfl⟩, rfl⟩ := h
        rw [← hty]
        exact .fallThrough [a] rfl rfl (.inr hroom) rfl (by simp [DecodedInstr.Checked, hty])
  | pushIDint | pushIReal | pushTime | callFb => cases h

/-- The verifier's transfer function follows the static effect, on two-word instructions. -/
theorem verifyInstr_effect_imm32 {op : Opcode} {payload imm : ℕ}
    (h : verifyInstr m isUserFb name pc 8 depth stack (.withImm32 op payload imm) = .ok flow) :
    FollowsEffect m isUserFb pc stack (.withImm32 op payload imm) flow := by
  cases op with
  | pushIDint | pushIReal | pushTime =>
      simp only [verifyInstr, except_bind_ok, push_ok, Except.ok.injEq] at h
      obtain ⟨_, ⟨hroom, rfl⟩, rfl⟩ := h
      exact .fallThrough [] rfl rfl (.inr hroom) rfl rfl
  | _ => cases h

/-- The verifier's transfer function follows the static effect, on calls. -/
theorem verifyInstr_effect_call {fbKind fbId instanceBase : ℕ}
    (h : verifyInstr m isUserFb name pc 12 depth stack (.callFb fbKind fbId instanceBase) =
      .ok flow) :
    FollowsEffect m isUserFb pc stack (.callFb fbKind fbId instanceBase) flow := by
  simp only [verifyInstr] at h
  split_ifs at h with hkind
  · subst hkind
    rcases hprim : PrimitiveId.fromU32 fbId with _ | prim
    · simp only [hprim] at h
      cases h
    · simp only [hprim, except_bind_ok, popInputs_ok, pushOutputs_ok, Except.ok.injEq] at h
      obtain ⟨_, ⟨hin, rfl⟩, _, ⟨hroom, rfl⟩, rfl⟩ := h
      have hpops : (DecodedInstr.callFb 0 fbId instanceBase).pops = prim.inputCount := by
        simp [DecodedInstr.pops, hprim]
      have hpushes : (DecodedInstr.callFb 0 fbId instanceBase).pushes = prim.outputCount := by
        simp [DecodedInstr.pushes, hprim]
      have hout : outputTypes 0 prim.outputCount =
          (DecodedInstr.callFb 0 fbId instanceBase).outTypes stack := by
        simp [DecodedInstr.outTypes, hprim]
      rw [hout]
      refine .fallThrough (stack.take prim.inputCount) (List.take_append_drop _ _).symm ?_ ?_ rfl ?_
      · rw [hpops]
        exact List.length_take_of_le hin
      · rw [hpushes]
        exact hroom
      · simp [DecodedInstr.Checked, hprim]
  · cases h
    have hpops : (DecodedInstr.callFb fbKind fbId instanceBase).pops = 0 := by
      simp [DecodedInstr.pops, hkind]
    have hpushes : (DecodedInstr.callFb fbKind fbId instanceBase).pushes = 0 := by
      simp [DecodedInstr.pushes, hkind]
    have hout : (DecodedInstr.callFb fbKind fbId instanceBase).outTypes stack = [] := by
      simp [DecodedInstr.outTypes, hkind]
    refine ⟨by simp [hpops], by simp [hout, hpops], .inl hpushes, rfl, ?_, ?_⟩
    · simp [DecodedInstr.successors]
    · exact fun h => absurd h hkind

/-- **The verifier's transfer function follows the static effect.** -/
theorem verifyInstr_effect {size : ℕ} {i : DecodedInstr} (hsize : size = i.size)
    (h : verifyInstr m isUserFb name pc size depth stack i = .ok flow) :
    FollowsEffect m isUserFb pc stack i flow := by
  subst hsize
  cases i with
  | simple op payload => exact verifyInstr_effect_simple h
  | withImm32 op payload imm => exact verifyInstr_effect_imm32 h
  | callFb fbKind fbId instanceBase => exact verifyInstr_effect_call h

end SoftPlc.Ir
