import SoftPlc.Ir.Effect
import SoftPlc.Vm.Arith

/-!
# What one instruction of the interpreter can do

The two inversion rules of `execInstr`. `execInstr_ok` says everything that a successful
instruction can do (`Executes`): to the operand stack, to each memory, to the frames and to the
control. `execInstr_error` says why an instruction can fail (`FaultCause`). Every invariant of runs
is derived from these two; no later proof unfolds `execInstr` to find out what it does.
-/

namespace SoftPlc.Vm

open SoftPlc.Ir SoftPlc.Fb SoftPlc.Lib

variable {s s' : VmState} {pc : ℕ} {f : VmFault}

/-! ## Stack actions -/

/-- When a push succeeds, and with what. -/
theorem push_ok {v : VmValue} {u : Unit} :
    push v pc s = .ok u s' ↔ s.stack.length < maxStack ∧ s' = s.withStack (v :: s.stack) := by
  unfold push
  split_ifs with h
  · simp [h]
  · simp [Nat.lt_of_not_ge h, eq_comm]

/-- When a push fails, and how. -/
theorem push_error {v : VmValue} :
    push v pc s = .error f s' ↔
      maxStack ≤ s.stack.length ∧ f = .err (.stackOverflow pc) ∧ s' = s := by
  unfold push
  split_ifs with h
  · simp [h, eq_comm]
  · simp [h]

/-- When a pop succeeds, and with what. -/
theorem pop_ok {v : VmValue} :
    pop pc s = .ok v s' ↔ ∃ rest, s.stack = v :: rest ∧ s' = s.withStack rest := by
  unfold pop
  rcases hs : s.stack with _ | ⟨w, rest⟩
  · simp
  · simp only [EStateM.Result.ok.injEq, List.cons.injEq]
    constructor
    · rintro ⟨rfl, rfl⟩
      exact ⟨rest, ⟨rfl, rfl⟩, rfl⟩
    · rintro ⟨_, ⟨rfl, rfl⟩, rfl⟩
      exact ⟨rfl, rfl⟩

/-- When a pop fails, and how. -/
theorem pop_error :
    pop pc s = .error f s' ↔ s.stack = [] ∧ f = .err (.stackUnderflow pc) ∧ s' = s := by
  unfold pop
  rcases hs : s.stack with _ | ⟨w, rest⟩
  · simp [eq_comm]
  · simp

/-! ## Primitive calls -/

/-- Types of the outputs of a primitive as the interpreter leaves them, the top first. -/
def resultTypes : PrimitiveId → List IrType
  | .ton | .tof | .tp => [.bool, .time]
  | .ctu | .ctd => [.bool, .dint]
  | .rs | .sr | .rTrig | .fTrig => [.bool]
  | .pid => [.real]

/-- As many result types as outputs. -/
@[simp] theorem resultTypes_length (id : PrimitiveId) :
    (resultTypes id).length = id.outputCount := by
  cases id <;> rfl

/-- The outputs `i, i + 1, …` of a primitive as stack values, the first on top. -/
def resultValues (timer : Bool) : ℕ → List StackValue → List VmValue
  | _, [] => []
  | i, v :: later => .fromStackValue v (timer && i == 1) :: resultValues timer (i + 1) later

/-- As many stack values as outputs. -/
@[simp] theorem resultValues_length (timer : Bool) (i : ℕ) (out : List StackValue) :
    (resultValues timer i out).length = out.length := by
  induction out generalizing i with
  | nil => rfl
  | cons v later ih => simp [resultValues, ih]

/-- When the inputs of a primitive can be popped, and what they are. -/
theorem popArgs_ok {n : ℕ} {args : List StackValue} :
    popArgs pc n s = .ok args s' ↔ n ≤ s.stack.length ∧
      args = ((s.stack.take n).map VmValue.toStackValue).reverse ∧
      s' = s.withStack (s.stack.drop n) := by
  induction n generalizing s s' args with
  | zero =>
      constructor
      · intro h
        cases h
        exact ⟨Nat.zero_le _, rfl, rfl⟩
      · rintro ⟨-, rfl, rfl⟩
        rfl
  | succ n ih =>
      simp only [popArgs, estate_bind_ok, pop_ok, ih, estate_pure, EStateM.Result.ok.injEq]
      constructor
      · rintro ⟨v, _, ⟨rest, hs, rfl⟩, before, _, ⟨hn, rfl, rfl⟩, rfl, rfl⟩
        rw [hs]
        exact ⟨Nat.succ_le_succ hn, by simp, rfl⟩
      · rintro ⟨hn, rfl, rfl⟩
        rcases hs : s.stack with _ | ⟨v, rest⟩
        · rw [hs] at hn
          cases hn
        · rw [hs] at hn
          refine ⟨v, s.withStack rest, ⟨rest, rfl, rfl⟩, _, _,
            ⟨Nat.le_of_succ_le_succ hn, rfl, rfl⟩, ?_, rfl⟩
          simp

/-- When the inputs of a primitive cannot be popped. -/
theorem popArgs_error {n : ℕ} (h : popArgs pc n s = .error f s') :
    s.stack.length < n ∧ f = .err (.stackUnderflow pc) := by
  induction n generalizing s with
  | zero => cases h
  | succ n ih =>
      simp only [popArgs, estate_bind_error, pop_error, pop_ok, estate_pure] at h
      rcases h with ⟨hs, rfl, -⟩ | ⟨v, _, ⟨rest, hs, rfl⟩, h | ⟨_, _, -, h⟩⟩
      · simp [hs]
      · obtain ⟨hlt, rfl⟩ := ih h
        rw [hs]
        exact ⟨Nat.succ_lt_succ hlt, rfl⟩
      · cases h

/-- When the outputs of a primitive can be pushed, and what is then on the stack. -/
theorem pushResults_ok {timer : Bool} {i : ℕ} {out : List StackValue} {u : Unit} :
    pushResults timer pc i out s = .ok u s' ↔
      (out = [] ∨ s.stack.length + out.length ≤ maxStack) ∧
        s' = s.withStack (resultValues timer i out ++ s.stack) := by
  induction out generalizing i s' with
  | nil =>
      constructor
      · intro h
        cases h
        exact ⟨.inl rfl, rfl⟩
      · rintro ⟨-, rfl⟩
        rfl
  | cons v later ih =>
      simp only [pushResults, estate_bind_ok, ih, push_ok, resultValues, List.cons_append]
      constructor
      · rintro ⟨_, _, ⟨h₁, rfl⟩, h₂, rfl⟩
        refine ⟨.inr ?_, rfl⟩
        simp only [VmState.withStack_stack, List.length_append, resultValues_length,
          List.length_cons] at h₂ ⊢
        omega
      · rintro ⟨h, rfl⟩
        simp only [List.length_cons, reduceCtorEq, false_or] at h
        refine ⟨⟨⟩, _, ⟨.inr (by omega), rfl⟩, ?_, rfl⟩
        simp only [VmState.withStack_stack, List.length_append, resultValues_length]
        omega

/-- When the outputs of a primitive cannot be pushed. -/
theorem pushResults_error {timer : Bool} {i : ℕ} {out : List StackValue}
    (h : pushResults timer pc i out s = .error f s') :
    out ≠ [] ∧ maxStack < s.stack.length + out.length ∧ f = .err (.stackOverflow pc) := by
  induction out generalizing i s' with
  | nil => cases h
  | cons v later ih =>
      simp only [pushResults, estate_bind_error, push_error, pushResults_ok] at h
      refine ⟨List.cons_ne_nil _ _, ?_⟩
      rw [List.length_cons]
      rcases h with h | ⟨_, _, ⟨-, rfl⟩, hfull, rfl, -⟩
      · obtain ⟨-, hlt, rfl⟩ := ih h
        exact ⟨by omega, rfl⟩
      · simp only [VmState.withStack_stack, List.length_append, resultValues_length] at hfull
        exact ⟨by omega, rfl⟩

/-- The outputs of a primitive, as stack values, have the primitive's result types. -/
theorem callPrimitive_ok {store store' : PrimitiveStore} {id : PrimitiveId} {inst nowMs : ℕ}
    {inputs out : List StackValue}
    (h : callPrimitive store id inst inputs nowMs = .ok (store', out)) :
    (resultValues (isTimer id) 0 out).map VmValue.irType = resultTypes id := by
  have hpool : ∀ {α : Type} {pool pool' : List α} {run : α → Except PrimitiveFault (α × List StackValue)},
      evalIn pool inst run = .ok (pool', out) → ∃ x x', run x = .ok (x', out) := by
    intro α pool pool' run h
    unfold evalIn at h
    split at h
    · cases h
    · rename_i x _
      obtain ⟨⟨x', out'⟩, hrun, h⟩ := except_bind_ok.mp h
      cases h
      exact ⟨x, x', hrun⟩
  unfold callPrimitive at h
  split_ifs at h
  cases id with
  | ton | tof | tp =>
      obtain ⟨⟨pool, out'⟩, hev, h⟩ := except_bind_ok.mp h
      cases h
      obtain ⟨x, x', hrun⟩ := hpool hev
      simp only [runTimer, except_bind_ok] at hrun
      obtain ⟨_, -, _, -, hrun⟩ := hrun
      cases hrun
      rfl
  | ctu | ctd =>
      obtain ⟨⟨pool, out'⟩, hev, h⟩ := except_bind_ok.mp h
      cases h
      obtain ⟨x, x', hrun⟩ := hpool hev
      simp only [runCounter, except_bind_ok] at hrun
      obtain ⟨_, -, _, -, _, -, hrun⟩ := hrun
      cases hrun
      rfl
  | rs | sr =>
      obtain ⟨⟨pool, out'⟩, hev, h⟩ := except_bind_ok.mp h
      cases h
      obtain ⟨x, x', hrun⟩ := hpool hev
      simp only [runLatch, except_bind_ok] at hrun
      obtain ⟨_, -, _, -, hrun⟩ := hrun
      cases hrun
      rfl
  | rTrig | fTrig =>
      obtain ⟨⟨pool, out'⟩, hev, h⟩ := except_bind_ok.mp h
      cases h
      obtain ⟨x, x', hrun⟩ := hpool hev
      simp only [runEdge, except_bind_ok] at hrun
      obtain ⟨_, -, hrun⟩ := hrun
      cases hrun
      rfl
  | pid =>
      obtain ⟨⟨pool, out'⟩, hev, h⟩ := except_bind_ok.mp h
      cases h
      obtain ⟨x, x', hrun⟩ := hpool hev
      simp only [runPid, except_bind_ok] at hrun
      obtain ⟨_, -, _, -, _, -, hrun⟩ := hrun
      split at hrun
      · cases hrun
        rfl
      · cases hrun

/-! ## Success -/

/-- The read of a load from memory. -/
def loadOf (s : VmState) (pc : ℕ) : DecodedInstr → Option (Except VmError VmValue)
  | .simple .ldData payload => some (s.data.load (s.address payload) pc)
  | .simple .ldRetain payload => some (s.retain.load (s.address payload) pc)
  | .simple .ldI payload => some (s.inputs.get payload pc)
  | .simple .ldQ payload => some (s.outputs.get payload pc)
  | _ => none

/-- Runtime types of the results of an instruction that is not a load from memory; `none` where the
operands have no result. -/
def runTypes (stack : List VmValue) : DecodedInstr → List (Option IrType)
  | .simple op payload =>
      let b := stack.head?.map VmValue.irType
      let a := stack[1]?.map VmValue.irType
      match op with
      | .pushIBool | .ldIq => [some .bool]
      | .add | .sub | .mul | .div | .and | .or | .xor | .eq | .ne | .lt | .le | .gt | .ge =>
          [a.bind fun t => b.bind fun u => binType op t u]
      | .neg | .not => [b]
      | .conv => [IrType.fromU8 (UInt8.ofNat payload)]
      | _ => []
  | .withImm32 op _ _ =>
      match op with
      | .pushIReal => [some .real]
      | .pushTime => [some .time]
      | _ => [some .dint]
  | .callFb fbKind fbId _ =>
      if fbKind = 0 then
        (((PrimitiveId.fromU32 fbId).map resultTypes).getD []).map some
      else []

/-- The values that an instruction leaves: what a load reads, else values of the types that the
operands determine. -/
def Results (s : VmState) (pc : ℕ) (i : DecodedInstr) (vals : List VmValue) : Prop :=
  match loadOf s pc i with
  | some r => ∃ v, r = .ok v ∧ vals = [v]
  | none => runTypes s.stack i = vals.map fun v => some v.irType

/-- How control goes on after an instruction, and what happens to the call frames. -/
inductive Transfers (image : VmImage) (pc : ℕ) (i : DecodedInstr) (s s' : VmState) : Control → Prop
  /-- To a static successor. -/
  | next {q : ℕ} (hq : q ∈ i.successors pc) (huser : i.isUserCall = false)
      (hframes : s'.frames = s.frames) (hbase : s'.dataBase = s.dataBase) :
      Transfers image pc i s s' (.goto q)
  /-- Into a user function block. -/
  | call {fbKind fbId base entry : ℕ} (hi : i = .callFb fbKind fbId base) (hkind : fbKind ≠ 0)
      (hentry : image.userFbPc[fbId]?.join = some entry) (hdepth : s.frames.length < maxCallDepth)
      (hs' : s' = { s with frames := ⟨pc + 12, base⟩ :: s.frames, dataBase := base }) :
      Transfers image pc i s s' (.goto entry)
  /-- Out of a user function block. -/
  | ret {payload : ℕ} {frame : Frame} {rest : List Frame} (hi : i = .simple .ret payload)
      (hframes : s.frames = frame :: rest)
      (hs' : s' = { s with frames := rest, dataBase := (rest.head?.map Frame.dataBase).getD 0 }) :
      Transfers image pc i s s' (.goto frame.returnPc)
  /-- Back to the host from a function-block body. -/
  | returned {payload : ℕ} (hi : i = .simple .ret payload) (hframes : s.frames = [])
      (hs' : s' = s) : Transfers image pc i s s' (.done .returned)
  /-- End of a task. -/
  | halted {payload : ℕ} (hi : i = .simple .halt payload) (hs' : s' = s) :
      Transfers image pc i s s' (.done .halted)

/-- What a successful instruction did. -/
structure Executes (image : VmImage) (nowMs pc : ℕ) (i : DecodedInstr) (s : VmState) (ctl : Control)
    (s' : VmState) : Prop where
  /-- The operands were there. -/
  pops_le : i.pops ≤ s.stack.length
  /-- The results replace the operands. -/
  stack : ∃ vals, Results s pc i vals ∧ vals.length = i.pushes ∧
    s'.stack = vals ++ s.stack.drop i.pops
  /-- The data segment changes by a store of the popped value only. -/
  data : s'.data = s.data ∨ ∃ payload v rest, i = .simple .stData payload ∧
    s.stack = v :: rest ∧ s.data.store (s.address payload) v pc = .ok s'.data
  /-- The retain segment changes by a store of the popped value only. -/
  retain : s'.retain = s.retain ∨ ∃ payload v rest, i = .simple .stRetain payload ∧
    s.stack = v :: rest ∧ s.retain.store (s.address payload) v pc = .ok s'.retain
  /-- The inputs do not change. -/
  inputs : s'.inputs = s.inputs
  /-- The outputs change by a write of the popped value only. -/
  outputs : s'.outputs = s.outputs ∨ ∃ payload v rest, i = .simple .stQ payload ∧
    s.stack = v :: rest ∧ s.outputs.set payload v pc = .ok s'.outputs
  /-- The primitive store changes by a primitive call only. -/
  primitives : s'.primitives = s.primitives ∨ ∃ fbId inst id inputs out,
    i = .callFb 0 fbId inst ∧ PrimitiveId.fromU32 fbId = some id ∧
    callPrimitive s.primitives id inst inputs nowMs = .ok (s'.primitives, out)
  /-- Control and frames. -/
  control : Transfers image pc i s s' ctl

/-- A state is reached from itself without a division by zero. -/
theorem OnlyDiv0.refl (s : VmState) : OnlyDiv0 s s := ⟨s.div0Count, rfl⟩

variable {image : VmImage} {nowMs : ℕ} {ctl : Control}

/-- An instruction that changes only the stack and the counter, and goes to a static successor. -/
theorem Executes.ofStack {q : ℕ} {i : DecodedInstr} {rest : List VmValue} {t : VmState}
    (used vals : List VmValue) (hstack : s.stack = used ++ rest) (hpops : used.length = i.pops)
    (htypes : Results s pc i vals) (hpushes : vals.length = i.pushes)
    (ht : OnlyDiv0 s t) (hs' : s' = t.withStack (vals ++ rest)) (hq : q ∈ i.successors pc)
    (huser : i.isUserCall = false) : Executes image nowMs pc i s (.goto q) s' := by
  obtain ⟨n, rfl⟩ := ht
  subst hs'
  refine ⟨by simp [hstack, ← hpops], ⟨vals, htypes, hpushes, ?_⟩, .inl rfl, .inl rfl, rfl, .inl rfl,
    .inl rfl, .next hq huser rfl rfl⟩
  rw [hstack, ← hpops, List.drop_left]
  rfl

/-- What a successful one-word instruction did. -/
theorem execInstr_ok_simple {op : Opcode} {payload : ℕ}
    (h : execInstr image nowMs pc 4 (.simple op payload) s = .ok ctl s') :
    Executes image nowMs pc (.simple op payload) s ctl s' := by
  cases op with
  | nop =>
      cases h
      exact .ofStack [] [] rfl rfl rfl rfl (.refl s) rfl (List.mem_singleton_self _) rfl
  | halt =>
      cases h
      exact ⟨Nat.zero_le _, ⟨[], rfl, rfl, rfl⟩, .inl rfl, .inl rfl, rfl, .inl rfl, .inl rfl,
        .halted rfl rfl⟩
  | ret =>
      simp only [execInstr, returnFromFb] at h
      split at h
      · rename_i hframes
        cases h
        exact ⟨Nat.zero_le _, ⟨[], rfl, rfl, rfl⟩, .inl rfl, .inl rfl, rfl, .inl rfl, .inl rfl,
          .returned rfl hframes rfl⟩
      · rename_i frame rest hframes
        cases h
        exact ⟨Nat.zero_le _, ⟨[], rfl, rfl, rfl⟩, .inl rfl, .inl rfl, rfl, .inl rfl, .inl rfl,
          .ret rfl hframes rfl⟩
  | pushIBool =>
      simp only [execInstr, estate_bind_ok, push_ok, estate_pure] at h
      obtain ⟨_, _, ⟨-, rfl⟩, hctl⟩ := h
      cases hctl
      exact .ofStack [] [.bool (payload != 0)] rfl rfl rfl rfl (.refl s)
        rfl (List.mem_singleton_self _) rfl
  | ldData | ldRetain | ldI | ldQ =>
      simp only [execInstr, estate_bind_ok, estate_get, liftErr_ok, push_ok, estate_pure] at h
      obtain ⟨_, _, hget, v, _, ⟨hv, rfl⟩, _, _, ⟨-, rfl⟩, hctl⟩ := h
      cases hget
      cases hctl
      exact .ofStack [] [v] rfl rfl ⟨v, hv, rfl⟩ rfl (.refl s) rfl
        (List.mem_singleton_self _) rfl
  | ldIq =>
      simp only [execInstr, estate_bind_ok, estate_get, liftErr_ok, push_ok, estate_pure] at h
      obtain ⟨_, _, hget, g, _, ⟨-, rfl⟩, _, _, ⟨-, rfl⟩, hctl⟩ := h
      cases hget
      cases hctl
      exact .ofStack [] [.bool g] rfl rfl rfl rfl (.refl s) rfl
        (List.mem_singleton_self _) rfl
  | stData =>
      simp only [execInstr, estate_bind_ok, pop_ok, estate_get, liftErr_ok, estate_set,
        estate_pure] at h
      obtain ⟨v, _, ⟨rest, hstack, rfl⟩, _, _, hget, data, _, ⟨hstore, rfl⟩, _, _, hset, hctl⟩ := h
      cases hget
      cases hset
      cases hctl
      exact ⟨by simp [hstack, DecodedInstr.pops, Opcode.pops], ⟨[], rfl, rfl, by rw [hstack]; rfl⟩,
        .inr ⟨payload, v, rest, rfl, hstack, hstore⟩, .inl rfl, rfl, .inl rfl, .inl rfl,
        .next (List.mem_singleton_self _) rfl rfl rfl⟩
  | stRetain =>
      simp only [execInstr, estate_bind_ok, pop_ok, estate_get, liftErr_ok, estate_set,
        estate_pure] at h
      obtain ⟨v, _, ⟨rest, hstack, rfl⟩, _, _, hget, data, _, ⟨hstore, rfl⟩, _, _, hset, hctl⟩ := h
      cases hget
      cases hset
      cases hctl
      exact ⟨by simp [hstack, DecodedInstr.pops, Opcode.pops], ⟨[], rfl, rfl, by rw [hstack]; rfl⟩,
        .inl rfl, .inr ⟨payload, v, rest, rfl, hstack, hstore⟩, rfl, .inl rfl, .inl rfl,
        .next (List.mem_singleton_self _) rfl rfl rfl⟩
  | stQ =>
      simp only [execInstr, estate_bind_ok, pop_ok, estate_get, liftErr_ok, estate_set,
        estate_pure] at h
      obtain ⟨v, _, ⟨rest, hstack, rfl⟩, _, _, hget, data, _, ⟨hstore, rfl⟩, _, _, hset, hctl⟩ := h
      cases hget
      cases hset
      cases hctl
      exact ⟨by simp [hstack, DecodedInstr.pops, Opcode.pops], ⟨[], rfl, rfl, by rw [hstack]; rfl⟩,
        .inl rfl, .inl rfl, rfl, .inr ⟨payload, v, rest, rfl, hstack, hstore⟩, .inl rfl,
        .next (List.mem_singleton_self _) rfl rfl rfl⟩
  | add | sub | mul | div | and | or | xor | eq | ne | lt | le | gt | ge =>
      simp only [execInstr, estate_bind_ok, pop_ok, push_ok, estate_pure] at h
      obtain ⟨b, _, ⟨_, hb, rfl⟩, a, _, ⟨rest, ha, rfl⟩, r, t, hr, _, _, ⟨-, rfl⟩, hctl⟩ := h
      cases hctl
      obtain ⟨htype, n, rfl⟩ := binop_ok hr
      simp only [VmState.withStack_stack] at ha
      subst ha
      refine .ofStack [b, a] [r] hb rfl ?_ rfl ⟨n, rfl⟩ rfl (List.mem_singleton_self _) rfl
      simp only [Results, loadOf, runTypes, hb]
      exact congrArg (fun t => [t]) htype
  | neg | not =>
      simp only [execInstr, estate_bind_ok, pop_ok, liftErr_ok, push_ok, estate_pure] at h
      obtain ⟨a, _, ⟨rest, ha, rfl⟩, r, _, ⟨hr, rfl⟩, _, _, ⟨-, rfl⟩, hctl⟩ := h
      cases hctl
      refine .ofStack [a] [r] ha rfl ?_ rfl (.refl s) rfl (List.mem_singleton_self _) rfl
      simp [Results, loadOf, runTypes, ha, unaryOp_ok hr]
  | jmp =>
      cases h
      exact .ofStack [] [] rfl rfl rfl rfl (.refl s) rfl (List.mem_singleton_self _) rfl
  | jmpIf | jmpIfNot =>
      simp only [execInstr, estate_bind_ok, pop_ok, estate_pure] at h
      obtain ⟨c, _, ⟨rest, hc, rfl⟩, hctl⟩ := h
      cases hctl
      refine .ofStack [c] [] hc rfl rfl rfl (.refl s) rfl ?_ rfl
      split_ifs <;> simp [DecodedInstr.successors]
  | conv =>
      simp only [execInstr, estate_bind_ok, pop_ok] at h
      obtain ⟨a, _, ⟨rest, ha, rfl⟩, h⟩ := h
      rcases hty : IrType.fromU8 (UInt8.ofNat payload) with _ | ty
      · simp only [hty] at h
        cases h
      · simp only [hty, estate_bind_ok, push_ok, estate_pure] at h
        obtain ⟨_, _, ⟨-, rfl⟩, hctl⟩ := h
        cases hctl
        refine .ofStack [a] [a.convert ty] ha rfl ?_ rfl (.refl s) rfl
          (List.mem_singleton_self _) rfl
        simp [Results, loadOf, runTypes, hty]
  | pushIDint | pushIReal | pushTime | callFb => cases h

/-- What a successful two-word instruction did. -/
theorem execInstr_ok_imm32 {op : Opcode} {payload imm : ℕ}
    (h : execInstr image nowMs pc 8 (.withImm32 op payload imm) s = .ok ctl s') :
    Executes image nowMs pc (.withImm32 op payload imm) s ctl s' := by
  cases op with
  | pushIDint | pushIReal | pushTime =>
      simp only [execInstr, estate_bind_ok, push_ok, estate_pure] at h
      obtain ⟨_, _, ⟨-, rfl⟩, hctl⟩ := h
      cases hctl
      refine .ofStack [] [_] rfl rfl ?_ rfl (.refl s) rfl (List.mem_singleton_self _) rfl
      rfl
  | _ => cases h

/-- What a successful primitive call did. -/
theorem callPrim_ok {fbId inst : ℕ} {u : Unit} (h : callPrim fbId inst nowMs pc s = .ok u s') :
    ∃ id inputs out store, PrimitiveId.fromU32 fbId = some id ∧ id.inputCount ≤ s.stack.length ∧
      inputs = ((s.stack.take id.inputCount).map VmValue.toStackValue).reverse ∧
      callPrimitive s.primitives id inst inputs nowMs = .ok (store, out) ∧
      s' = { s with
        primitives := store
        stack := resultValues (isTimer id) 0 out ++ s.stack.drop id.inputCount } := by
  unfold callPrim at h
  rcases hid : PrimitiveId.fromU32 fbId with _ | id
  · simp only [hid] at h
    cases h
  · simp only [hid, estate_bind_ok, popArgs_ok, pushResults_ok] at h
    obtain ⟨inputs, _, ⟨hlen, hin, rfl⟩, out, _, hcall, -, rfl⟩ := h
    unfold invokePrimitive at hcall
    split at hcall
    · rename_i store out' hprim
      cases hcall
      exact ⟨id, inputs, out, store, rfl, hlen, hin, hprim, rfl⟩
    · cases hcall
    · cases hcall

/-- What a successful call did. -/
theorem execInstr_ok_call {fbKind fbId base : ℕ}
    (h : execInstr image nowMs pc 12 (.callFb fbKind fbId base) s = .ok ctl s') :
    Executes image nowMs pc (.callFb fbKind fbId base) s ctl s' := by
  simp only [execInstr] at h
  by_cases hkind : fbKind = 0
  · subst hkind
    simp only [if_true, estate_bind_ok, estate_pure] at h
    obtain ⟨_, _, hcall, hctl⟩ := h
    cases hctl
    obtain ⟨id, inputs, out, store, hid, hlen, -, hprim, rfl⟩ := callPrim_ok hcall
    have htypes := callPrimitive_ok hprim
    have hpops : (DecodedInstr.callFb 0 fbId base).pops = id.inputCount := by
      simp [DecodedInstr.pops, hid]
    refine ⟨hpops ▸ hlen, ⟨resultValues (isTimer id) 0 out, ?_, ?_, by rw [hpops]⟩, .inl rfl,
      .inl rfl, rfl, .inl rfl, .inr ⟨fbId, base, id, inputs, out, rfl, hid, hprim⟩,
      .next (List.mem_singleton_self _) rfl rfl rfl⟩
    · simp [Results, loadOf, runTypes, hid, ← htypes]
    · rw [← List.length_map VmValue.irType, htypes, resultTypes_length]
      simp [DecodedInstr.pushes, hid]
  · rw [if_neg hkind] at h
    unfold callUserFb at h
    rcases hentry : image.userFbPc[fbId]?.join with _ | entry
    · simp only [hentry] at h
      cases h
    · simp only [hentry] at h
      split_ifs at h with hdepth
      cases h
      have hnone : (DecodedInstr.callFb fbKind fbId base).pops = 0 := by
        simp [DecodedInstr.pops, hkind]
      refine ⟨by rw [hnone]; exact Nat.zero_le _, ⟨[], ?_, ?_, by rw [hnone]; rfl⟩, .inl rfl,
        .inl rfl, rfl, .inl rfl, .inl rfl, .call rfl hkind hentry (Nat.lt_of_not_ge hdepth) rfl⟩
      · simp [Results, loadOf, runTypes, hkind]
      · simp [DecodedInstr.pushes, hkind]

/-- **What a successful instruction did.** -/
theorem execInstr_ok {i : DecodedInstr} (h : execInstr image nowMs pc i.size i s = .ok ctl s') :
    Executes image nowMs pc i s ctl s' := by
  cases i with
  | simple op payload => exact execInstr_ok_simple h
  | withImm32 op payload imm => exact execInstr_ok_imm32 h
  | callFb fbKind fbId base => exact execInstr_ok_call h

/-! ## Failure -/

/-- The memory access of an instruction leaves its segment or image. -/
def OutOfRange (s : VmState) : DecodedInstr → Prop
  | .simple .ldData p => s.data.len < s.address p + (s.data.tagAt (s.address p)).byteWidth
  | .simple .stData p =>
      ∃ v rest, s.stack = v :: rest ∧ s.data.len < s.address p + v.byteWidth
  | .simple .ldRetain p => s.retain.len < s.address p + (s.retain.tagAt (s.address p)).byteWidth
  | .simple .stRetain p =>
      ∃ v rest, s.stack = v :: rest ∧ s.retain.len < s.address p + v.byteWidth
  | .simple .ldI p | .simple .ldIq p => s.inputs.len ≤ p
  | .simple .ldQ p | .simple .stQ p => s.outputs.len ≤ p
  | _ => False

/-- Why an instruction can fail with a given fault. -/
def FaultCause (image : VmImage) (i : DecodedInstr) (s : VmState) : VmFault → Prop
  | .err (.stackUnderflow _) => s.stack.length < i.pops
  | .err (.stackOverflow _) => i.pushes ≠ 0 ∧ maxStack < s.stack.length - i.pops + i.pushes
  | .err (.decode _ _) => ¬i.WellFormed
  | .err (.bounds _ _) => OutOfRange s i
  | .err (.type _ _) => True
  | .err (.primitive _ _) => ∃ fbId inst, i = .callFb 0 fbId inst
  | .err (.unknownUserFb fbId) => ∃ fbKind base, i = .callFb fbKind fbId base ∧ fbKind ≠ 0 ∧
      image.userFbPc[fbId]?.join = none
  | .err (.callDepth _) => i.isUserCall = true ∧ maxCallDepth ≤ s.frames.length
  | .err _ => False
  | .panic _ => (∃ payload, i = .simple .div payload) ∨ ∃ fbId inst, i = .callFb 0 fbId inst

/-- A push that fails after the operands are gone. -/
theorem FaultCause.of_push {i : DecodedInstr} {t : VmState} {v : VmValue} (hpushes : i.pushes = 1)
    (hlen : t.stack.length = s.stack.length - i.pops) (h : push v pc t = .error f s') :
    FaultCause image i s f := by
  obtain ⟨hfull, rfl, -⟩ := push_error.mp h
  refine ⟨by omega, ?_⟩
  rw [hpushes, ← hlen]
  omega

/-- A slot read that fails. -/
theorem slot_get_error {img : SlotImage} {idx : ℕ} {e : VmError} (h : img.get idx pc = .error e) :
    img.len ≤ idx ∧ ∃ detail, e = .bounds pc detail := by
  unfold SlotImage.get at h
  split at h
  · cases h
  · rename_i hnone
    cases h
    exact ⟨List.getElem?_eq_none_iff.mp hnone, _, rfl⟩

/-- A quality read that fails. -/
theorem slot_quality_error {img : SlotImage} {idx : ℕ} {e : VmError}
    (h : img.qualityAt idx pc = .error e) : img.len ≤ idx ∧ ∃ detail, e = .bounds pc detail := by
  unfold SlotImage.qualityAt at h
  split at h
  · cases h
  · rename_i hnone
    cases h
    refine ⟨?_, _, rfl⟩
    rw [SlotImage.len, ← img.quality_length]
    exact List.getElem?_eq_none_iff.mp hnone

/-- A slot write that fails. -/
theorem slot_set_error {img : SlotImage} {idx : ℕ} {v : VmValue} {e : VmError}
    (h : img.set idx v pc = .error e) : img.len ≤ idx ∧ ∃ detail, e = .bounds pc detail := by
  unfold SlotImage.set at h
  split_ifs at h with hlt
  cases h
  exact ⟨Nat.le_of_not_lt hlt, _, rfl⟩

/-- Why a one-word instruction can fail. -/
theorem execInstr_error_simple {op : Opcode} {payload : ℕ}
    (h : execInstr image nowMs pc 4 (.simple op payload) s = .error f s') :
    FaultCause image (.simple op payload) s f := by
  cases op with
  | nop | halt | jmp => cases h
  | ret =>
      simp only [execInstr, returnFromFb] at h
      split at h <;> cases h
  | pushIBool =>
      simp only [execInstr, estate_bind_error, estate_pure, reduceCtorEq, and_false, exists_false,
        or_false] at h
      exact .of_push rfl rfl h
  | ldData | ldRetain =>
      simp only [execInstr, estate_bind_error, estate_get, liftErr_error, liftErr_ok, estate_pure,
        reduceCtorEq, and_false, exists_false, or_false, false_or, EStateM.Result.ok.injEq] at h
      obtain ⟨_, _, ⟨rfl, rfl⟩, ⟨e, he, rfl, -⟩ | ⟨v, _, ⟨-, rfl⟩, h⟩⟩ := h
      · obtain ⟨hlt, detail, rfl⟩ := ByteSegment.load_error he
        exact hlt
      · exact .of_push rfl rfl h
  | ldI | ldQ | ldIq =>
      simp only [execInstr, estate_bind_error, estate_get, liftErr_error, liftErr_ok, estate_pure,
        reduceCtorEq, and_false, exists_false, or_false, false_or, EStateM.Result.ok.injEq] at h
      obtain ⟨_, _, ⟨rfl, rfl⟩, ⟨e, he, rfl, -⟩ | ⟨v, _, ⟨-, rfl⟩, h⟩⟩ := h
      · obtain ⟨hle, detail, rfl⟩ : _ ∧ ∃ detail, e = .bounds pc detail := by
          first | exact slot_get_error he | exact slot_quality_error he
        exact hle
      · exact .of_push rfl rfl h
  | stData | stRetain =>
      simp only [execInstr, estate_bind_error, pop_error, pop_ok, estate_get, liftErr_error,
        liftErr_ok, estate_set, estate_pure, reduceCtorEq, and_false, exists_false, or_false,
        false_or, EStateM.Result.ok.injEq] at h
      obtain ⟨hs, rfl, -⟩ | ⟨v, _, ⟨rest, hs, rfl⟩, _, _, ⟨rfl, rfl⟩, e, he, rfl, -⟩ := h
      · simp [FaultCause, hs, DecodedInstr.pops, Opcode.pops]
      · obtain ⟨hlt, detail, rfl⟩ := ByteSegment.store_error he
        exact ⟨v, rest, hs, hlt⟩
  | stQ =>
      simp only [execInstr, estate_bind_error, pop_error, pop_ok, estate_get, liftErr_error,
        liftErr_ok, estate_set, estate_pure, reduceCtorEq, and_false, exists_false, or_false,
        false_or, EStateM.Result.ok.injEq] at h
      obtain ⟨hs, rfl, -⟩ | ⟨v, _, ⟨rest, hs, rfl⟩, _, _, ⟨rfl, rfl⟩, e, he, rfl, -⟩ := h
      · simp [FaultCause, hs, DecodedInstr.pops, Opcode.pops]
      · obtain ⟨hle, detail, rfl⟩ := slot_set_error he
        exact hle
  | add | sub | mul | div | and | or | xor | eq | ne | lt | le | gt | ge =>
      simp only [execInstr, estate_bind_error, pop_error, pop_ok, estate_pure, reduceCtorEq,
        and_false, exists_false, or_false] at h
      obtain ⟨hs, rfl, -⟩ | ⟨b, _, ⟨_, hb, rfl⟩, ⟨hs, rfl, -⟩ | ⟨a, _, ⟨rest, ha, rfl⟩, h | ⟨r, t, hr, h⟩⟩⟩
        := h
      · simp [FaultCause, hs, DecodedInstr.pops, Opcode.pops]
      · simp only [VmState.withStack_stack] at hs
        simp [FaultCause, hb, hs, DecodedInstr.pops, Opcode.pops]
      · obtain ⟨detail, rfl⟩ | ⟨hop, msg, rfl⟩ := binop_error h
        · trivial
        · cases hop
          try exact .inl ⟨payload, rfl⟩
      · obtain ⟨-, n, rfl⟩ := binop_ok hr
        simp only [VmState.withStack_stack] at ha
        subst ha
        exact .of_push rfl (by simp [hb, DecodedInstr.pops, Opcode.pops]) h
  | neg | not =>
      simp only [execInstr, estate_bind_error, pop_error, pop_ok, liftErr_error, liftErr_ok,
        estate_pure, reduceCtorEq, and_false, exists_false, or_false] at h
      obtain ⟨hs, rfl, -⟩ | ⟨a, _, ⟨rest, ha, rfl⟩, ⟨e, he, rfl, -⟩ | ⟨r, _, ⟨-, rfl⟩, h⟩⟩ := h
      · simp [FaultCause, hs, DecodedInstr.pops, Opcode.pops]
      · obtain ⟨detail, rfl⟩ := unaryOp_error he
        trivial
      · exact .of_push rfl (by simp [ha, DecodedInstr.pops, Opcode.pops]) h
  | jmpIf | jmpIfNot =>
      simp only [execInstr, estate_bind_error, pop_error, estate_pure, reduceCtorEq, and_false,
        exists_false, or_false] at h
      obtain ⟨hs, rfl, -⟩ := h
      simp [FaultCause, hs, DecodedInstr.pops, Opcode.pops]
  | conv =>
      simp only [execInstr, estate_bind_error, pop_error, pop_ok] at h
      obtain ⟨hs, rfl, -⟩ | ⟨a, _, ⟨rest, ha, rfl⟩, h⟩ := h
      · simp [FaultCause, hs, DecodedInstr.pops, Opcode.pops]
      · rcases hty : IrType.fromU8 (UInt8.ofNat payload) with _ | ty
        · simp only [hty] at h
          cases h
          trivial
        · simp only [hty, estate_bind_error, estate_pure, reduceCtorEq, and_false, exists_false,
            or_false] at h
          exact .of_push rfl (by simp [ha, DecodedInstr.pops, Opcode.pops]) h
  | pushIDint | pushIReal | pushTime | callFb =>
      cases h
      simp [FaultCause, DecodedInstr.WellFormed, Opcode.hasImm32]

/-- Why a primitive call can fail. -/
theorem callPrim_error {fbId inst : ℕ} (h : callPrim fbId inst nowMs pc s = .error f s') :
    FaultCause image (.callFb 0 fbId inst) s f := by
  unfold callPrim at h
  rcases hid : PrimitiveId.fromU32 fbId with _ | id
  · simp only [hid] at h
    cases h
    exact ⟨fbId, inst, rfl⟩
  have hpops : (DecodedInstr.callFb 0 fbId inst).pops = id.inputCount := by
    simp [DecodedInstr.pops, hid]
  have hpushes : (DecodedInstr.callFb 0 fbId inst).pushes = id.outputCount := by
    simp [DecodedInstr.pushes, hid]
  simp only [hid, estate_bind_error, popArgs_ok] at h
  obtain h | ⟨inputs, _, ⟨hlen, -, rfl⟩, h | ⟨out, t, hcall, h⟩⟩ := h
  · obtain ⟨hlt, rfl⟩ := popArgs_error h
    change s.stack.length < _
    rwa [hpops]
  · unfold invokePrimitive at h
    split at h
    · cases h
    · cases h
      exact ⟨fbId, inst, rfl⟩
    · cases h
      exact .inr ⟨fbId, inst, rfl⟩
  · unfold invokePrimitive at hcall
    split at hcall
    · rename_i hprim
      cases hcall
      obtain ⟨hne, hlt, rfl⟩ := pushResults_error h
      have hout : out.length = id.outputCount := by
        rw [← resultValues_length (isTimer id) 0 out, ← List.length_map VmValue.irType,
          callPrimitive_ok hprim, resultTypes_length]
      simp only [VmState.withStack_stack, List.length_drop] at hlt
      refine ⟨?_, by rw [hpops, hpushes]; omega⟩
      rw [hpushes, ← hout]
      exact fun h => hne (List.eq_nil_of_length_eq_zero h)
    · cases hcall
    · cases hcall

/-- **Why an instruction can fail.** -/
theorem execInstr_error {i : DecodedInstr}
    (h : execInstr image nowMs pc i.size i s = .error f s') : FaultCause image i s f := by
  cases i with
  | simple op payload => exact execInstr_error_simple h
  | withImm32 op payload imm =>
      cases op with
      | pushIDint | pushIReal | pushTime =>
          simp only [execInstr, estate_bind_error, estate_pure, reduceCtorEq, and_false,
            exists_false, or_false] at h
          exact .of_push rfl rfl h
      | _ =>
          cases h
          simp [FaultCause, DecodedInstr.WellFormed, Opcode.hasImm32]
  | callFb fbKind fbId base =>
      simp only [execInstr] at h
      by_cases hkind : fbKind = 0
      · subst hkind
        simp only [if_true, estate_bind_error, estate_pure, reduceCtorEq, and_false, exists_false,
          or_false] at h
        exact callPrim_error h
      · rw [if_neg hkind] at h
        unfold callUserFb at h
        rcases hentry : image.userFbPc[fbId]?.join with _ | entry
        · simp only [hentry] at h
          cases h
          exact ⟨fbKind, base, rfl, hkind, hentry⟩
        · simp only [hentry] at h
          split_ifs at h with hdepth
          cases h
          exact ⟨by simp [DecodedInstr.isUserCall, hkind], hdepth⟩

end SoftPlc.Vm
