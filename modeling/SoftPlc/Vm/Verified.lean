import SoftPlc.Ir.Certificate
import SoftPlc.Vm.Runs

/-!
# What verification gives at run time

Three properties that an accepted module has, or should have, in every run that calls no user
function block. All three follow the record of the verifier along the run: `OnRecord` says that the
machine is at a recorded pc with a stack as deep as the recorded one, and a step keeps it
(`OnRecord.step`).

* `verified_control_and_depth`: no decode error, no stack underflow, no stack overflow.
* `verified_types_while`: the recorded types are the runtime types as long as the steps avoid the
  places where the verifier and the interpreter compute different types.
* `verified_accesses_while`: no memory access leaves its segment as long as the stores fit and no
  segment of size zero is addressed.
-/

namespace SoftPlc.Vm

open SoftPlc.Ir SoftPlc.Fb SoftPlc.Lib

/-! ## Following the record -/

/-- The machine is at a recorded pc that the entry reaches, outside any function block, with a
stack as deep as the recorded one. -/
structure OnRecord (m : IrModule) (entryPc : ℕ) (seen : Seen) (c : Config) : Prop where
  /-- The entry reaches the pc. -/
  reach : Reach m entryPc c.pc
  /-- No call frame. -/
  frames : c.state.frames = []
  /-- Task-level addressing. -/
  base : c.state.dataBase = 0
  /-- The recorded stack is as deep as the stack. -/
  recorded : ∃ stack, seen.lookup c.pc = some stack ∧ c.state.stack.length = stack.length

section Follow

variable {m : IrModule} {isUserFb : Bool} {entryPc budget nowMs : ℕ} {seen : Seen}

/-- A run starts on record. -/
theorem OnRecord.start (hcert : Certified m isUserFb entryPc seen) (s : VmState) :
    OnRecord m entryPc seen ⟨s.enter, entryPc⟩ :=
  ⟨.refl, rfl, rfl, [], hcert.entry, rfl⟩

/-- What the certificate says about the instruction at a configuration on record. -/
theorem OnRecord.certifiedAt (hcert : Certified m isUserFb entryPc seen) {c : Config}
    (hon : OnRecord m entryPc seen c) :
    ∃ stack i, seen.lookup c.pc = some stack ∧ c.state.stack.length = stack.length ∧
      CertifiedAt m isUserFb c.pc stack i ∧
      ∀ q ∈ i.successors c.pc, Meets seen q (i.outTypes stack ++ stack.drop i.pops) := by
  obtain ⟨stack, hlook, hlen⟩ := hon.recorded
  obtain ⟨i, hi, hsucc⟩ := hcert.step hlook
  exact ⟨stack, i, hlook, hlen, hi, hsucc⟩

/-- A step on record that goes on: it goes to a static successor and touches no frame. -/
theorem OnRecord.step_go (hcert : Certified m isUserFb entryPc seen) {c c' : Config}
    (hcall : ∀ i n, decodeInstruction m.code c.pc = .ok (i, n) → i.isUserCall = false)
    (hon : OnRecord m entryPc seen c)
    (h : stepVm (.ofModule m budget) nowMs c = .go c') :
    ∃ stack i, seen.lookup c.pc = some stack ∧ c.state.stack.length = stack.length ∧
      CertifiedAt m isUserFb c.pc stack i ∧
      Executes (.ofModule m budget) nowMs c.pc i c.state (.goto c'.pc) c'.state ∧
      c'.pc ∈ i.successors c.pc ∧ c'.state.frames = [] ∧ c'.state.dataBase = 0 ∧
      Meets seen c'.pc (i.outTypes stack ++ stack.drop i.pops) := by
  obtain ⟨stack, i, hlook, hlen, hi, hsucc⟩ := hon.certifiedAt hcert
  obtain ⟨j, hdec, -, hexec⟩ := stepVm_go h
  have hdec' : decodeInstruction m.code c.pc = .ok (j, j.size) := hdec
  obtain rfl : i = j := by
    have := hi.decodes.symm.trans hdec'
    cases this
    rfl
  have huser := hcall i i.size hi.decodes
  refine ⟨stack, i, hlook, hlen, hi, hexec, ?_⟩
  generalize hctl : Control.goto c'.pc = ctl at hexec
  cases hexec.control with
  | next hq _ hframes hbase =>
      cases hctl
      exact ⟨hq, hframes.trans hon.frames, hbase.trans hon.base, hsucc _ hq⟩
  | call hcallfb hkind _ _ _ =>
      rw [hcallfb] at huser
      simp [DecodedInstr.isUserCall, hkind] at huser
  | ret _ hframes _ =>
      rw [hon.frames] at hframes
      cases hframes
  | returned _ _ _ => cases hctl
  | halted _ _ => cases hctl

/-- **A step stays on record.** -/
theorem OnRecord.step (hcert : Certified m isUserFb entryPc seen) {c c' : Config}
    (hcall : ∀ i n, decodeInstruction m.code c.pc = .ok (i, n) → i.isUserCall = false)
    (hon : OnRecord m entryPc seen c)
    (h : stepVm (.ofModule m budget) nowMs c = .go c') : OnRecord m entryPc seen c' := by
  obtain ⟨stack, i, -, hlen, hi, hexec, hq, hframes, hbase, recorded, hrec, hcompat⟩ :=
    hon.step_go hcert hcall h
  refine ⟨hon.reach.tail ⟨i, i.size, hi.decodes, hq⟩, hframes, hbase, recorded, hrec, ?_⟩
  obtain ⟨vals, -, hvals, hstack⟩ := hexec.stack
  rw [stacksCompatible_length hcompat, hstack]
  simp only [List.length_append, List.length_drop, DecodedInstr.outTypes_length, hvals, hlen]

/-- A whole run stays on record. -/
theorem OnRecord.passes (hcert : Certified m isUserFb entryPc seen) (hcall : NoUserCall m entryPc)
    {s : VmState} {k : ℕ} {c : Config} (hc : Passes (.ofModule m budget) nowMs entryPc s k c) :
    OnRecord m entryPc seen c :=
  hc.invariant (fun _ _ hon h => hon.step hcert (fun i n => hcall _ i n hon.reach) h)
    (.start hcert s)

/-- On record, a step stops neither by a decode error nor by a stack error. -/
theorem OnRecord.stop (hcert : Certified m isUserFb entryPc seen) {c : Config}
    (hon : OnRecord m entryPc seen c) {r : RunResult}
    (h : stepVm (.ofModule m budget) nowMs c = .stop r) (pc : ℕ) (detail : String) :
    r.1 ≠ .error (.err (.decode pc detail)) ∧ r.1 ≠ .error (.err (.stackUnderflow pc)) ∧
      r.1 ≠ .error (.err (.stackOverflow pc)) := by
  obtain ⟨stack, i, -, hlen, hi, -⟩ := hon.certifiedAt hcert
  obtain ⟨e, _, hdec, -⟩ | ⟨j, hdec, -, hres | ⟨f, hf, hcause, -⟩⟩ := stepVm_stop h
  · have hdec' : decodeInstruction m.code c.pc = .error e := hdec
    rw [hi.decodes] at hdec'
    cases hdec'
  · obtain ⟨res, hres, -⟩ := hres
    simp [hres]
  · have hdec' : decodeInstruction m.code c.pc = .ok (j, j.size) := hdec
    rw [hi.decodes] at hdec'
    cases hdec'
    rw [hf]
    refine ⟨?_, ?_, ?_⟩
    · rintro ⟨⟩
      exact hcause hi.wellFormed
    · rintro ⟨⟩
      have hlt : c.state.stack.length < i.pops := hcause
      have := hi.pops_le
      omega
    · rintro ⟨⟩
      obtain ⟨hne, hlt⟩ : i.pushes ≠ 0 ∧ maxStack < c.state.stack.length - i.pops + i.pushes :=
        hcause
      have := hi.room
      omega

end Follow

/-! ## Control flow and stack depth -/

/-- **Verified modules never lose control or the stack.** In every run of an entry of an accepted
module from which no user function block is called, the stack is as deep at every pc as the
verifier recorded, and the run does not end in a decode error, a stack underflow or a stack
overflow: whatever the memories hold, the time is and the budget allows. -/
theorem verified_control_and_depth {m : IrModule} (hv : verifyModule m = .ok ()) {e : EntryPoint}
    (he : e ∈ m.entries) (hcall : NoUserCall m e.pc) (budget nowMs : ℕ) (s : VmState) :
    (∀ pc detail,
      (runAt (.ofModule m budget) e.pc nowMs s).1 ≠ .error (.err (.decode pc detail)) ∧
      (runAt (.ofModule m budget) e.pc nowMs s).1 ≠ .error (.err (.stackUnderflow pc)) ∧
      (runAt (.ofModule m budget) e.pc nowMs s).1 ≠ .error (.err (.stackOverflow pc))) ∧
    ∃ seen, verifyEntrySeen m e.pc e.isUserFb e.name = .ok seen ∧
      ∀ k c, Passes (.ofModule m budget) nowMs e.pc s k c →
        ∃ stack, seen.lookup c.pc = some stack ∧ c.state.stack.length = stack.length := by
  obtain ⟨seen, hseen, hcert⟩ := verifyModule_certified hv he
  refine ⟨?_, seen, hseen, fun k c hc => (OnRecord.passes hcert hcall hc).recorded⟩
  intro pc detail
  rcases runAt_cases (.ofModule m budget) e.pc nowMs s with hbudget | ⟨k, c, -, hc, hstop⟩
  · rw [hbudget]
    exact ⟨by rintro ⟨⟩, by rintro ⟨⟩, by rintro ⟨⟩⟩
  · exact (OnRecord.passes hcert hcall hc).stop hcert hstop pc detail

/-- `PUSHI_BOOL 0; JMP_IF 0; HALT`. -/
def loopModule : IrModule :=
  taskModule [.simple .pushIBool 0, .simple .jmpIf 0, .simple .halt 0] 0

/-- The stacks that the verifier records for the loop. -/
def loopSeen : Seen := [(8, []), (4, [some .bool]), (0, [])]

/-- Every run of the loop keeps the recorded depths. -/
theorem loop_control_and_depth :
    NoUserCall loopModule 0 ∧
      ∀ k c, Passes (.ofModule loopModule 1000) 7 0 (.cold loopModule 1) k c →
        ∃ stack, loopSeen.lookup c.pc = some stack ∧ c.state.stack.length = stack.length := by
  have hseen : verifyEntrySeen loopModule 0 false "task.main" = .ok loopSeen := rfl
  have hcall : NoUserCall loopModule 0 := (verifyEntrySeen_certified hseen).noUserCall rfl
  refine ⟨hcall, ?_⟩
  obtain ⟨-, seen, hseen', hrun⟩ := verified_control_and_depth (m := loopModule) rfl
    (List.mem_singleton_self _) hcall 1000 7 (.cold loopModule 1)
  cases hseen.symm.trans hseen'
  exact hrun

/-! ## Types -/

/-- A value has an abstract type: any, or the one that is known. -/
def HasType (t : Option IrType) (v : VmValue) : Prop := ∀ u, t = some u → v.irType = u

/-- Values on the stack have the recorded types. -/
abbrev StackTyped (stack : AbsStack) (values : List VmValue) : Prop :=
  List.Forall₂ HasType stack values

/-- The operands do not meet a rule on which the verifier and the interpreter disagree. The verifier
takes an unknown operand of NOT and two unknown operands of AND, OR and XOR to give BOOL, takes an
INT operand to give INT whatever the unknown other operand is, and gives every primitive a BOOL
below `TIME` results. -/
def OperandsAgree (stack : AbsStack) (values : List VmValue) : DecodedInstr → Prop
  | .simple op _ =>
      match op, stack, values with
      | .not, none :: _, v :: _ => v.irType = .bool
      | .and, none :: none :: _, v :: _ | .or, none :: none :: _, v :: _
      | .xor, none :: none :: _, v :: _ => v.irType = .bool
      | .add, t :: u :: _, b :: a :: _ | .sub, t :: u :: _, b :: a :: _
      | .mul, t :: u :: _, b :: a :: _ | .div, t :: u :: _, b :: a :: _ =>
          (t = none → u = some .int → b.irType ≠ .dint) ∧
            (u = none → t = some .int → a.irType ≠ .dint)
      | _, _, _ => True
  | .callFb fbKind fbId _ =>
      fbKind = 0 → ∀ id, PrimitiveId.fromU32 fbId = some id →
        id = .rs ∨ id = .sr ∨ id = .rTrig ∨ id = .fTrig
  | .withImm32 _ _ _ => True

/-- The step from a configuration avoids the places where the recorded types can go wrong: its
operands agree, and no successor is recorded with a type that is unknown on arrival. -/
structure TypeStep (m : IrModule) (seen : Seen) (c : Config) : Prop where
  /-- The operands agree. -/
  operands : ∀ stack i, seen.lookup c.pc = some stack →
    decodeInstruction m.code c.pc = .ok (i, i.size) → OperandsAgree stack c.state.stack i
  /-- A recorded type is known on arrival. -/
  joins : ∀ (stack : AbsStack) (i : DecodedInstr) (q : ℕ) (recorded : AbsStack),
    seen.lookup c.pc = some stack → decodeInstruction m.code c.pc = .ok (i, i.size) →
    q ∈ i.successors c.pc → seen.lookup q = some recorded →
    ∀ (k : ℕ) (t : IrType), recorded[k]? = some (some t) →
    (i.outTypes stack ++ stack.drop i.pops)[k]? = some (some t)

/-- The two conditions at a pc whose record and instruction are given. -/
theorem TypeStep.of_decode {m : IrModule} {seen : Seen} {c : Config} {stack : AbsStack}
    {i : DecodedInstr} {n : ℕ} (hlook : seen.lookup c.pc = some stack)
    (hdec : decodeInstruction m.code c.pc = .ok (i, n)) (hop : OperandsAgree stack c.state.stack i)
    (hjoin : ∀ q ∈ i.successors c.pc, ∀ recorded, seen.lookup q = some recorded →
      recorded = i.outTypes stack ++ stack.drop i.pops) : TypeStep m seen c := by
  refine ⟨?_, ?_⟩
  · intro stack' i' hlook' hdec'
    rw [hlook] at hlook'
    rw [hdec] at hdec'
    cases hlook'
    obtain ⟨rfl, -⟩ := Prod.mk.inj (Except.ok.inj hdec')
    exact hop
  · intro stack' i' q recorded hlook' hdec' hq hrec k t hk
    rw [hlook] at hlook'
    rw [hdec] at hdec'
    cases hlook'
    obtain ⟨rfl, -⟩ := Prod.mk.inj (Except.ok.inj hdec')
    rwa [← hjoin q hq recorded hrec]

/-- Every value has an unknown type. -/
theorem hasType_none (v : VmValue) : HasType none v := fun _ h => nomatch h

/-- A value has its own type. -/
theorem hasType_some {t : IrType} {v : VmValue} (h : v.irType = t) : HasType (some t) v := by
  rintro u ⟨⟩
  exact h

/-- The result type is the left operand's, unless that is INT beside DINT. -/
theorem arithType_left {x z w : IrType} (h : arithType x z = some w) (hne : x = .int → z ≠ .dint) :
    w = x := by
  cases x <;> cases z <;> cases h <;> first | rfl | exact absurd rfl (hne rfl)

/-- The result type is the right operand's, unless that is INT beside DINT. -/
theorem arithType_right {x z w : IrType} (h : arithType z x = some w) (hne : x = .int → z ≠ .dint) :
    w = x := by
  cases x <;> cases z <;> cases h <;> first | rfl | exact absurd rfl (hne rfl)

/-- The result of an arithmetic opcode has the abstract result type. -/
theorem arith_hasType {t u : Option IrType} {a b r : VmValue} (hb : HasType t b) (ha : HasType u a)
    (hr : arithType a.irType b.irType = some r.irType)
    (hsame : ∀ x y, u = some x → t = some y → x = y)
    (hagree : (t = none → u = some .int → b.irType ≠ .dint) ∧
      (u = none → t = some .int → a.irType ≠ .dint)) : HasType (u.or t) r := by
  intro w hw
  cases u with
  | some x =>
      obtain rfl : x = w := by simpa using hw
      rw [ha x rfl] at hr
      refine arithType_left hr ?_
      rintro rfl
      cases t with
      | some y =>
          obtain rfl := hsame _ _ rfl rfl
          rw [hb _ rfl]
          decide
      | none => exact hagree.1 rfl rfl
  | none =>
      obtain rfl : t = some w := by simpa using hw
      rw [hb w rfl] at hr
      refine arithType_right hr ?_
      rintro rfl
      exact hagree.2 rfl rfl

/-- The result of a logic opcode has the abstract result type. -/
theorem logic_hasType {t u : Option IrType} {a b r : VmValue} (hb : HasType t b) (ha : HasType u a)
    (hab : a.irType = b.irType) (hr : r.irType = a.irType)
    (hagree : t = none → u = none → b.irType = .bool) :
    HasType ((u.or t).or (some .bool)) r := by
  intro w hw
  rw [hr]
  cases u with
  | some x =>
      obtain rfl : x = w := by simpa using hw
      exact ha x rfl
  | none =>
      rw [hab]
      cases t with
      | some y =>
          obtain rfl : y = w := by simpa using hw
          exact hb y rfl
      | none =>
          obtain rfl : IrType.bool = w := by simpa using hw
          exact hagree rfl rfl

/-- The values that a latch or an edge detector leaves have the verifier's types. -/
theorem outputTypes_latch {id : PrimitiveId}
    (h : id = .rs ∨ id = .sr ∨ id = .rTrig ∨ id = .fTrig) :
    outputTypes 0 id.outputCount = (resultTypes id).map some := by
  rcases h with rfl | rfl | rfl | rfl <;> rfl

/-- Values whose types are known to be the abstract ones are typed. -/
theorem stackTyped_map {types : AbsStack} {vals : List VmValue}
    (h : types = vals.map fun v => some v.irType) : StackTyped types vals := by
  subst h
  rw [StackTyped, List.forall₂_map_left_iff]
  exact List.forall₂_same.mpr fun v _ => hasType_some rfl

/-- A single result of a known runtime type. -/
theorem map_irType_eq_singleton {t : Option IrType} {vals : List VmValue}
    (h : [t] = vals.map fun v => some v.irType) : ∃ v, vals = [v] ∧ t = some v.irType := by
  rcases vals with _ | ⟨v, _ | ⟨w, vals⟩⟩
  · cases h
  · cases h
    exact ⟨v, rfl, rfl⟩
  · cases h

/-- Two operands on a typed stack. -/
theorem StackTyped.two {stack : AbsStack} {values : List VmValue} (h : StackTyped stack values)
    (hlen : 2 ≤ stack.length) :
    ∃ t u b a stack' values', stack = t :: u :: stack' ∧ values = b :: a :: values' ∧
      HasType t b ∧ HasType u a := by
  cases h with
  | nil => simp at hlen
  | cons hb h =>
      cases h with
      | nil => simp at hlen
      | cons ha h => exact ⟨_, _, _, _, _, _, rfl, rfl, hb, ha⟩

/-- One operand on a typed stack. -/
theorem StackTyped.one {stack : AbsStack} {values : List VmValue} (h : StackTyped stack values)
    (hlen : 1 ≤ stack.length) :
    ∃ t v stack' values', stack = t :: stack' ∧ values = v :: values' ∧ HasType t v := by
  cases h with
  | nil => simp at hlen
  | cons hv h => exact ⟨_, _, _, _, rfl, rfl, hv⟩

/-- **The results of a one-word instruction have the abstract result types**, where the operands
agree. -/
theorem results_typed_simple {m : IrModule} {isUserFb : Bool} {op : Opcode} {payload pc : ℕ}
    {stack : AbsStack} {s : VmState} {vals : List VmValue} (ht : StackTyped stack s.stack)
    (hpops : op.pops ≤ stack.length)
    (hchecked : (DecodedInstr.simple op payload).Checked m isUserFb stack)
    (hagree : OperandsAgree stack s.stack (.simple op payload))
    (hres : Results s pc (.simple op payload) vals) (hlen : vals.length = op.pushes) :
    StackTyped ((DecodedInstr.simple op payload).outTypes stack) vals := by
  cases op with
  | nop | halt | jmp | jmpIf | jmpIfNot | ret | stData | stRetain | stQ | pushIDint | pushIReal
  | pushTime | callFb =>
      rw [List.eq_nil_of_length_eq_zero hlen]
      exact .nil
  | ldData | ldRetain | ldI | ldQ =>
      obtain ⟨v, -, rfl⟩ := hres
      exact .cons (hasType_none v) .nil
  | pushIBool | ldIq => exact stackTyped_map hres
  | conv => exact stackTyped_map hres
  | eq | ne | lt | le | gt | ge =>
      obtain ⟨t, u, b, a, stack', values', rfl, hs, -, -⟩ := ht.two hpops
      simp only [Results, loadOf, runTypes, hs] at hres
      exact stackTyped_map hres
  | add | sub | mul | div =>
      obtain ⟨t, u, b, a, stack', values', rfl, hs, hb, ha⟩ := ht.two hpops
      simp only [Results, loadOf, runTypes, hs] at hres
      rw [hs] at hagree
      obtain ⟨r, rfl, hr⟩ := map_irType_eq_singleton hres
      exact .cons (arith_hasType hb ha hr hchecked hagree) .nil
  | and | or | xor =>
      obtain ⟨t, u, b, a, stack', values', rfl, hs, hb, ha⟩ := ht.two hpops
      simp only [Results, loadOf, runTypes, hs] at hres
      rw [hs] at hagree
      obtain ⟨r, rfl, hr⟩ := map_irType_eq_singleton hres
      have hr' : (if a.irType = b.irType then some a.irType else none) = some r.irType := hr
      split_ifs at hr' with hab
      refine .cons (logic_hasType hb ha hab (Option.some.inj hr').symm ?_) .nil
      rintro rfl rfl
      exact hagree
  | neg =>
      obtain ⟨t, v, stack', values', rfl, hs, hv⟩ := ht.one hpops
      simp only [Results, loadOf, runTypes, hs] at hres
      obtain ⟨r, rfl, hr⟩ := map_irType_eq_singleton hres
      have hr' : v.irType = r.irType := Option.some.inj hr
      exact .cons (fun w hw => hr' ▸ hv w hw) .nil
  | not =>
      obtain ⟨t, v, stack', values', rfl, hs, hv⟩ := ht.one hpops
      simp only [Results, loadOf, runTypes, hs] at hres
      rw [hs] at hagree
      obtain ⟨r, rfl, hr⟩ := map_irType_eq_singleton hres
      have hr' : v.irType = r.irType := Option.some.inj hr
      refine .cons ?_ .nil
      cases t with
      | some x => exact fun w hw => hr' ▸ hv w hw
      | none => exact hasType_some (hr' ▸ hagree)

/-- **The results of an instruction have the abstract result types**, where the operands agree. -/
theorem results_typed {m : IrModule} {isUserFb : Bool} {i : DecodedInstr} {pc : ℕ}
    {stack : AbsStack} {s : VmState} {vals : List VmValue} (ht : StackTyped stack s.stack)
    (hi : CertifiedAt m isUserFb pc stack i) (hagree : OperandsAgree stack s.stack i)
    (hres : Results s pc i vals) (hlen : vals.length = i.pushes) :
    StackTyped (i.outTypes stack) vals := by
  cases i with
  | simple op payload => exact results_typed_simple ht hi.pops_le hi.checked hagree hres hlen
  | withImm32 op payload imm =>
      cases op <;> exact stackTyped_map hres
  | callFb fbKind fbId base =>
      by_cases hkind : fbKind = 0
      · subst hkind
        obtain ⟨id, hid⟩ := Option.isSome_iff_exists.mp (hi.checked rfl)
        have hout := outputTypes_latch (hagree rfl id hid)
        refine stackTyped_map ?_
        simp only [Results, loadOf, runTypes, if_true, hid, Option.map_some,
          Option.getD_some] at hres
        simp only [DecodedInstr.outTypes, if_true, hid, Option.map_some, Option.getD_some, hout,
          hres]
      · have hnil : vals = [] := by
          apply List.eq_nil_of_length_eq_zero
          rw [hlen]
          simp [DecodedInstr.pushes, hkind]
        subst hnil
        simp [DecodedInstr.outTypes, hkind]

/-- A stack that is typed on arrival has the recorded types, when these are known on arrival. -/
theorem StackTyped.of_arrival {arrival recorded : AbsStack} {values : List VmValue}
    (h : StackTyped arrival values) (hlen : recorded.length = arrival.length)
    (hknown : ∀ (k : ℕ) (t : IrType), recorded[k]? = some (some t) →
      arrival[k]? = some (some t)) : StackTyped recorded values := by
  induction h generalizing recorded with
  | nil =>
      rw [List.eq_nil_of_length_eq_zero hlen]
      exact .nil
  | cons hv _ ih =>
      rcases recorded with _ | ⟨r, recorded⟩
      · cases hlen
      · refine .cons ?_ (ih (Nat.succ.inj hlen) fun k t hk => hknown (k + 1) t hk)
        rintro t rfl
        exact hv t (Option.some.inj (hknown 0 t rfl))

section Typed

variable {m : IrModule} {isUserFb : Bool} {entryPc budget nowMs : ℕ} {seen : Seen}

/-- On record, with the recorded types on the stack. -/
structure TypedOnRecord (m : IrModule) (entryPc : ℕ) (seen : Seen) (c : Config) : Prop extends
    OnRecord m entryPc seen c where
  /-- The values have the recorded types. -/
  typed : ∀ stack, seen.lookup c.pc = some stack → StackTyped stack c.state.stack

/-- **A step keeps the recorded types**, where it avoids the places that break them. -/
theorem TypedOnRecord.step (hcert : Certified m isUserFb entryPc seen)
    (hcall : NoUserCall m entryPc) {c c' : Config} (hon : TypedOnRecord m entryPc seen c)
    (hstep : TypeStep m seen c) (h : stepVm (.ofModule m budget) nowMs c = .go c') :
    TypedOnRecord m entryPc seen c' := by
  have hhere : ∀ i n, decodeInstruction m.code c.pc = .ok (i, n) → i.isUserCall = false :=
    fun i n => hcall c.pc i n hon.reach
  obtain ⟨stack, i, hlook, -, hi, hexec, hq, -, -, recorded, hrec, hcompat⟩ :=
    hon.step_go hcert hhere h
  refine ⟨hon.toOnRecord.step hcert hhere h, ?_⟩
  intro stack' hlook'
  rw [hrec] at hlook'
  cases hlook'
  obtain ⟨vals, hres, hlen, hstack⟩ := hexec.stack
  have htyped := hon.typed stack hlook
  have harrival : StackTyped (i.outTypes stack ++ stack.drop i.pops) c'.state.stack := by
    rw [hstack]
    exact List.rel_append (results_typed htyped hi (hstep.operands stack i hlook hi.decodes) hres
      hlen) (List.forall₂_drop i.pops htyped)
  exact harrival.of_arrival (stacksCompatible_length hcompat)
    (hstep.joins stack i c'.pc recorded hlook hi.decodes hq hrec)

end Typed

/-- Known types of values are the types of the values. -/
theorem StackTyped.eq_map {types : AbsStack} {vals : List VmValue} (h : StackTyped types vals)
    (hknown : none ∉ types) : types = vals.map fun v => some v.irType := by
  induction h with
  | nil => rfl
  | @cons t v types vals hv _ ih =>
      rw [List.mem_cons, not_or] at hknown
      obtain ⟨u, rfl⟩ := Option.ne_none_iff_exists'.mp (Ne.symm hknown.1)
      rw [List.map_cons, ← ih hknown.2, hv u rfl]

/-- The outputs of a primitive have known abstract types. -/
theorem none_notMem_outputTypes (i n : ℕ) : none ∉ outputTypes i n := by
  induction n generalizing i with
  | zero => simp [outputTypes]
  | succ n ih =>
      rw [outputTypes, List.mem_append, not_or]
      refine ⟨ih (i + 1), ?_⟩
      split_ifs <;> simp

/-- **Which primitives agree.** The values that a primitive call leaves have the types that the
verifier gives them exactly for the latches and the edge detectors. -/
theorem callPrim_typed_iff {id : PrimitiveId} {inst nowMs pc : ℕ} {s s' : VmState}
    (h : callPrim id.toU32 inst nowMs pc s = .ok () s') :
    StackTyped (outputTypes 0 id.outputCount) (s'.stack.take id.outputCount) ↔
      id = .rs ∨ id = .sr ∨ id = .rTrig ∨ id = .fTrig := by
  obtain ⟨id', inputs, out, store, hid, -, -, hprim, rfl⟩ := callPrim_ok h
  rw [PrimitiveId.fromU32_toU32] at hid
  cases hid
  have htypes := callPrimitive_ok hprim
  have hlen : (resultValues (isTimer id) 0 out).length = id.outputCount := by
    rw [← List.length_map VmValue.irType, htypes, resultTypes_length]
  simp only [← hlen, List.take_left]
  have hmap : ((resultValues (isTimer id) 0 out).map fun v => some v.irType) =
      (resultTypes id).map some := by
    rw [← htypes, List.map_map]
    rfl
  rw [hlen]
  constructor
  · intro ht
    have heq := ht.eq_map (none_notMem_outputTypes _ _)
    rw [hmap] at heq
    revert heq
    cases id <;> decide
  · intro hlatch
    exact stackTyped_map ((outputTypes_latch hlatch).trans hmap.symm)

/-- **Verified types at run time.** In every run of an entry of an accepted module from which no
user function block is called: as long as the steps taken avoid the places where the verifier and
the interpreter compute different types, every type that the verifier recorded for a pc is the
type of the value at that position. The primitives whose abstract results agree with the values
that a call leaves are exactly the latches and the edge detectors. -/
theorem verified_types_while {m : IrModule} (hv : verifyModule m = .ok ()) {e : EntryPoint}
    (he : e ∈ m.entries) (hcall : NoUserCall m e.pc) (budget nowMs : ℕ) (s : VmState) :
    (∃ seen, verifyEntrySeen m e.pc e.isUserFb e.name = .ok seen ∧
      ∀ k c, Passes (.ofModule m budget) nowMs e.pc s k c →
        (∀ j c', j < k → Passes (.ofModule m budget) nowMs e.pc s j c' → TypeStep m seen c') →
        ∀ stack, seen.lookup c.pc = some stack →
          ∀ (pos : ℕ) (t : IrType), stack[pos]? = some (some t) →
            (c.state.stack[pos]?).map VmValue.irType = some t) ∧
    ∀ id inst pc s s', callPrim (PrimitiveId.toU32 id) inst nowMs pc s = .ok () s' →
      (StackTyped (outputTypes 0 id.outputCount) (s'.stack.take id.outputCount) ↔
        id = .rs ∨ id = .sr ∨ id = .rTrig ∨ id = .fTrig) := by
  obtain ⟨seen, hseen, hcert⟩ := verifyModule_certified hv he
  refine ⟨⟨seen, hseen, ?_⟩, fun id inst pc s s' h => callPrim_typed_iff h⟩
  intro k c hc hsteps stack hlook pos t ht
  have hstart : TypedOnRecord m e.pc seen ⟨s.enter, e.pc⟩ := by
    refine ⟨.start hcert s, ?_⟩
    intro stack' hlook'
    rw [hcert.entry] at hlook'
    cases hlook'
    exact .nil
  have hon := hc.invariant_while (fun _ _ hon hstep h => hon.step hcert hcall hstep h) hstart hsteps
  have htyped := hon.typed stack hlook
  obtain ⟨hpos, hget⟩ := List.getElem?_eq_some_iff.mp ht
  have hpos' : pos < c.state.stack.length := htyped.length_eq ▸ hpos
  have hv := List.forall₂_iff_get.mp htyped |>.2 pos hpos hpos'
  rw [List.getElem?_eq_getElem hpos', Option.map_some]
  exact congrArg some (hv t (by simpa using hget))

/-- `PUSHI_BOOL 1; PUSHI_BOOL 0; CALL_FB RS 0; HALT`. -/
def latchModule : IrModule :=
  taskModule [.simple .pushIBool 1, .simple .pushIBool 0, .callFb 0 6 0, .simple .halt 0] 0

/-- The stacks that the verifier records for the latch. -/
def latchSeen : Seen :=
  [(20, [some .bool]), (8, [some .bool, some .bool]), (4, [some .bool]), (0, [])]

/-- The latch leaves the type that the verifier recorded. -/
theorem latch_types :
    ∃ c, Passes (.ofModule latchModule 10) 0 0 (.cold latchModule 1) 3 c ∧ c.pc = 20 ∧
      (c.state.stack[0]?).map VmValue.irType = some .bool := by
  have hseen : verifyEntrySeen latchModule 0 false "task.main" = .ok latchSeen := rfl
  have hcall : NoUserCall latchModule 0 := (verifyEntrySeen_certified hseen).noUserCall rfl
  obtain ⟨⟨seen, hseen', hrun⟩, -⟩ := verified_types_while (m := latchModule) rfl
    (List.mem_singleton_self _) hcall 10 0 (.cold latchModule 1)
  cases hseen.symm.trans hseen'
  refine ⟨_, .succ rfl (.succ rfl (.succ rfl (.zero _))), rfl, ?_⟩
  refine hrun 3 _ (.succ rfl (.succ rfl (.succ rfl (.zero _)))) ?_ _ rfl 0 .bool rfl
  intro j c hj hc
  interval_cases j
  · obtain rfl := hc.unique (.zero _)
    exact .of_decode (i := .simple .pushIBool 1) rfl rfl trivial (by decide)
  · obtain rfl := hc.unique (.succ rfl (.zero _))
    exact .of_decode (i := .simple .pushIBool 0) rfl rfl trivial (by decide)
  · obtain rfl := hc.unique (.succ rfl (.succ rfl (.zero _)))
    refine .of_decode (i := .callFb 0 6 0) rfl rfl ?_ (by decide)
    rintro - id ⟨⟩
    exact .inl rfl

/-- `PUSHI_BOOL 1; PUSHI_TIME 5; CALL_FB TON 0; HALT`. -/
def tonModule : IrModule :=
  taskModule [.simple .pushIBool 1, .withImm32 .pushTime 0 5, .callFb 0 1 0, .simple .halt 0] 0

/-- After a timer call the verifier records TIME on top of the stack, where the interpreter has the
BOOL output. -/
theorem ton_types_disagree :
    verifyModule tonModule = .ok () ∧ NoUserCall tonModule 0 ∧
      ∃ seen c stack, verifyEntrySeen tonModule 0 false "task.main" = .ok seen ∧
        Passes (.ofModule tonModule 10) 0 0 (.cold tonModule 1) 3 c ∧
        seen.lookup c.pc = some stack ∧ stack[0]? = some (some .time) ∧
        (c.state.stack[0]?).map VmValue.irType = some .bool := by
  have hseen : verifyEntrySeen tonModule 0 false "task.main" =
      .ok [(24, [some .time, some .bool]), (12, [some .time, some .bool]), (4, [some .bool]),
        (0, [])] := rfl
  exact ⟨rfl, (verifyEntrySeen_certified hseen).noUserCall rfl, _, _, _, hseen,
    .succ rfl (.succ rfl (.succ rfl (.zero _))), rfl, rfl, rfl⟩

/-! ## Memory accesses -/

/-- The memories have the sizes of the module, as those of a loaded machine do. -/
structure SizedFor (m : IrModule) (s : VmState) : Prop where
  /-- Data segment. -/
  data : s.data.len = m.dataSize
  /-- Retain segment. -/
  retain : s.retain.len = m.retainSize
  /-- Input slots. -/
  inputs : s.inputs.len = m.inputSlots
  /-- Output slots. -/
  outputs : s.outputs.len = m.outputSlots

/-- The machine that `Vm::load` builds is sized for its module. -/
theorem sizedFor_cold (m : IrModule) (n : ℕ) : SizedFor m (.cold m n) :=
  ⟨by simp [VmState.cold], by simp [VmState.cold], by simp [VmState.cold], by simp [VmState.cold]⟩

/-- The segment that an instruction addresses has bytes, and a value that it stores there ends
inside the segment. -/
def AccessFits (m : IrModule) (stack : List VmValue) : DecodedInstr → Prop
  | .simple .ldData _ => m.dataSize ≠ 0
  | .simple .ldRetain _ => m.retainSize ≠ 0
  | .simple .stData payload =>
      m.dataSize ≠ 0 ∧ ∀ v rest, stack = v :: rest → payload + v.byteWidth ≤ m.dataSize
  | .simple .stRetain payload =>
      m.retainSize ≠ 0 ∧ ∀ v rest, stack = v :: rest → payload + v.byteWidth ≤ m.retainSize
  | _ => True

/-- The access of the step from a configuration fits. -/
def AccessStep (m : IrModule) (c : Config) : Prop :=
  ∀ i, decodeInstruction m.code c.pc = .ok (i, i.size) → AccessFits m c.state.stack i

/-- The condition at a pc whose instruction is given. -/
theorem AccessStep.of_decode {m : IrModule} {c : Config} {i : DecodedInstr} {n : ℕ}
    (hdec : decodeInstruction m.code c.pc = .ok (i, n)) (hfit : AccessFits m c.state.stack i) :
    AccessStep m c := by
  intro i' hdec'
  rw [hdec] at hdec'
  obtain ⟨rfl, -⟩ := Prod.mk.inj (Except.ok.inj hdec')
  exact hfit

/-- The memories have the sizes of the module and tags that fit. -/
structure MemoryFits (m : IrModule) (s : VmState) : Prop extends SizedFor m s where
  /-- Data tags. -/
  dataTags : s.data.TagsFit
  /-- Retain tags. -/
  retainTags : s.retain.TagsFit

/-- **An instruction keeps the memories fitting.** -/
theorem MemoryFits.executes {m : IrModule} {image : VmImage} {nowMs pc : ℕ} {i : DecodedInstr}
    {s s' : VmState} {ctl : Control} (hs : MemoryFits m s)
    (h : Executes image nowMs pc i s ctl s') : MemoryFits m s' := by
  refine ⟨⟨?_, ?_, by rw [h.inputs, hs.inputs], ?_⟩, ?_, ?_⟩
  · rcases h.data with hd | ⟨_, _, _, -, -, hd⟩
    · rw [hd, hs.data]
    · rw [ByteSegment.len_store hd, hs.data]
  · rcases h.retain with hr | ⟨_, _, _, -, -, hr⟩
    · rw [hr, hs.retain]
    · rw [ByteSegment.len_store hr, hs.retain]
  · rcases h.outputs with ho | ⟨_, _, _, -, -, ho⟩
    · rw [ho, hs.outputs]
    · rw [SlotImage.len_set ho, hs.outputs]
  · rcases h.data with hd | ⟨_, _, _, -, -, hd⟩
    · rw [hd]
      exact hs.dataTags
    · exact hs.dataTags.store hd
  · rcases h.retain with hr | ⟨_, _, _, -, -, hr⟩
    · rw [hr]
      exact hs.retainTags
    · exact hs.retainTags.store hr

/-- At task level an offset is its own address, as far as 32 bits reach. -/
theorem address_of_base_zero {s : VmState} {payload : ℕ} (hbase : s.dataBase = 0)
    (hp : payload < 2 ^ 24) : s.address payload = payload := by
  simp only [VmState.address, satAdd32, hbase, u32Max]
  omega

/-- A certified instruction whose access fits does not leave the memories. -/
theorem not_outOfRange {m : IrModule} {isUserFb : Bool} {pc : ℕ} {stack : AbsStack}
    {i : DecodedInstr} {s : VmState} (hi : CertifiedAt m isUserFb pc stack i)
    (hs : MemoryFits m s) (hbase : s.dataBase = 0) (hfit : AccessFits m s.stack i) :
    ¬OutOfRange s i := by
  intro hout
  have hwf := hi.wellFormed
  have hchecked := hi.checked
  unfold OutOfRange at hout
  split at hout
  · rename_i p
    rw [address_of_base_zero hbase hwf.2.2] at hout
    have hlt : p < s.data.len := by
      rw [hs.data]
      exact hchecked.resolve_left hfit
    exact Nat.not_lt_of_le (hs.dataTags p hlt) hout
  · rename_i p
    rw [address_of_base_zero hbase hwf.2.2, hs.data] at hout
    obtain ⟨v, rest, hstack, hlt⟩ := hout
    exact Nat.not_lt_of_le (hfit.2 v rest hstack) hlt
  · rename_i p
    rw [address_of_base_zero hbase hwf.2.2] at hout
    have hlt : p < s.retain.len := by
      rw [hs.retain]
      exact hchecked.resolve_left hfit
    exact Nat.not_lt_of_le (hs.retainTags p hlt) hout
  · rename_i p
    rw [address_of_base_zero hbase hwf.2.2, hs.retain] at hout
    obtain ⟨v, rest, hstack, hlt⟩ := hout
    exact Nat.not_lt_of_le (hfit.2 v rest hstack) hlt
  · rw [hs.inputs] at hout
    exact Nat.not_lt_of_le hout hchecked
  · rw [hs.inputs] at hout
    exact Nat.not_lt_of_le hout hchecked
  · rw [hs.outputs] at hout
    exact Nat.not_lt_of_le hout hchecked
  · rw [hs.outputs] at hout
    exact Nat.not_lt_of_le hout hchecked
  · exact hout

/-- **Verified memory accesses.** In every run of an entry of an accepted module from which no user
function block is called, started in memories of the module's sizes with fitting tags: if every
value that the run stores in the data or retain segment ends inside it, and the run addresses no
segment of size zero, then no load or store leaves its memory, whatever the types of the values. -/
theorem verified_accesses_while {m : IrModule} (hv : verifyModule m = .ok ()) {e : EntryPoint}
    (he : e ∈ m.entries) (hcall : NoUserCall m e.pc) (budget nowMs : ℕ) {s : VmState}
    (hs : MemoryFits m s)
    (hsteps : ∀ k c, k < budget → Passes (.ofModule m budget) nowMs e.pc s k c → AccessStep m c)
    (pc : ℕ) (detail : String) :
    (runAt (.ofModule m budget) e.pc nowMs s).1 ≠ .error (.err (.bounds pc detail)) := by
  obtain ⟨seen, -, hcert⟩ := verifyModule_certified hv he
  rcases runAt_cases (.ofModule m budget) e.pc nowMs s with hbudget | ⟨k, c, hk, hc, hstop⟩
  · rw [hbudget]
    rintro ⟨⟩
  have hon := OnRecord.passes hcert hcall hc
  have hpres : ∀ c c', MemoryFits m c.state →
      stepVm (.ofModule m budget) nowMs c = .go c' → MemoryFits m c'.state := by
    intro c c' hc hgo
    obtain ⟨i, -, -, hexec⟩ := stepVm_go hgo
    exact hc.executes hexec
  have hmem : MemoryFits m c.state :=
    hc.invariant hpres ⟨⟨hs.data, hs.retain, hs.inputs, hs.outputs⟩, hs.dataTags, hs.retainTags⟩
  obtain ⟨stack, i, -, -, hi, -⟩ := hon.certifiedAt hcert
  obtain ⟨_, _, -, hr⟩ | ⟨j, hdec, -, ⟨res, hres, -⟩ | ⟨f, hf, hcause, -⟩⟩ := stepVm_stop hstop
  · rw [hr]
    rintro ⟨⟩
  · rw [hres]
    rintro ⟨⟩
  · have hdec' : decodeInstruction m.code c.pc = .ok (j, j.size) := hdec
    rw [hi.decodes] at hdec'
    cases hdec'
    rw [hf]
    rintro ⟨⟩
    exact not_outOfRange hi hmem hon.base (hsteps k c hk hc i hi.decodes) hcause

/-- Cold memories fit. -/
theorem memoryFits_cold (m : IrModule) (n : ℕ) : MemoryFits m (.cold m n) :=
  ⟨sizedFor_cold m n, ByteSegment.tagsFit_zeros _, ByteSegment.tagsFit_zeros _⟩

/-- `PUSHI_DINT 5; ST_DATA 0; LD_DATA 0; HALT`. -/
def storeModule : IrModule :=
  taskModule [.withImm32 .pushIDint 0 5, .simple .stData 0, .simple .ldData 0, .simple .halt 0] 4

/-- A DINT stored at the start of a segment of four bytes stays inside. -/
theorem store_accesses :
    verifyModule storeModule = .ok () ∧ NoUserCall storeModule 0 ∧ ∀ pc detail,
      (runAt (.ofModule storeModule 4) 0 0 (.cold storeModule 1)).1 ≠
        .error (.err (.bounds pc detail)) := by
  have hseen : verifyEntrySeen storeModule 0 false "task.main" =
      .ok [(16, [none]), (12, []), (8, [some .dint]), (0, [])] := rfl
  have hcall : NoUserCall storeModule 0 := (verifyEntrySeen_certified hseen).noUserCall rfl
  refine ⟨rfl, hcall, ?_⟩
  refine verified_accesses_while (m := storeModule) rfl (List.mem_singleton_self _) hcall 4 0
    (memoryFits_cold _ _) ?_
  intro k c hk hc
  interval_cases k
  · obtain rfl := hc.unique (.zero _)
    exact .of_decode (i := .withImm32 .pushIDint 0 5) rfl trivial
  · obtain rfl := hc.unique (.succ rfl (.zero _))
    refine .of_decode (i := .simple .stData 0) rfl ⟨by decide, ?_⟩
    rintro v rest ⟨⟩
    decide
  · obtain rfl := hc.unique (.succ rfl (.succ rfl (.zero _)))
    exact .of_decode (i := .simple .ldData 0) rfl (by decide : storeModule.dataSize ≠ 0)
  · obtain rfl := hc.unique (.succ rfl (.succ rfl (.succ rfl (.zero _))))
    exact .of_decode (i := .simple .halt 0) rfl trivial

/-- `PUSHI_DINT 5; ST_DATA 3; HALT`. -/
def straddleModule : IrModule :=
  taskModule [.withImm32 .pushIDint 0 5, .simple .stData 3, .simple .halt 0] 4

/-- The verifier accepts a DINT store at the last byte of a segment, and the store leaves it. -/
theorem straddle_leaves_segment :
    verifyModule straddleModule = .ok () ∧ NoUserCall straddleModule 0 ∧
      MemoryFits straddleModule (.cold straddleModule 1) ∧
      (runAt (.ofModule straddleModule 10) 0 0 (.cold straddleModule 1)).1 =
        .error (.err (.bounds 8 "store offset 3+4 exceeds segment 4")) := by
  have hseen : verifyEntrySeen straddleModule 0 false "task.main" =
      .ok [(12, []), (8, [some .dint]), (0, [])] := rfl
  exact ⟨rfl, (verifyEntrySeen_certified hseen).noUserCall rfl, memoryFits_cold _ _, rfl⟩

end SoftPlc.Vm
