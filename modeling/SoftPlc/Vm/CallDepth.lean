import SoftPlc.Vm.Calls
import SoftPlc.Lib.DepthFirst

/-!
# The call-depth rule of the verifier

Rule 5 of the verifier bounds a counter that every user call on a path raises and that no return
lowers. `OtherRules m` says that a module passes every check but this one: its walk is the
verifier's with every counter read as zero. The counters then decide alone. Each pending item of
the walk carries the number of user calls on the path that led to it (`Traced`), the walk is
depth-first, the fall-through before the jump target, and so a module is accepted exactly when no
first path of an entry has more than 32 calls (`call_depth_iff`), however deep its calls nest.
-/

namespace SoftPlc.Vm

open SoftPlc.Ir SoftPlc.Lib

/-! ## The walk without rule 5 -/

/-- The state with every call depth set to zero. -/
def noDepth (st : VerifyState) : VerifyState :=
  { st with work := st.work.map fun w => (w.1, w.2.1, 0) }

/-- The record of the walk of one entry in which rule 5 never applies. -/
def otherRulesSeen (m : IrModule) (entryPc : ℕ) (isUserFb : Bool) (name : String) :
    Except VerifyError Seen :=
  iterate (fun st => verifyStep m isUserFb name (noDepth st))
    (fun _ => .error ⟨0, "out of fuel"⟩) (verifyFuel m) ⟨[], [(entryPc, [], 0)], false⟩

/-- An entry passes every check but rule 5. -/
def OtherEntryRules (m : IrModule) (e : EntryPoint) : Prop :=
  (m.code ≠ [] → e.pc < m.code.length) ∧ e.pc % 4 = 0 ∧
    (otherRulesSeen m e.pc e.isUserFb e.name).isOk = true

instance (m : IrModule) (e : EntryPoint) : Decidable (OtherEntryRules m e) :=
  inferInstanceAs (Decidable (_ ∧ _ ∧ _))

/-- A module passes every check but rule 5. -/
def OtherRules (m : IrModule) : Prop :=
  verifyModule { m with entries := [] } = .ok () ∧ ∀ e ∈ m.entries, OtherEntryRules m e

instance (m : IrModule) : Decidable (OtherRules m) := inferInstanceAs (Decidable (_ ∧ _))

/-! ## Depths in one round -/

/-- A flow at a greater call depth. -/
def deepen (depth : ℕ) (flow : Flow) : Flow :=
  { flow with nextPcs := flow.nextPcs.map fun q => (q.1, q.2 + depth) }

/-- `Except.map` goes under a bind. -/
theorem except_map_bind {ε α β γ : Type} (x : Except ε α) (f : α → Except ε β) (g : β → γ) :
    (x >>= f).map g = x >>= fun a => (f a).map g := by
  cases x <;> rfl

/-- Falling through at a greater depth. -/
theorem deepen_fallThrough (depth q : ℕ) (σ : AbsStack) :
    (Except.ok ⟨σ, [(q, 0)], false⟩ : Except VerifyError Flow).map (deepen depth) =
      .ok ⟨σ, [(q, depth)], false⟩ := by
  simp [Except.map, deepen]

/-- The verifier's transfer function only adds to the call depth. -/
theorem verifyInstr_depth (m : IrModule) (isUserFb : Bool) (name : String) (pc size depth : ℕ)
    (stack : AbsStack) (i : DecodedInstr) :
    verifyInstr m isUserFb name pc size depth stack i =
      (verifyInstr m isUserFb name pc size 0 stack i).map (deepen depth) := by
  cases i with
  | simple op payload =>
      cases op with
      | ret => rfl
      | halt =>
          simp only [verifyInstr]
          split_ifs <;> rfl
      | ldI | ldIq | ldQ | stQ =>
          simp only [verifyInstr, reduceCtorEq, if_false, if_true]
          split_ifs
          · rfl
          · simp only [except_map_bind, deepen_fallThrough]
      | jmpIf | jmpIfNot =>
          simp only [verifyInstr, except_map_bind]
          congr 1
          funext p
          obtain ⟨c, rest⟩ := p
          split_ifs
          · rfl
          · simp only [except_map_bind]
            congr 1
            funext _
            simp [Except.map, deepen]
      | conv =>
          simp only [verifyInstr, except_map_bind]
          congr 1
          funext p
          obtain ⟨c, rest⟩ := p
          split
          · rfl
          · simp only [except_map_bind, deepen_fallThrough]
      | pushIDint | pushIReal | pushTime | callFb => rfl
      | _ => simp only [verifyInstr, except_map_bind, deepen_fallThrough]
  | withImm32 op payload imm =>
      cases op with
      | pushIDint | pushIReal | pushTime =>
          simp only [verifyInstr, except_map_bind, deepen_fallThrough]
      | _ => rfl
  | callFb fbKind fbId base =>
      simp only [verifyInstr]
      by_cases hkind : fbKind = 0
      · rw [if_pos hkind, if_pos hkind]
        rcases PrimitiveId.fromU32 fbId with _ | prim
        · rfl
        · simp only [except_map_bind, deepen_fallThrough]
      · rw [if_neg hkind, if_neg hkind]
        simp [Except.map, deepen, Nat.add_comm]

/-- User calls at a pc: none or one. -/
def callsAt (m : IrModule) (pc : ℕ) : ℕ :=
  match decodeInstruction m.code pc with
  | .ok (i, _) => if i.isUserCall then 1 else 0
  | .error _ => 0

/-- Static successors of a pc, in the order in which the verifier walks them. -/
def succs (m : IrModule) (pc : ℕ) : List ℕ :=
  match decodeInstruction m.code pc with
  | .ok (i, _) => (i.successors pc).reverse
  | .error _ => []

/-- User calls on a path. -/
def userCalls (m : IrModule) (path : List ℕ) : ℕ := (path.map (callsAt m)).sum

@[simp] theorem userCalls_nil (m : IrModule) : userCalls m [] = 0 := rfl

@[simp] theorem userCalls_cons (m : IrModule) (pc : ℕ) (path : List ℕ) :
    userCalls m (pc :: path) = callsAt m pc + userCalls m path := rfl

/-- No successor of the flow is deeper. -/
def Level (r : Except VerifyError Flow) : Prop := ∀ flow, r = .ok flow → ∀ q ∈ flow.nextPcs, q.2 = 0

theorem Level.bind {α : Type} {x : Except VerifyError α} {f : α → Except VerifyError Flow}
    (h : ∀ a, Level (f a)) : Level (x >>= f) := by
  intro flow hflow
  obtain ⟨a, -, ha⟩ := except_bind_ok.mp hflow
  exact h a flow ha

theorem Level.error (e : VerifyError) : Level (.error e) := by
  intro flow h
  cases h

theorem Level.ok {flow : Flow} (h : ∀ q ∈ flow.nextPcs, q.2 = 0) : Level (.ok flow) := by
  intro flow' h'
  cases h'
  exact h

theorem Level.ite {P : Prop} [Decidable P] {r r' : Except VerifyError Flow} (h : Level r)
    (h' : Level r') : Level (if P then r else r') := by
  split_ifs
  · exact h
  · exact h'

/-- A one-word instruction makes no call. -/
theorem verifyInstr_level (m : IrModule) (isUserFb : Bool) (name : String) (pc size : ℕ)
    (stack : AbsStack) (op : Opcode) (payload : ℕ) :
    Level (verifyInstr m isUserFb name pc size 0 stack (.simple op payload)) := by
  have hfall : ∀ (σ : AbsStack) (q : ℕ), Level (.ok ⟨σ, [(q, 0)], false⟩) :=
    fun σ q => .ok (by simp)
  cases op with
  | nop => exact hfall _ _
  | ret => exact .ok (by simp)
  | halt => exact .ite (.error _) (.ok (by simp))
  | ldI | ldIq | ldQ | stQ => exact .ite (.error _) (.bind fun _ => hfall _ _)
  | pushIBool | jmp => exact .bind fun _ => hfall _ _
  | ldData | ldRetain | stData | stRetain | neg | not =>
      exact .bind fun _ => .bind fun _ => hfall _ _
  | eq | ne | lt | le | gt | ge => exact .bind fun _ => .bind fun _ => .bind fun _ => hfall _ _
  | add | sub | mul | div | and | or | xor =>
      exact .bind fun _ => .bind fun _ => .bind fun _ => .bind fun _ => hfall _ _
  | jmpIf | jmpIfNot =>
      exact .bind fun _ => .ite (.error _) (.bind fun _ => .ok (by simp))
  | conv =>
      refine .bind fun _ => ?_
      dsimp only
      split
      · exact .error _
      · exact .bind fun _ => hfall _ _
  | pushIDint | pushIReal | pushTime | callFb => exact .error _

/-- The transfer function counts the calls of the instruction itself. -/
theorem verifyInstr_calls {m : IrModule} {isUserFb : Bool} {name : String} {pc size : ℕ}
    {stack : AbsStack} {i : DecodedInstr} {flow : Flow}
    (h : verifyInstr m isUserFb name pc size 0 stack i = .ok flow) :
    ∀ q ∈ flow.nextPcs, q.2 = if i.isUserCall then 1 else 0 := by
  cases i with
  | simple op payload => exact verifyInstr_level m isUserFb name pc size stack op payload flow h
  | withImm32 op payload imm =>
      cases op with
      | pushIDint | pushIReal | pushTime =>
          simp only [verifyInstr, except_bind_ok, Except.ok.injEq] at h
          obtain ⟨_, -, rfl⟩ := h
          simp [DecodedInstr.isUserCall]
      | _ => cases h
  | callFb fbKind fbId base =>
      simp only [verifyInstr, DecodedInstr.isUserCall] at h ⊢
      by_cases hkind : fbKind = 0
      · rw [if_pos hkind] at h
        rcases hprim : PrimitiveId.fromU32 fbId with _ | prim
        · simp only [hprim] at h
          cases h
        · simp only [hprim, except_bind_ok, Except.ok.injEq] at h
          obtain ⟨_, -, _, -, rfl⟩ := h
          simp [hkind]
      · rw [if_neg hkind] at h
        cases h
        simp [hkind]

/-- The successors of an accepted instruction with their depths. -/
theorem verifyInstr_nextPcs {m : IrModule} {isUserFb : Bool} {name : String} {pc depth : ℕ}
    {stack : AbsStack} {i : DecodedInstr} {flow : Flow}
    (h : verifyInstr m isUserFb name pc i.size depth stack i = .ok flow) :
    flow.nextPcs = (i.successors pc).map
      fun q => (q, (if i.isUserCall then 1 else 0) + depth) := by
  have heff := verifyInstr_effect rfl h
  rw [verifyInstr_depth] at h
  rcases hzero : verifyInstr m isUserFb name pc i.size 0 stack i with e | flow₀
  · rw [hzero] at h
    cases h
  rw [hzero] at h
  cases h
  have hcalls := verifyInstr_calls hzero
  rw [← heff.succ]
  simp only [deepen, List.map_map]
  refine List.map_congr_left fun q hq => ?_
  simp [hcalls q hq]

section Round

variable {m : IrModule} {isUserFb : Bool} {name : String} {entryPc : ℕ}

/-- What a round does to the recorded pcs and to the depths, when it goes on. -/
theorem verifyStep_go_depth {st st' : VerifyState} (h : verifyStep m isUserFb name st = .go st') :
    ∃ pc stack depth rest, st.work = (pc, stack, depth) :: rest ∧ depth ≤ maxCallDepth ∧
      ((pc ∈ st.seen.map Prod.fst ∧ st'.seen = st.seen ∧ st'.work = rest) ∨
        (pc ∉ st.seen.map Prod.fst ∧ st'.seen = (pc, stack) :: st.seen ∧
          ∃ σ, st'.work =
            ((succs m pc).map fun q => (q, σ, callsAt m pc + depth)) ++ rest)) := by
  obtain ⟨pc, stack, depth, rest, hwork, hdepth,
    ⟨⟨prev, hprev, -⟩, rfl⟩ | ⟨hnew, -, hseen, i, flow, hdec, -, heff, hwork', hv⟩⟩ := verifyStep_go h
  · refine ⟨pc, stack, depth, rest, hwork, hdepth, .inl ⟨?_, rfl, rfl⟩⟩
    exact List.mem_map_of_mem (mem_of_lookup hprev)
  · refine ⟨pc, stack, depth, rest, hwork, hdepth, .inr ⟨?_, hseen, flow.stack, ?_⟩⟩
    · intro hmem
      obtain ⟨⟨q, σ⟩, hq, rfl⟩ := List.mem_map.mp hmem
      have hne := List.lookup_eq_none_iff.mp hnew _ hq
      simp at hne
    · have hsucc : (i.successors pc).reverse = succs m pc := by
        simp only [succs, hdec]
      have hcalls : (if i.isUserCall then 1 else 0) = callsAt m pc := by
        simp only [callsAt, hdec]
      rw [hwork', verifyInstr_nextPcs hv, List.map_map, ← List.map_reverse, hsucc, hcalls]
      rfl

/-! ## Depths are calls on paths -/

variable (m entryPc) in
/-- The loop as a depth-first walk: its pending items are paths, and their depths are the numbers
of calls on them. -/
structure Traced (st : VerifyState) (visited work : List (List ℕ)) : Prop where
  /-- The walk along the paths. -/
  walk : Walk (succs m) entryPc visited work
  /-- The recorded pcs. -/
  seen : st.seen.map Prod.fst = ends visited
  /-- The pending pcs and their depths. -/
  work : st.work.map (fun w => (w.1, w.2.2)) = work.map fun p => (p.headD 0, userCalls m p.tail)

variable (m entryPc) in
/-- The start. -/
theorem Traced.start : Traced m entryPc ⟨[], [(entryPc, [], 0)], false⟩ [] [[entryPc]] :=
  ⟨Walk.start (succs m) entryPc, rfl, rfl⟩

/-- The path of the next item. -/
theorem Traced.next {st : VerifyState} {visited work : List (List ℕ)}
    (h : Traced m entryPc st visited work) {pc depth : ℕ} {stack : AbsStack}
    {rest : List (ℕ × AbsStack × ℕ)} (hwork : st.work = (pc, stack, depth) :: rest) :
    ∃ A rest', work = (pc :: A) :: rest' ∧ depth = userCalls m A ∧
      rest.map (fun w => (w.1, w.2.2)) = rest'.map fun p => (p.headD 0, userCalls m p.tail) := by
  have hitems := h.work
  rw [hwork] at hitems
  rcases hpaths : work with _ | ⟨p, rest'⟩
  · rw [hpaths] at hitems
    cases hitems
  rw [hpaths, List.map_cons, List.map_cons, List.cons.injEq, Prod.mk.injEq] at hitems
  obtain ⟨⟨hpc, hdepth⟩, hrest⟩ := hitems
  have hpc : pc = p.headD 0 := hpc
  -- No pending path is empty.
  rcases h.walk.pending [] p rest' hpaths with rfl | ⟨x, u, A, l₁, l₂, rfl, -, -, -⟩
  · exact ⟨[], rest', by rw [hpc]; rfl, hdepth, hrest⟩
  · exact ⟨u :: A, rest', by rw [hpc]; rfl, hdepth, hrest⟩

/-- **A round that goes on is a step of the walk.** -/
theorem Traced.step {st st' : VerifyState} {visited work : List (List ℕ)}
    (h : Traced m entryPc st visited work) (hgo : verifyStep m isUserFb name st = .go st') :
    ∃ v A rest, work = (v :: A) :: rest ∧ userCalls m A ≤ maxCallDepth ∧
      (Traced m entryPc st' visited rest ∨
        Traced m entryPc st' ((v :: A) :: visited)
          (((succs m v).map fun x => x :: v :: A) ++ rest)) := by
  obtain ⟨pc, stack, depth, rest, hwork, hdepth, hcases⟩ := verifyStep_go_depth hgo
  obtain ⟨A, rest', rfl, rfl, hrest⟩ := h.next hwork
  refine ⟨pc, A, rest', rfl, hdepth, ?_⟩
  rcases hcases with ⟨hold, hseen, hwork'⟩ | ⟨hnew, hseen, σ, hwork'⟩
  · rw [h.seen] at hold
    exact .inl ⟨h.walk.skip hold, by rw [hseen, h.seen], by rw [hwork', hrest]⟩
  · rw [h.seen] at hnew
    refine .inr ⟨h.walk.visit hnew, ?_, ?_⟩
    · rw [hseen, List.map_cons, h.seen, ends_cons]
    · rw [hwork', List.map_append, List.map_append, hrest, List.map_map, List.map_map]
      rfl

/-! ## Rejection -/

/-- A pc without successors makes no call. -/
theorem callsAt_of_succs_nil {pc : ℕ} (h : succs m pc = []) : callsAt m pc = 0 := by
  unfold succs at h
  unfold callsAt
  rcases hdec : decodeInstruction m.code pc with e | ⟨i, n⟩
  · rfl
  · rw [hdec] at h
    cases i with
    | simple op payload => rfl
    | withImm32 op payload imm => rfl
    | callFb fbKind fbId base => simp [DecodedInstr.successors] at h

/-- The calls on visited paths are within the limit, or are still to be checked. -/
def Within (m : IrModule) (entryPc : ℕ) (st : VerifyState) : Prop :=
  ∃ visited work, Traced m entryPc st visited work ∧
    ∀ p ∈ visited, userCalls m p ≤ maxCallDepth ∨ ∃ x, x :: p ∈ work

theorem Within.step {st st' : VerifyState} (h : Within m entryPc st)
    (hgo : verifyStep m isUserFb name st = .go st') : Within m entryPc st' := by
  obtain ⟨visited, work, htraced, hpassed⟩ := h
  obtain ⟨v, A, rest, rfl, hA, hnext⟩ := htraced.step hgo
  -- What waited for the item was within the limit.
  have hrest : ∀ q ∈ visited, userCalls m q ≤ maxCallDepth ∨ ∃ x, x :: q ∈ rest := by
    intro q hq
    rcases hpassed q hq with hle | ⟨x, hx⟩
    · exact .inl hle
    · rcases List.mem_cons.mp hx with heq | hx
      · obtain ⟨-, rfl⟩ := List.cons_eq_cons.mp heq
        exact .inl hA
      · exact .inr ⟨x, hx⟩
  rcases hnext with hskip | hvisit
  · exact ⟨visited, rest, hskip, hrest⟩
  · refine ⟨_, _, hvisit, ?_⟩
    intro q hq
    rcases List.mem_cons.mp hq with rfl | hq
    · rcases hsucc : succs m v with _ | ⟨x, l⟩
      · left
        rw [userCalls_cons, callsAt_of_succs_nil hsucc, Nat.zero_add]
        exact hA
      · exact .inr ⟨x, by simp⟩
    · rcases hrest q hq with hle | ⟨x, hx⟩
      · exact .inl hle
      · exact .inr ⟨x, List.mem_append_right _ hx⟩

/-- When the work list is empty every first path is within the limit. -/
theorem Within.first {st : VerifyState} (h : Within m entryPc st) (hwork : st.work = [])
    {p : List ℕ} (hp : FirstPath (succs m) entryPc p) : userCalls m p ≤ maxCallDepth := by
  obtain ⟨visited, work, htraced, hpassed⟩ := h
  have hnil : work = [] := by
    have hitems := htraced.work
    rw [hwork] at hitems
    exact List.map_eq_nil_iff.mp hitems.symm
  subst hnil
  rcases hpassed p ((htraced.walk.visited_iff p).mpr hp) with hle | ⟨x, hx⟩
  · exact hle
  · cases hx

/-- **An accepted entry makes at most 32 calls on every first path.** -/
theorem calls_le_of_accepted {seen : Seen}
    (h : verifyEntrySeen m entryPc isUserFb name = .ok seen) {p : List ℕ}
    (hp : FirstPath (succs m) entryPc p) : userCalls m p ≤ maxCallDepth := by
  have hinit : Within m entryPc ⟨[], [(entryPc, [], 0)], false⟩ :=
    ⟨[], [[entryPc]], Traced.start m entryPc, fun _ hmem => nomatch hmem⟩
  have hpost : ∀ seen', verifyEntrySeen m entryPc isUserFb name = .ok seen' →
      userCalls m p ≤ maxCallDepth := by
    refine iterate_post (Q := fun r => ∀ seen', r = .ok seen' → userCalls m p ≤ maxCallDepth)
      (fun _ _ hinv hgo => Within.step hinv hgo) ?_ ?_ _ _ hinit
    · rintro st r hinv hstop seen' rfl
      exact hinv.first (verifyStep_stop_ok hstop).1 hp
    · intro st _ seen' h'
      cases h'
  exact hpost seen h

/-! ## Acceptance -/

/-- Within the limit a round does not depend on the depths. -/
theorem verifyStep_noDepth {st : VerifyState}
    (hdepth : ∀ w ∈ st.work.head?, w.2.2 ≤ maxCallDepth) :
    (∀ t, verifyStep m isUserFb name (noDepth st) = .go t →
      ∃ st', verifyStep m isUserFb name st = .go st' ∧ noDepth st' = noDepth t) ∧
    ∀ r, verifyStep m isUserFb name (noDepth st) = .stop r →
      verifyStep m isUserFb name st = .stop r := by
  obtain ⟨seen, work, endedOk⟩ := st
  rcases work with _ | ⟨⟨pc, stack, depth⟩, rest⟩
  · refine ⟨fun t ht => ?_, fun r hr => hr⟩
    simp only [verifyStep, noDepth, List.map_nil] at ht
    split_ifs at ht
  have hle : ¬ depth > maxCallDepth := Nat.not_lt.mpr (hdepth _ rfl)
  have hle₀ : ¬ 0 > maxCallDepth := Nat.not_lt_zero _
  simp only [verifyStep, noDepth, List.map_cons, if_neg hle, if_neg hle₀]
  rcases hseen : seen.lookup pc with _ | prev
  · by_cases hlen : pc ≥ m.code.length
    · simp only [if_pos hlen]
      exact ⟨nofun, fun r hr => hr⟩
    simp only [if_neg hlen]
    rcases hdec : decodeInstruction m.code pc with e | ⟨i, size⟩
    · exact ⟨nofun, fun r hr => hr⟩
    simp only [verifyInstr_depth m isUserFb name pc size depth stack i]
    rcases verifyInstr m isUserFb name pc size 0 stack i with e | flow
    · exact ⟨nofun, fun r hr => hr⟩
    simp only [Except.map]
    by_cases hterm : flow.terminal = true
    · simp only [deepen, hterm, if_true]
      refine ⟨fun t ht => ?_, nofun⟩
      cases ht
      exact ⟨_, rfl, by simp⟩
    · simp only [deepen, hterm]
      by_cases hnil : flow.nextPcs = []
      · simp only [hnil]
        exact ⟨nofun, fun r hr => hr⟩
      · simp only [hnil, if_false, List.map_eq_nil_iff]
        refine ⟨fun t ht => ?_, nofun⟩
        cases ht
        exact ⟨_, rfl, by simp [Function.comp_def]⟩
  · by_cases hcompat : stacksCompatible prev stack = true
    · simp only [hcompat, if_true]
      refine ⟨fun t ht => ?_, nofun⟩
      cases ht
      exact ⟨_, rfl, by simp⟩
    · simp only [hcompat]
      exact ⟨nofun, fun r hr => hr⟩

/-- The next item is within the limit, when every first path is. -/
theorem Traced.head_le {st : VerifyState} {visited work : List (List ℕ)}
    (h : Traced m entryPc st visited work)
    (hcalls : ∀ p, FirstPath (succs m) entryPc p → userCalls m p ≤ maxCallDepth) :
    ∀ w ∈ st.work.head?, w.2.2 ≤ maxCallDepth := by
  intro w hw
  obtain ⟨rest, hwork⟩ : ∃ rest, st.work = w :: rest := by
    rcases hst : st.work with _ | ⟨w', rest⟩
    · rw [hst] at hw
      cases hw
    · rw [hst] at hw
      cases hw
      exact ⟨rest, rfl⟩
  obtain ⟨pc, stack, depth⟩ := w
  obtain ⟨A, rest', rfl, rfl, -⟩ := h.next hwork
  rcases hA : A with _ | ⟨u, B⟩
  · exact Nat.zero_le _
  · have hvisited : A ∈ visited := h.walk.tail_mem (t := u) (by simp [hA])
    rw [← hA]
    exact hcalls A (h.walk.first A hvisited)

/-- **Where every first path makes at most 32 calls, the other rules decide.** -/
theorem verifyEntrySeen_eq_of_calls_le
    (hcalls : ∀ p, FirstPath (succs m) entryPc p → userCalls m p ≤ maxCallDepth) :
    verifyEntrySeen m entryPc isUserFb name = otherRulesSeen m entryPc isUserFb name := by
  refine iterate_eq_of_sim (R := fun st t => noDepth st = noDepth t ∧
    ∃ visited work, Traced m entryPc st visited work) ?_ ?_ (fun _ _ _ => rfl) _ _ _
    ⟨rfl, [], [[entryPc]], Traced.start m entryPc⟩
  · rintro st t t' ⟨hsame, visited, work, htraced⟩ hgo
    rw [← hsame] at hgo
    obtain ⟨st', hst', hsame'⟩ := (verifyStep_noDepth (htraced.head_le hcalls)).1 t' hgo
    obtain ⟨v, A, rest, -, -, htraced' | htraced'⟩ := htraced.step hst'
    · exact ⟨st', hst', hsame', _, _, htraced'⟩
    · exact ⟨st', hst', hsame', _, _, htraced'⟩
  · rintro st t r ⟨hsame, visited, work, htraced⟩ hstop
    rw [← hsame] at hstop
    exact (verifyStep_noDepth (htraced.head_le hcalls)).2 r hstop

end Round

/-! ## Modules -/

/-- The checks of an entry, one by one. -/
theorem verifyEntryPoint_ok_iff {m : IrModule} {e : EntryPoint} :
    verifyEntryPoint m e = .ok () ↔ (m.code ≠ [] → e.pc < m.code.length) ∧ e.pc % 4 = 0 ∧
      (verifyEntrySeen m e.pc e.isUserFb e.name).isOk = true := by
  unfold verifyEntryPoint
  split_ifs with hpc haligned
  · simp only [false_iff, not_and]
    exact fun h => absurd (h hpc.2) (Nat.not_lt.mpr hpc.1)
  · simp [haligned]
  · rw [verifyEntry]
    rcases verifyEntrySeen m e.pc e.isUserFb e.name with err | seen
    · simp [Except.map, Except.isOk, Except.toBool]
    · simp only [Except.map, Except.isOk, Except.toBool, true_iff]
      exact ⟨fun hcode => Nat.lt_of_not_ge fun hge => hpc ⟨hge, hcode⟩, not_not.mp haligned, trivial⟩

/-- The checks of a module: those of its header and those of each entry. -/
theorem verifyModule_ok_iff {m : IrModule} :
    verifyModule m = .ok () ↔ verifyModule { m with entries := [] } = .ok () ∧
      ∀ e ∈ m.entries, verifyEntryPoint m e = .ok () := by
  unfold verifyModule
  split_ifs
  · simp
  · simp
  · simp
  · simp
  · simp
  · exact ⟨fun h => ⟨rfl, except_forM_ok h⟩, fun h => except_forM_ok_iff.mpr h.2⟩

/-- **Rule 5 counts the calls on first paths.** A module that passes every other check is accepted
exactly when no first path of an entry makes more than 32 user calls. -/
theorem call_depth_iff {m : IrModule} (h : OtherRules m) :
    verifyModule m = .ok () ↔ ∀ e ∈ m.entries, ∀ p, FirstPath (succs m) e.pc p →
      userCalls m p ≤ maxCallDepth := by
  obtain ⟨hheader, hentries⟩ := h
  rw [verifyModule_ok_iff]
  constructor
  · rintro ⟨-, hok⟩ e he p hp
    obtain ⟨-, -, hseen⟩ := verifyEntryPoint_ok_iff.mp (hok e he)
    rcases hv : verifyEntrySeen m e.pc e.isUserFb e.name with err | seen
    · rw [hv] at hseen
      cases hseen
    · exact calls_le_of_accepted hv hp
  · intro hcalls
    refine ⟨hheader, fun e he => verifyEntryPoint_ok_iff.mpr ?_⟩
    obtain ⟨hpc, haligned, hother⟩ := hentries e he
    rw [verifyEntrySeen_eq_of_calls_le (hcalls e he)]
    exact ⟨hpc, haligned, hother⟩

/-- `task.main` calls `fb.0` so many times, one after another; `fb.0` only returns. -/
def sequentialModule (n : ℕ) : IrModule where
  irMajor := 0
  irMinor := 1
  constSize := 0
  dataSize := 0
  retainSize := 0
  inputSlots := 0
  outputSlots := 0
  entries := [⟨"task.main", 0, false⟩, ⟨"fb.0", 12 * n + 4, true⟩]
  constData := []
  code := (List.replicate n (DecodedInstr.callFb 1 0 0) ++
    [DecodedInstr.simple .halt 0, .simple .ret 0]).flatMap encodeInstruction

/-- With 32 calls the module is accepted, and its paths are within the limit. -/
theorem call_depth_of_32_calls :
    OtherRules (sequentialModule 32) ∧ ∀ e ∈ (sequentialModule 32).entries, ∀ p,
      FirstPath (succs (sequentialModule 32)) e.pc p →
        userCalls (sequentialModule 32) p ≤ maxCallDepth := by
  have hother : OtherRules (sequentialModule 32) := by decide +kernel
  exact ⟨hother, (call_depth_iff hother).mp (by decide +kernel)⟩

/-- A property of the instructions of a list of pcs that is closed under static successors. -/
def allClosed (m : IrModule) (pcs : List ℕ) (p : DecodedInstr → Bool) : Bool :=
  pcs.all fun pc =>
    match decodeInstruction m.code pc with
    | .ok (i, _) => p i && (i.successors pc).all pcs.contains
    | .error _ => true

/-- What holds on a closed list of pcs holds at every pc reachable from it. -/
theorem allReach_of_closed {m : IrModule} (pcs : List ℕ) {p : DecodedInstr → Bool} {entryPc : ℕ}
    (h : allClosed m pcs p = true) (hentry : entryPc ∈ pcs) :
    AllReach m entryPc fun _ i => p i = true := by
  have hat : ∀ {pc i n}, pc ∈ pcs → decodeInstruction m.code pc = .ok (i, n) →
      p i = true ∧ ∀ q ∈ i.successors pc, q ∈ pcs := by
    intro pc i n hpc hdec
    have := List.all_eq_true.mp h pc hpc
    simpa [hdec] using this
  have hmem : ∀ {pc}, Reach m entryPc pc → pc ∈ pcs := by
    intro pc hr
    induction hr with
    | refl => exact hentry
    | tail _ hstep ih =>
        obtain ⟨i, n, hdec, hq⟩ := hstep
        exact (hat ih hdec).2 _ hq
  intro pc i n hr hdec
  exact (hat (hmem hr) hdec).1

/-- With 33 calls of a block that makes none itself the module is rejected: every call is
registered and no chain of calls is longer than one, yet rule 5 fails. -/
theorem sequential_calls_rejected :
    OtherRules (sequentialModule 33) ∧
      (∀ e ∈ (sequentialModule 33).entries,
        CallsOk (sequentialModule 33) (userFbTable (sequentialModule 33).entries) 1 e.pc) ∧
      verifyModule (sequentialModule 33) =
        .error ⟨5, "call depth > 32 in task.main"⟩ := by
  have hbody : NoUserCall (sequentialModule 33) 400 := by
    intro pc i n hr hdec
    have := allReach_of_closed [400] (p := fun i => !i.isUserCall)
      (by decide +kernel) (by decide) pc i n hr hdec
    simpa using this
  have htask : AllReach (sequentialModule 33) 0 fun _ i =>
      (!i.isUserCall || i == .callFb 1 0 0) = true :=
    allReach_of_closed ((List.range 34).map (12 * ·)) (by decide +kernel) (by decide)
  refine ⟨by decide +kernel, ?_, by decide +kernel⟩
  rintro e he
  simp only [sequentialModule, List.mem_cons, List.not_mem_nil, or_false] at he
  rcases he with rfl | rfl
  · rintro pc i n hr hdec fbKind fbId base rfl hkind
    have hcall := htask pc _ n hr hdec
    simp only [DecodedInstr.isUserCall, Bool.or_eq_true, Bool.not_eq_true',
      bne_eq_false_iff_eq, beq_iff_eq, DecodedInstr.callFb.injEq] at hcall
    obtain h | ⟨rfl, rfl, rfl⟩ := hcall
    · exact absurd h hkind
    · exact ⟨400, rfl, hbody⟩
  · exact .of_noUserCall hbody 1

end SoftPlc.Vm
