import SoftPlc.Ir.Effect

/-!
# What an accepted entry guarantees

The record with which the walk of an entry ends is a certificate (`Certified`): the entry is
recorded with the empty stack, every recorded pc decodes and passes its checks, and every
successor of a recorded pc is recorded with a compatible stack. `verifyEntrySeen_certified`
derives it from the loop by the invariant `Pending`, in which an obligation that is not met yet is
still on the work list.

`verifyEntrySeen_stops` shows that the fuel of the loop is never used up: each round either
shortens the work list or records a new pc of the code.
-/

namespace SoftPlc.Ir

open SoftPlc.Lib

/-! ## Compatible stacks -/

/-- Compatible stacks are equally deep. -/
theorem stacksCompatible_length {a b : AbsStack} (h : stacksCompatible a b = true) :
    a.length = b.length := by
  simp only [stacksCompatible, Bool.and_eq_true, beq_iff_eq] at h
  exact h.1

/-- A stack is compatible with itself. -/
theorem stacksCompatible_refl (a : AbsStack) : stacksCompatible a a = true := by
  induction a with
  | nil => rfl
  | cons t a ih =>
      cases t <;> simpa [stacksCompatible, typesCompatible] using ih

/-- At every position, compatible stacks agree or one of them does not know. -/
theorem stacksCompatible_get {a b : AbsStack} (h : stacksCompatible a b = true) {k : ℕ}
    {t u : IrType} (ha : a[k]? = some (some t)) (hb : b[k]? = some (some u)) : t = u := by
  simp only [stacksCompatible, Bool.and_eq_true, List.all_eq_true] at h
  have hz : (a.zip b)[k]? = some (some t, some u) := by
    rw [List.getElem?_zip_eq_some]
    exact ⟨ha, hb⟩
  have := h.2 _ (List.mem_of_getElem? hz)
  simpa [typesCompatible] using this

/-! ## Certificates -/

/-- A pc is recorded with a stack that lets an arrival pass. -/
def Meets (seen : Seen) (pc : ℕ) (stack : AbsStack) : Prop :=
  ∃ recorded, seen.lookup pc = some recorded ∧ stacksCompatible recorded stack = true

/-- What holds at a recorded pc. -/
structure CertifiedAt (m : IrModule) (isUserFb : Bool) (pc : ℕ) (stack : AbsStack)
    (i : DecodedInstr) : Prop where
  /-- It decodes. -/
  decodes : decodeInstruction m.code pc = .ok (i, i.size)
  /-- It has the shape its opcode requires. -/
  wellFormed : i.WellFormed
  /-- The operands are there. -/
  pops_le : i.pops ≤ stack.length
  /-- There is room for the results. -/
  room : i.pushes = 0 ∨ stack.length - i.pops + i.pushes ≤ maxStack
  /-- It passed its own checks. -/
  checked : i.Checked m isUserFb stack

/-- The record of a successful walk. -/
structure Certified (m : IrModule) (isUserFb : Bool) (entryPc : ℕ) (seen : Seen) : Prop where
  /-- The entry is recorded with the empty stack. -/
  entry : seen.lookup entryPc = some []
  /-- Every recorded pc passed, and its successors are recorded with compatible stacks. -/
  step : ∀ {pc stack}, seen.lookup pc = some stack → ∃ i, CertifiedAt m isUserFb pc stack i ∧
    ∀ q ∈ i.successors pc, Meets seen q (i.outTypes stack ++ stack.drop i.pops)

/-- Every pc that is reachable from a certified entry is recorded. -/
theorem Certified.recorded_of_reach {m : IrModule} {isUserFb : Bool} {entryPc : ℕ} {seen : Seen}
    (h : Certified m isUserFb entryPc seen) {pc : ℕ} (hr : Reach m entryPc pc) :
    ∃ stack, seen.lookup pc = some stack := by
  induction hr with
  | refl => exact ⟨[], h.entry⟩
  | tail _ hstep ih =>
      obtain ⟨stack, hstack⟩ := ih
      obtain ⟨i, hi, hsucc⟩ := h.step hstack
      obtain ⟨j, n, hj, hq⟩ := hstep
      rw [hi.decodes] at hj
      cases hj
      obtain ⟨recorded, hrec, -⟩ := hsucc _ hq
      exact ⟨recorded, hrec⟩

/-- A property of every instruction at a recorded pc. -/
def allRecorded (m : IrModule) (seen : Seen) (p : DecodedInstr → Bool) : Bool :=
  seen.all fun r =>
    match decodeInstruction m.code r.1 with
    | .ok (i, _) => p i
    | .error _ => true

/-- What holds at every recorded pc of a certificate holds at every reachable pc. -/
theorem Certified.allReach {m : IrModule} {isUserFb : Bool} {entryPc : ℕ} {seen : Seen}
    {p : DecodedInstr → Bool} (h : Certified m isUserFb entryPc seen)
    (hp : allRecorded m seen p = true) : AllReach m entryPc fun _ i => p i = true := by
  intro pc i n hr hdec
  obtain ⟨stack, hlook⟩ := h.recorded_of_reach hr
  have := List.all_eq_true.mp hp (pc, stack) (mem_of_lookup hlook)
  simpa [hdec] using this

/-- A record without user calls shows that none is reachable. -/
theorem Certified.noUserCall {m : IrModule} {isUserFb : Bool} {entryPc : ℕ} {seen : Seen}
    (h : Certified m isUserFb entryPc seen)
    (hp : allRecorded m seen (fun i => !i.isUserCall) = true) : NoUserCall m entryPc := by
  intro pc i n hr hdec
  have := h.allReach hp pc i n hr hdec
  simpa using this

/-! ## The invariant of the work-list loop -/

section Loop

variable {m : IrModule} {isUserFb : Bool} {name : String} {entryPc : ℕ}

/-- An obligation of the loop: met by the record, or still on the work list. -/
def Pending (st : VerifyState) (pc : ℕ) (stack : AbsStack) : Prop :=
  Meets st.seen pc stack ∨ ∃ depth, (pc, stack, depth) ∈ st.work

/-- The loop invariant: a certificate up to pending obligations. -/
structure LoopInv (m : IrModule) (isUserFb : Bool) (entryPc : ℕ) (st : VerifyState) : Prop where
  /-- The entry is pending with the empty stack. -/
  entry : Pending st entryPc []
  /-- Every recorded pc passed, and its successors are pending. -/
  step : ∀ {pc stack}, st.seen.lookup pc = some stack → ∃ i, CertifiedAt m isUserFb pc stack i ∧
    ∀ q ∈ i.successors pc, Pending st q (i.outTypes stack ++ stack.drop i.pops)

/-- What a round of the loop does when it goes on: it drops an item that the record meets, or it
records a new pc, whose successors it puts on the work list. -/
theorem verifyStep_go {st st' : VerifyState}
    (h : verifyStep m isUserFb name st = .go st') :
    ∃ pc stack depth rest, st.work = (pc, stack, depth) :: rest ∧ depth ≤ maxCallDepth ∧
      ((Meets st.seen pc stack ∧ st' = { st with work := rest }) ∨
        (st.seen.lookup pc = none ∧ pc < m.code.length ∧ st'.seen = (pc, stack) :: st.seen ∧
          ∃ i flow, decodeInstruction m.code pc = .ok (i, i.size) ∧ i.WellFormed ∧
            FollowsEffect m isUserFb pc stack i flow ∧
            st'.work = (flow.nextPcs.map fun p => (p.1, flow.stack, p.2)).reverse ++ rest ∧
            verifyInstr m isUserFb name pc i.size depth stack i = .ok flow)) := by
  unfold verifyStep at h
  rcases hwork : st.work with _ | ⟨⟨pc, stack, depth⟩, rest⟩
  · simp only [hwork] at h
    split_ifs at h
  simp only [hwork] at h
  by_cases hdepth : depth > maxCallDepth
  · rw [if_pos hdepth] at h
    cases h
  rw [if_neg hdepth] at h
  refine ⟨pc, stack, depth, rest, rfl, Nat.le_of_not_gt hdepth, ?_⟩
  rcases hseen : st.seen.lookup pc with _ | prev
  · right
    simp only [hseen] at h
    by_cases hlen : pc ≥ m.code.length
    · rw [if_pos hlen] at h
      cases h
    rw [if_neg hlen] at h
    rcases hdec : decodeInstruction m.code pc with e | ⟨i, size⟩
    · simp only [hdec] at h
      cases h
    obtain ⟨hsize, -, hwf⟩ := decodeInstruction_ok hdec
    simp only [hdec] at h
    rcases hv : verifyInstr m isUserFb name pc size depth stack i with e | flow
    · simp only [hv] at h
      cases h
    have heff := verifyInstr_effect hsize hv
    simp only [hv] at h
    refine ⟨rfl, Nat.lt_of_not_ge hlen, ?_⟩
    split_ifs at h with hterm hnext
    · cases h
      refine ⟨rfl, i, flow, hsize ▸ rfl, hwf, heff, ?_, hsize ▸ hv⟩
      have hnil : flow.nextPcs = [] := by
        rw [← List.map_eq_nil_iff, heff.succ]
        exact heff.terminal.mp hterm
      simp [hnil]
    · cases h
      exact ⟨rfl, i, flow, hsize ▸ rfl, hwf, heff, rfl, hsize ▸ hv⟩
  · left
    simp only [hseen] at h
    split_ifs at h with hcompat
    cases h
    exact ⟨⟨prev, hseen, hcompat⟩, rfl⟩

/-- What the record meets stays met when a new pc is recorded. -/
theorem Meets.cons {seen : Seen} {pc q : ℕ} {stack σ : AbsStack} (hnew : seen.lookup pc = none)
    (h : Meets seen q σ) : Meets ((pc, stack) :: seen) q σ := by
  obtain ⟨recorded, hrec, hcompat⟩ := h
  have hne : q ≠ pc := by
    rintro rfl
    rw [hnew] at hrec
    cases hrec
  exact ⟨recorded, by rw [List.lookup_cons, beq_false_of_ne hne, hrec], hcompat⟩

/-- The obligation that a fresh record meets. -/
theorem Meets.head (seen : Seen) (pc : ℕ) (stack : AbsStack) :
    Meets ((pc, stack) :: seen) pc stack :=
  ⟨stack, by simp, stacksCompatible_refl stack⟩

/-- A round of the loop keeps every obligation pending. -/
theorem Pending.step {st st' : VerifyState} {q : ℕ} {σ : AbsStack}
    (h : verifyStep m isUserFb name st = .go st') (hp : Pending st q σ) : Pending st' q σ := by
  obtain ⟨pc, stack, depth, rest, hwork, -,
    ⟨hmeets, rfl⟩ | ⟨hnew, -, hseen, i, flow, -, -, -, hwork', -⟩⟩ := verifyStep_go h
  · rcases hp with hp | ⟨d, hp⟩
    · exact .inl hp
    · rw [hwork, List.mem_cons] at hp
      rcases hp with hp | hp
      · cases hp
        exact .inl hmeets
      · exact .inr ⟨d, hp⟩
  · rcases hp with hp | ⟨d, hp⟩
    · exact .inl (hseen ▸ hp.cons hnew)
    · rw [hwork, List.mem_cons] at hp
      rcases hp with hp | hp
      · cases hp
        exact .inl (hseen ▸ Meets.head _ _ _)
      · exact .inr ⟨d, by rw [hwork']; exact List.mem_append_right _ hp⟩

/-- A round of the loop keeps the invariant. -/
theorem LoopInv.step_go {st st' : VerifyState} (hinv : LoopInv m isUserFb entryPc st)
    (h : verifyStep m isUserFb name st = .go st') : LoopInv m isUserFb entryPc st' := by
  refine ⟨hinv.entry.step h, ?_⟩
  -- A pc recorded before keeps its successors pending; the new pc has put them on the work list.
  have hold : ∀ {pc stack}, st.seen.lookup pc = some stack →
      ∃ i, CertifiedAt m isUserFb pc stack i ∧
        ∀ q ∈ i.successors pc, Pending st' q (i.outTypes stack ++ stack.drop i.pops) := by
    intro pc stack hlook
    obtain ⟨i, hi, hsucc⟩ := hinv.step hlook
    exact ⟨i, hi, fun q hq => (hsucc q hq).step h⟩
  obtain ⟨pc, stack, depth, rest, -, -,
    ⟨-, rfl⟩ | ⟨-, -, hseen, i, flow, hdec, hwf, heff, hwork', -⟩⟩ := verifyStep_go h
  · intro pc' stack' hlook
    exact hold hlook
  · intro pc' stack' hlook
    rw [hseen, List.lookup_cons] at hlook
    by_cases heq : pc' = pc
    · subst heq
      rw [beq_self_eq_true] at hlook
      cases hlook
      refine ⟨i, ⟨hdec, hwf, heff.pops_le, heff.room, heff.checked⟩, ?_⟩
      intro q hq
      rw [← heff.succ, List.mem_map] at hq
      obtain ⟨⟨q', d⟩, hmem, rfl⟩ := hq
      refine .inr ⟨d, ?_⟩
      rw [hwork', ← heff.stack_eq]
      exact List.mem_append_left _ (List.mem_reverse.mpr (List.mem_map.mpr ⟨_, hmem, rfl⟩))
    · rw [beq_false_of_ne heq] at hlook
      exact hold hlook

/-- When the work list is empty the invariant is a certificate. -/
theorem LoopInv.certified {st : VerifyState} (hinv : LoopInv m isUserFb entryPc st)
    (hwork : st.work = []) : Certified m isUserFb entryPc st.seen := by
  have hmet : ∀ {q σ}, Pending st q σ → Meets st.seen q σ := by
    rintro q σ (h | ⟨d, h⟩)
    · exact h
    · rw [hwork] at h
      cases h
  refine ⟨?_, ?_⟩
  · obtain ⟨recorded, hrec, hcompat⟩ := hmet hinv.entry
    rw [hrec, List.eq_nil_of_length_eq_zero (stacksCompatible_length hcompat)]
  · intro pc stack hlook
    obtain ⟨i, hi, hsucc⟩ := hinv.step hlook
    exact ⟨i, hi, fun q hq => hmet (hsucc q hq)⟩

/-- The loop answers with a record only when the work list is empty. -/
theorem verifyStep_stop_ok {st : VerifyState} {seen : Seen}
    (h : verifyStep m isUserFb name st = .stop (.ok seen)) : st.work = [] ∧ seen = st.seen := by
  unfold verifyStep at h
  rcases hwork : st.work with _ | ⟨⟨pc, stack, depth⟩, rest⟩
  · simp only [hwork] at h
    split_ifs at h
    · cases h
      exact ⟨rfl, rfl⟩
    · cases h
  · exfalso
    simp only [hwork] at h
    repeat' split at h
    all_goals cases h

/-- **An accepted entry has a certificate.** -/
theorem verifyEntrySeen_certified {seen : Seen}
    (h : verifyEntrySeen m entryPc isUserFb name = .ok seen) :
    Certified m isUserFb entryPc seen := by
  have hinit : LoopInv m isUserFb entryPc ⟨[], [(entryPc, [], 0)], false⟩ :=
    ⟨.inr ⟨0, List.mem_singleton_self _⟩, fun hlook => nomatch hlook⟩
  have hpost : ∀ seen', verifyEntrySeen m entryPc isUserFb name = .ok seen' →
      Certified m isUserFb entryPc seen' := by
    refine iterate_post (Q := fun r => ∀ seen', r = .ok seen' → Certified m isUserFb entryPc seen')
      (fun _ _ hinv hgo => LoopInv.step_go hinv hgo) ?_ ?_ _ _ hinit
    · rintro st r hinv hstop seen' rfl
      obtain ⟨hwork, rfl⟩ := verifyStep_stop_ok hstop
      exact hinv.certified hwork
    · intro st _ seen' h'
      cases h'
  exact hpost seen h

/-! ## Termination -/

/-- Pcs of the code that are not recorded yet. -/
def unseen (m : IrModule) (seen : Seen) : Finset ℕ :=
  (Finset.range m.code.length).filter fun pc => seen.lookup pc = none

/-- Whether a pc is unrecorded. -/
theorem mem_unseen {seen : Seen} {pc : ℕ} :
    pc ∈ unseen m seen ↔ pc < m.code.length ∧ seen.lookup pc = none := by
  rw [unseen, Finset.mem_filter, Finset.mem_range]

/-- Recording a pc of the code leaves fewer unrecorded. -/
theorem unseen_cons_lt {seen : Seen} {pc : ℕ} (stack : AbsStack) (hnew : seen.lookup pc = none)
    (hpc : pc < m.code.length) : (unseen m ((pc, stack) :: seen)).card < (unseen m seen).card := by
  have hsub : unseen m ((pc, stack) :: seen) ⊆ unseen m seen := by
    intro q hq
    rw [mem_unseen, List.lookup_cons] at hq
    rw [mem_unseen]
    refine ⟨hq.1, ?_⟩
    by_cases heq : q = pc
    · exact heq ▸ hnew
    · simpa [beq_false_of_ne heq] using hq.2
  refine Finset.card_lt_card ((Finset.ssubset_iff_of_subset hsub).mpr ⟨pc, ?_, ?_⟩)
  · exact mem_unseen.mpr ⟨hpc, hnew⟩
  · simp [mem_unseen]

/-- An instruction has at most two static successors. -/
theorem DecodedInstr.successors_length (pc : ℕ) (i : DecodedInstr) :
    (i.successors pc).length ≤ 2 := by
  unfold successors
  split <;> simp

/-- A round that goes on lowers the measure: pending items, and two for each pc to record. -/
theorem verifyStep_measure {st st' : VerifyState} (h : verifyStep m isUserFb name st = .go st') :
    st'.work.length + 2 * (unseen m st'.seen).card <
      st.work.length + 2 * (unseen m st.seen).card := by
  obtain ⟨pc, stack, depth, rest, hwork, -,
    ⟨-, rfl⟩ | ⟨hnew, hpc, hseen, i, flow, -, -, heff, hwork', -⟩⟩ := verifyStep_go h
  · rw [hwork]
    simp
  · have hlt := unseen_cons_lt stack hnew hpc
    have hsucc := i.successors_length pc
    rw [← heff.succ, List.length_map] at hsucc
    rw [hwork, hwork', hseen]
    simp only [List.length_append, List.length_reverse, List.length_map, List.length_cons]
    omega

/-- **The walk of an entry ends by itself**: its answer comes from a round of the loop, never from
the fuel. -/
theorem verifyEntrySeen_stops (m : IrModule) (entryPc : ℕ) (isUserFb : Bool) (name : String) :
    ∃ k st r, Steps (verifyStep m isUserFb name) k ⟨[], [(entryPc, [], 0)], false⟩ st ∧
      verifyStep m isUserFb name st = .stop r ∧
      verifyEntrySeen m entryPc isUserFb name = r := by
  have hcard : (unseen m []).card ≤ m.code.length := by
    calc (unseen m []).card ≤ (Finset.range m.code.length).card := Finset.card_filter_le _ _
      _ = m.code.length := Finset.card_range _
  obtain ⟨k, st, r, -, hsteps, hstop, heq⟩ :
      ∃ k st r, k < verifyFuel m ∧
        Steps (verifyStep m isUserFb name) k ⟨[], [(entryPc, [], 0)], false⟩ st ∧
        verifyStep m isUserFb name st = .stop r ∧
        verifyEntrySeen m entryPc isUserFb name = r :=
    iterate_stops (fun st => st.work.length + 2 * (unseen m st.seen).card)
      (fun _ _ h => verifyStep_measure h) _ _ (by simp only [verifyFuel, List.length_singleton]; omega)
  exact ⟨k, st, r, hsteps, hstop, heq⟩

end Loop

/-! ## Modules -/

/-- Every entry of an accepted module has a certified record. -/
theorem verifyModule_certified {m : IrModule} (h : verifyModule m = .ok ()) {e : EntryPoint}
    (he : e ∈ m.entries) :
    ∃ seen, verifyEntrySeen m e.pc e.isUserFb e.name = .ok seen ∧
      Certified m e.isUserFb e.pc seen := by
  unfold verifyModule at h
  split_ifs at h
  have hentry := except_forM_ok h e he
  unfold verifyEntryPoint at hentry
  split_ifs at hentry
  rcases hseen : verifyEntrySeen m e.pc e.isUserFb e.name with err | seen
  · rw [verifyEntry, hseen] at hentry
    cases hentry
  · exact ⟨seen, rfl, verifyEntrySeen_certified hseen⟩

end SoftPlc.Ir
