import SoftPlc.Vm.Verified

/-!
# Calls of user function blocks

Properties of runs that enter and leave function-block bodies. `Nested P` says that a predicate `P`
of the call depth and the pc holds of the current pc and of every return pc on the frame stack; a
step keeps it (`Nested.step`) when `P` is closed under static successors and under entering a
callee (`BodyClosed`).

* `calls_never_fault`: no call is too deep and none is unknown, when the reachable calls of the
  code form chains of at most 32 registered bodies.
* `entry_result`: a task entry that reaches no `RET` ends in `HALT`, and a function-block entry
  ends in `RET`.
-/

namespace SoftPlc.Vm

open SoftPlc.Ir SoftPlc.Lib

/-! ## Predicates of bodies along runs -/

/-- `P` holds of the current pc at the current depth, and of every return pc at its depth. -/
def Nested (P : ℕ → ℕ → Prop) : ℕ → List Frame → Prop
  | pc, [] => P 0 pc
  | pc, frame :: rest => P (rest.length + 1) pc ∧ Nested P frame.returnPc rest

/-- `P` goes along with the control flow inside a body, and into a callee one level deeper. -/
structure BodyClosed (m : IrModule) (P : ℕ → ℕ → Prop) : Prop where
  /-- Static successors. -/
  succ : ∀ {d p q}, P d p → Succ m p q → P d q
  /-- Callees. -/
  call : ∀ {d p fbKind fbId base n entry}, P d p →
    decodeInstruction m.code p = .ok (.callFb fbKind fbId base, n) → fbKind ≠ 0 →
    (userFbTable m.entries)[fbId]?.join = some entry → P (d + 1) entry

section Nested

variable {m : IrModule} {P : ℕ → ℕ → Prop} {budget nowMs : ℕ}

/-- The predicate holds of the current pc. -/
theorem Nested.top {pc : ℕ} {frames : List Frame} (h : Nested P pc frames) :
    P frames.length pc := by
  cases frames with
  | nil => exact h
  | cons frame rest => exact h.1

/-- Another pc at the same depth. -/
theorem Nested.replace {pc q : ℕ} {frames : List Frame} (h : Nested P pc frames)
    (hq : P frames.length q) : Nested P q frames := by
  cases frames with
  | nil => exact hq
  | cons frame rest => exact ⟨hq, h.2⟩

/-- **A step keeps a closed predicate.** -/
theorem Nested.step (hP : BodyClosed m P) {c c' : Config}
    (h : Nested P c.pc c.state.frames) (hgo : stepVm (.ofModule m budget) nowMs c = .go c') :
    Nested P c'.pc c'.state.frames := by
  obtain ⟨i, hdec, -, hexec⟩ := stepVm_go hgo
  have hdec' : decodeInstruction m.code c.pc = .ok (i, i.size) := hdec
  generalize hctl : Control.goto c'.pc = ctl at hexec
  cases hexec.control with
  | next hq _ hframes _ =>
      cases hctl
      rw [hframes]
      exact h.replace (hP.succ h.top ⟨i, i.size, hdec', hq⟩)
  | @call fbKind fbId base entry hi hkind hentry _ hs' =>
      cases hctl
      subst hi
      rw [hs']
      refine ⟨hP.call h.top hdec' hkind hentry, ?_⟩
      exact h.replace (hP.succ h.top ⟨_, _, hdec', List.mem_singleton_self _⟩)
  | ret _ hframes hs' =>
      rw [hframes] at h
      rw [hs', Control.goto.inj hctl]
      exact h.2
  | returned _ _ _ => cases hctl
  | halted _ _ => cases hctl

/-- A whole run keeps a closed predicate. -/
theorem Nested.passes (hP : BodyClosed m P) {entryPc k : ℕ} {s : VmState} {c : Config}
    (hentry : P 0 entryPc) (hc : Passes (.ofModule m budget) nowMs entryPc s k c) :
    Nested P c.pc c.state.frames := by
  have hpres : ∀ c c', Nested P c.pc c.state.frames →
      stepVm (.ofModule m budget) nowMs c = .go c' → Nested P c'.pc c'.state.frames :=
    fun _ _ h hgo => h.step hP hgo
  exact hc.invariant hpres hentry

end Nested

/-! ## Call depth and registration -/

/-- Every user call reachable from a body is registered, and starts a chain of at most `n` calls
with the calls that its callee reaches. -/
def CallsOk (m : IrModule) (table : List (Option ℕ)) : ℕ → ℕ → Prop
  | 0, p => NoUserCall m p
  | n + 1, p => AllReach m p fun _ i => ∀ fbKind fbId base, i = .callFb fbKind fbId base →
      fbKind ≠ 0 → ∃ entry, table[fbId]?.join = some entry ∧ CallsOk m table n entry

/-- The pc belongs to a body whose calls still fit below the depth limit. -/
def CallsFit (m : IrModule) (d pc : ℕ) : Prop :=
  d ≤ maxCallDepth ∧ ∃ p, Reach m p pc ∧ CallsOk m (userFbTable m.entries) (maxCallDepth - d) p

/-- A user call where the calls fit is registered, there is room for its frame, and the calls of
its callee fit. -/
theorem CallsFit.call {m : IrModule} {d pc fbKind fbId base n : ℕ} (h : CallsFit m d pc)
    (hdec : decodeInstruction m.code pc = .ok (.callFb fbKind fbId base, n)) (hkind : fbKind ≠ 0) :
    d < maxCallDepth ∧ ∃ entry, (userFbTable m.entries)[fbId]?.join = some entry ∧
      CallsFit m (d + 1) entry := by
  obtain ⟨hd, p, hreach, hok⟩ := h
  rcases hn : maxCallDepth - d with _ | n'
  · rw [hn] at hok
    have := hok pc _ _ hreach hdec
    simp [DecodedInstr.isUserCall, hkind] at this
  · rw [hn] at hok
    obtain ⟨entry, hentry, hcallee⟩ := hok pc _ _ hreach hdec fbKind fbId base rfl hkind
    have hn' : n' = maxCallDepth - (d + 1) := by omega
    exact ⟨by omega, entry, hentry, by omega, entry, .refl, hn' ▸ hcallee⟩

/-- The calls keep fitting along a run. -/
theorem callsFit_closed (m : IrModule) : BodyClosed m (CallsFit m) where
  succ := by
    rintro d p q ⟨hd, p₀, hreach, hok⟩ hsucc
    exact ⟨hd, p₀, hreach.tail hsucc, hok⟩
  call := by
    intro d p fbKind fbId base n entry h hdec hkind hentry
    obtain ⟨-, entry', hentry', hfit⟩ := h.call hdec hkind
    rw [hentry] at hentry'
    cases hentry'
    exact hfit

/-- **Calls never fault.** When every user call that the code of an entry reaches, directly or
through its callees, is registered and no chain of calls is longer than 32, no run of the loaded
machine from that entry ends in a call-depth error or in an unknown function block. -/
theorem calls_never_fault {m : IrModule} {entryPc : ℕ}
    (hok : CallsOk m (userFbTable m.entries) maxCallDepth entryPc) (budget nowMs : ℕ) (s : VmState)
    (pc fbId : ℕ) :
    (runAt (.ofModule m budget) entryPc nowMs s).1 ≠ .error (.err (.callDepth pc)) ∧
      (runAt (.ofModule m budget) entryPc nowMs s).1 ≠ .error (.err (.unknownUserFb fbId)) := by
  rcases runAt_cases (.ofModule m budget) entryPc nowMs s with hbudget | ⟨k, c, -, hc, hstop⟩
  · rw [hbudget]
    exact ⟨by rintro ⟨⟩, by rintro ⟨⟩⟩
  have hfit : CallsFit m c.state.frames.length c.pc :=
    (Nested.passes (callsFit_closed m) ⟨Nat.zero_le _, entryPc, .refl, hok⟩ hc).top
  obtain ⟨_, _, -, hr⟩ | ⟨i, hdec, -, ⟨res, hres, -⟩ | ⟨f, hf, hcause, -⟩⟩ := stepVm_stop hstop
  · rw [hr]
    exact ⟨by rintro ⟨⟩, by rintro ⟨⟩⟩
  · rw [hres]
    exact ⟨by rintro ⟨⟩, by rintro ⟨⟩⟩
  · have hdec' : decodeInstruction m.code c.pc = .ok (i, i.size) := hdec
    rw [hf]
    constructor
    · rintro ⟨⟩
      obtain ⟨huser, hfull⟩ : i.isUserCall = true ∧ maxCallDepth ≤ c.state.frames.length := hcause
      cases i with
      | simple op payload => cases huser
      | withImm32 op payload imm => cases huser
      | callFb fbKind fbId base =>
          have hlt := (hfit.call hdec' (by simpa [DecodedInstr.isUserCall] using huser)).1
          omega
    · rintro ⟨⟩
      obtain ⟨fbKind, base, rfl, hkind, hnone⟩ := hcause
      obtain ⟨-, entry, hentry, -⟩ := hfit.call hdec' hkind
      have hnone' : (userFbTable m.entries)[fbId]?.join = none := hnone
      rw [hentry] at hnone'
      cases hnone'

/-- A body without user calls has chains of every length. -/
theorem CallsOk.of_noUserCall {m : IrModule} {table : List (Option ℕ)} {p : ℕ}
    (h : NoUserCall m p) (n : ℕ) : CallsOk m table n p := by
  cases n with
  | zero => exact h
  | succ n =>
      rintro pc i n hr hdec fbKind fbId base rfl hkind
      have := h pc _ n hr hdec
      simp [DecodedInstr.isUserCall, hkind] at this

/-- `task.main` calls `fb.0` with the given body. -/
def callModule (body : List DecodedInstr) : IrModule where
  irMajor := 0
  irMinor := 1
  constSize := 0
  dataSize := 0
  retainSize := 0
  inputSlots := 0
  outputSlots := 0
  entries := [⟨"task.main", 0, false⟩, ⟨"fb.0", 16, true⟩]
  constData := []
  code := (DecodedInstr.callFb 1 0 0 :: .simple .halt 0 :: body).flatMap encodeInstruction

/-- A block that only returns. -/
def leafModule : IrModule := callModule [.simple .ret 0]

/-- A call of a block that only returns does not fault. -/
theorem leaf_call_never_faults :
    CallsOk leafModule (userFbTable leafModule.entries) maxCallDepth 0 ∧ ∀ pc fbId,
      (runAt (.ofModule leafModule 100) 0 0 (.cold leafModule 1)).1 ≠
        .error (.err (.callDepth pc)) ∧
      (runAt (.ofModule leafModule 100) 0 0 (.cold leafModule 1)).1 ≠
        .error (.err (.unknownUserFb fbId)) := by
  have hbody : NoUserCall leafModule 16 :=
    (verifyEntrySeen_certified (rfl : verifyEntrySeen leafModule 16 true "fb.0" =
      .ok [(16, [])])).noUserCall rfl
  have htask : AllReach leafModule 0 fun _ i =>
      (!i.isUserCall || i == .callFb 1 0 0) = true :=
    (verifyEntrySeen_certified (rfl : verifyEntrySeen leafModule 0 false "task.main" =
      .ok [(12, []), (0, [])])).allReach rfl
  have hok : CallsOk leafModule (userFbTable leafModule.entries) maxCallDepth 0 := by
    rintro pc i n hr hdec fbKind fbId base rfl hkind
    have hcall := htask pc _ n hr hdec
    simp only [DecodedInstr.isUserCall, Bool.or_eq_true, Bool.not_eq_true',
      bne_eq_false_iff_eq, beq_iff_eq, DecodedInstr.callFb.injEq] at hcall
    obtain h | ⟨rfl, rfl, rfl⟩ := hcall
    · exact absurd h hkind
    · exact ⟨16, rfl, .of_noUserCall hbody _⟩
  exact ⟨hok, calls_never_fault hok 100 0 (.cold leafModule 1)⟩

/-- A block that calls itself. -/
def recursiveModule : IrModule := callModule [.callFb 1 0 0, .simple .ret 0]

/-- A block that calls itself is accepted, and its calls exceed the depth limit. -/
theorem recursion_exceeds_depth :
    verifyModule recursiveModule = .ok () ∧
      (runAt (.ofModule recursiveModule 100) 0 0 (.cold recursiveModule 1)).1 =
        .error (.err (.callDepth 16)) :=
  ⟨rfl, rfl⟩

/-! ## How entries end -/

/-- No `RET` is reachable from a pc. -/
def NoRet (m : IrModule) (entryPc : ℕ) : Prop :=
  AllReach m entryPc fun _ i => ∀ payload, i ≠ .simple .ret payload

/-- The pc belongs to the body of a user function block of the module. -/
def InUserFb (m : IrModule) (pc : ℕ) : Prop :=
  ∃ e ∈ m.entries, e.isUserFb = true ∧ Reach m e.pc pc

/-- Registering entries keeps a table whose pcs are those of function-block entries. -/
theorem registerEntry_mem {entries : List EntryPoint} {e : EntryPoint} {table : List (Option ℕ)}
    (he : e ∈ entries)
    (h : ∀ pc, some pc ∈ table → ∃ e ∈ entries, e.isUserFb = true ∧ e.pc = pc) :
    ∀ pc, some pc ∈ registerEntry table e → ∃ e ∈ entries, e.isUserFb = true ∧ e.pc = pc := by
  intro pc hmem
  unfold registerEntry at hmem
  split_ifs at hmem with hfb
  · rcases List.mem_or_eq_of_mem_set hmem with hmem | heq
    · rcases List.mem_append.mp hmem with hmem | hmem
      · exact h pc hmem
      · cases List.eq_of_mem_replicate hmem
    · cases heq
      exact ⟨e, he, hfb, rfl⟩
  · exact h pc hmem

/-- Every registered pc is that of a function-block entry. -/
theorem userFbTable_entry {entries : List EntryPoint} {fbId pc : ℕ}
    (h : (userFbTable entries)[fbId]?.join = some pc) :
    ∃ e ∈ entries, e.isUserFb = true ∧ e.pc = pc := by
  have hfold : ∀ (es : List EntryPoint) (table : List (Option ℕ)), (∀ e ∈ es, e ∈ entries) →
      (∀ pc, some pc ∈ table → ∃ e ∈ entries, e.isUserFb = true ∧ e.pc = pc) →
      ∀ pc, some pc ∈ es.foldl registerEntry table →
        ∃ e ∈ entries, e.isUserFb = true ∧ e.pc = pc := by
    intro es
    induction es with
    | nil => exact fun table _ h => h
    | cons e es ih =>
        intro table hes htable
        exact ih _ (fun e' he' => hes e' (List.mem_cons_of_mem _ he'))
          (registerEntry_mem (hes e List.mem_cons_self) htable)
  refine hfold entries [] (fun e he => he) (fun pc hpc => nomatch hpc) pc ?_
  rw [Option.join_eq_some_iff] at h
  exact List.mem_of_getElem? h

/-- At task level a run is in the body of its entry. -/
theorem reachAtTaskLevel_closed (m : IrModule) (entryPc : ℕ) :
    BodyClosed m fun d pc => d = 0 → Reach m entryPc pc where
  succ := fun h hsucc hd => (h hd).tail hsucc
  call := fun _ _ _ _ hd => absurd hd (Nat.succ_ne_zero _)

/-- A run that starts in a function block stays in function blocks. -/
theorem inUserFb_closed (m : IrModule) : BodyClosed m fun _ pc => InUserFb m pc where
  succ := by
    rintro _ p q ⟨e, he, hfb, hreach⟩ hsucc
    exact ⟨e, he, hfb, hreach.tail hsucc⟩
  call := by
    intro _ p fbKind fbId base n entry _ _ _ hentry
    obtain ⟨e, he, hfb, rfl⟩ := userFbTable_entry hentry
    exact ⟨e, he, hfb, .refl⟩

/-- How a run that succeeds ends: at a `RET` with no frame left, or at a `HALT`. -/
theorem runAt_ok {m : IrModule} {budget entryPc nowMs : ℕ} {s s' : VmState} {r : ExecResult}
    (h : runAt (.ofModule m budget) entryPc nowMs s = (.ok r, s')) :
    ∃ k c i, Passes (.ofModule m budget) nowMs entryPc s k c ∧
      decodeInstruction m.code c.pc = .ok (i, i.size) ∧
      ((∃ payload, i = .simple .ret payload ∧ c.state.frames = [] ∧ r = .returned) ∨
        ∃ payload, i = .simple .halt payload ∧ r = .halted) := by
  rcases runAt_cases (.ofModule m budget) entryPc nowMs s with hbudget | ⟨k, c, -, hc, hstop⟩
  · rw [h] at hbudget
    cases hbudget
  rw [h] at hstop
  obtain ⟨_, _, -, hr⟩ | ⟨i, hdec, -, ⟨res, hres, hexec⟩ | ⟨f, hf, -, -⟩⟩ := stepVm_stop hstop
  · cases hr
  · cases hres
    refine ⟨k, c, i, hc, hdec, ?_⟩
    generalize hctl : Control.done r = ctl at hexec
    cases hexec.control with
    | returned hi hframes _ =>
        cases hctl
        exact .inl ⟨_, hi, hframes, rfl⟩
    | halted hi _ =>
        cases hctl
        exact .inr ⟨_, hi, rfl⟩
    | next _ _ _ _ => cases hctl
    | call _ _ _ _ _ => cases hctl
    | ret _ _ _ => cases hctl
  · cases hf

/-- **How entries end.** For every entry of an accepted module, run under the name that selects it:
a task entry from which no `RET` is reachable succeeds only by `HALT`, and a function-block entry
succeeds only by `RET`; whatever the memories hold and however the calls nest. -/
theorem entry_result {m : IrModule} (hv : verifyModule m = .ok ()) {name : String} {e : EntryPoint}
    (hfind : m.entries.find? (fun e => e.name == name) = some e) (budget nowMs : ℕ) (s : VmState)
    {r : ExecResult} {s' : VmState}
    (h : runEntry (.ofModule m budget) name nowMs s = (.ok r, s')) :
    (e.isUserFb = false → NoRet m e.pc → r = .halted) ∧ (e.isUserFb = true → r = .returned) := by
  have hfind' : (VmImage.ofModule m budget).entries.find? (fun e => e.name == name) = some e := hfind
  have he : e ∈ m.entries := List.mem_of_find?_eq_some hfind
  have hrun : runAt (.ofModule m budget) e.pc nowMs s = (.ok r, s') := by
    simpa only [runEntry, VmImage.entryPc, hfind'] using h
  obtain ⟨k, c, i, hc, hdec, hend⟩ := runAt_ok hrun
  constructor
  · intro _ hret
    obtain ⟨payload, rfl, hframes, -⟩ | ⟨_, -, rfl⟩ := hend
    · have htop := (Nested.passes (reachAtTaskLevel_closed m e.pc) (fun _ => .refl) hc).top
      exact absurd rfl (hret c.pc _ _ (htop (by rw [hframes]; rfl)) hdec payload)
    · rfl
  · intro hfb
    obtain ⟨_, -, -, rfl⟩ | ⟨payload, rfl, -⟩ := hend
    · rfl
    · -- A function-block body was verified with `HALT` forbidden.
      obtain ⟨e', he', hfb', hreach⟩ :=
        (Nested.passes (inUserFb_closed m) ⟨e, he, hfb, .refl⟩ hc).top
      obtain ⟨seen, -, hcert⟩ := verifyModule_certified hv he'
      obtain ⟨stack, hlook⟩ := hcert.recorded_of_reach hreach
      obtain ⟨j, hj, -⟩ := hcert.step hlook
      have hdec' := hj.decodes
      rw [hdec] at hdec'
      cases hdec'
      have hhalt : e'.isUserFb = false := hj.checked
      rw [hfb'] at hhalt
      cases hhalt

/-- A `RET`. -/
def isRet : DecodedInstr → Bool
  | .simple .ret _ => true
  | _ => false

/-- Both kinds of entry of a module with a call end as they should. -/
theorem leaf_entry_results :
    (∀ s', runEntry (.ofModule leafModule 100) "task.main" 0 (.cold leafModule 1) ≠
        (.ok .returned, s')) ∧
      ∀ s', runEntry (.ofModule leafModule 100) "fb.0" 0 (.cold leafModule 1) ≠
        (.ok .halted, s') := by
  have hseen : verifyEntrySeen leafModule 0 false "task.main" = .ok [(12, []), (0, [])] := rfl
  have hret : NoRet leafModule 0 := by
    rintro pc _ n hr hdec payload rfl
    have hother := (verifyEntrySeen_certified hseen).allReach (p := fun i => !isRet i) rfl pc _ n hr
      hdec
    cases hother
  constructor
  · intro s' h
    have hr := (entry_result rfl (rfl : leafModule.entries.find? (fun e => e.name == "task.main") =
      some ⟨"task.main", 0, false⟩) 100 0 _ h).1 rfl hret
    cases hr
  · intro s' h
    have hr := (entry_result rfl (rfl : leafModule.entries.find? (fun e => e.name == "fb.0") =
      some ⟨"fb.0", 16, true⟩) 100 0 _ h).2 rfl
    cases hr

/-- `RET` alone as a task. -/
def retTaskModule : IrModule := taskModule [.simple .ret 0] 0

/-- A task that ends in `RET` is accepted, and its run returns instead of halting. -/
theorem ret_task_returns :
    verifyModule retTaskModule = .ok () ∧
      (runEntry (.ofModule retTaskModule 10) "task.main" 0 (.cold retTaskModule 1)).1 =
        .ok .returned :=
  ⟨rfl, rfl⟩

end SoftPlc.Vm
