import SoftPlc.Vm.RetainImage

/-!
# Pools of primitives

A machine holds a pool of instances for each kind of primitive, made when it is loaded. Nothing that
happens to the machine afterwards changes the size of a pool (`Life.samePools`), and a call fails with
`BadInstance` only when it names an instance outside its pool (`runEntry_badInstance`).
-/

namespace SoftPlc.Vm

open SoftPlc.Ir SoftPlc.Fb SoftPlc.Lib

/-- The size of the pool of a kind of primitive. -/
def poolSize (store : PrimitiveStore) : PrimitiveId → ℕ
  | .ton => store.ton.length
  | .tof => store.tof.length
  | .tp => store.tp.length
  | .ctu => store.ctu.length
  | .ctd => store.ctd.length
  | .rs => store.rs.length
  | .sr => store.sr.length
  | .rTrig => store.rTrig.length
  | .fTrig => store.fTrig.length
  | .pid => store.pid.length

@[simp] theorem poolSize_withCapacity (n : ℕ) (id : PrimitiveId) :
    poolSize (.withCapacity n) id = n := by
  cases id <;> exact List.length_replicate

@[simp] theorem poolSize_coldResetAll (store : PrimitiveStore) (id : PrimitiveId) :
    poolSize (coldResetAll store) id = poolSize store id := by
  cases id <;> exact List.length_map _

/-! ## One call -/

section Call

variable {α β : Type} {store store' : PrimitiveStore} {id : PrimitiveId} {inst nowMs : ℕ}
  {inputs out : List StackValue}

/-- A computation that does not fail with `BadInstance`. -/
def NotBad (x : Except PrimitiveFault α) : Prop := x ≠ .error (.call .badInstance)

theorem NotBad.ok (a : α) : NotBad (.ok a) := by
  intro h
  cases h

theorem NotBad.bind {x : Except PrimitiveFault α} {f : α → Except PrimitiveFault β} (hx : NotBad x)
    (hf : ∀ a, NotBad (f a)) : NotBad (x >>= f) := by
  rcases x with e | a
  · intro h
    cases h
    exact hx rfl
  · exact hf a

theorem NotBad.argAs (read : StackValue → Option α) (inputs : List StackValue) (k : ℕ) :
    NotBad (Fb.argAs read inputs k) := by
  unfold NotBad Fb.argAs
  rcases inputs[k]? with _ | v
  · simp
  · dsimp only
    rcases read v with _ | a <;> simp

/-- An instance of the pool that runs without `BadInstance`. -/
theorem NotBad.evalIn {pool : List α} {run : α → Except PrimitiveFault (α × List StackValue)}
    (hrun : ∀ x, NotBad (run x)) (hinst : inst < pool.length) : NotBad (Fb.evalIn pool inst run) := by
  unfold Fb.evalIn
  rw [List.getElem?_eq_getElem hinst]
  exact (hrun _).bind fun _ => .ok _

theorem NotBad.runTimer (eval : α → Bool → BitVec 32 → ℕ → α × Bool × BitVec 32) (x : α) :
    NotBad (Fb.runTimer eval inputs nowMs x) :=
  (argAs _ _ _).bind fun _ => (argAs _ _ _).bind fun _ => .ok _

theorem NotBad.runCounter (eval : α → Bool → Bool → BitVec 32 → α × Bool × BitVec 32) (x : α) :
    NotBad (Fb.runCounter eval inputs x) :=
  (argAs _ _ _).bind fun _ => (argAs _ _ _).bind fun _ => (argAs _ _ _).bind fun _ => .ok _

theorem NotBad.runLatch (eval : α → Bool → Bool → α × Bool) (x : α) :
    NotBad (Fb.runLatch eval inputs x) :=
  (argAs _ _ _).bind fun _ => (argAs _ _ _).bind fun _ => .ok _

theorem NotBad.runEdge (eval : α → Bool → α × Bool) (x : α) : NotBad (Fb.runEdge eval inputs x) :=
  (argAs _ _ _).bind fun _ => .ok _

theorem NotBad.runPid (x : Pid) : NotBad (Fb.runPid inputs nowMs x) := by
  refine (argAs _ _ _).bind fun pv => (argAs _ _ _).bind fun sp => (argAs _ _ _).bind fun en => ?_
  rcases x.eval pv sp en nowMs with _ | ⟨x', out⟩
  · intro h
    cases h
  · exact .ok _

/-- **A call inside its pool does not fail with `BadInstance`.** -/
theorem NotBad.callPrimitive (h : inst < poolSize store id) :
    NotBad (Fb.callPrimitive store id inst inputs nowMs) := by
  unfold Fb.callPrimitive
  split_ifs
  · intro h
    cases h
  · cases id with
    | ton | tof | tp => exact (NotBad.evalIn (.runTimer _) h).bind fun _ => .ok _
    | ctu | ctd => exact (NotBad.evalIn (.runCounter _) h).bind fun _ => .ok _
    | rs | sr => exact (NotBad.evalIn (.runLatch _) h).bind fun _ => .ok _
    | rTrig | fTrig => exact (NotBad.evalIn (.runEdge _) h).bind fun _ => .ok _
    | pid => exact (NotBad.evalIn .runPid h).bind fun _ => .ok _

/-- Running an instance keeps the length of the pool. -/
theorem evalIn_length {pool pool' : List α} {run : α → Except PrimitiveFault (α × List StackValue)}
    (h : evalIn pool inst run = .ok (pool', out)) : pool'.length = pool.length := by
  unfold evalIn at h
  split at h
  · cases h
  · obtain ⟨⟨x', out'⟩, -, h⟩ := except_bind_ok.mp h
    cases h
    exact List.length_set

/-- A call keeps the sizes of the pools. -/
theorem callPrimitive_poolSize (h : callPrimitive store id inst inputs nowMs = .ok (store', out))
    (kind : PrimitiveId) : poolSize store' kind = poolSize store kind := by
  unfold callPrimitive at h
  split_ifs at h
  cases id <;>
  · obtain ⟨⟨pool, out'⟩, heval, h⟩ := except_bind_ok.mp h
    cases h
    have hlen := evalIn_length heval
    cases kind <;> first | rfl | exact hlen

end Call

/-! ## Runs -/

/-- Two states with pools of the same sizes. -/
def SamePools (s s' : VmState) : Prop :=
  ∀ id, poolSize s'.primitives id = poolSize s.primitives id

theorem framedRun_samePools : FramedRun SamePools where
  refl _ _ := rfl
  trans h h' id := (h' id).trans (h id)
  stack _ _ _ := rfl
  primitives _ _ := by
    rintro ⟨id, inst, inputs, nowMs, out, hcall⟩ kind
    exact callPrimitive_poolSize hcall kind
  div0Count _ _ _ := rfl
  control _ _ _ _ := rfl
  data _ _ _ := rfl
  outputs _ _ _ := rfl
  retain _ _ _ := rfl

/-- The states of a machine from its load on: it runs entries, is reset, and the engine writes its
inputs, outputs and retain segment, but never its primitives. -/
inductive Life (image : VmImage) (s₀ : VmState) : VmState → Prop
  | loaded : Life image s₀ s₀
  | ran {s : VmState} (h : Life image s₀ s) (name : String) (nowMs : ℕ) :
      Life image s₀ (runEntry image name nowMs s).2
  | reset {s : VmState} (h : Life image s₀ s) : Life image s₀ s.coldResetNonRetain
  | written {s s' : VmState} (h : Life image s₀ s) (hprims : s'.primitives = s.primitives) :
      Life image s₀ s'

/-- **The pools of a machine keep their sizes.** -/
theorem Life.samePools {image : VmImage} {s₀ s : VmState} (h : Life image s₀ s) :
    SamePools s₀ s := by
  induction h with
  | loaded => exact framedRun_samePools.refl _
  | ran _ name nowMs ih =>
      exact framedRun_samePools.trans ih (framedRun_samePools.runEntry _ name nowMs _)
  | reset _ ih =>
      intro id
      exact (poolSize_coldResetAll _ id).trans (ih id)
  | written _ hprims ih =>
      intro id
      rw [hprims]
      exact ih id

theorem debugText_arity_head (expected got : ℕ) :
    (PrimitiveCallError.arity expected got).debugText.toList.head? = some 'A' := by
  unfold PrimitiveCallError.debugText
  simp only [String.toList_append]
  rfl

/-- The text of `BadInstance` is that of no other error. -/
theorem debugText_badInstance {e : PrimitiveCallError}
    (h : e.debugText = PrimitiveCallError.badInstance.debugText) : e = .badInstance := by
  rcases e with _ | ⟨expected, got⟩ | _
  · rfl
  · have hhead := debugText_arity_head expected got
    rw [h] at hhead
    cases hhead
  · exact absurd h (by decide +kernel)

/-- A call of a primitive that fails with `BadInstance` is outside its pool. -/
theorem callPrim_badInstance {fbId inst nowMs pc pc' : ℕ} {s s' : VmState}
    (h : callPrim fbId inst nowMs pc s =
      .error (.err (.primitive pc' PrimitiveCallError.badInstance.debugText)) s')
    {id : PrimitiveId} (hid : PrimitiveId.fromU32 fbId = some id) :
    poolSize s.primitives id ≤ inst := by
  unfold callPrim at h
  rw [hid] at h
  by_contra hlt
  rcases estate_bind_error.mp h with hpop | ⟨inputs, s₁, hpop, h⟩
  · obtain ⟨-, hf⟩ := popArgs_error hpop
    cases hf
  · obtain ⟨-, -, rfl⟩ := popArgs_ok.mp hpop
    rcases estate_bind_error.mp h with hcall | ⟨out, s₂, -, hpush⟩
    · unfold invokePrimitive at hcall
      have hok : NotBad (callPrimitive s.primitives id inst inputs nowMs) :=
        .callPrimitive (not_le.mp hlt)
      split at hcall
      · cases hcall
      · rename_i e he
        obtain ⟨hf, -⟩ := EStateM.Result.error.inj hcall
        obtain ⟨-, htext⟩ := VmError.primitive.inj (VmFault.err.inj hf)
        rw [debugText_badInstance htext] at he
        exact hok he
      · cases hcall
    · obtain ⟨-, -, hf⟩ := pushResults_error hpush
      cases hf

/-- **Where `BadInstance` comes from**: a run reaches a call of an instance outside its pool. -/
theorem runEntry_badInstance {image : VmImage} {name : String} {nowMs pc : ℕ} {s : VmState}
    (h : (runEntry image name nowMs s).1 =
      .error (.err (.primitive pc PrimitiveCallError.badInstance.debugText))) :
    ∃ e ∈ image.entries, ∃ k c fbId inst n, Passes image nowMs e.pc s k c ∧
      decodeInstruction image.code c.pc = .ok (.callFb 0 fbId inst, n) ∧
      ∀ id, PrimitiveId.fromU32 fbId = some id → poolSize s.primitives id ≤ inst := by
  unfold runEntry VmImage.entryPc at h
  rcases hfind : image.entries.find? fun e => e.name == name with _ | e
  · rw [hfind] at h
    cases h
  · rw [hfind] at h
    refine ⟨e, List.mem_of_find?_eq_some hfind, ?_⟩
    rcases runAt_cases image e.pc nowMs s with hbudget | ⟨k, c, -, hpasses, hstop⟩
    · cases hbudget.symm.trans h
    · rcases stepVm_stop hstop with ⟨err, detail, -, hdec⟩ | ⟨i, hdec, -, hend⟩
      · cases hdec.symm.trans h
      · rcases hend with ⟨res, hok, -⟩ | ⟨f, hf, hcause, hexec⟩
        · cases hok.symm.trans h
        · obtain rfl := Except.error.inj (hf.symm.trans h)
          obtain ⟨fbId, inst, rfl⟩ := hcause
          refine ⟨k, c, fbId, inst, _, hpasses, hdec, fun id hid => ?_⟩
          have hcall : callPrim fbId inst nowMs c.pc c.state =
              .error (.err (.primitive pc PrimitiveCallError.badInstance.debugText))
                (runAt image e.pc nowMs s).2 := by
            rcases estate_bind_error.mp hexec with hcall | ⟨_, _, -, hpure⟩
            · exact hcall
            · cases hpure
          rw [← framedRun_samePools.passes hpasses id]
          exact callPrim_badInstance hcall hid

end SoftPlc.Vm
