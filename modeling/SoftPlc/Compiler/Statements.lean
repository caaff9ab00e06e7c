import SoftPlc.Compiler.Calls

/-!
# Compiled statements

The code of a statement does what the statement means: `Performs`. Loops count down in a temporary
that no other code writes; the limit and the step of a `FOR` are temporaries too. One lemma for each
form of statement, and the induction over the syntax at the end.
-/

namespace SoftPlc.Compiler

open SoftPlc.Ir SoftPlc.St SoftPlc.Lib SoftPlc.Vm

variable {order : HashOrder} {items : List Item} {image : VmImage} {nowMs pc q N : ℕ} {env : Env}
  {Γ : Scope} {g g' : Codegen} {T : Live} {σ : Store} {s : VmState} {R : Store → VmState → Prop}
  {α : Type} {m : EStateM.Result Exit Store α} {post : α → Store → Config → Prop}
  {stack : List VmValue}

/-- The code of an action does what a computation does. -/
def Performs (image : VmImage) (items : List Item) (env : Env) (N : ℕ) (Γ : Scope)
    (action : EmitM Unit) (x : StM Unit) : Prop :=
  ∀ ⦃g g' : Codegen⦄ ⦃T : Live⦄ ⦃σ : Store⦄ ⦃s : VmState⦄ (R : Store → VmState → Prop),
    (∀ σ s, Represents env N Γ g T σ s → R σ s) → action g = .ok () g' → g'.items <+: items →
    g'.top ≤ N → Knows env Γ g T → Represents env N Γ g T σ s →
    Mirrors image env.nowMs R (x σ) (Reaches env N Γ g T s.stack g'.pc) ⟨s, g.pc⟩

/-- The machine stands where a truth value leads. -/
structure Chooses (env : Env) (N : ℕ) (Γ : Scope) (g : Codegen) (T : Live) (stack : List VmValue)
    (yes no : ℕ) (b : Bool) (σ : Store) (c : Config) : Prop where
  pc : c.pc = if b then yes else no
  stack : c.state.stack = stack
  represents : Represents env N Γ g T σ c.state

/-- What the emitter learns later does not matter. -/
theorem Reaches.back {u : Unit} {c : Config} (h : Reaches env N Γ g' T stack pc u σ c)
    (hext : Ext g g') : Reaches env N Γ g T stack pc u σ c :=
  ⟨h.pc, h.stack, h.represents.back hext⟩

theorem Reaches.ext {u : Unit} {c : Config} (h : Reaches env N Γ g T stack pc u σ c)
    (hk : Knows env Γ g T) (hext : Ext g g') : Reaches env N Γ g' T stack pc u σ c :=
  ⟨h.pc, h.stack, h.represents.ext hk hext⟩

theorem Reaches.drop {x : ℕ × VmValue} {u : Unit} {c : Config}
    (h : Reaches env N Γ g (x :: T) stack pc u σ c) : Reaches env N Γ g T stack pc u σ c :=
  ⟨h.pc, h.stack, h.represents.drop⟩

/-- The pc behind one jump. -/
theorem Codegen.adds_jump_pc (g : Codegen) (op : Opcode) (l : Label) :
    (g.adds [.jump op l]).pc = g.pc + 4 := by
  simp [Item.size]

/-- The same for an emitter that has grown before the action. -/
theorem Performs.after {action : EmitM Unit} {x : StM Unit}
    (h : Performs image items env N Γ action x) {R : Store → VmState → Prop}
    (hR : ∀ σ s, Represents env N Γ g T σ s → R σ s) {g₁ : Codegen}
    (hext : Ext g g₁) (ha : action g₁ = .ok () g') (hpre : g'.items <+: items) (htop : g'.top ≤ N)
    (hk : Knows env Γ g T) (hr : Represents env N Γ g T σ s) :
    Mirrors image env.nowMs R (x σ) (Reaches env N Γ g T s.stack g'.pc) ⟨s, g₁.pc⟩ := by
  refine (h R (fun σ s hr => hR σ s (hr.back hext)) ha hpre htop (hk.ext hext)
    (hr.ext hk hext)).mono ?_
  rintro _ _ _ - h
  exact h.back hext

/-- The code of branches does what they do, with another computation for the case that none is
taken: the machine is then behind the code. It ends at a label. -/
def Cascades (image : VmImage) (items : List Item) (env : Env) (N : ℕ) (Γ : Scope) (endL : Label)
    (fits : ℕ → Live → ℕ → Prop) (action : EmitM Unit) (x : StM Unit → StM Unit) : Prop :=
  ∀ ⦃g g' : Codegen⦄ ⦃T : Live⦄ ⦃σ : Store⦄ ⦃s : VmState⦄ ⦃q : ℕ⦄ (R : Store → VmState → Prop)
    (otherwise : StM Unit), (∀ σ s, Represents env N Γ g T σ s → R σ s) → action g = .ok () g' →
    g'.items <+: items → g'.top ≤ N → Stands items q [.label endL] → fits q T g'.pc →
    Knows env Γ g T → Represents env N Γ g T σ s →
    (∀ σ s', s'.stack = s.stack → Represents env N Γ g T σ s' →
      Mirrors image env.nowMs R (otherwise σ) (Reaches env N Γ g T s.stack q) ⟨s', g'.pc⟩) →
    Mirrors image env.nowMs R (x otherwise σ) (Reaches env N Γ g T s.stack q) ⟨s, g.pc⟩

/-- Branches behind other items. -/
theorem Cascades.after {endL : Label} {fits : ℕ → Live → ℕ → Prop} {action : EmitM Unit}
    {x : StM Unit → StM Unit} (h : Cascades image items env N Γ endL fits action x)
    {R : Store → VmState → Prop} {otherwise : StM Unit}
    (hR : ∀ σ s, Represents env N Γ g T σ s → R σ s) {g₁ : Codegen} (hext : Ext g g₁)
    (ha : action g₁ = .ok () g') (hpre : g'.items <+: items) (htop : g'.top ≤ N)
    (hq : Stands items q [.label endL]) (hfits : fits q T g'.pc) (hk : Knows env Γ g T)
    (hr : Represents env N Γ g T σ s)
    (hother : ∀ σ s', s'.stack = s.stack → Represents env N Γ g T σ s' →
      Mirrors image env.nowMs R (otherwise σ) (Reaches env N Γ g T s.stack q) ⟨s', g'.pc⟩) :
    Mirrors image env.nowMs R (x otherwise σ) (Reaches env N Γ g T s.stack q) ⟨s, g₁.pc⟩ := by
  refine (h R otherwise (fun σ s hr => hR σ s (hr.back hext)) ha hpre htop hq hfits (hk.ext hext)
    (hr.ext hk hext) fun σ' s' hs' hr' => ?_).mono ?_
  · refine (hother σ' s' hs' (hr'.back hext)).mono ?_
    rintro _ _ _ - h
    exact h.ext hk hext
  · rintro _ _ _ - h
    exact h.back hext

/-- What a branch of an `IF` needs: without an `ELSE`, the end is behind the last branch. -/
abbrev EndsBehind (hasElse : Bool) (q : ℕ) (_ : Live) (pc : ℕ) : Prop := hasElse = false → q = pc

/-- `IF`. -/
theorem performs_ifs {branches : List (Expr × List Stmt)} {elseBody : Option (List Stmt)}
    (hbranches : ∀ endL, Cascades image items env N Γ endL (EndsBehind elseBody.isSome)
      (emitBranches order branches endL elseBody.isSome) (execBranches env branches Γ))
    (helse : Performs image items env N Γ (emitElse order elseBody) (execElse env elseBody Γ)) :
    Performs image items env N Γ (emitStmt order (.ifs branches elseBody))
      (exec env (.ifs branches elseBody) Γ) := by
  intro g g' T σ s R hR h hpre htop hk hr
  obtain ⟨g₁, g₂, h₁, h₂, rfl⟩ := emitStmt_ifs_ok h
  rw [exec]
  have e₀ := Ext.bump g
  obtain ⟨T₁, e₁⟩ := (whole_emitBranches order branches _ elseBody.isSome).grows h₁
  obtain ⟨T₂, e₂⟩ := (whole_emitElse order elseBody).grows h₂
  have hpre₂ : g₂.items <+: items := (Ext.adds g₂ _).items.trans hpre
  have hpre₁ : g₁.items <+: items := e₂.items.trans hpre₂
  have hpc : (g₂.adds [.label ⟨.ifEnd, g.labelId⟩]).pc = g₂.pc := by simp [Item.size]
  rw [hpc]
  have hfits : EndsBehind elseBody.isSome g₂.pc T g₁.pc := by
    intro hnone
    cases elseBody with
    | none =>
        rw [emitElse] at h₂
        cases h₂
        rfl
    | some body => cases hnone
  have hother : ∀ σ' s', s'.stack = s.stack → Represents env N Γ g T σ' s' →
      Mirrors image env.nowMs R (execElse env elseBody Γ σ') (Reaches env N Γ g T s.stack g₂.pc)
        ⟨s', g₁.pc⟩ := by
    intro σ' s' hs' hr'
    rw [← hs']
    exact helse.after hR (e₀.trans e₁.toExt) h₂ hpre₂ htop hk hr'
  have hcascade := (hbranches _).after hR e₀ h₁ hpre₁ (e₂.top.trans htop) (stands_adds hpre) hfits
    hk hr hother
  exact hcascade

/-- A selector against a label. -/
theorem valuesEq_label {v : VmValue} (hv : v.irType = .int ∨ v.irType = .dint) {lab : ℤ}
    (hlab : fitsI32 lab = true) :
    valuesEq v (.dint (BitVec.ofNat 32 (asU32 lab))) = decide (v.asI64 = some lab) := by
  have hint : (BitVec.ofInt 32 lab).toInt = lab := by
    have hbounds : -2 ^ 31 ≤ lab ∧ lab < 2 ^ 31 := by simpa [fitsI32] using hlab
    rw [BitVec.toInt_ofInt]
    exact Int.bmod_eq_of_le (by omega) (by omega)
  rw [ofNat_asU32, Bool.eq_iff_iff]
  cases v with
  | int x | dint x => simp [valuesEq, VmValue.asI64, hint]
  | bool x | real x | time x | lint x => simp [VmValue.irType] at hv

/-- Arms extend the emitter. -/
theorem ext_emitArms : (arms : List CaseArm) → {tmp : ℕ} → {endL : Label} → {g g' : Codegen} →
    {u : Unit} → emitArms order arms tmp endL g = .ok u g' → Ext g g'
  | [], tmp, endL, g, g', u, h => by
      rw [emitArms] at h
      cases h
      exact .refl _
  | ⟨labels, body⟩ :: rest, tmp, endL, g, g', u, h => by
      obtain ⟨g₁, h₁, h₂⟩ := emitArms_cons_ok h
      obtain ⟨T₁, e₁⟩ := (whole_emitStmts order body).grows h₁
      have e₂ := (Ext.adds g₁ _).trans (ext_emitArms rest h₂)
      exact (Ext.bump g).trans ((Ext.bump _).trans ((Ext.adds _ _).trans (e₁.toExt.trans e₂)))

/-! ## The scope of a `FOR` -/

theorem Scope.enterFor_of_some {var n : String} {e : Entity} (h : Γ n = some e) :
    Γ.enterFor var n = some e := by
  unfold Scope.enterFor
  split_ifs with hnone
  · refine (if_neg ?_).trans h
    rintro rfl
    simp [h] at hnone
  · exact h

theorem Scope.of_enterFor {var n : String} {e : Entity} (hn : n ≠ lower var)
    (h : Γ.enterFor var n = some e) : Γ n = some e := by
  unfold Scope.enterFor at h
  split_ifs at h
  · rwa [Scope.declare, if_neg hn] at h
  · exact h

/-- The variable of a `FOR` is known inside. -/
theorem knows_forVariable {var : String} {off : ℕ} (h : forVariable var g = .ok off g')
    (hk : Knows env Γ g T) (hin : Γ.enterFor var (lower var) = some (.var .dint)) :
    Knows env (Γ.enterFor var) g' T ∧ Ext g g' ∧ g'.items = g.items ∧
      g'.look (lower var) = some (.data off (.elem .dint)) := by
  obtain ⟨⟨T', e⟩, -⟩ := grows_forVariable h
  by_cases hnone : (Γ (lower var)).isNone
  · have hΓ : Γ.enterFor var = Γ.declare (lower var) (.var .dint) := by
      rw [Scope.enterFor, if_pos hnone]
    rw [hΓ]
    rcases forVariable_ok h with ⟨ty, hlook, rfl⟩ | ⟨-, g₁, htmp, rfl⟩
    · obtain ⟨off', hst⟩ := hk.left (Option.isNone_iff_eq_none.mp hnone) hlook
      cases hst
      exact ⟨hk.declare hlook, e.toExt, rfl, hlook⟩
    · have hlook : (g₁.local (lower var) off).look (lower var) = some (.data off (.elem .dint)) := by
        rw [look_local, if_pos rfl]
      refine ⟨(hk.ext e.toExt).declare hlook, e.toExt, ?_, hlook⟩
      obtain ⟨-, rfl⟩ := allocTemp_ok htmp
      rfl
  · have hΓ : Γ.enterFor var = Γ := by rw [Scope.enterFor, if_neg hnone]
    rw [hΓ] at hin ⊢
    obtain ⟨st, hst, hent⟩ := hk.bound hin
    obtain ⟨off', rfl⟩ := Storage.entity_var hent
    rcases forVariable_ok h with ⟨ty, hlook, rfl⟩ | ⟨hlook, -⟩
    · rw [hst] at hlook
      cases hlook
      exact ⟨hk, e.toExt, rfl, hst⟩
    · rw [hst] at hlook
      cases hlook

/-- A bound that the emitter takes from literals fits as one from an attribute does. -/
theorem forBound_lt {first last : Expr} {step : Option Expr} {maxIter : Option ℕ} {max : ℕ}
    (h : forBound first last step maxIter = some max)
    (hbound : maxIter.all (fun n => n < 2 ^ 32) = true) : max < 2 ^ 32 := by
  unfold forBound at h
  split at h
  · cases h
    simpa using hbound
  · split at h
    all_goals first
      | (split_ifs at h with hle
         cases h
         rw [maxLoopDefault] at hle
         omega)
      | cases h

section Forms

variable (C : Target image items)
include C

/-! ## Simple statements -/

/-- Assignments. -/
theorem performs_assign (hN : N ≤ 2 ^ 32) {lhs rhs : Expr}
    (hok : stmtOk (.assign lhs rhs) Γ = true) :
    Performs image items env N Γ (emitStmt order (.assign lhs rhs))
      (exec env (.assign lhs rhs) Γ) := by
  intro g g' T σ s R hR h hpre htop hk hr
  rw [stmtOk] at hok
  rw [emitStmt] at h
  rw [exec]
  split at hok
  · rename_i ty hty
    obtain ⟨t, g₁, h₁, h⟩ := estate_bind_ok.mp h
    obtain ⟨T₁, e₁⟩ := (whole_emitExpr order rhs).grows h₁
    have e₂ := grows_emitStore h
    have hpre₁ : g₁.items <+: items := e₂.items.trans hpre
    refine .bind (computes_expr C hN rhs hty R h₁ hpre₁ (e₂.top.trans htop) hk hr) ?_
    rintro v σ₁ ⟨s₁, _⟩ - ⟨rfl, hv, hs₁, hr₁⟩
    simp only at hs₁ hr₁
    refine (mirrors_assign C (hk.ext e₁.toExt) (hv ▸ hok) h hpre hs₁ (hr₁.ext hk e₁.toExt)).mono ?_
    rintro _ _ _ - h
    exact h.back e₁.toExt
  · cases hok

/-- `RETURN` ends the run. -/
theorem performs_return :
    Performs image items env N Γ (emitStmt order .return) (exec env .return Γ) := by
  intro g g' T σ s R hR h hpre htop hk hr
  rw [emitStmt] at h
  obtain rfl : g' = g.adds [.simple .ret 0] := append_ok.mp h
  have hm : exec env .return Γ σ = .error .returned σ := by rw [exec]
  refine .done (C.decode (stands_adds hpre) (wellFormed_simple rfl (by decide) (by decide))) rfl
    (r := .returned) (t := s) ?_ hm ⟨rfl, hR σ s hr⟩
  show returnFromFb s = _
  rw [returnFromFb, hr.frames]

/-! ## Loops -/

/-- A comparison of DINT values. -/
theorem Mirrors.eqDint {a b : BitVec 32} {rest : List VmValue} (h : Stands items pc [.simple .eq 0])
    (hs : s.stack = .dint b :: .dint a :: rest)
    (hk : Mirrors image nowMs R m post ⟨s.withStack (.bool (decide (a = b)) :: rest), pc + 4⟩) :
    Mirrors image nowMs R m post ⟨s, pc⟩ := by
  refine .binop C h (show binaryOpcode .eq = some .eq from rfl) hs (fun r t hbin => ?_)
    fun f t hbin => by cases hbin
  cases hbin
  rw [valuesEq_eq (a := .dint a) (b := .dint b) rfl]
  simpa using hk

/-- A difference of DINT values. -/
theorem Mirrors.subDint {a b : BitVec 32} {rest : List VmValue}
    (h : Stands items pc [.simple .sub 0])
    (hs : s.stack = .dint b :: .dint a :: rest)
    (hk : Mirrors image nowMs R m post ⟨s.withStack (.dint (a - b) :: rest), pc + 4⟩) :
    Mirrors image nowMs R m post ⟨s, pc⟩ := by
  refine .binop C h (show binaryOpcode .sub = some .sub from rfl) hs (fun r t hbin => ?_)
    fun f t hbin => by cases hbin
  cases hbin
  exact hk

/-- The counter test leaves the loop at zero. -/
theorem mirrors_counterTest {counter n : ℕ} {endL : Label} (hn : n < 2 ^ 32)
    (h : Stands items pc (counterTest counter endL)) (hend : Stands items q [.label endL])
    (hr : Represents env N Γ g ((counter, .dint (BitVec.ofNat 32 n)) :: T) σ s)
    (hk : Mirrors image nowMs R m post ⟨s, if n = 0 then q else pc + 20⟩) :
    Mirrors image nowMs R m post ⟨s, pc⟩ := by
  refine .ldData C h.head hr.addresses (hr.temps _ List.mem_cons_self) ?_
  refine .dint C h.tail.head (by decide) ?_
  refine .eqDint C h.tail.tail.head rfl ?_
  refine .jmpIf C h.tail.tail.tail hend rfl ?_
  have hzero : (BitVec.ofNat 32 n = BitVec.ofNat 32 0) ↔ n = 0 := by
    rw [← BitVec.toNat_inj, BitVec.toNat_ofNat, BitVec.toNat_ofNat, Nat.mod_eq_of_lt hn]
  simp only [VmValue.asBool, hzero, decide_eq_true_eq]
  exact hk

/-- Counting leads back to the head with one iteration less. -/
theorem mirrors_counterNext {counter n : ℕ} {head : Label} (hroom : g.top ≤ N)
    (h : Stands items pc (counterNext counter head)) (hhead : Stands items q [.label head])
    (hk : Knows env Γ g ((counter, .dint (BitVec.ofNat 32 (n + 1))) :: T))
    (hr : Represents env N Γ g ((counter, .dint (BitVec.ofNat 32 (n + 1))) :: T) σ s)
    (hnext : ∀ s', s'.stack = s.stack →
      Represents env N Γ g ((counter, .dint (BitVec.ofNat 32 n)) :: T) σ s' →
      Mirrors image nowMs R m post ⟨s', q⟩) :
    Mirrors image nowMs R m post ⟨s, pc⟩ := by
  refine .ldData C h.head hr.addresses (hr.temps _ List.mem_cons_self) ?_
  refine .dint C h.tail.head (by decide) ?_
  refine .subDint C h.tail.tail.head rfl ?_
  have hsub : BitVec.ofNat 32 (n + 1) - BitVec.ofNat 32 1 = BitVec.ofNat 32 n := by
    apply BitVec.eq_of_toNat_eq
    simp only [BitVec.toNat_sub, BitVec.toNat_ofNat]
    omega
  rw [hsub]
  have hk' := hk.retemp (v := .dint (BitVec.ofNat 32 n)) rfl
  obtain ⟨d, hd, hset⟩ := hr.drop.setTemp (pc + 4 + 8 + 4) hk' hroom
  refine .stData C h.tail.tail.tail.head (((hr.withStack _).withStack _).withStack _).addresses rfl
    hd ?_
  exact .jmp C h.tail.tail.tail.tail hhead (hnext _ rfl (hset s.stack))

/-- **Loops.** A head that tests a counter, a condition that leads to the body or to the end, and a
body behind which the counter is counted down, make a bounded loop. -/
theorem mirrors_loop (cond : StM Bool) (body : StM Unit) (counter bodyPc : ℕ) {next : ℕ}
    {head endL : Label} (hroom : g.top ≤ N)
    (hhead : Stands items pc (.label head :: counterTest counter endL))
    (hnext : Stands items next (counterNext counter head)) (hend : Stands items q [.label endL])
    (hk : ∀ n : ℕ, Knows env Γ g ((counter, .dint (BitVec.ofNat 32 n)) :: T))
    (hcond : ∀ (n : ℕ) (σ : Store) (s : VmState), s.stack = stack →
      Represents env N Γ g ((counter, .dint (BitVec.ofNat 32 n)) :: T) σ s →
      Mirrors image env.nowMs R (cond σ)
        (Chooses env N Γ g ((counter, .dint (BitVec.ofNat 32 n)) :: T) stack bodyPc q) ⟨s, pc + 20⟩)
    (hbody : ∀ (n : ℕ) (σ : Store) (s : VmState), s.stack = stack →
      Represents env N Γ g ((counter, .dint (BitVec.ofNat 32 n)) :: T) σ s →
      Mirrors image env.nowMs R (body σ)
        (Reaches env N Γ g ((counter, .dint (BitVec.ofNat 32 n)) :: T) stack next) ⟨s, bodyPc⟩)
    (n : ℕ) (hn : n < 2 ^ 32) (hs : s.stack = stack)
    (hr : Represents env N Γ g ((counter, .dint (BitVec.ofNat 32 n)) :: T) σ s) :
    Mirrors image env.nowMs R (boundedLoop cond body n σ) (Reaches env N Γ g T stack q) ⟨s, pc⟩ := by
  induction n generalizing σ s with
  | zero =>
      refine mirrors_counterTest C hn hhead.tail hend hr ?_
      exact .ok rfl ⟨rfl, hs, hr.drop⟩
  | succ n ih =>
      refine mirrors_counterTest C hn hhead.tail hend hr ?_
      rw [if_neg (Nat.succ_ne_zero n)]
      refine .bind (hcond (n + 1) σ s hs hr) ?_
      rintro b σ₁ ⟨s₁, _⟩ - ⟨rfl, hs₁, hr₁⟩
      cases b with
      | false => exact .ok rfl ⟨rfl, hs₁, hr₁.drop⟩
      | true =>
          refine .bind (hbody (n + 1) σ₁ s₁ hs₁ hr₁) ?_
          rintro _ σ₂ ⟨s₂, _⟩ - ⟨rfl, hs₂, hr₂⟩
          refine mirrors_counterNext C hroom hnext hhead.head (hk (n + 1)) hr₂ fun s₃ hs₃ hr₃ => ?_
          exact ih (by omega) (hs₃.trans hs₂) hr₃

/-- Writing a literal to a new temporary. -/
theorem mirrors_initTemp {off n : ℕ} (h : Stands items pc [.dint n, .simple .stData off])
    (hn : n < 2 ^ 32)
    (hk : Knows env Γ g ((off, .dint (BitVec.ofNat 32 n)) :: T)) (hroom : g.top ≤ N)
    (hr : Represents env N Γ g T σ s)
    (hnext : ∀ s', s'.stack = s.stack →
      Represents env N Γ g ((off, .dint (BitVec.ofNat 32 n)) :: T) σ s' →
      Mirrors image nowMs R m post ⟨s', pc + 12⟩) :
    Mirrors image nowMs R m post ⟨s, pc⟩ := by
  refine .dint C h.head hn ?_
  obtain ⟨d, hd, hset⟩ := hr.setTemp (pc + 8) hk hroom
  exact .stData C h.tail.head (hr.withStack _).addresses rfl hd (hnext _ rfl (hset s.stack))

/-- `WHILE`. -/
theorem performs_while (hN : N ≤ 2 ^ 32) {cond : Expr} {maxIter : Option ℕ} {body : List Stmt}
    (hty : exprType Γ cond = some .bool) (hbound : maxIter.all (fun n => n < 2 ^ 32) = true)
    (hbody : Performs image items env N Γ (emitStmts order body) (execAll env body Γ)) :
    Performs image items env N Γ (emitStmt order (.while cond maxIter body))
      (exec env (.while cond maxIter body) Γ) := by
  intro g g' T σ s R hR h hpre htop hk hr
  obtain ⟨max, counter, g₁, g₂, g₃, rfl, hcounter, h₂, h₃, rfl⟩ := emitStmt_while_ok h
  have hmax : max < 2 ^ 32 := by simpa using hbound
  rw [exec]
  -- the emitter at each stage
  have e₁ := Ext.temp hcounter
  have hitems₁ : g₁.items = g.items := by
    obtain ⟨-, rfl⟩ := allocTemp_ok hcounter
    rfl
  have hpc₁ : g₁.pc = g.pc := by rw [Codegen.pc, Codegen.pc, hitems₁]
  have e₂ := (((Ext.adds g₁ [.dint max, .simple .stData counter]).trans (.bump _)).trans
    (.bump _)).trans
      (.adds _ (.label ⟨.whHead, g₁.labelId⟩ :: counterTest counter ⟨.whEnd, g₁.labelId + 1⟩))
  obtain ⟨T₃, e₃⟩ := (whole_emitExpr order cond).grows h₂
  obtain ⟨T₄, e₄⟩ := (whole_emitStmts order body).grows h₃
  have e₅ := Ext.adds g₃
    (counterNext counter ⟨.whHead, g₁.labelId⟩ ++ [.label ⟨.whEnd, g₁.labelId + 1⟩])
  have hpre₃ : g₃.items <+: items := e₅.items.trans hpre
  have hpre₂' := e₄.items.trans hpre₃
  have hpre₂ : g₂.items <+: items := (Ext.adds g₂ _).items.trans hpre₂'
  have hpreh := e₃.items.trans hpre₂
  have htop₂ : g₂.top ≤ N := e₄.top.trans htop
  have htoph := e₃.top.trans htop₂
  -- the places of the items
  have hinit : Stands items g.pc [.dint max, .simple .stData counter] :=
    hpc₁ ▸ stands_adds (g := g₁) ((List.prefix_append _ _).trans hpreh)
  have hhead := stands_adds hpreh
  have hlast := stands_adds hpre
  have hpch : ((g₁.adds [.dint max, .simple .stData counter]).bump.bump.adds
      (.label ⟨.whHead, g₁.labelId⟩ :: counterTest counter ⟨.whEnd, g₁.labelId + 1⟩)).pc =
      g.pc + 12 + 20 := by
    simp [counterTest, DecodedInstr.size, Item.size, hpc₁]
  have hpcs : (g₁.adds [.dint max, .simple .stData counter]).bump.bump.pc = g.pc + 12 := by
    simp [DecodedInstr.size, hpc₁]
  rw [hpcs] at hhead
  have hkn : ∀ n : ℕ, Knows env Γ g₁ ((counter, .dint (BitVec.ofNat 32 n)) :: T) :=
    fun n => hk.temp hcounter rfl
  refine mirrors_initTemp C hinit hmax (hkn max) (e₂.top.trans htoph) (hr.ext hk e₁)
    fun s₁ hs₁ hr₁ => ?_
  refine Enacts.mono (mirrors_loop C _ (execAll env body Γ) counter (g₂.pc + 4) htoph hhead hlast.left
    hlast.right (fun n => (hkn n).ext e₂) ?_ ?_ max hmax hs₁ (hr₁.ext (hkn max) e₂)) ?_
  · -- the condition
    intro n σ₂ s₂ hs₂ hr₂
    have hcond := computes_expr C hN cond hty R h₂ hpre₂ htop₂ ((hkn n).ext e₂) hr₂
    rw [hpch] at hcond
    refine .bind hcond ?_
    rintro v σ₃ ⟨s₃, _⟩ - ⟨rfl, hv, hs₃, hr₃⟩
    simp only at hs₃ hr₃
    refine Mirrors.jmpIfNot C (stands_adds hpre₂') hlast.right hs₃ ?_
    exact .ok rfl ⟨rfl, hs₂, hr₃.withStack _⟩
  · -- the body
    intro n σ₂ s₂ hs₂ hr₂
    have hperform := hbody.after (R := R) (fun σ s hr' => hR σ s ((hr'.drop.back e₂).back e₁))
      (e₃.toExt.trans (.adds g₂ _)) h₃ hpre₃ htop ((hkn n).ext e₂) hr₂
    rwa [hs₂, Codegen.adds_jump_pc] at hperform
  · rintro _ σ₂ c₂ - ⟨hpc, hs₂, hr₂⟩
    refine ⟨?_, hs₂, (hr₂.back e₂).back e₁⟩
    rw [hpc]
    simp [Item.size]

/-! ## Branches -/

/-- A branch of an `IF`. -/
theorem cascades_branch (hN : N ≤ 2 ^ 32) {cond : Expr} {body : List Stmt}
    {rest : List (Expr × List Stmt)} {endL : Label} {hasElse : Bool}
    (hty : exprType Γ cond = some .bool)
    (hbody : Performs image items env N Γ (emitStmts order body) (execAll env body Γ))
    (hrest : Cascades image items env N Γ endL (EndsBehind hasElse)
      (emitBranches order rest endL hasElse) (execBranches env rest Γ)) :
    Cascades image items env N Γ endL (EndsBehind hasElse)
      (emitBranches order ((cond, body) :: rest) endL hasElse)
      (execBranches env ((cond, body) :: rest) Γ) := by
  intro g g' T σ s q R otherwise hR h hpre htop hq hfits hk hr hother
  obtain ⟨g₁, g₂, h₁, h₂, h₃⟩ := emitBranches_cons_ok h
  rw [execBranches]
  have e₀ := Ext.bump g
  obtain ⟨T₁, e₁⟩ := (whole_emitExpr order cond).grows h₁
  obtain ⟨T₂, e₂⟩ := (whole_emitStmts order body).grows h₂
  obtain ⟨T₃, e₃⟩ := (whole_emitBranches order rest endL hasElse).grows h₃
  have hpre₂' := e₃.items.trans hpre
  have hpre₂ : g₂.items <+: items := (Ext.adds g₂ _).items.trans hpre₂'
  have hpre₁' := e₂.items.trans hpre₂
  have hpre₁ : g₁.items <+: items := (Ext.adds g₁ _).items.trans hpre₁'
  have htop₂ : g₂.top ≤ N := e₃.top.trans htop
  have htop₁ : g₁.top ≤ N := e₂.top.trans htop₂
  have hlast := stands_adds hpre₂'
  -- the condition
  have hcond := computes_expr C hN cond hty R h₁ hpre₁ htop₁ (hk.ext e₀)
    (hr.ext hk e₀)
  refine .bind hcond ?_
  rintro v σ₁ ⟨s₁, _⟩ - ⟨rfl, hv, hs₁, hr₁⟩
  simp only at hs₁ hr₁
  refine Mirrors.jmpIfNot C (stands_adds hpre₁') hlast.right hs₁ ?_
  have hr₁' := (hr₁.back e₀).withStack s.stack
  have ebody := (e₀.trans e₁.toExt).trans (.adds g₁ [.jump .jmpIfNot ⟨.ifNext, g.labelId⟩])
  cases hval : v.asBool with
  | true =>
      -- the body, and out
      have hperform := hbody.after hR ebody h₂ hpre₂ htop₂ hk hr₁'
      rw [Codegen.adds_jump_pc] at hperform
      refine Enacts.andThen hperform ?_
      rintro _ σ₂ ⟨s₂, _⟩ hm ⟨rfl, hs₂, hr₂⟩
      by_cases hmore : (!rest.isEmpty || hasElse) = true
      · rw [hmore] at hlast
        exact Mirrors.jmp C hlast.head hq (.ok hm ⟨rfl, hs₂, hr₂⟩)
      · have hlone : rest = [] ∧ hasElse = false := by
          cases rest <;> cases hasElse <;> simp_all
        obtain ⟨rfl, rfl⟩ := hlone
        rw [emitBranches] at h₃
        cases h₃
        refine .ok hm ⟨?_, hs₂, hr₂⟩
        rw [hfits rfl]
        simp [branchEnd, Item.size]
  | false =>
      -- the other branches
      have hcascade := hrest.after hR ((ebody.trans e₂.toExt).trans (.adds g₂ _)) h₃ hpre htop hq
        hfits hk hr₁' hother
      rw [Codegen.adds_pc, itemsSize_append] at hcascade
      exact hcascade

/-! ## Arms -/

/-- The comparisons with the labels of an arm lead to its body or past it. -/
theorem mirrors_labelTests {tmp qb qn : ℕ} {v : VmValue} {bodyL nextL : Label} (hmem : (tmp, v) ∈ T)
    (hv : v.irType = .int ∨ v.irType = .dint) (hr : Represents env N Γ g T σ s)
    (hb : Stands items qb [.label bodyL]) (hn : Stands items qn [.label nextL]) :
    (labels : List ℤ) → {pc : ℕ} → labels ≠ [] → labels.all fitsI32 = true →
    Stands items pc (labelTests tmp bodyL nextL labels) →
    pc + itemsSize (labelTests tmp bodyL nextL labels) = qb →
    Mirrors image nowMs R m post ⟨s, if matchesLabel v labels then qb else qn⟩ →
    Mirrors image nowMs R m post ⟨s, pc⟩
  | [], _, hne, _, _, _, _ => absurd rfl hne
  | lab :: rest, pc, _, hfits, h, hsize, hk => by
      rw [List.all_cons, Bool.and_eq_true] at hfits
      refine .ldData C h.head hr.addresses (hr.temps _ hmem) ?_
      refine .dint C h.tail.head (asU32_lt lab) ?_
      have heq : binaryOpcode .eq = some .eq := rfl
      refine .binop C h.tail.tail.head heq rfl (fun r t hbin => ?_) fun f t hbin => by cases hbin
      cases hbin
      rw [valuesEq_label hv hfits.1]
      have hjump := h.tail.tail.tail.head
      by_cases hrest : rest = []
      · -- the last label
        subst hrest
        refine .jmpIfNot C hjump hn rfl ?_
        have hend : pc + 4 + 8 + 4 + 4 = qb := by
          rw [← hsize]
          simp [labelTests, DecodedInstr.size, Item.size]
        rw [hend]
        simp only [VmValue.asBool, decide_eq_true_eq]
        simp only [matchesLabel, List.any_cons, List.any_nil, Bool.or_false, decide_eq_true_eq] at hk
        exact hk
      · have hlater := h.tail.tail.tail.tail
        rw [show rest.isEmpty = false by simp [hrest]] at hjump hlater
        refine .jmpIf C hjump hb rfl ?_
        simp only [matchesLabel, List.any_cons, Bool.or_eq_true, decide_eq_true_eq] at hk
        simp only [VmValue.asBool, decide_eq_true_eq]
        by_cases hlab : v.asI64 = some lab
        · simp only [hlab, true_or, if_true] at hk ⊢
          exact hk
        · simp only [hlab, false_or, if_false] at hk ⊢
          refine mirrors_labelTests hmem hv hr hb hn rest hrest hfits.2 hlater ?_ hk
          rw [← hsize]
          simp only [labelTests, hrest, List.isEmpty_iff, if_false, itemsSize_append,
            itemsSize_cons, itemsSize_nil, Item.size, DecodedInstr.size]
          omega

/-- An arm of a `CASE`. -/
theorem cascades_arm {labels : List ℤ} {body : List Stmt} {rest : List CaseArm} {endL : Label}
    {tmp : ℕ} {v : VmValue} (hv : v.irType = .int ∨ v.irType = .dint) (hne : labels ≠ [])
    (hlabels : labels.all fitsI32 = true)
    (hbody : Performs image items env N Γ (emitStmts order body) (execAll env body Γ))
    (hrest : Cascades image items env N Γ endL (fun _ T _ => (tmp, v) ∈ T)
      (emitArms order rest tmp endL) (execArms env rest Γ v)) :
    Cascades image items env N Γ endL (fun _ T _ => (tmp, v) ∈ T)
      (emitArms order (⟨labels, body⟩ :: rest) tmp endL)
      (execArms env (⟨labels, body⟩ :: rest) Γ v) := by
  intro g g' T σ s q R otherwise hR h hpre htop hq hmem hk hr hother
  obtain ⟨g₁, h₁, h₂⟩ := emitArms_cons_ok h
  rw [execArms]
  have e₀ := (Ext.bump g).trans ((Ext.bump _).trans (.adds g.bump.bump (labelTests tmp
    ⟨.caseBody, g.labelId⟩ ⟨.caseNext, g.labelId + 1⟩ labels ++ [.label ⟨.caseBody, g.labelId⟩])))
  obtain ⟨T₁, e₁⟩ := (whole_emitStmts order body).grows h₁
  have e₂ := ext_emitArms rest h₂
  have hpre₁' := e₂.items.trans hpre
  have hpre₁ : g₁.items <+: items := (Ext.adds g₁ _).items.trans hpre₁'
  have hpre₀ := e₁.items.trans hpre₁
  have htop₁ : g₁.top ≤ N := e₂.top.trans htop
  have htests := stands_adds hpre₀
  have hlast := stands_adds hpre₁'
  refine mirrors_labelTests C hmem hv hr htests.right hlast.tail labels hne hlabels htests.left rfl ?_
  by_cases hmatch : matchesLabel v labels = true
  · -- the body, and out
    rw [if_pos hmatch, if_pos hmatch]
    have hperform := hbody.after hR e₀ h₁ hpre₁ htop₁ hk hr
    rw [Codegen.adds_pc, itemsSize_append] at hperform
    refine Enacts.andThen hperform ?_
    rintro _ σ₂ ⟨s₂, _⟩ hm ⟨rfl, hs₂, hr₂⟩
    exact Mirrors.jmp C hlast.head hq (.ok hm ⟨rfl, hs₂, hr₂⟩)
  · -- the other arms
    rw [if_neg hmatch, if_neg hmatch]
    have hcascade := hrest.after hR ((e₀.trans e₁.toExt).trans (.adds g₁ _)) h₂ hpre htop hq hmem hk
      hr hother
    rw [Codegen.adds_pc] at hcascade
    exact hcascade

/-- `CASE`. -/
theorem performs_case (hN : N ≤ 2 ^ 32) {selector : Expr} {arms : List CaseArm}
    {elseBody : Option (List Stmt)}
    (hty : exprType Γ selector = some .int ∨ exprType Γ selector = some .dint)
    (harms : ∀ tmp endL v, v.irType = .int ∨ v.irType = .dint →
      Cascades image items env N Γ endL (fun _ T _ => (tmp, v) ∈ T)
        (emitArms order arms tmp endL) (execArms env arms Γ v))
    (helse : Performs image items env N Γ (emitElse order elseBody) (execElse env elseBody Γ)) :
    Performs image items env N Γ (emitStmt order (.case selector arms elseBody))
      (exec env (.case selector arms elseBody) Γ) := by
  intro g g' T σ s R hR h hpre htop hk hr
  obtain ⟨t, g₁, tmp, g₂, g₃, g₄, h₁, ht, htmp, h₃, h₄, rfl⟩ := emitStmt_case_ok h
  rw [exec]
  obtain ⟨T₁, e₁⟩ := (whole_emitExpr order selector).grows h₁
  have e₂ := Ext.temp htmp
  have e₂' := (Ext.adds g₂ [.simple .stData tmp]).trans (.bump _)
  have e₃ := ext_emitArms arms h₃
  obtain ⟨T₄, e₄⟩ := (whole_emitElse order elseBody).grows h₄
  have hpre₄ : g₄.items <+: items := (Ext.adds g₄ _).items.trans hpre
  have hpre₃ : g₃.items <+: items := e₄.items.trans hpre₄
  have hpre₂' := e₃.items.trans hpre₃
  have htop₃ : g₃.top ≤ N := e₄.top.trans htop
  have htop₂ : g₂.top ≤ N := e₃.top.trans htop₃
  have htop₁ := e₂.top.trans htop₂
  have hitems₂ : g₂.items = g₁.items := by
    obtain ⟨-, rfl⟩ := allocTemp_ok htmp
    rfl
  have hpc₂ : g₂.pc = g₁.pc := by rw [Codegen.pc, Codegen.pc, hitems₂]
  have hstore : Stands items g₁.pc [.simple .stData tmp] := hpc₂ ▸ stands_adds hpre₂'
  have hpre₁ : g₁.items <+: items := hitems₂ ▸ (List.prefix_append _ _).trans hpre₂'
  -- the type that the emitter found is that of the selector
  obtain ⟨ty, hsel, htyp⟩ : ∃ ty, exprType Γ selector = some ty ∧ (ty = .int ∨ ty = .dint) :=
    hty.elim (fun h => ⟨_, h, .inl rfl⟩) fun h => ⟨_, h, .inr rfl⟩
  obtain rfl : t = ty := by
    rcases emitExpr_type hk ((e₁.top.trans htop₁).trans hN) selector h₁ hsel with h | rfl
    · exact h
    · simp at ht
  refine .bind (computes_expr C hN selector hsel R h₁ hpre₁ htop₁ hk hr) ?_
  rintro v σ₁ ⟨s₁, _⟩ - ⟨rfl, hv, hs₁, hr₁⟩
  simp only at hs₁ hr₁
  have hk₁ := hk.ext e₁.toExt
  have hk₂ := hk₁.temp htmp hv
  have hr₁' := (hr₁.ext hk e₁.toExt).ext hk₁ e₂
  obtain ⟨d, hd, hset⟩ := hr₁'.setTemp g₁.pc hk₂ htop₂
  refine Mirrors.stData C hstore hr₁.addresses hs₁ hd ?_
  have hr₂ := hset s.stack
  have hout : ∀ {σ' s'}, Represents env N Γ g₂ ((tmp, v) :: T) σ' s' →
      Represents env N Γ g T σ' s' := fun h => (h.drop.back e₂).back e₁.toExt
  have hpc : (g₄.adds [.label ⟨.caseEnd, g₂.labelId⟩]).pc = g₄.pc := by simp [Item.size]
  have hR₂ : ∀ σ s, Represents env N Γ g₂ ((tmp, v) :: T) σ s → R σ s :=
    fun σ' s' h => hR σ' s' (hout h)
  have hother : ∀ σ' s', s'.stack = s.stack → Represents env N Γ g₂ ((tmp, v) :: T) σ' s' →
      Mirrors image env.nowMs R (execElse env elseBody Γ σ')
        (Reaches env N Γ g₂ ((tmp, v) :: T) s.stack g₄.pc) ⟨s', g₃.pc⟩ := by
    intro σ' s' hs' hr'
    rw [← hs']
    exact helse.after hR₂ (e₂'.trans e₃) h₄ hpre₄ htop hk₂ hr'
  have hcascade := (harms tmp ⟨.caseEnd, g₂.labelId⟩ v (hv ▸ htyp)).after hR₂ e₂' h₃ hpre₃ htop₃
    (stands_adds hpre) List.mem_cons_self hk₂ hr₂ hother
  rw [Codegen.bump_pc, Codegen.adds_simple_pc, hpc₂] at hcascade
  rw [hpc]
  refine Enacts.mono hcascade ?_
  rintro _ σ₂ c₂ - ⟨hpc', hs', hr'⟩
  exact ⟨hpc', hs', hout hr'⟩

/-! ## `FOR` -/

/-- The test against the limit. -/
theorem mirrors_forTest {l : Loc} {ld st : Opcode} {varOff toTmp : ℕ} {limit : VmValue}
    {endL : Label} (hstands : Stands items pc [.simple ld varOff, .simple .ldData toTmp,
      .simple .gt 0, .jump .jmpIf endL]) (hend : Stands items q [.label endL])
    (hplace : Place Γ g l .dint ld st varOff) (hmem : (toTmp, limit) ∈ T)
    (hty : limit.irType = .dint) (hr : Represents env N Γ g T σ s) :
    Mirrors image env.nowMs R (forTest l limit σ)
      (Chooses env N Γ g T s.stack (pc + 16) q) ⟨s, pc⟩ := by
  refine hplace.load C hr hstands.head ?_
  refine .ldData C hstands.tail.head (hr.withStack _).addresses (hr.temps _ hmem) ?_
  have hgt := mirrors_operator C (R := R) .gt hstands.tail.tail.head rfl
    (hplace.irType hr) hty rfl (s := s.withStack (limit :: σ.vars l :: s.stack)) rfl (hr.withStack _)
  refine Enacts.bind (c := binaryValue .gt (σ.vars l) limit)
    (k := fun past => pure !past.asBool) hgt ?_
  rintro r σ₁ ⟨s₁, _⟩ - ⟨rfl, -, hs₁, hr₁⟩
  refine Mirrors.jmpIf C hstands.tail.tail.tail hend hs₁ ?_
  refine .ok rfl ⟨?_, rfl, hr₁.withStack _⟩
  cases r.asBool <;> rfl

/-- The advance of the variable. -/
theorem mirrors_forNext {l : Loc} {ld st : Opcode} {varOff byTmp : ℕ} {stride : VmValue}
    (hstands : Stands items pc [.simple ld varOff, .simple .ldData byTmp, .simple .add 0,
      .simple st varOff])
    (hplace : Place Γ g l .dint ld st varOff) (hmem : (byTmp, stride) ∈ T)
    (hty : stride.irType = .dint) (hk : Knows env Γ g T) (hr : Represents env N Γ g T σ s) :
    Mirrors image env.nowMs R (forNext l stride σ)
      (Reaches env N Γ g T s.stack (pc + 16)) ⟨s, pc⟩ := by
  refine hplace.load C hr hstands.head ?_
  refine .ldData C hstands.tail.head (hr.withStack _).addresses (hr.temps _ hmem) ?_
  have hadd := mirrors_operator C (R := R) .add hstands.tail.tail.head rfl
    (hplace.irType hr) hty rfl (s := s.withStack (stride :: σ.vars l :: s.stack)) rfl (hr.withStack _)
  refine Enacts.bind (c := binaryValue .add (σ.vars l) stride)
    (k := fun next => modify fun σ => σ.set l next) hadd ?_
  rintro r σ₁ ⟨s₁, _⟩ - ⟨rfl, hrt, hs₁, hr₁⟩
  refine hplace.store C hk hr₁ hstands.tail.tail.tail hrt hs₁ fun s' hs' hr' => ?_
  exact .ok rfl ⟨rfl, hs', hr'⟩

/-- The step. -/
theorem mirrors_emitStep (hN : N ≤ 2 ^ 32) {step : Option Expr} {u : Unit}
    (hty : step.all (fun e => exprType Γ e = some .dint) = true)
    (h : emitStep order step g = .ok u g') (hpre : g'.items <+: items) (htop : g'.top ≤ N)
    (hk : Knows env Γ g T) (hr : Represents env N Γ g T σ s) :
    Mirrors image env.nowMs R (evalStep env Γ step σ) (Yields env N Γ g T s.stack .dint g'.pc)
      ⟨s, g.pc⟩ := by
  cases step with
  | some e =>
      rw [emitStep] at h
      obtain ⟨t, g₁, h₁, h⟩ := estate_bind_ok.mp h
      cases h
      exact computes_expr C hN e (by simpa using hty) R h₁ hpre htop hk hr
  | none =>
      obtain rfl : g' = g.adds [.dint 1] := append_ok.mp h
      refine .dint C (stands_adds hpre) (by decide) (.ok rfl ⟨?_, rfl, rfl, hr.withStack _⟩)
      simp [DecodedInstr.size]

/-- The loop of a `FOR`, behind the code of its bounds. -/
theorem mirrors_forLoop {name : String} {varOff toTmp byTmp counter max : ℕ} {limit stride : VmValue}
    {body : List Stmt} {g₁ g₂ : Codegen} (hmax : max < 2 ^ 32)
    (hbody : Performs image items env N Γ (emitStmts order body) (execAll env body Γ))
    (hcounter : allocTemp .dint g = .ok counter g₁)
    (h : emitStmts order body ((g₁.adds [.dint max, .simple .stData counter]).bump.bump.adds
      (.label ⟨.forHead, g₁.labelId⟩ :: (counterTest counter ⟨.forEnd, g₁.labelId + 1⟩ ++
        boundTest varOff toTmp ⟨.forEnd, g₁.labelId + 1⟩))) = .ok () g₂)
    (hpre : (g₂.adds (stepNext varOff byTmp ++ (counterNext counter ⟨.forHead, g₁.labelId⟩ ++
      [.label ⟨.forEnd, g₁.labelId + 1⟩]))).items <+: items) (htop : g₂.top ≤ N)
    (hn : (Γ name).isSome) (hlook : g.look name = some (.data varOff (.elem .dint)))
    (hlimit : (toTmp, limit) ∈ T) (hlimitTy : limit.irType = .dint) (hstride : (byTmp, stride) ∈ T)
    (hstrideTy : stride.irType = .dint) (hR : ∀ σ s, Represents env N Γ g T σ s → R σ s)
    (hk : Knows env Γ g T) (hr : Represents env N Γ g T σ s) :
    Mirrors image env.nowMs R
      (boundedLoop (forTest (.cell name 0) limit)
        (do
          execAll env body Γ
          forNext (.cell name 0) stride) max σ)
      (Reaches env N Γ g T s.stack (g₂.adds (stepNext varOff byTmp ++
        (counterNext counter ⟨.forHead, g₁.labelId⟩ ++ [.label ⟨.forEnd, g₁.labelId + 1⟩]))).pc)
      ⟨s, g.pc⟩ := by
  have e₁ := Ext.temp hcounter
  have hitems₁ : g₁.items = g.items := by
    obtain ⟨-, rfl⟩ := allocTemp_ok hcounter
    rfl
  have hpc₁ : g₁.pc = g.pc := by rw [Codegen.pc, Codegen.pc, hitems₁]
  have e₂ := (((Ext.adds g₁ [.dint max, .simple .stData counter]).trans (.bump _)).trans
    (.bump _)).trans (.adds _ (.label ⟨.forHead, g₁.labelId⟩ ::
      (counterTest counter ⟨.forEnd, g₁.labelId + 1⟩ ++
        boundTest varOff toTmp ⟨.forEnd, g₁.labelId + 1⟩)))
  obtain ⟨T₃, e₃⟩ := (whole_emitStmts order body).grows h
  have hpre₂ : g₂.items <+: items := (Ext.adds g₂ _).items.trans hpre
  have hpreh := e₃.items.trans hpre₂
  have htoph := e₃.top.trans htop
  -- the places of the items
  have hinit : Stands items g.pc [.dint max, .simple .stData counter] :=
    hpc₁ ▸ stands_adds (g := g₁) ((List.prefix_append _ _).trans hpreh)
  have hpcs : (g₁.adds [.dint max, .simple .stData counter]).bump.bump.pc = g.pc + 12 := by
    simp [DecodedInstr.size, hpc₁]
  have hpch : ((g₁.adds [.dint max, .simple .stData counter]).bump.bump.adds
      (.label ⟨.forHead, g₁.labelId⟩ :: (counterTest counter ⟨.forEnd, g₁.labelId + 1⟩ ++
        boundTest varOff toTmp ⟨.forEnd, g₁.labelId + 1⟩))).pc = g.pc + 12 + 20 + 16 := by
    simp [counterTest, boundTest, DecodedInstr.size, Item.size, hpc₁]
  have hhead := stands_adds hpreh
  rw [hpcs, ← List.cons_append] at hhead
  have hlast := stands_adds hpre
  have hkn : ∀ n : ℕ, Knows env Γ g₁ ((counter, .dint (BitVec.ofNat 32 n)) :: T) :=
    fun n => hk.temp hcounter rfl
  have hplace : Place Γ ((g₁.adds [.dint max, .simple .stData counter]).bump.bump.adds
      (.label ⟨.forHead, g₁.labelId⟩ :: (counterTest counter ⟨.forEnd, g₁.labelId + 1⟩ ++
        boundTest varOff toTmp ⟨.forEnd, g₁.labelId + 1⟩))) (.cell name 0) .dint .ldData .stData
      varOff := .cell hn (e₂.look (e₁.look hlook)) rfl
  refine mirrors_initTemp C hinit hmax (hkn max) (e₂.top.trans htoph) (hr.ext hk e₁)
    fun s₁ hs₁ hr₁ => ?_
  refine Enacts.mono (mirrors_loop C _ _ counter (g.pc + 12 + 20 + 16) htoph hhead.left
    hlast.right.left hlast.right.right (fun n => (hkn n).ext e₂) ?_ ?_ max hmax hs₁
    (hr₁.ext (hkn max) e₂)) ?_
  · -- the limit
    intro n σ₂ s₂ hs₂ hr₂
    have htest := mirrors_forTest C (R := R) hhead.right hlast.right.right
      hplace (List.mem_cons_of_mem _ hlimit) hlimitTy hr₂
    rw [hs₂] at htest
    exact htest
  · -- the body, and the next value
    intro n σ₂ s₂ hs₂ hr₂
    have hperform := hbody (R := R) (fun σ s hr' => hR σ s ((hr'.drop.back e₂).back e₁)) h hpre₂ htop
      ((hkn n).ext e₂) hr₂
    rw [hs₂, hpch] at hperform
    refine .bind hperform ?_
    rintro _ σ₃ ⟨s₃, _⟩ - ⟨rfl, hs₃, hr₃⟩
    have hnext := mirrors_forNext C (R := R) hlast.left hplace
      (List.mem_cons_of_mem _ hstride) hstrideTy ((hkn n).ext e₂) hr₃
    rw [hs₃] at hnext
    exact hnext
  · rintro _ σ₂ c₂ - ⟨hpc, hs₂, hr₂⟩
    refine ⟨?_, hs₂, (hr₂.back e₂).back e₁⟩
    rw [hpc]
    simp [Item.size, Nat.add_assoc]

/-- `FOR`. -/
theorem performs_for (hN : N ≤ 2 ^ 32) {var : String} {first last : Expr} {step : Option Expr}
    {maxIter : Option ℕ} {body : List Stmt} (hin : Γ.enterFor var (lower var) = some (.var .dint))
    (hfirst : exprType Γ first = some .dint) (hlast : exprType (Γ.enterFor var) last = some .dint)
    (hstep : step.all (fun e => exprType (Γ.enterFor var) e = some .dint) = true)
    (hbound : maxIter.all (fun n => n < 2 ^ 32) = true)
    (hbody : Performs image items env N (Γ.enterFor var) (emitStmts order body)
      (execAll env body (Γ.enterFor var))) :
    Performs image items env N Γ (emitStmt order (.for var first last step maxIter body))
      (exec env (.for var first last step maxIter body) Γ) := by
  intro g g' T σ s R hR h hpre htop hk hr
  obtain ⟨max, varOff, g₁, t₂, g₂, toTmp, g₃, t₄, g₄, byTmp, g₅, g₆, counter, g₇, g₈, hmax, h₁, h₂,
    h₃, h₄, h₅, h₆, h₇, h₈, rfl⟩ := emitStmt_for_ok h
  rw [exec, hmax]
  -- the emitter at each stage
  obtain ⟨hk₁, e₁, hitems₁, hlook₁⟩ := knows_forVariable h₁ hk hin
  obtain ⟨T₂, e₂⟩ := (whole_emitExpr order first).grows h₂
  have e₂' := Ext.adds g₂ [.simple .stData varOff]
  have e₃ := Ext.temp h₃
  obtain ⟨T₄, e₄⟩ := (whole_emitExpr order last).grows h₄
  have e₄' := Ext.adds g₄ [.simple .stData toTmp]
  have e₅ := Ext.temp h₅
  obtain ⟨T₆, e₆⟩ := (whole_emitStep order step).grows h₆
  have e₆' := Ext.adds g₆ [.simple .stData byTmp]
  have e₇ := Ext.temp h₇
  obtain ⟨T₈, e₈⟩ := (whole_emitStmts order body).grows h₈
  have e₇' := (((Ext.adds g₇ [.dint max, .simple .stData counter]).trans (.bump _)).trans
    (.bump _)).trans (.adds _ (.label ⟨.forHead, g₇.labelId⟩ ::
      (counterTest counter ⟨.forEnd, g₇.labelId + 1⟩ ++
        boundTest varOff toTmp ⟨.forEnd, g₇.labelId + 1⟩)))
  have htop₇ : g₇.top ≤ N := (e₇'.trans e₈.toExt).top.trans htop
  have htop₆ : g₆.top ≤ N := e₇.top.trans htop₇
  have htop₅ : g₅.top ≤ N := e₆.top.trans htop₆
  have htop₄ : g₄.top ≤ N := e₅.top.trans htop₅
  have htop₃ : g₃.top ≤ N := e₄.top.trans htop₄
  have htop₂ : g₂.top ≤ N := e₃.top.trans htop₃
  have hpre₇ : g₇.items <+: items :=
    (((e₇'.trans e₈.toExt).trans (.adds g₈ _)).items).trans hpre
  have hpre₆' := e₇.items.trans hpre₇
  have hpre₆ : g₆.items <+: items := e₆'.items.trans hpre₆'
  have hpre₄' := (e₅.trans e₆.toExt).items.trans hpre₆
  have hpre₄ : g₄.items <+: items := e₄'.items.trans hpre₄'
  have hpre₂' := (e₃.trans e₄.toExt).items.trans hpre₄
  have hpre₂ : g₂.items <+: items := e₂'.items.trans hpre₂'
  have hpc₁ : g₁.pc = g.pc := by rw [Codegen.pc, Codegen.pc, hitems₁]
  have hpc₃ : g₃.pc = g₂.pc + 4 := by
    obtain ⟨-, rfl⟩ := allocTemp_ok h₃
    exact Codegen.adds_simple_pc g₂ .stData varOff
  have hpc₅ : g₅.pc = g₄.pc + 4 := by
    obtain ⟨-, rfl⟩ := allocTemp_ok h₅
    exact Codegen.adds_simple_pc g₄ .stData toTmp
  -- the first value
  have hstart := computes_expr C hN first hfirst R h₂ hpre₂ htop₂ (hk.ext e₁)
    (hr.ext hk e₁)
  rw [hpc₁] at hstart
  refine .bind hstart ?_
  rintro v σ₁ ⟨s₁, _⟩ - ⟨rfl, hv, hs₁, hr₁⟩
  simp only at hs₁ hr₁
  have hk₂ := hk₁.ext e₂.toExt
  have hlook₂ := e₂.look hlook₁
  obtain ⟨d, hd, hset⟩ := (hr₁.ext (hk.ext e₁) e₂.toExt).enter g₂.pc hk₂
    (fun hne he => Scope.of_enterFor hne he) (hv ▸ hin) (hv ▸ hlook₂) htop₂
  refine Mirrors.stData C (stands_adds hpre₂') hr₁.addresses hs₁ hd ?_
  have hset₀ : (modify fun σ => σ.set (.cell (lower var) 0) v : StM Unit) σ₁ =
      .ok () (σ₁.set (.cell (lower var) 0) v) := rfl
  rw [estate_bind_of_ok hset₀]
  -- the limit
  have hk₂' := hk₂.ext e₂'
  have hk₃ := hk₂'.ext e₃
  have hr₂ := hset s.stack
  have hlimit := computes_expr C hN last hlast R h₄ hpre₄ htop₄ hk₃
    ((hr₂.ext hk₂ e₂').ext hk₂' e₃)
  rw [hpc₃] at hlimit
  refine .bind hlimit ?_
  rintro limit σ₃ ⟨s₃, _⟩ - ⟨rfl, hlimitTy, hs₃, hr₃⟩
  simp only at hs₃ hr₃
  have hk₄ := (hk₂'.temp h₃ hlimitTy).ext e₄.toExt
  obtain ⟨d', hd', hset'⟩ := (hr₃.ext hk₃ e₄.toExt).setTemp g₄.pc hk₄ htop₄
  refine Mirrors.stData C (stands_adds hpre₄') hr₃.addresses hs₃ hd' ?_
  have hr₄ := hset' s.stack
  -- the step
  have hk₄' := hk₄.ext e₄'
  have hk₅ := hk₄'.ext e₅
  have hstride := mirrors_emitStep C hN (R := R) hstep h₆ hpre₆ htop₆ hk₅
    ((hr₄.ext hk₄ e₄').ext hk₄' e₅)
  rw [hpc₅] at hstride
  refine .bind hstride ?_
  rintro stride σ₅ ⟨s₅, _⟩ - ⟨rfl, hstrideTy, hs₅, hr₅⟩
  simp only at hs₅ hr₅
  have hk₆ := (hk₄'.temp h₅ hstrideTy).ext e₆.toExt
  obtain ⟨d'', hd'', hset''⟩ := (hr₅.ext hk₅ e₆.toExt).setTemp g₆.pc hk₆ htop₆
  refine Mirrors.stData C (stands_adds hpre₆') hr₅.addresses hs₅ hd'' ?_
  have hr₆ := hset'' s.stack
  -- the loop
  have hk₆' := hk₆.ext e₆'
  have hlook₆ := e₆'.look (e₆.look (e₅.look (e₄'.look (e₄.look (e₃.look (e₂'.look hlook₂))))))
  have hout : ∀ {σ' s'}, Represents env N (Γ.enterFor var) (g₆.adds [.simple .stData byTmp])
      ((byTmp, stride) :: (toTmp, limit) :: T) σ' s' → Represents env N Γ g T σ' s' := by
    intro σ' s' hr'
    have hg₂ := (((((hr'.drop.drop.back e₆').back e₆.toExt).back e₅).back e₄').back e₄.toExt).back e₃
    have hg := ((hg₂.back e₂').back e₂.toExt).back e₁
    exact hg.scope fun h => Scope.enterFor_of_some h
  have hloop := mirrors_forLoop C (forBound_lt hmax hbound) hbody h₇ h₈ hpre htop
    (by simp [hin]) hlook₆ (List.mem_cons_of_mem _ List.mem_cons_self) hlimitTy
    List.mem_cons_self hstrideTy (fun σ' s' h => hR σ' s' (hout h)) hk₆' (hr₆.ext hk₆ e₆')
  rw [Codegen.adds_simple_pc] at hloop
  refine Enacts.mono hloop ?_
  rintro _ σ' c' - ⟨hpc, hs', hr'⟩
  exact ⟨hpc, hs', hout hr'⟩

end Forms

/-! ## The induction -/

mutual

/-- **Compiled statements.** The code of a well-typed statement does what the statement means. -/
theorem performs_stmt (C : Target image items) (hN : N ≤ 2 ^ 32) : (st : Stmt) → {Γ : Scope} →
    stmtOk st Γ = true → Performs image items env N Γ (emitStmt order st) (exec env st Γ)
  | .empty, Γ, _ => by
      intro g g' T σ s R hR h hpre htop hk hr
      rw [emitStmt] at h
      cases h
      exact .ok (by rw [exec]; rfl) ⟨rfl, rfl, hr⟩
  | .return, Γ, _ => performs_return C
  | .assign lhs rhs, Γ, hok => performs_assign C hN hok
  | .fbCall call, Γ, hok => by
      intro g g' T σ s R hR h hpre htop hk hr
      rw [stmtOk] at hok
      rw [emitStmt] at h
      rw [exec]
      exact mirrors_call C hN hok h hpre htop hk hr
  | .ifs branches elseBody, Γ, hok => by
      rw [stmtOk, Bool.and_eq_true] at hok
      exact performs_ifs (fun endL => cascades_branches C hN branches endL elseBody.isSome hok.1)
        (performs_else C hN elseBody hok.2)
  | .case selector arms elseBody, Γ, hok => by
      rw [stmtOk, Bool.and_eq_true, Bool.and_eq_true] at hok
      obtain ⟨⟨hty, harms⟩, helse⟩ := hok
      exact performs_case C hN (by simpa using hty)
        (fun tmp endL v hv => cascades_arms C hN arms tmp endL v hv harms)
        (performs_else C hN elseBody helse)
  | .while cond maxIter body, Γ, hok => by
      rw [stmtOk, Bool.and_eq_true, Bool.and_eq_true] at hok
      exact performs_while C hN (by simpa using hok.1.1) hok.1.2 (performs_stmts C hN body hok.2)
  | .for var first last step maxIter body, Γ, hok => by
      rw [stmtOk] at hok
      simp only [Bool.and_eq_true, decide_eq_true_eq] at hok
      obtain ⟨⟨⟨⟨⟨hin, hfirst⟩, hlast⟩, hstep⟩, hmax⟩, hbody⟩ := hok
      exact performs_for C hN hin hfirst hlast hstep hmax (performs_stmts C hN body hbody)

/-- Statements one after the other. -/
theorem performs_stmts (C : Target image items) (hN : N ≤ 2 ^ 32) : (body : List Stmt) →
    {Γ : Scope} → stmtsOk body Γ = true →
    Performs image items env N Γ (emitStmts order body) (execAll env body Γ)
  | [], Γ, _ => by
      intro g g' T σ s R hR h hpre htop hk hr
      rw [emitStmts] at h
      cases h
      exact .ok (by rw [execAll]; rfl) ⟨rfl, rfl, hr⟩
  | st :: rest, Γ, hok => by
      intro g g' T σ s R hR h hpre htop hk hr
      rw [stmtsOk, Bool.and_eq_true] at hok
      rw [emitStmts] at h
      rw [execAll]
      obtain ⟨⟨⟩, g₁, h₁, h₂⟩ := estate_bind_ok.mp h
      obtain ⟨T₁, e₁⟩ := (whole_emitStmt order st).grows h₁
      obtain ⟨T₂, e₂⟩ := (whole_emitStmts order rest).grows h₂
      refine .bind (performs_stmt C hN st hok.1 R hR h₁ (e₂.items.trans hpre) (e₂.top.trans htop)
        hk hr) ?_
      rintro _ σ₁ ⟨s₁, _⟩ - ⟨rfl, hs₁, hr₁⟩
      rw [← hs₁]
      exact (performs_stmts C hN rest hok.2).after hR e₁.toExt h₂ hpre htop hk hr₁

/-- An `ELSE`. -/
theorem performs_else (C : Target image items) (hN : N ≤ 2 ^ 32) :
    (elseBody : Option (List Stmt)) → {Γ : Scope} →
    elseOk elseBody Γ = true →
    Performs image items env N Γ (emitElse order elseBody) (execElse env elseBody Γ)
  | none, Γ, _ => by
      intro g g' T σ s R hR h hpre htop hk hr
      rw [emitElse] at h
      cases h
      exact .ok (by rw [execElse]; rfl) ⟨rfl, rfl, hr⟩
  | some body, Γ, hok => by
      rw [elseOk] at hok
      rw [emitElse, execElse]
      exact performs_stmts C hN body hok

/-- The branches of an `IF`. -/
theorem cascades_branches (C : Target image items) (hN : N ≤ 2 ^ 32) :
    (branches : List (Expr × List Stmt)) →
    (endL : Label) → (hasElse : Bool) → {Γ : Scope} → branchesOk branches Γ = true →
    Cascades image items env N Γ endL (EndsBehind hasElse)
      (emitBranches order branches endL hasElse) (execBranches env branches Γ)
  | [], endL, hasElse, Γ, _ => by
      intro g g' T σ s q R otherwise hR h hpre htop hq hfits hk hr hother
      rw [emitBranches] at h
      cases h
      rw [execBranches]
      exact hother σ s rfl hr
  | (cond, body) :: rest, endL, hasElse, Γ, hok => by
      rw [branchesOk, Bool.and_eq_true, Bool.and_eq_true] at hok
      obtain ⟨⟨hty, hbody⟩, hrest⟩ := hok
      exact cascades_branch C hN (by simpa using hty) (performs_stmts C hN body hbody)
        (cascades_branches C hN rest endL hasElse hrest)

/-- The arms of a `CASE`. -/
theorem cascades_arms (C : Target image items) (hN : N ≤ 2 ^ 32) : (arms : List CaseArm) →
    (tmp : ℕ) → (endL : Label) →
    (v : VmValue) → v.irType = .int ∨ v.irType = .dint → {Γ : Scope} → armsOk arms Γ = true →
    Cascades image items env N Γ endL (fun _ T _ => (tmp, v) ∈ T)
      (emitArms order arms tmp endL) (execArms env arms Γ v)
  | [], tmp, endL, v, hv, Γ, _ => by
      intro g g' T σ s q R otherwise hR h hpre htop hq hfits hk hr hother
      rw [emitArms] at h
      cases h
      rw [execArms]
      exact hother σ s rfl hr
  | ⟨labels, body⟩ :: rest, tmp, endL, v, hv, Γ, hok => by
      rw [armsOk] at hok
      simp only [Bool.and_eq_true, Bool.not_eq_true', List.isEmpty_eq_false_iff] at hok
      obtain ⟨⟨⟨hne, hlabels⟩, hbody⟩, hrest⟩ := hok
      exact cascades_arm C hv hne hlabels (performs_stmts C hN body hbody)
        (cascades_arms C hN rest tmp endL v hv hrest)

end

end SoftPlc.Compiler
