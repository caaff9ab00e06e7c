import SoftPlc.Compiler.Operators

/-!
# States that represent stores

`Knows env Γ g T`: the emitter's symbols agree with a scope of the language, cells and live
temporaries lie apart, and the input image has values of the declared types. `Represents` says that
a machine state holds the values of a store: each variable at its cell, in its type. Both follow the
emitter as it grows; each kind of store instruction changes the store of the language at one place.
-/

namespace SoftPlc.Compiler

open SoftPlc.Ir SoftPlc.St SoftPlc.Lib SoftPlc.Vm

/-! ## Stored values -/

section Holds

variable {d d' : ByteSegment} {off off' pc : ℕ} {v w : VmValue}

theorem holds_store (h : d.store off v pc = .ok d') : Holds d' off v :=
  fun pc' => ByteSegment.load_store_same pc' h

theorem Holds.store (hw : Holds d off' w) (h : d.store off v pc = .ok d')
    (hapart : off' + w.byteWidth ≤ off ∨ off + v.byteWidth ≤ off') : Holds d' off' w := by
  intro pc'
  have htag := ByteSegment.irType_load (hw 0)
  rw [ByteSegment.load_store_of_disjoint pc' h]
  · exact hw pc'
  · rwa [← htag, ← VmValue.byteWidth_eq]

end Holds

/-! ## Scopes -/

/-- What a symbol stands for. -/
def Storage.entity : Storage → Entity
  | .input slot ty => .input slot ty
  | .output slot ty => .output slot ty
  | .data _ (.elem ty) => .var ty
  | .data _ (.array (.elem ty) len) => .array ty len
  | .retain _ ty => .retain ty
  | .const _ value => .const value
  | .prim id inst outs =>
      if (outs.map fun o => (o.1, o.2.2)) = primOutTypes id then .prim id inst else .other
  | _ => .other

/-- Live temporaries, each an offset and the value there. -/
abbrev Live := List (ℕ × VmValue)

/-- Two places of a segment do not meet. -/
def Beside (off width off' width' : ℕ) : Prop := off + width ≤ off' ∨ off' + width' ≤ off

/-- A value stays where it is when one beside it is stored. -/
theorem Holds.beside {d d' : ByteSegment} {off off' pc : ℕ} {v w : VmValue} {t : IrType}
    (hw : Holds d off' w) (h : d.store off v pc = .ok d') (ht : w.irType = t)
    (hbeside : Beside off' t.byteWidth off v.irType.byteWidth) : Holds d' off' w := by
  refine hw.store h ?_
  rw [VmValue.byteWidth_eq, VmValue.byteWidth_eq, ht]
  exact hbeside

/-- What the emitter and the environment know of a scope. -/
structure Knows (env : Env) (Γ : Scope) (g : Codegen) (T : Live) : Prop where
  /-- Names in scope have symbols. -/
  bound : ∀ {n e}, Γ n = some e → ∃ st, g.look n = some st ∧ st.entity = e
  /-- Other symbols are variables of earlier loops. -/
  left : ∀ {n st}, Γ n = none → g.look n = some st → ∃ off, st = .data off (.elem .dint)
  /-- Cells lie apart. -/
  apart : g.Apart
  /-- So do retained variables. -/
  retained : ∀ {n off t n' off' t'}, g.look n = some (.retain off t) →
    g.look n' = some (.retain off' t') → n ≠ n' → Beside off t.byteWidth off' t'.byteWidth
  /-- A slot has one type. -/
  slots : ∀ {n slot t n' t'}, Γ n = some (.output slot t) → Γ n' = some (.output slot t') → t = t'
  /-- Instances have numbers of 32 bits. -/
  instances : ∀ {n id inst}, Γ n = some (.prim id inst) → inst < 2 ^ 32
  /-- Inputs have their types. -/
  inputs : ∀ {n slot t}, Γ n = some (.input slot t) →
    ∃ v, env.inputs.values[slot]? = some v ∧ v.irType = t
  /-- Live temporaries lie below the top. -/
  below : ∀ x ∈ T, x.1 + x.2.byteWidth ≤ g.top
  /-- And apart from the cells. -/
  clear : ∀ x ∈ T, ∀ {n st k off t}, g.look n = some st → st.cell k = some (off, t) →
    Beside x.1 x.2.byteWidth off t.byteWidth
  /-- And from each other. -/
  stacked : T.Pairwise fun x y => Beside x.1 x.2.byteWidth y.1 y.2.byteWidth

/-- A machine state that holds the values of a store. -/
structure Represents (env : Env) (N : ℕ) (Γ : Scope) (g : Codegen) (T : Live) (σ : Store)
    (s : VmState) : Prop where
  /-- No function block is running. -/
  frames : s.frames = []
  /-- Operands can address everything. -/
  addresses : Addressable s
  /-- The data segment. -/
  size : s.data.len = N
  inputs : s.inputs = env.inputs
  prims : s.primitives = σ.prims
  div0 : s.div0Count = σ.div0
  /-- Variables. -/
  cells : ∀ {n st k off t}, (Γ n).isSome → g.look n = some st → st.cell k = some (off, t) →
    (σ.vars (.cell n k)).irType = t ∧ Holds s.data off (σ.vars (.cell n k))
  /-- Retained variables. -/
  retain : ∀ {n off t}, (Γ n).isSome → g.look n = some (.retain off t) →
    (σ.vars (.retain n)).irType = t ∧ Holds s.retain off (σ.vars (.retain n))
  /-- `%Q` slots. -/
  outputs : ∀ {n slot t}, Γ n = some (.output slot t) →
    (σ.vars (.output slot)).irType = t ∧ s.outputs.values[slot]? = some (σ.vars (.output slot))
  /-- Live temporaries. -/
  temps : ∀ x ∈ T, Holds s.data x.1 x.2

variable {env : Env} {N : ℕ} {Γ : Scope} {g g' : Codegen} {T : Live} {σ : Store} {s : VmState}
  {x : ℕ × VmValue}

/-! ## Growth -/

/-- A name in scope keeps its symbol. -/
theorem Knows.look_eq (h : Knows env Γ g T) (hext : Ext g g') {n : String} (hn : (Γ n).isSome) :
    g'.look n = g.look n := by
  obtain ⟨e, he⟩ := Option.isSome_iff_exists.mp hn
  obtain ⟨st, hst, -⟩ := h.bound he
  rw [hst, hext.look hst]

/-- What is known stays known. -/
theorem Knows.ext (h : Knows env Γ g T) (hext : Ext g g') : Knows env Γ g' T where
  bound := by
    intro n e he
    obtain ⟨st, hst, hent⟩ := h.bound he
    exact ⟨st, hext.look hst, hent⟩
  left := by
    intro n st hn hst
    rcases hext.new hst with hst | ⟨-, off, rfl, -⟩
    · exact h.left hn hst
    · exact ⟨off, rfl⟩
  apart := hext.apart h.apart
  retained := by
    have hold : ∀ {n off t}, g'.look n = some (.retain off t) →
        g.look n = some (.retain off t) := by
      intro n off t hn
      rcases hext.new hn with hn | ⟨-, off', hst, -⟩
      · exact hn
      · cases hst
    intro n off t n' off' t' hn hn' hne
    exact h.retained (hold hn) (hold hn') hne
  slots := h.slots
  instances := h.instances
  inputs := h.inputs
  below := fun x hx => (h.below x hx).trans hext.top
  clear := by
    intro x hx n st k off t hst hcell
    rcases hext.new hst with hst | ⟨-, off', rfl, hlo, -⟩
    · exact h.clear x hx hst hcell
    · -- a new cell starts at the old top or above it
      have hoff : off = off' := by
        rcases k with _ | k
        · cases hcell
          rfl
        · cases hcell
      exact .inl (hoff ▸ (h.below x hx).trans hlo)
  stacked := h.stacked

/-- What is represented stays represented, -/
theorem Represents.ext (h : Represents env N Γ g T σ s) (hk : Knows env Γ g T) (hext : Ext g g') :
    Represents env N Γ g' T σ s where
  frames := h.frames
  addresses := h.addresses
  size := h.size
  inputs := h.inputs
  prims := h.prims
  div0 := h.div0
  cells := fun hn hst hcell => h.cells hn (hk.look_eq hext hn ▸ hst) hcell
  retain := fun hn hst => h.retain hn (hk.look_eq hext hn ▸ hst)
  outputs := h.outputs
  temps := h.temps

/-- and was so before. -/
theorem Represents.back (h : Represents env N Γ g' T σ s) (hext : Ext g g') :
    Represents env N Γ g T σ s where
  frames := h.frames
  addresses := h.addresses
  size := h.size
  inputs := h.inputs
  prims := h.prims
  div0 := h.div0
  cells := fun _ hst hcell => h.cells ‹_› (hext.look hst) hcell
  retain := fun hn hst => h.retain hn (hext.look hst)
  outputs := h.outputs
  temps := h.temps

/-- A temporary is no longer needed. -/
theorem Knows.drop (h : Knows env Γ g (x :: T)) : Knows env Γ g T where
  bound := h.bound
  left := h.left
  apart := h.apart
  retained := h.retained
  slots := h.slots
  instances := h.instances
  inputs := h.inputs
  below := fun y hy => h.below y (List.mem_cons_of_mem _ hy)
  clear := fun y hy => h.clear y (List.mem_cons_of_mem _ hy)
  stacked := (List.pairwise_cons.mp h.stacked).2

theorem Represents.drop (h : Represents env N Γ g (x :: T) σ s) : Represents env N Γ g T σ s where
  frames := h.frames
  addresses := h.addresses
  size := h.size
  inputs := h.inputs
  prims := h.prims
  div0 := h.div0
  cells := h.cells
  retain := h.retain
  outputs := h.outputs
  temps := fun y hy => h.temps y (List.mem_cons_of_mem _ hy)

/-- A new temporary. -/
theorem Knows.temp (h : Knows env Γ g T) {ty : IrType} {off : ℕ} {v : VmValue}
    (htmp : allocTemp ty g = .ok off g') (hv : v.irType = ty) : Knows env Γ g' ((off, v) :: T) := by
  have hk := h.ext (.temp htmp)
  have hoff := (allocTemp_ok htmp).1
  have htop := top_of_allocTemp htmp
  have hlook : g'.look = g.look := by
    obtain ⟨-, rfl⟩ := allocTemp_ok htmp
    rfl
  have hwidth : v.byteWidth = ty.byteWidth := by rw [VmValue.byteWidth_eq, hv]
  refine ⟨hk.bound, hk.left, hk.apart, hk.retained, hk.slots, hk.instances, hk.inputs, ?_, ?_, ?_⟩
  · intro y hy
    rcases List.mem_cons.mp hy with rfl | hy
    · simp only [hwidth]
      exact htop.ge
    · exact hk.below y hy
  · intro y hy n st k off' t hst hcell
    rcases List.mem_cons.mp hy with rfl | hy
    · exact .inr ((h.apart.below (hlook ▸ hst) hcell).trans hoff)
    · exact hk.clear y hy hst hcell
  · rw [List.pairwise_cons]
    exact ⟨fun y hy => .inr ((h.below y hy).trans hoff), h.stacked⟩

/-- The value of a temporary does not matter, only its width. -/
theorem Knows.retemp (h : Knows env Γ g (x :: T)) {v : VmValue} (hv : v.irType = x.2.irType) :
    Knows env Γ g ((x.1, v) :: T) := by
  have hwidth : v.byteWidth = x.2.byteWidth := by
    rw [VmValue.byteWidth_eq, VmValue.byteWidth_eq, hv]
  have hd := h.drop
  refine ⟨hd.bound, hd.left, hd.apart, hd.retained, hd.slots, hd.instances, hd.inputs, ?_, ?_, ?_⟩
  · intro y hy
    rcases List.mem_cons.mp hy with rfl | hy
    · simp only [hwidth]
      exact h.below x List.mem_cons_self
    · exact hd.below y hy
  · intro y hy n st k off t hst hcell
    rcases List.mem_cons.mp hy with rfl | hy
    · simp only [hwidth]
      exact h.clear x List.mem_cons_self hst hcell
    · exact hd.clear y hy hst hcell
  · rw [List.pairwise_cons]
    refine ⟨fun y hy => ?_, hd.stacked⟩
    simp only [hwidth]
    exact (List.pairwise_cons.mp h.stacked).1 y hy

/-! ## Scopes of loops -/

/-- A name for a variable of a loop. -/
theorem Knows.declare (h : Knows env Γ g T) {n : String} {off : ℕ}
    (hn : g.look n = some (.data off (.elem .dint))) :
    Knows env (Γ.declare n (.var .dint)) g T where
  bound := by
    intro m e hm
    by_cases hmn : m = n
    · subst hmn
      have he : Entity.var .dint = e := by simpa [Scope.declare] using hm
      exact ⟨_, hn, he⟩
    · rw [Scope.declare, if_neg hmn] at hm
      exact h.bound hm
  left := by
    intro m st hm hst
    rw [Scope.declare] at hm
    split_ifs at hm
    exact h.left hm hst
  apart := h.apart
  retained := h.retained
  slots := by
    have hold : ∀ {m slot t}, Γ.declare n (.var .dint) m = some (.output slot t) →
        Γ m = some (.output slot t) := by
      intro m slot t hm
      rw [Scope.declare] at hm
      split_ifs at hm
      · cases hm
      · exact hm
    intro m slot t m' t' hm hm'
    exact h.slots (hold hm) (hold hm')
  instances := by
    intro m id inst hm
    rw [Scope.declare] at hm
    split_ifs at hm
    · cases hm
    · exact h.instances hm
  inputs := by
    intro m slot t hm
    rw [Scope.declare] at hm
    split_ifs at hm
    · cases hm
    · exact h.inputs hm
  below := h.below
  clear := h.clear
  stacked := h.stacked

/-- A smaller scope. -/
theorem Represents.scope {Γ' : Scope} (h : Represents env N Γ' g T σ s)
    (hsub : ∀ {n e}, Γ n = some e → Γ' n = some e) : Represents env N Γ g T σ s := by
  have hsome : ∀ {n}, (Γ n).isSome → (Γ' n).isSome := by
    intro n hn
    obtain ⟨e, he⟩ := Option.isSome_iff_exists.mp hn
    exact Option.isSome_iff_exists.mpr ⟨e, hsub he⟩
  exact ⟨h.frames, h.addresses, h.size, h.inputs, h.prims, h.div0, fun hn => h.cells (hsome hn),
    fun hn => h.retain (hsome hn), fun hn => h.outputs (hsub hn), h.temps⟩

/-- A store to a cell leaves the temporaries alone. -/
theorem Represents.temps_store {Γ' : Scope} (h : Represents env N Γ g T σ s) (hk : Knows env Γ' g T)
    {n : String} {st : Storage} {k off pc : ℕ} {v : VmValue} {d : ByteSegment}
    (hd : s.data.store off v pc = .ok d) (hst : g.look n = some st)
    (hcell : st.cell k = some (off, v.irType)) : ∀ x ∈ T, Holds d x.1 x.2 := by
  intro x hx
  refine (h.temps x hx).beside hd rfl ?_
  rw [← VmValue.byteWidth_eq]
  exact hk.clear x hx hst hcell

/-- The first value of a variable that may be new in the scope. -/
theorem Represents.enter {Γ' : Scope} (h : Represents env N Γ g T σ s) (pc : ℕ)
    (hk : Knows env Γ' g T) {n : String} {off : ℕ} {v : VmValue}
    (hnew : ∀ {m e}, m ≠ n → Γ' m = some e → Γ m = some e)
    (hn : Γ' n = some (.var v.irType)) (hst : g.look n = some (.data off (.elem v.irType)))
    (hroom : g.top ≤ N) :
    ∃ d, s.data.store off v pc = .ok d ∧ ∀ stack,
      Represents env N Γ' g T (σ.set (.cell n 0) v) { s with data := d, stack := stack } := by
  have hcell₀ : (Storage.data off (.elem v.irType)).cell 0 = some (off, v.irType) := rfl
  have hfit : off + v.byteWidth ≤ s.data.len := by
    rw [h.size, VmValue.byteWidth_eq]
    exact (hk.apart.below hst hcell₀).trans hroom
  have hsome : ∀ {m}, m ≠ n → (Γ' m).isSome → (Γ m).isSome := by
    intro m hmn hm
    obtain ⟨e, he⟩ := Option.isSome_iff_exists.mp hm
    exact Option.isSome_iff_exists.mpr ⟨e, hnew hmn he⟩
  obtain ⟨d, hd⟩ := ByteSegment.store_ok_iff.mpr hfit
  refine ⟨d, hd, fun stack => ⟨h.frames,
    h.addresses.same rfl (ByteSegment.len_store hd) rfl rfl rfl, ?_, h.inputs, h.prims, h.div0,
    ?_, ?_, ?_, ?_⟩⟩
  · exact (ByteSegment.len_store hd).trans h.size
  · intro m st k off' t hm hst' hcell
    by_cases hmn : m = n
    · subst hmn
      rw [hst] at hst'
      cases hst'
      rcases k with _ | k
      · cases hcell
        rw [Store.set_self]
        exact ⟨rfl, holds_store hd⟩
      · cases hcell
    · obtain ⟨hty, hheld⟩ := h.cells (hsome hmn hm) hst' hcell
      have hne : Loc.cell m k ≠ .cell n 0 := fun heq => hmn (Loc.cell.inj heq).1
      rw [Store.set_ne σ hne]
      exact ⟨hty, hheld.beside hd hty (hk.apart.disjoint hst' hcell hst hcell₀ (.inl hmn))⟩
  · intro m off' t hm hst'
    refine h.retain (hsome ?_ hm) hst'
    rintro rfl
    rw [hst] at hst'
    cases hst'
  · intro m slot t hm
    refine h.outputs (hnew ?_ hm)
    rintro rfl
    rw [hn] at hm
    cases hm
  · exact h.temps_store hk hd hst hcell₀

/-! ## Steps -/

/-- The operand stack does not matter. -/
theorem Represents.withStack (h : Represents env N Γ g T σ s) (stack : List VmValue) :
    Represents env N Γ g T σ (s.withStack stack) :=
  ⟨h.frames, h.addresses.same rfl rfl rfl rfl rfl, h.size, h.inputs, h.prims,
    h.div0, h.cells, h.retain, h.outputs, h.temps⟩

/-- One count on both sides. -/
theorem Represents.count (h : Represents env N Γ g T σ s) (n : ℕ) :
    Represents env N Γ g T { σ with div0 := n } { s with div0Count := n } :=
  ⟨h.frames, h.addresses.same rfl rfl rfl rfl rfl, h.size, h.inputs, h.prims,
    rfl, h.cells, h.retain, h.outputs, h.temps⟩

/-- The pools on both sides. -/
theorem Represents.pools (h : Represents env N Γ g T σ s) (prims : Fb.PrimitiveStore) :
    Represents env N Γ g T { σ with prims := prims } { s with primitives := prims } :=
  ⟨h.frames, h.addresses.same rfl rfl rfl rfl rfl, h.size, h.inputs,
    rfl, h.div0, h.cells, h.retain, h.outputs, h.temps⟩

/-- Storing to the cell of a variable. -/
theorem Represents.setCell (h : Represents env N Γ g T σ s) (pc : ℕ) (hk : Knows env Γ g T)
    {n : String} {st : Storage} {k off : ℕ} {v : VmValue} (hn : (Γ n).isSome)
    (hst : g.look n = some st) (hcell : st.cell k = some (off, v.irType)) :
    ∃ d, s.data.store off v pc = .ok d ∧ ∀ stack,
      Represents env N Γ g T (σ.set (.cell n k) v) { s with data := d, stack := stack } := by
  obtain ⟨hty, hheld⟩ := h.cells hn hst hcell
  have hfit := hheld.fits
  rw [VmValue.byteWidth_eq, hty, ← VmValue.byteWidth_eq] at hfit
  obtain ⟨d, hd⟩ := ByteSegment.store_ok_iff.mpr hfit
  refine ⟨d, hd, fun stack => ⟨h.frames,
    h.addresses.same rfl (ByteSegment.len_store hd) rfl rfl rfl, ?_, h.inputs, h.prims, h.div0,
    ?_, ?_, ?_, ?_⟩⟩
  · exact (ByteSegment.len_store hd).trans h.size
  · intro n' st' k' off' t' hn' hst' hcell'
    obtain ⟨hty', hheld'⟩ := h.cells hn' hst' hcell'
    by_cases hsame : n' = n ∧ k' = k
    · obtain ⟨rfl, rfl⟩ := hsame
      rw [hst] at hst'
      cases hst'
      rw [hcell] at hcell'
      cases hcell'
      rw [Store.set_self]
      exact ⟨rfl, holds_store hd⟩
    · have hne : Loc.cell n' k' ≠ .cell n k := fun heq => hsame (Loc.cell.inj heq)
      rw [Store.set_ne σ hne]
      refine ⟨hty', hheld'.beside hd hty' (hk.apart.disjoint hst' hcell' hst hcell ?_)⟩
      by_contra hboth
      rw [not_or, not_not, not_not] at hboth
      exact hsame hboth
  · intro n' off' t' hn' hst'
    exact h.retain hn' hst'
  · intro n' slot t' hn'
    exact h.outputs hn'
  · exact h.temps_store hk hd hst hcell

/-- Storing to a temporary, also one that already holds a value. -/
theorem Represents.setTemp (h : Represents env N Γ g T σ s) (pc : ℕ) (hk : Knows env Γ g (x :: T))
    (hroom : g.top ≤ N) :
    ∃ d, s.data.store x.1 x.2 pc = .ok d ∧
      ∀ stack, Represents env N Γ g (x :: T) σ { s with data := d, stack := stack } := by
  have hfit : x.1 + x.2.byteWidth ≤ s.data.len := by
    rw [h.size]
    exact (hk.below x List.mem_cons_self).trans hroom
  obtain ⟨d, hd⟩ := ByteSegment.store_ok_iff.mpr hfit
  refine ⟨d, hd, fun stack => ⟨h.frames,
    h.addresses.same rfl (ByteSegment.len_store hd) rfl rfl rfl, ?_, h.inputs, h.prims, h.div0,
    ?_, h.retain, h.outputs, ?_⟩⟩
  · exact (ByteSegment.len_store hd).trans h.size
  · intro n st k off t hn hst hcell
    obtain ⟨hty, hheld⟩ := h.cells hn hst hcell
    refine ⟨hty, hheld.store hd ?_⟩
    rw [VmValue.byteWidth_eq, hty]
    exact (hk.clear x List.mem_cons_self hst hcell).symm
  · intro y hy
    rcases List.mem_cons.mp hy with rfl | hy
    · exact holds_store hd
    · refine (h.temps y hy).store hd ?_
      exact ((List.pairwise_cons.mp hk.stacked).1 y hy).symm

/-- Storing to a retained variable. -/
theorem Represents.setRetain (h : Represents env N Γ g T σ s) (pc : ℕ) (hk : Knows env Γ g T)
    {n : String} {off : ℕ} {v : VmValue} (hn : (Γ n).isSome)
    (hst : g.look n = some (.retain off v.irType)) :
    ∃ d, s.retain.store off v pc = .ok d ∧ ∀ stack dirty, Represents env N Γ g T
      (σ.set (.retain n) v) { s with retain := d, retainDirty := dirty, stack := stack } := by
  obtain ⟨hty, hheld⟩ := h.retain hn hst
  have hfit := hheld.fits
  rw [VmValue.byteWidth_eq, hty, ← VmValue.byteWidth_eq] at hfit
  obtain ⟨d, hd⟩ := ByteSegment.store_ok_iff.mpr hfit
  refine ⟨d, hd, fun stack dirty => ⟨h.frames,
    h.addresses.same rfl rfl (ByteSegment.len_store hd) rfl rfl, h.size, h.inputs, h.prims, h.div0,
    h.cells, ?_, h.outputs, h.temps⟩⟩
  intro n' off' t' hn' hst'
  obtain ⟨hty', hheld'⟩ := h.retain hn' hst'
  by_cases hsame : n' = n
  · subst hsame
    rw [hst] at hst'
    cases hst'
    rw [Store.set_self]
    exact ⟨rfl, holds_store hd⟩
  · have hne : Loc.retain n' ≠ .retain n := fun heq => hsame (Loc.retain.inj heq)
    rw [Store.set_ne σ hne]
    exact ⟨hty', hheld'.beside hd hty' (hk.retained hst' hst hsame)⟩

/-- Writing a `%Q` slot. -/
theorem Represents.setOutput (h : Represents env N Γ g T σ s) (pc : ℕ) (hk : Knows env Γ g T)
    {n : String} {slot : ℕ} {v : VmValue} (hn : Γ n = some (.output slot v.irType)) :
    ∃ o, s.outputs.set slot v pc = .ok o ∧ ∀ stack, Represents env N Γ g T
      (σ.set (.output slot) v) { s with outputs := o, stack := stack } := by
  have hlt : slot < s.outputs.len := (List.getElem?_eq_some_iff.mp (h.outputs hn).2).1
  obtain ⟨o, ho, hvalues, -⟩ := SlotImage.set_of_lt hlt v pc
  refine ⟨o, ho, fun stack => ⟨h.frames, h.addresses.same rfl rfl rfl rfl (SlotImage.len_set ho),
    h.size, h.inputs, h.prims, h.div0, h.cells, h.retain, ?_, h.temps⟩⟩
  intro n' slot' t' hn'
  obtain ⟨hty', hheld'⟩ := h.outputs hn'
  by_cases hsame : slot' = slot
  · subst hsame
    rw [Store.set_self, hvalues]
    exact ⟨hk.slots hn hn', by simp [show slot' < s.outputs.values.length from hlt]⟩
  · have hne : Loc.output slot' ≠ .output slot := fun heq => hsame (Loc.output.inj heq)
    rw [Store.set_ne σ hne, hvalues, List.getElem?_set_ne (Ne.symm hsame)]
    exact ⟨hty', hheld'⟩

end SoftPlc.Compiler
