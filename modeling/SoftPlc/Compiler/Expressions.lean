import SoftPlc.Compiler.Represent

/-!
# Compiled expressions

The code of an expression pushes its value. `Computes` says so of an emitter action and a computation
of the language: from a state that represents a store, the machine runs from the first pc of the
action's code to the end of it, with one more value on the stack, the value and the store that the
language gives. The proof is by induction over the expression, with one lemma for each form of it.
-/

namespace SoftPlc.Compiler

open SoftPlc.Ir SoftPlc.St SoftPlc.Lib SoftPlc.Vm

variable {order : HashOrder} {items : List Item} {image : VmImage} {nowMs pc N : ℕ} {env : Env}
  {Γ : Scope} {g g' : Codegen} {T : Live} {σ : Store} {s : VmState} {R : Store → VmState → Prop}
  {α : Type} {m : EStateM.Result Exit Store α} {post : α → Store → Config → Prop}

/-! ## Places -/

/-- Where a place of the language is, with the opcodes that load and store it. -/
inductive Place (Γ : Scope) (g : Codegen) : Loc → IrType → Opcode → Opcode → ℕ → Prop
  | cell {n : String} {st : Storage} {k off : ℕ} {t : IrType} (hn : (Γ n).isSome)
      (hst : g.look n = some st) (hcell : st.cell k = some (off, t)) :
      Place Γ g (.cell n k) t .ldData .stData off
  | retain {n : String} {off : ℕ} {t : IrType} (hn : (Γ n).isSome)
      (hst : g.look n = some (.retain off t)) :
      Place Γ g (.retain n) t .ldRetain .stRetain off
  | output {n : String} {slot : ℕ} {t : IrType} (hn : Γ n = some (.output slot t)) :
      Place Γ g (.output slot) t .ldQ .stQ slot

section Place

variable {l : Loc} {ty : IrType} {ld st : Opcode} {off : ℕ}

/-- The value at a place has its type. -/
theorem Place.irType (h : Place Γ g l ty ld st off) (hr : Represents env N Γ g T σ s) :
    (σ.vars l).irType = ty := by
  cases h with
  | cell hn hst hcell => exact (hr.cells hn hst hcell).1
  | retain hn hst => exact (hr.retain hn hst).1
  | output hn => exact (hr.outputs hn).1

/-- Loading pushes the value of the place. -/
theorem Place.load (C : Target image items) (h : Place Γ g l ty ld st off)
    (hr : Represents env N Γ g T σ s) (hstands : Stands items pc [.simple ld off])
    (hk : Mirrors image nowMs R m post ⟨s.withStack (σ.vars l :: s.stack), pc + 4⟩) :
    Mirrors image nowMs R m post ⟨s, pc⟩ := by
  cases h with
  | cell hn hst hcell => exact .ldData C hstands hr.addresses (hr.cells hn hst hcell).2 hk
  | retain hn hst => exact .ldRetain C hstands hr.addresses (hr.retain hn hst).2 hk
  | output hn => exact .ldQ C hstands hr.addresses (hr.outputs hn).2 hk

/-- Storing sets the place. -/
theorem Place.store (C : Target image items) (h : Place Γ g l ty ld st off)
    (hknows : Knows env Γ g T) (hr : Represents env N Γ g T σ s)
    (hstands : Stands items pc [.simple st off]) {v : VmValue} {rest : List VmValue}
    (hv : v.irType = ty) (hs : s.stack = v :: rest)
    (hk : ∀ s', s'.stack = rest → Represents env N Γ g T (σ.set l v) s' →
      Mirrors image nowMs R m post ⟨s', pc + 4⟩) :
    Mirrors image nowMs R m post ⟨s, pc⟩ := by
  subst hv
  cases h with
  | cell hn hst hcell =>
      obtain ⟨d, hd, hset⟩ := hr.setCell pc hknows hn hst hcell
      exact .stData C hstands hr.addresses hs hd (hk _ rfl (hset rest))
  | retain hn hst =>
      obtain ⟨d, hd, hset⟩ := hr.setRetain pc hknows hn hst
      exact .stRetain C hstands hr.addresses hs hd (hk _ rfl (hset rest true))
  | output hn =>
      obtain ⟨o, ho, hset⟩ := hr.setOutput pc hknows hn
      have hslot := (List.getElem?_eq_some_iff.mp (hr.outputs hn).2).1
      exact .stQ C hstands hr.addresses hslot hs ho (hk _ rfl (hset rest))

end Place

/-! ## Paths -/

/-- The outputs of a primitive as the emitter and the language find them. -/
theorem findOutput_of_primOutput {id : PrimitiveId} {outs : List (String × ℕ × IrType)}
    (houts : (outs.map fun o => (o.1, o.2.2)) = primOutTypes id) {field : String} {k : ℕ}
    {ty : IrType} (h : primOutput id field = some (k, ty)) :
    ∃ name off, outs[k]? = some (name, off, ty) ∧ findOutput outs field = some (name, off, ty) := by
  unfold primOutput at h
  rw [← houts] at h
  split at h
  · rename_i i hi
    obtain ⟨o, ho, heq⟩ := Option.map_eq_some_iff.mp h
    cases heq
    rw [List.getElem?_map, Option.map_eq_some_iff] at ho
    obtain ⟨⟨name, off, t⟩, hget, rfl⟩ := ho
    refine ⟨name, off, hget, ?_⟩
    rw [List.findIdx?_map] at hi
    have hlt := (List.getElem?_eq_some_iff.mp hget).1
    have hfind : outs.find? (fun o => sameName o.1 field) =
        outs[outs.findIdx fun o => sameName o.1 field]? := List.find?_eq_getElem?_findIdx
    rw [List.findIdx?_eq_some_iff_findIdx_eq] at hi
    rw [findOutput, hfind]
    have hidx : outs.findIdx (fun o => sameName o.1 field) = k := hi.2
    rw [hidx, hget]
  · cases h

/-- The symbol of a primitive instance. -/
theorem Storage.entity_prim {st : Storage} {id : PrimitiveId} {inst : ℕ}
    (h : st.entity = .prim id inst) :
    ∃ outs, st = .prim id inst outs ∧ (outs.map fun o => (o.1, o.2.2)) = primOutTypes id := by
  cases st with
  | prim id' inst' outs =>
      simp only [Storage.entity] at h
      split_ifs at h with houts
      cases h
      exact ⟨outs, rfl, houts⟩
  | data off ty =>
      cases ty with
      | array e len => cases e <;> cases h
      | _ => cases h
  | _ => cases h

/-- The symbol of an array. -/
theorem Storage.entity_array {st : Storage} {ty : IrType} {len : ℕ}
    (h : st.entity = .array ty len) : ∃ off, st = .data off (.array (.elem ty) len) := by
  cases st with
  | prim id' inst' outs =>
      simp only [Storage.entity] at h
      split_ifs at h
  | data off t =>
      cases t with
      | array e n =>
          cases e with
          | elem u =>
              cases h
              exact ⟨off, rfl⟩
          | _ => cases h
      | _ => cases h
  | _ => cases h

/-- The symbol of a variable. -/
theorem Storage.entity_var {st : Storage} {ty : IrType} (h : st.entity = .var ty) :
    ∃ off, st = .data off (.elem ty) := by
  cases st with
  | prim id' inst' outs =>
      simp only [Storage.entity] at h
      split_ifs at h
  | data off t =>
      cases t with
      | elem u =>
          cases h
          exact ⟨off, rfl⟩
      | array e n => cases e <;> cases h
      | _ => cases h
  | _ => cases h

/-- The outcome of a load: a place of the language, an input, or a constant. -/
inductive Loads (Γ : Scope) (g : Codegen) (t : IrType) (g' : Codegen) : Ref → Prop
  | place {l : Loc} {ld st : Opcode} {off : ℕ} (h : Place Γ g l t ld st off)
      (hg : g' = g.adds [.simple ld off]) : Loads Γ g t g' (.loc l t)
  | input {n : String} {slot : ℕ} (hn : Γ n = some (.input slot t))
      (hg : g' = g.adds [.simple .ldI slot]) : Loads Γ g t g' (.input slot t)
  | const {value : Literal} (h : emitLiteral value g = .ok t g') : Loads Γ g t g' (.const value)

/-- A name loads what it stands for. -/
theorem emitLoadPath_ok (hk : Knows env Γ g T) (htop : g.top ≤ 2 ^ 32) {path : List PathSeg}
    {t : IrType} (h : emitLoadPath path g = .ok t g') {ref : Ref} (href : Γ.resolve path = some ref) :
    Loads Γ g t g' ref := by
  unfold emitLoadPath at h
  unfold Scope.resolve at href
  split at href
  · rename_i n
    obtain ⟨⟨root, rest⟩, hparts, h⟩ := liftResult_bind_ok.mp h
    cases hparts
    obtain ⟨st, hst, h⟩ := lookup_bind_ok.mp h
    rcases he : Γ (lower n) with _ | e
    · simp [he] at href
    · have hn : (Γ (lower n)).isSome := by simp [he]
      obtain ⟨st', hst', hent⟩ := hk.bound he
      rw [hst] at hst'
      cases hst'
      rw [he] at href
      cases st with
      | input slot ty =>
          cases hent
          cases href
          cases h
          exact .input he rfl
      | output slot ty =>
          cases hent
          cases href
          cases h
          exact .place (.output he) rfl
      | data off ty =>
          cases ty with
          | elem u =>
              cases hent
              cases href
              cases h
              exact .place (.cell hn hst rfl) rfl
          | _ => exact absurd h failWith_ok
      | retain off ty =>
          cases hent
          cases href
          cases h
          exact .place (.retain hn hst) rfl
      | const ty value =>
          cases hent
          cases href
          exact .const h
      | _ => exact absurd h failWith_ok
  · rename_i n field
    obtain ⟨⟨root, rest⟩, hparts, h⟩ := liftResult_bind_ok.mp h
    cases hparts
    obtain ⟨st, hst, h⟩ := lookup_bind_ok.mp h
    split at href
    · rename_i id inst he
      obtain ⟨⟨k, ty⟩, hout, href⟩ := Option.map_eq_some_iff.mp href
      obtain ⟨st', hst', hent⟩ := hk.bound he
      rw [hst] at hst'
      cases hst'
      obtain ⟨outs, rfl, houts⟩ := Storage.entity_prim hent
      obtain ⟨name, off, hget, hfind⟩ := findOutput_of_primOutput houts hout
      obtain ⟨o, ho, h⟩ := liftResult_bind_ok.mp h
      rw [orReject_ok.mp ho] at hfind
      cases hfind
      cases href
      cases h
      refine .place (.cell (by simp [he]) hst ?_) rfl
      simp [Storage.cell, hget]
    · cases href
  · rename_i n i
    obtain ⟨⟨root, rest⟩, hparts, h⟩ := liftResult_bind_ok.mp h
    cases hparts
    obtain ⟨st, hst, h⟩ := lookup_bind_ok.mp h
    split at href
    · rename_i ty len he
      split_ifs at href with hi
      cases href
      obtain ⟨st', hst', hent⟩ := hk.bound he
      rw [hst] at hst'
      cases hst'
      obtain ⟨off, rfl⟩ := Storage.entity_array hent
      have hlt : i.toNat < len := by omega
      have hcell : (Storage.data off (.array (.elem ty) len)).cell i.toNat =
          some (off + i.toNat * ty.byteWidth, ty) := if_pos hlt
      -- the index is below the top, so that it is its own 32-bit pattern
      have hsmall : i.toNat < 2 ^ 32 := by
        have hbelow := hk.apart.below hst hcell
        have hpos := ty.byteWidth_pos
        have hmul : i.toNat ≤ i.toNat * ty.byteWidth := Nat.le_mul_of_pos_right _ hpos
        omega
      have hbits : asU32 i = i.toNat := by
        unfold asU32
        rw [Int.emod_eq_of_lt hi.1 (by omega)]
      obtain ⟨o, ho, h⟩ := liftResult_bind_ok.mp h
      obtain ⟨-, rfl⟩ := checkU32_ok.mp ho
      cases h
      rw [hbits]
      exact .place (.cell (by simp [he]) hst hcell) rfl
    · cases href
  · cases href

/-! ## What the code of an expression does -/

/-- The machine stands behind the code, with the value on top of the stack. -/
structure Yields (env : Env) (N : ℕ) (Γ : Scope) (g : Codegen) (T : Live) (stack : List VmValue)
    (ty : IrType) (pc : ℕ) (v : VmValue) (σ : Store) (c : Config) : Prop where
  pc : c.pc = pc
  irType : v.irType = ty
  stack : c.state.stack = v :: stack
  represents : Represents env N Γ g T σ c.state

/-- The code of an action computes a value of a type. -/
def Computes (image : VmImage) (items : List Item) (env : Env) (N : ℕ) (Γ : Scope)
    (action : EmitM IrType) (x : StM VmValue) (ty : IrType) : Prop :=
  ∀ ⦃g g' : Codegen⦄ ⦃t : IrType⦄ ⦃T : Live⦄ ⦃σ : Store⦄ ⦃s : VmState⦄ (R : Store → VmState → Prop),
    action g = .ok t g' → g'.items <+: items → g'.top ≤ N → Knows env Γ g T →
    Represents env N Γ g T σ s →
    Mirrors image env.nowMs R (x σ) (Yields env N Γ g T s.stack ty g'.pc) ⟨s, g.pc⟩

/-- The bits of an integer literal. -/
theorem ofNat_asU32 (v : ℤ) : BitVec.ofNat 32 (asU32 v) = BitVec.ofInt 32 v := by
  apply BitVec.eq_of_toNat_eq
  rw [BitVec.toNat_ofNat, BitVec.toNat_ofInt, asU32]
  omega

theorem asU32_lt (v : ℤ) : asU32 v < 2 ^ 32 := by
  rw [asU32]
  omega

/-- A literal pushes its value. -/
theorem Mirrors.literal (C : Target image items) {value : Literal} {t : IrType}
    (h : emitLiteral value g = .ok t g') (hpre : g'.items <+: items)
    (hk : Mirrors image nowMs R m post ⟨s.withStack (value.value :: s.stack), g'.pc⟩) :
    Mirrors image nowMs R m post ⟨s, g.pc⟩ := by
  have hnext : ∀ i : DecodedInstr, g' = g.adds [.instr i] → g'.pc = g.pc + i.size := by
    rintro i rfl
    simp
  cases value with
  | bool b =>
      cases h
      rw [hnext _ rfl] at hk
      have hbit : (if b then 1 else 0) < 2 ^ 24 := by cases b <;> decide
      refine .push (C.decode (stands_adds hpre) (wellFormed_simple rfl (by decide) hbit)) rfl
        (t := s) rfl ?_
      cases b <;> exact hk
  | int v =>
      cases h
      rw [hnext _ rfl] at hk
      refine .dint C (stands_adds hpre) (asU32_lt v) ?_
      rw [ofNat_asU32]
      exact hk
  | real v =>
      cases h
      rw [hnext _ rfl] at hk
      refine .push (C.decode (stands_adds hpre) ⟨rfl, by decide, v.bits.isLt⟩) rfl (t := s) rfl ?_
      rw [BitVec.ofNat_toNat, BitVec.setWidth_eq]
      exact hk
  | timeMs v =>
      cases h
      rw [hnext _ rfl] at hk
      refine .push (C.decode (stands_adds hpre) ⟨rfl, by decide, v.isLt⟩) rfl (t := s) rfl ?_
      rw [BitVec.ofNat_toNat, BitVec.setWidth_eq]
      exact hk

/-- A literal has its type. -/
theorem Literal.irType_value (value : Literal) : value.value.irType = value.irType := by
  cases value <;> rfl

/-- The pc behind one instruction. -/
theorem Codegen.adds_simple_pc (g : Codegen) (op : Opcode) (payload : ℕ) :
    (g.adds [.simple op payload]).pc = g.pc + 4 := by
  simp [DecodedInstr.size]

/-- Quality is asked of a name. -/
theorem exprType_qGood {e : Expr} {ty : IrType} (h : exprType Γ (.qGood e) = some ty) :
    ∃ n, e = .name [.ident n] := by
  unfold exprType at h
  split at h
  all_goals first
    | (rename_i heq; cases heq; done)
    | skip
  · rename_i n heq
    cases heq
    exact ⟨n, rfl⟩
  · cases h

/-- The type of an emitted literal. -/
theorem emitLiteral_type {value : Literal} {t : IrType} (h : emitLiteral value g = .ok t g') :
    t = value.irType := by
  cases value <;> cases h <;> rfl

/-- The emitter finds the type of an expression, or BOOL: it takes a bitwise NOT for a truth value. -/
theorem emitExpr_type (hk : Knows env Γ g T) (htop : g.top ≤ 2 ^ 32) : (e : Expr) →
    {g' : Codegen} → {t ty : IrType} → emitExpr order e g = .ok t g' → exprType Γ e = some ty →
      t = ty ∨ t = .bool
  | .literal value, g', t, ty, h, hty => by
      rw [emitExpr] at h
      rw [exprType] at hty
      split_ifs at hty
      cases hty
      exact .inl (emitLiteral_type h)
  | .name path, g', t, ty, h, hty => by
      rw [emitExpr] at h
      rw [exprType] at hty
      rcases href : Γ.resolve path with _ | ref
      · simp [href] at hty
      · simp only [href] at hty
        cases emitLoadPath_ok hk htop h href with
        | place hplace hg =>
            cases hty
            exact .inl rfl
        | input hn hg =>
            cases hty
            exact .inl rfl
        | const hlit =>
            simp only at hty
            split_ifs at hty
            cases hty
            exact .inl (emitLiteral_type hlit)
  | .unary op e, g', t, ty, h, hty => by
      obtain ⟨u, g₁, h₁, hlast⟩ := emitExpr_unary_ok h
      rw [exprType] at hty
      split at hty
      · rename_i w he
        rcases hlast with ⟨rfl, rfl, -⟩ | ⟨rfl, rfl, -⟩
        · exact .inr rfl
        · rcases emitExpr_type hk htop e h₁ he with rfl | rfl
          · simp only [unaryType] at hty
            split_ifs at hty
            cases hty
            exact .inl rfl
          · exact .inr rfl
      · cases hty
  | .binary op left right, g', t, ty, h, hty => by
      rw [emitExpr_binary] at h
      rw [exprType] at hty
      split at hty
      · rename_i w u hleft hright
        split_ifs at hty with hwu
        have hstrict : emitBinary op (emitExpr order left) (emitExpr order right) g = .ok t g' →
            t = ty ∨ t = .bool := by
          intro h'
          obtain ⟨lt, g₁, rt, g₂, code, h₁, -, hcode, -, rfl, -⟩ := emitBinary_ok h'
          rcases emitExpr_type hk htop left h₁ hleft with rfl | rfl
          · cases op <;> simp_all [binaryType, BinaryOp.isComparison, binaryOpcode]
          · exact .inr (by simp)
        cases op with
        | and =>
            obtain ⟨_, _, _, _, _, -, -, -, rfl, -⟩ := emitShortCircuit_ok h
            exact .inr rfl
        | or =>
            obtain ⟨_, _, _, _, _, -, -, -, rfl, -⟩ := emitShortCircuit_ok h
            exact .inr rfl
        | _ => exact hstrict h
      · cases hty
  | .qGood e, g', t, ty, h, hty => by
      obtain ⟨n, rfl⟩ := exprType_qGood hty
      rw [emitExpr] at h
      unfold emitQGood at h
      obtain ⟨⟨root, rest⟩, -, h⟩ := liftResult_bind_ok.mp h
      obtain ⟨st, -, h⟩ := lookup_bind_ok.mp h
      cases st with
      | input slot ty' =>
          cases h
          exact .inr rfl
      | _ => exact absurd h failWith_ok
  | .fbCall _, g', t, ty, h, hty => by simp [exprType] at hty

section Forms

variable (C : Target image items)
include C

/-- Literals. -/
theorem computes_literal {value : Literal} :
    Computes image items env N Γ (emitLiteral value) (pure value.value) value.irType := by
  intro g g' t T σ s R h hpre htop hk hr
  refine .literal C h hpre (.ok rfl ⟨rfl, Literal.irType_value value, rfl, ?_⟩)
  exact hr.withStack _

/-- Names. -/
theorem computes_name (hN : N ≤ 2 ^ 32) {path : List PathSeg} {ty : IrType}
    (hty : exprType Γ (.name path) = some ty) :
    Computes image items env N Γ (emitLoadPath path) (eval env Γ (.name path)) ty := by
  intro g g' t T σ s R h hpre htop hk hr
  have hgrow := grows_emitLoadPath h
  rw [exprType] at hty
  rcases href : Γ.resolve path with _ | ref
  · simp [href] at hty
  · have hload := emitLoadPath_ok hk ((hgrow.top.trans htop).trans hN) h href
    have hfull := hr
    cases hload with
    | @place l ld st off hplace hg =>
        subst hg
        rw [href] at hty
        cases hty
        have hm : eval env Γ (.name path) σ = .ok (σ.vars l) σ := by
          rw [eval, href]
          rfl
        refine hplace.load C hr (stands_adds hpre) (.ok hm ⟨?_, hplace.irType hr, rfl, ?_⟩)
        · rw [Codegen.adds_simple_pc]
        · exact hr.withStack _
    | @input n slot hn hg =>
        subst hg
        rw [href] at hty
        cases hty
        obtain ⟨v, hv, hvty⟩ := hk.inputs hn
        have hm : eval env Γ (.name path) σ = .ok v σ := by
          rw [eval, href]
          simp only [hv]
          rfl
        refine .ldI C (stands_adds hpre) hr.addresses (hr.inputs ▸ hv) (.ok hm ⟨?_, hvty, rfl, ?_⟩)
        · rw [Codegen.adds_simple_pc]
        · exact hr.withStack _
    | @const value hlit =>
        rw [href] at hty
        simp only at hty
        split_ifs at hty
        cases hty
        have hm : eval env Γ (.name path) = pure value.value := by
          rw [eval, href]
        rw [hm]
        exact computes_literal C R hlit hpre htop hk hr

/-- Quality of an input. -/
theorem computes_qGood {n : String} {ty : IrType}
    (hty : exprType Γ (.qGood (.name [.ident n])) = some ty) :
    Computes image items env N Γ (emitQGood (.name [.ident n]))
      (eval env Γ (.qGood (.name [.ident n]))) ty := by
  intro g g' t T σ s R h hpre htop hk hr
  rw [exprType] at hty
  split at hty
  · rename_i slot ty' he
    cases hty
    obtain ⟨st, hst, hent⟩ := hk.bound he
    obtain ⟨v, hv, -⟩ := hk.inputs he
    have hlt : slot < env.inputs.qualityGood.length := by
      rw [env.inputs.quality_length]
      exact (List.getElem?_eq_some_iff.mp hv).1
    have hgood := List.getElem?_eq_getElem hlt
    have hm : eval env Γ (.qGood (.name [.ident n])) σ =
        .ok (.bool (env.inputs.qualityGood.get ⟨slot, hlt⟩)) σ := by
      rw [eval, he]
      simp only [hgood]
      rfl
    unfold emitQGood at h
    obtain ⟨⟨root, rest⟩, hparts, h⟩ := liftResult_bind_ok.mp h
    cases hparts
    obtain ⟨st', hst', h⟩ := lookup_bind_ok.mp h
    rw [hst] at hst'
    cases hst'
    cases st with
    | input slot' ty'' =>
        cases hent
        obtain rfl : g' = g.adds [.simple .ldIq slot] := by
          cases h
          rfl
        refine .ldIq C (stands_adds hpre) hr.addresses (by rw [hr.inputs]; exact hgood)
          (.ok hm ⟨?_, rfl, rfl, ?_⟩)
        · rw [Codegen.adds_simple_pc]
        · exact hr.withStack _
    | _ => exact absurd h failWith_ok
  · cases hty

/-- Unary operators. -/
theorem computes_unary {op : UnaryOp} {e : Expr} {t ty : IrType}
    (he : Computes image items env N Γ (emitExpr order e) (eval env Γ e) t)
    (hty : unaryType op t = some ty) :
    Computes image items env N Γ (emitExpr order (.unary op e))
      (eval env Γ (.unary op e)) ty := by
  intro g g' t' T σ s R h hpre htop hk hr
  obtain ⟨u, g₁, h₁, hlast⟩ := emitExpr_unary_ok h
  have hg : g' = g₁.adds [.simple (unaryOpcode op) 0] := by
    rcases hlast with ⟨rfl, -, rfl⟩ | ⟨rfl, -, rfl⟩ <;> rfl
  subst hg
  have hpre₁ : g₁.items <+: items := (List.prefix_append _ _).trans hpre
  rw [eval]
  refine .bind (he R h₁ hpre₁ htop hk hr) ?_
  rintro a σ₁ ⟨s₁, _⟩ - ⟨rfl, hat, hs₁, hr₁⟩
  subst hat
  obtain ⟨r, hvalue, hcode, hrt⟩ := agrees_unary hty
  refine Mirrors.unary C (stands_adds hpre) (by cases op <;> simp [unaryOpcode]) hs₁ (hcode _) ?_
  refine .ok (a := r) (x := σ₁) ?_ ⟨?_, hrt, rfl, ?_⟩
  · rw [hvalue]
    rfl
  · rw [Codegen.adds_simple_pc]
  · exact hr₁.withStack _

/-- The opcode of a strict binary operator. -/
theorem mirrors_operator (op : BinaryOp) {code : Opcode} {a b : VmValue} {rest : List VmValue}
    {t ty : IrType} (hstands : Stands items pc [.simple code 0]) (hcode : binaryOpcode op = some code)
    (ha : a.irType = t) (hb : b.irType = t) (hty : binaryType op t = some ty)
    (hs : s.stack = b :: a :: rest) (hr : Represents env N Γ g T σ s) :
    Mirrors image env.nowMs R (binaryValue op a b σ)
      (Yields env N Γ g T rest ty (pc + 4)) ⟨s, pc⟩ := by
  have hagree := agrees_binary hcode ha hb hty σ (s.withStack rest) pc hr.div0
  refine Mirrors.binop C hstands hcode hs ?_ ?_
  · intro r t hbin
    rcases hagree with ⟨r', n, hvalue, hbin', hrt⟩ | ⟨-, f, s', hbin'⟩
    · rw [hbin] at hbin'
      cases hbin'
      refine .ok hvalue ⟨rfl, hrt, rfl, ?_⟩
      exact ((hr.withStack _).count n).withStack _
    · rw [hbin] at hbin'
      cases hbin'
  · intro f t hbin
    rcases hagree with ⟨r', n, -, hbin', -⟩ | ⟨hvalue, -⟩
    · rw [hbin] at hbin'
      cases hbin'
    · exact ⟨σ, hvalue⟩

/-- Strict binary operators. -/
theorem computes_binary {op : BinaryOp} {left right : EmitM IrType} {x y : StM VmValue}
    {t ty : IrType} (hwhole : Whole left)
    (hleft : Computes image items env N Γ left x t)
    (hwhole' : Whole right) (hright : Computes image items env N Γ right y t)
    (hty : binaryType op t = some ty) :
    Computes image items env N Γ (emitBinary op left right)
      (x >>= fun a => y >>= fun b => binaryValue op a b) ty := by
  intro g g' t' T σ s R h hpre htop hk hr
  obtain ⟨lt, g₁, rt, g₂, code, h₁, h₂, hcode, -, -, rfl⟩ := emitBinary_ok h
  obtain ⟨T₁, e₁⟩ := hwhole.grows h₁
  obtain ⟨T₂, e₂⟩ := hwhole'.grows h₂
  have hpre₂ : g₂.items <+: items := (List.prefix_append _ _).trans hpre
  have hpre₁ : g₁.items <+: items := e₂.items.trans hpre₂
  refine .bind (hleft R h₁ hpre₁ (e₂.top.trans htop) hk hr) ?_
  rintro a σ₁ ⟨s₁, _⟩ - ⟨rfl, hat, hs₁, hr₁⟩
  have hk₁ := hk.ext e₁.toExt
  refine .bind (hright R h₂ hpre₂ htop hk₁ (hr₁.ext hk e₁.toExt)) ?_
  rintro b σ₂ ⟨s₂, _⟩ - ⟨rfl, hbt, hs₂, hr₂⟩
  simp only at hs₁ hs₂
  rw [hs₁] at hs₂
  rw [Codegen.adds_simple_pc]
  exact mirrors_operator C op (stands_adds hpre) hcode hat hbt hty hs₂ (hr₂.back e₁.toExt)

/-- The jump that skips the right operand. -/
theorem Mirrors.skip {skip : Opcode} {decided : Bool} {l : Label} {q : ℕ} {a : VmValue}
    {rest : List VmValue} (hskip : skip = if decided then .jmpIf else .jmpIfNot)
    (h : Stands items pc [.jump skip l]) (hl : Stands items q [.label l])
    (hs : s.stack = a :: rest)
    (hk : Mirrors image nowMs R m post
      ⟨s.withStack rest, if a.asBool = decided then q else pc + 4⟩) :
    Mirrors image nowMs R m post ⟨s, pc⟩ := by
  cases decided with
  | true =>
      subst hskip
      exact .jmpIf C h hl hs hk
  | false =>
      subst hskip
      refine .jmpIfNot C h hl hs ?_
      cases ha : a.asBool <;> simpa [ha] using hk

/-- Short-circuit operators: `decided` is the value of the left operand that decides. -/
theorem computes_shortCircuit {left right : EmitM IrType} {x y : StM VmValue} {skip : Opcode}
    {kind : LabelKind} (decided : Bool) (hskip : skip = if decided then .jmpIf else .jmpIfNot)
    (hwhole : Whole left) (hleft : Computes image items env N Γ left x .bool)
    (hwhole' : Whole right) (hright : Computes image items env N Γ right y .bool) :
    Computes image items env N Γ
      (emitShortCircuit left right skip kind (if decided then 1 else 0))
      (x >>= fun a => if a.asBool = decided then pure (.bool decided) else y) .bool := by
  intro g g' t' T σ s R h hpre htop hk hr
  obtain ⟨g₁, tmp, g₂, u, g₃, h₁, h₂, h₃, -, rfl⟩ := emitShortCircuit_ok h
  obtain ⟨T₁, e₁⟩ := hwhole.grows h₁
  obtain ⟨T₃, e₃⟩ := hwhole'.grows h₃
  have etmp := Ext.temp h₂
  have hpre₃ : g₃.items <+: items := (List.prefix_append _ _).trans hpre
  have hpre₂ : (g₂.adds [.simple .stData tmp, .simple .ldData tmp,
      .jump skip ⟨kind, g₁.labelId⟩]).items <+: items := e₃.items.trans hpre₃
  have hitems₂ : g₂.items = g₁.items := by
    obtain ⟨-, rfl⟩ := allocTemp_ok h₂
    rfl
  have hpc₂ : g₂.pc = g₁.pc := by rw [Codegen.pc, Codegen.pc, hitems₂]
  have hpre₁ : g₁.items <+: items := hitems₂ ▸ (List.prefix_append _ _).trans hpre₂
  have hroom₂ : g₂.top ≤ N := e₃.top.trans htop
  -- the left operand
  have hkb := hk.ext (.bump g)
  refine .bind (hleft (g := g.bump) R h₁ hpre₁ (etmp.top.trans hroom₂) hkb (hr.ext hk (.bump g))) ?_
  rintro a σ₁ ⟨s₁, _⟩ - ⟨rfl, hat, hs₁, hr₁⟩
  simp only at hs₁ hr₁
  -- its value goes through a temporary
  have hk₁ := (hkb.ext e₁.toExt).ext (.bump g₁)
  have hr₁' := (hr₁.ext hkb e₁.toExt).ext (hkb.ext e₁.toExt) (.bump g₁)
  have hstands := stands_adds hpre₂
  rw [hpc₂] at hstands
  have hkt := hk₁.temp h₂ hat
  obtain ⟨d, hd, hset⟩ := (hr₁'.ext hk₁ etmp).setTemp g₁.pc hkt hroom₂
  refine Mirrors.stData C hstands.head hr₁.addresses hs₁ hd ?_
  have hr₂ := hset s.stack
  refine Mirrors.ldData C hstands.tail.head hr₂.addresses (hr₂.temps _ List.mem_cons_self) ?_
  have hdup : Stands items (g₃.pc + 4) [.label ⟨kind, g₁.labelId⟩] := (stands_adds hpre).tail.head
  have hend : Stands items (g₃.pc + 8) [.label ⟨.scEnd, g.labelId⟩] :=
    (stands_adds hpre).tail.tail.tail
  refine Mirrors.skip C hskip hstands.tail.tail hdup rfl ?_
  have hpc' : (g₃.adds [.jump .jmp ⟨.scEnd, g.labelId⟩, .label ⟨kind, g₁.labelId⟩,
      .simple .pushIBool (if decided then 1 else 0), .label ⟨.scEnd, g.labelId⟩]).pc =
      g₃.pc + 8 := by
    simp [DecodedInstr.size]
  have hback : ∀ {σ' : Store} {s' : VmState},
      Represents env N Γ g₂ ((tmp, a) :: T) σ' s' → Represents env N Γ g T σ' s' := by
    intro σ' s' hr'
    exact ((((hr'.drop).back etmp).back (.bump g₁)).back e₁.toExt).back (.bump g)
  by_cases hdec : a.asBool = decided
  · -- decided: the constant behind the second label
    rw [if_pos hdec, if_pos hdec]
    have hbit : (if decided then 1 else 0) < 2 ^ 24 := by cases decided <;> decide
    refine Mirrors.push (C.decode (stands_adds hpre).tail.tail.head
      (wellFormed_simple rfl (by decide) hbit)) rfl (t := _) rfl ?_
    refine .ok rfl ⟨?_, rfl, ?_, ?_⟩
    · rw [hpc']
      rfl
    · cases decided <;> rfl
    · exact hback (hr₂.withStack _)
  · -- not decided: the right operand, and a jump to the end
    rw [if_neg hdec, if_neg hdec]
    have hpcr : (g₂.adds [.simple .stData tmp, .simple .ldData tmp,
        .jump skip ⟨kind, g₁.labelId⟩]).pc = g₁.pc + 4 + 4 + 4 := by
      simp [DecodedInstr.size, hpc₂]
    have hright' := hright (s := ({ s₁ with data := d, stack := s.stack } : VmState)) R h₃ hpre₃
      htop (hkt.ext (.adds g₂ _)) (hr₂.ext hkt (.adds g₂ _))
    rw [hpcr] at hright'
    refine Enacts.andThen hright' ?_
    rintro b σ₂ ⟨s₂, _⟩ hy ⟨rfl, hbt, hs₂, hr₂'⟩
    refine Mirrors.jmp C (stands_adds hpre).head hend (.ok hy ⟨hpc'.symm, hbt, hs₂, ?_⟩)
    exact hback (hr₂'.back (.adds g₂ _))

/-- **Compiled expressions.** The code of a well-typed expression pushes its value. -/
theorem computes_expr (hN : N ≤ 2 ^ 32) : (e : Expr) → {ty : IrType} → exprType Γ e = some ty →
    Computes image items env N Γ (emitExpr order e) (eval env Γ e) ty
  | .literal value, ty, hty => by
      rw [exprType] at hty
      split_ifs at hty
      cases hty
      rw [emitExpr, eval]
      exact computes_literal C
  | .name path, ty, hty => by
      rw [emitExpr]
      exact computes_name C hN hty
  | .unary op e, ty, hty => by
      rw [exprType] at hty
      split at hty
      · rename_i t he
        exact computes_unary C (computes_expr hN e he) hty
      · cases hty
  | .binary op left right, ty, hty => by
      rw [exprType] at hty
      split at hty
      · rename_i t u hleft hright
        split_ifs at hty with htu
        subst htu
        have hl := computes_expr hN left hleft
        have hr := computes_expr hN right hright
        have hwl := whole_emitExpr order left
        have hwr := whole_emitExpr order right
        rw [emitExpr_binary]
        cases op with
        | and =>
            simp only [binaryType] at hty
            split_ifs at hty with ht
            subst ht
            cases hty
            have heval : eval env Γ (.binary .and left right) =
                (eval env Γ left >>= fun a =>
                  if a.asBool = false then pure (.bool false) else eval env Γ right) := by
              rw [eval]
              congr 1
              funext a
              cases a.asBool <;> rfl
            rw [heval]
            exact computes_shortCircuit C false rfl hwl hl hwr hr
        | or =>
            simp only [binaryType] at hty
            split_ifs at hty with ht
            subst ht
            cases hty
            exact computes_shortCircuit C true rfl hwl hl hwr hr
        | _ => exact computes_binary C hwl hl hwr hr hty
      · cases hty
  | .qGood e, ty, hty => by
      obtain ⟨n, rfl⟩ := exprType_qGood hty
      rw [emitExpr]
      exact computes_qGood C hty
  | .fbCall _, ty, hty => by
      simp [exprType] at hty

end Forms

end SoftPlc.Compiler
