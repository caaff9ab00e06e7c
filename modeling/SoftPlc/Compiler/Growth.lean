import SoftPlc.Compiler.Emission

/-!
# Every run of the emitter grows

`Grows T g g'`: from `g` to `g'` the emitter appended items, kept what was bound, and allocated the
temporaries `T` one above the other, over everything it knew; it bound new names only to these
temporaries, it placed no label but new ones, each at most once, and every operand that it emitted
comes from a symbol in scope or from a temporary (`Origin`). Every emitter function grows (`Whole`),
by induction over the syntax. Of the data cells of all symbols in scope (`Storage.cell`), growth
keeps that they are pairwise disjoint and below the top (`Codegen.Apart`).
-/

namespace SoftPlc.Compiler

open SoftPlc.Ir SoftPlc.St SoftPlc.Lib SoftPlc.Vm

variable {order : HashOrder} {g g' g'' : Codegen}

/-! ## Cells -/

/-- The numbered data cells of a symbol, each an offset and a type: the variable itself, the
elements of an array, the outputs of a primitive. -/
def Storage.cell : Storage → ℕ → Option (ℕ × IrType)
  | .data off (.elem t), 0 => some (off, t)
  | .data off (.array (.elem t) len), k =>
      if k < len then some (off + k * t.byteWidth, t) else none
  | .prim _ _ outs, k => (outs[k]?).map fun o => (o.2.1, o.2.2)
  | _, _ => none

/-- The cells of all symbols in scope lie below the top, and distinct ones are disjoint. -/
structure Codegen.Apart (g : Codegen) : Prop where
  /-- Below the top. -/
  below : ∀ {n st k off t}, g.look n = some st → st.cell k = some (off, t) →
    off + t.byteWidth ≤ g.top
  /-- Disjoint. -/
  disjoint : ∀ {n st k off t n' st' k' off' t'}, g.look n = some st → st.cell k = some (off, t) →
    g.look n' = some st' → st'.cell k' = some (off', t') → n ≠ n' ∨ k ≠ k' →
    off + t.byteWidth ≤ off' ∨ off' + t'.byteWidth ≤ off

/-! ## Where operands come from -/

/-- Temporaries, each an offset and a type. -/
abbrev Temps := List (ℕ × IrType)

/-- Temporaries that lie one above the other between two bounds. -/
def Stacked : ℕ → Temps → ℕ → Prop
  | lo, [], hi => lo ≤ hi
  | lo, (off, ty) :: rest, hi => lo ≤ off ∧ Stacked (off + ty.byteWidth) rest hi

theorem Stacked.le {lo hi : ℕ} {T : Temps} (h : Stacked lo T hi) : lo ≤ hi := by
  induction T generalizing lo with
  | nil => exact h
  | cons x T ih => exact h.1.trans ((Nat.le_add_right _ _).trans (ih h.2))

theorem Stacked.append {lo mid hi : ℕ} {T T' : Temps} (h : Stacked lo T mid)
    (h' : Stacked mid T' hi) : Stacked lo (T ++ T') hi := by
  induction T generalizing lo with
  | nil =>
      rcases T' with _ | ⟨x, T'⟩
      · exact h.le.trans h'.le
      · exact ⟨h.le.trans h'.1, h'.2⟩
  | cons x T ih => exact ⟨h.1, ih h.2⟩

/-- Loads and stores of the data segment. -/
def isDataOp (op : Opcode) : Prop := op = .ldData ∨ op = .stData

/-- Loads and stores of the retain segment. -/
def isRetainOp (op : Opcode) : Prop := op = .ldRetain ∨ op = .stRetain

/-- Opcodes that the emitter uses without an operand. -/
def isOperator : Opcode → Bool
  | .add | .sub | .mul | .div | .xor | .eq | .ne | .lt | .le | .gt | .ge | .neg | .not | .ret =>
      true
  | _ => false

/-- Where the operand of an emitted instruction comes from: the symbols in scope, the temporaries,
or no operand at all. -/
inductive Origin (T : Temps) (g : Codegen) : DecodedInstr → Prop
  /-- A constant. -/
  | bool (payload : ℕ) (h : payload ≤ 1) : Origin T g (.simple .pushIBool payload)
  | imm (op : Opcode) (imm : ℕ) (h : op.hasImm32 = true) : Origin T g (.withImm32 op 0 imm)
  /-- An operator. -/
  | operator (op : Opcode) (h : isOperator op = true) : Origin T g (.simple op 0)
  /-- A data variable. -/
  | data {op : Opcode} {n : String} {off : ℕ} {ty : TypeDef} (hop : isDataOp op)
      (h : g.look n = some (.data off ty)) : Origin T g (.simple op off)
  /-- An array element. -/
  | elem {n : String} {off i len : ℕ} {e : TypeDef} {t : IrType} (he : e.irElem = some t)
      (h : g.look n = some (.data off (.array e len))) :
      Origin T g (.simple .ldData (off + i * t.byteWidth))
  /-- An output of a primitive. -/
  | out {op : Opcode} {n : String} {id : PrimitiveId} {inst : ℕ}
      {outs : List (String × ℕ × IrType)} {o : String × ℕ × IrType} (hop : isDataOp op)
      (h : g.look n = some (.prim id inst outs)) (ho : o ∈ outs) : Origin T g (.simple op o.2.1)
  /-- A field of a function-block instance. -/
  | field {op : Opcode} {n fb : String} {base : ℕ} {l : UserFbLayout} {f : FieldLayout}
      (hop : isDataOp op) (h : g.look n = some (.userInst fb base))
      (hl : g.fbLayouts.lookup (lower fb) = some l) (hf : f ∈ l.fields) :
      Origin T g (.simple op (base + f.offset))
  /-- A retained field of a function-block instance. -/
  | retainField {op : Opcode} {n fb : String} {base : ℕ} {l : UserFbLayout} {f : FieldLayout}
      (hop : isRetainOp op) (h : g.look n = some (.userInst fb base))
      (hl : g.fbLayouts.lookup (lower fb) = some l) (hf : f ∈ l.fields) (hr : f.retain = true) :
      Origin T g (.simple op (f.retainOffset.getD 0))
  /-- A retained variable. -/
  | retain {op : Opcode} {n : String} {off : ℕ} {ty : IrType} (hop : isRetainOp op)
      (h : g.look n = some (.retain off ty)) : Origin T g (.simple op off)
  /-- An input slot. -/
  | input {op : Opcode} {n : String} {slot : ℕ} {ty : IrType} (hop : op = .ldI ∨ op = .ldIq)
      (h : g.look n = some (.input slot ty)) : Origin T g (.simple op slot)
  /-- An output slot. -/
  | output {op : Opcode} {n : String} {slot : ℕ} {ty : IrType} (hop : op = .ldQ ∨ op = .stQ)
      (h : g.look n = some (.output slot ty)) : Origin T g (.simple op slot)
  /-- A temporary. -/
  | temp {op : Opcode} {off : ℕ} {t : IrType} (hop : isDataOp op) (h : (off, t) ∈ T) :
      Origin T g (.simple op off)
  /-- A call of a primitive. -/
  | prim {n : String} {id : PrimitiveId} {inst : ℕ} {outs : List (String × ℕ × IrType)}
      (h : g.look n = some (.prim id inst outs)) : Origin T g (.callFb 0 id.toU32 inst)
  /-- A call of a user function block. -/
  | user {n fb : String} {base : ℕ} {l : UserFbLayout} (h : g.look n = some (.userInst fb base))
      (hl : g.fbLayouts.lookup (lower fb) = some l) :
      Origin T g (.callFb 1 (userFbId g.entries l.entryName) base)

/-- Items whose operands come from symbols in scope and temporaries. -/
inductive Sourced (T : Temps) (g : Codegen) : List Item → Prop
  | nil : Sourced T g []
  | instr {i : DecodedInstr} {xs : List Item} (h : Origin T g i) (hs : Sourced T g xs) :
      Sourced T g (.instr i :: xs)
  | jump {op : Opcode} {l : Label} {xs : List Item} (hop : Opcode.isJump op = true)
      (hs : Sourced T g xs) : Sourced T g (.jump op l :: xs)
  | label {l : Label} {xs : List Item} (hs : Sourced T g xs) : Sourced T g (.label l :: xs)

theorem Sourced.origin {T : Temps} {xs : List Item} (h : Sourced T g xs) {i : DecodedInstr}
    (hi : .instr i ∈ xs) : Origin T g i := by
  induction h with
  | nil => cases hi
  | instr h hs ih =>
      rcases List.mem_cons.mp hi with hi | hi
      · cases hi
        exact h
      · exact ih hi
  | jump hop hs ih => exact ih (List.mem_of_ne_of_mem (by simp) hi)
  | label hs ih => exact ih (List.mem_of_ne_of_mem (by simp) hi)

theorem Sourced.isJump {T : Temps} {xs : List Item} (h : Sourced T g xs) {op : Opcode} {l : Label}
    (hi : .jump op l ∈ xs) : Opcode.isJump op = true := by
  induction h with
  | nil => cases hi
  | instr h hs ih => exact ih (List.mem_of_ne_of_mem (by simp) hi)
  | jump hop hs ih =>
      rcases List.mem_cons.mp hi with hi | hi
      · cases hi
        exact hop
      · exact ih hi
  | label hs ih => exact ih (List.mem_of_ne_of_mem (by simp) hi)

theorem Sourced.append {T : Temps} {xs ys : List Item} (h : Sourced T g xs)
    (h' : Sourced T g ys) : Sourced T g (xs ++ ys) := by
  induction h with
  | nil => exact h'
  | instr h hs ih => exact .instr h ih
  | jump hop hs ih => exact .jump hop ih
  | label hs ih => exact .label ih

/-! ## Growth -/

/-- One for a label whose number is in a range. -/
def inRange (lo hi : ℕ) (l : Label) : ℕ := if lo ≤ l.id ∧ l.id < hi then 1 else 0

/-- What a run of the emitter keeps. -/
structure Ext (g g' : Codegen) : Prop where
  /-- Items are appended. -/
  items : g.items <+: g'.items
  /-- Label numbers are used up in order. -/
  labelId : g.labelId ≤ g'.labelId
  /-- Globals stay. -/
  globals : g'.globals = g.globals
  /-- Layouts stay. -/
  fbLayouts : g'.fbLayouts = g.fbLayouts
  /-- Entries stay. -/
  entries : g'.entries = g.entries
  /-- No retain bytes are added. -/
  extraRetain : g'.extraRetain = g.extraRetain
  /-- Temporaries are added at the end. -/
  extraData : g.extraData ≤ g'.extraData
  /-- Names stay bound. -/
  look : ∀ {n st}, g.look n = some st → g'.look n = some st
  /-- New names are bound to new temporaries. -/
  new : ∀ {n st}, g'.look n = some st → g.look n = some st ∨
    (g.look n = none ∧ ∃ off, st = .data off (.elem .dint) ∧ g.top ≤ off ∧ off + 4 ≤ g'.top)
  /-- Cells stay apart. -/
  apart : g.Apart → g'.Apart

/-- The end of the globals stays. -/
theorem Ext.globalsEnd (h : Ext g g') : g'.globalsEnd = g.globalsEnd := by
  unfold Codegen.globalsEnd
  rw [h.globals, h.fbLayouts]

/-- The top does not go down. -/
theorem Ext.top (h : Ext g g') : g.top ≤ g'.top := by
  unfold Codegen.top
  rw [h.globalsEnd]
  exact max_le_max (le_refl _) h.extraData

theorem Ext.refl (g : Codegen) : Ext g g :=
  ⟨List.prefix_refl _, le_refl _, rfl, rfl, rfl, rfl, le_refl _, fun h => h, fun h => .inl h,
    fun h => h⟩

theorem Ext.trans (h₁ : Ext g g') (h₂ : Ext g' g'') : Ext g g'' where
  items := h₁.items.trans h₂.items
  labelId := h₁.labelId.trans h₂.labelId
  globals := h₂.globals.trans h₁.globals
  fbLayouts := h₂.fbLayouts.trans h₁.fbLayouts
  entries := h₂.entries.trans h₁.entries
  extraRetain := h₂.extraRetain.trans h₁.extraRetain
  extraData := h₁.extraData.trans h₂.extraData
  look := fun h => h₂.look (h₁.look h)
  new := by
    intro n st h
    rcases h₂.new h with h | ⟨hnone, off, hst, hlo, hhi⟩
    · rcases h₁.new h with h | ⟨hnone, off, hst, hlo, hhi⟩
      · exact .inl h
      · exact .inr ⟨hnone, off, hst, hlo, hhi.trans h₂.top⟩
    · refine .inr ⟨?_, off, hst, h₁.top.trans hlo, hhi⟩
      rcases hn : g.look n with _ | st'
      · rfl
      · rw [h₁.look hn] at hnone
        cases hnone
  apart := fun h => h₂.apart (h₁.apart h)

/-- Appending items. -/
theorem Ext.adds (g : Codegen) (xs : List Item) : Ext g (g.adds xs) :=
  ⟨List.prefix_append _ _, le_refl _, rfl, rfl, rfl, rfl, le_refl _, fun h => h, fun h => .inl h,
    fun h => ⟨h.below, h.disjoint⟩⟩

/-- Using a label number. -/
theorem Ext.bump (g : Codegen) : Ext g g.bump :=
  ⟨List.prefix_refl _, Nat.le_succ _, rfl, rfl, rfl, rfl, le_refl _, fun h => h, fun h => .inl h,
    fun h => ⟨h.below, h.disjoint⟩⟩

/-- Allocating a temporary. -/
theorem Ext.temp {ty : IrType} {off : ℕ} (h : allocTemp ty g = .ok off g') : Ext g g' := by
  obtain ⟨hoff, rfl⟩ := allocTemp_ok h
  have hextra : g.extraData ≤ off + ty.byteWidth := by
    have := le_max_right g.globalsEnd g.extraData
    unfold Codegen.top at hoff
    omega
  refine ⟨List.prefix_refl _, le_refl _, rfl, rfl, rfl, rfl, hextra, fun h => h, fun h => .inl h, ?_⟩
  intro h
  refine ⟨fun h₁ h₂ => (h.below h₁ h₂).trans ?_, h.disjoint⟩
  exact max_le_max (le_refl _) hextra

/-- The end of a new temporary is the new top. -/
theorem top_of_allocTemp {ty : IrType} {off : ℕ} (h : allocTemp ty g = .ok off g') :
    g'.top = off + ty.byteWidth := by
  obtain ⟨hoff, rfl⟩ := allocTemp_ok h
  have hend : g.globalsEnd ≤ off + ty.byteWidth := by
    have := le_max_left g.globalsEnd g.extraData
    unfold Codegen.top at hoff
    omega
  exact max_eq_right hend

/-- What an operand came from stays in scope. -/
theorem Origin.mono {T T' : Temps} {i : DecodedInstr} (h : Origin T g i) (hT : T ⊆ T')
    (hext : Ext g g') : Origin T' g' i := by
  cases h with
  | bool payload h => exact .bool payload h
  | imm op imm h => exact .imm op imm h
  | operator op h => exact .operator op h
  | data hop h => exact .data hop (hext.look h)
  | elem he h => exact .elem he (hext.look h)
  | out hop h ho => exact .out hop (hext.look h) ho
  | field hop h hl hf => exact .field hop (hext.look h) (hext.fbLayouts ▸ hl) hf
  | retainField hop h hl hf hr =>
      exact .retainField hop (hext.look h) (hext.fbLayouts ▸ hl) hf hr
  | retain hop h => exact .retain hop (hext.look h)
  | input hop h => exact .input hop (hext.look h)
  | output hop h => exact .output hop (hext.look h)
  | temp hop h => exact .temp hop (hT h)
  | prim h => exact .prim (hext.look h)
  | user h hl =>
      rw [← hext.entries]
      exact .user (hext.look h) (hext.fbLayouts ▸ hl)

/-- What a run of the emitter does that places each label at most as often as `n` says. -/
structure Grown (n : Label → ℕ) (T : Temps) (g g' : Codegen) : Prop extends Ext g g' where
  /-- Labels. -/
  placed : ∀ l, g'.items.count (.label l) ≤ g.items.count (.label l) + n l
  /-- Temporaries. -/
  temps : Stacked g.top T g'.top
  /-- Operands. -/
  origin : ∀ i, .instr i ∈ g'.items → .instr i ∈ g.items ∨ Origin T g' i
  /-- Jumps. -/
  jumps : ∀ op l, .jump op l ∈ g'.items → .jump op l ∈ g.items ∨ Opcode.isJump op = true

/-- A whole run places new labels only, each at most once. -/
abbrev Grows (T : Temps) (g g' : Codegen) : Prop := Grown (inRange g.labelId g'.labelId) T g g'

/-- Ranges of label numbers that follow each other. -/
theorem inRange_add {a b c : ℕ} (hab : a ≤ b) (hbc : b ≤ c) (l : Label) :
    inRange a b l + inRange b c l = inRange a c l := by
  unfold inRange
  split_ifs <;> omega

theorem Grown.comp {n m : Label → ℕ} {T T' : Temps} (h₁ : Grown n T g g')
    (h₂ : Grown m T' g' g'') : Grown (n + m) (T ++ T') g g'' := by
  refine ⟨h₁.toExt.trans h₂.toExt, fun l => ?_, h₁.temps.append h₂.temps, ?_, ?_⟩
  · have hl₁ := h₁.placed l
    have hl₂ := h₂.placed l
    show _ ≤ _ + (n l + m l)
    omega
  · intro i hi
    rcases h₂.origin i hi with hi | hi
    · rcases h₁.origin i hi with hi | hi
      · exact .inl hi
      · exact .inr (hi.mono (List.subset_append_left _ _) h₂.toExt)
    · exact .inr (hi.mono (List.subset_append_right _ _) (.refl _))
  · intro op l hl
    rcases h₂.jumps op l hl with hl | hop
    · exact h₁.jumps op l hl
    · exact .inr hop

/-- A bound on the labels makes a whole run. -/
theorem Grown.grows {n : Label → ℕ} {T : Temps} (h : Grown n T g g')
    (hn : ∀ l, n l ≤ inRange g.labelId g'.labelId l) : Grows T g g' :=
  ⟨h.toExt, fun l => (h.placed l).trans (Nat.add_le_add_left (hn l) _), h.temps, h.origin, h.jumps⟩

theorem Grows.refl (g : Codegen) : Grows [] g g :=
  ⟨.refl g, fun _ => Nat.le_add_right _ _, le_refl _, fun _ h => .inl h, fun _ _ h => .inl h⟩

theorem Grows.trans {T T' : Temps} (h₁ : Grows T g g') (h₂ : Grows T' g' g'') :
    Grows (T ++ T') g g'' := by
  refine (Grown.comp h₁ h₂).grows fun l => ?_
  exact (inRange_add h₁.labelId h₂.labelId l).le

/-- The labels among items, as ranges. -/
def labelRange : List Item → Label → ℕ
  | [], _ => 0
  | .label a :: rest, l => inRange a.id (a.id + 1) l + labelRange rest l
  | _ :: rest, l => labelRange rest l

/-- Labels are counted by their numbers. -/
theorem count_label_le (xs : List Item) (l : Label) : xs.count (.label l) ≤ labelRange xs l := by
  induction xs with
  | nil => exact le_refl _
  | cons x xs ih =>
      rw [List.count_cons]
      cases x with
      | instr i => simpa [labelRange] using ih
      | jump op target => simpa [labelRange] using ih
      | label a =>
          by_cases ha : a = l
          · subst ha
            simp only [labelRange, inRange, BEq.rfl, if_true]
            split_ifs <;> omega
          · simp only [labelRange, beq_iff_eq, Item.label.injEq, ha, if_false]
            omega

@[simp] theorem labelRange_append (xs ys : List Item) (l : Label) :
    labelRange (xs ++ ys) l = labelRange xs l + labelRange ys l := by
  induction xs with
  | nil => simp [labelRange]
  | cons x xs ih => cases x <;> simp [labelRange, ih, Nat.add_assoc]

/-- Instructions are no labels. -/
theorem labelRange_map_instr {α : Type} (f : α → DecodedInstr) (as : List α) (l : Label) :
    labelRange (as.map fun a => .instr (f a)) l = 0 := by
  induction as with
  | nil => rfl
  | cons a as ih => exact ih

/-- Appending items to a run. -/
theorem Grown.more {n : Label → ℕ} {T : Temps} (h : Grown n T g g') (xs : List Item)
    (hs : Sourced T g' xs) : Grown (n + labelRange xs) T g (g'.adds xs) := by
  refine ⟨h.toExt.trans (.adds g' xs), fun l => ?_, h.temps, ?_, ?_⟩
  · rw [Codegen.adds_items, List.count_append]
    have hl := h.placed l
    have hxs := count_label_le xs l
    show _ ≤ _ + (n l + labelRange xs l)
    omega
  · intro i hi
    rcases List.mem_append.mp hi with hi | hi
    · rcases h.origin i hi with hi | hi
      · exact .inl hi
      · exact .inr (hi.mono (List.Subset.refl _) (.adds g' xs))
    · exact .inr ((hs.origin hi).mono (List.Subset.refl _) (.adds g' xs))
  · intro op l hl
    rcases List.mem_append.mp hl with hl | hl
    · exact h.jumps op l hl
    · exact .inr (hs.isJump hl)

/-- Using a label number. -/
theorem Grown.bump (g : Codegen) : Grown 0 [] g g.bump :=
  ⟨.bump g, fun _ => le_refl _, le_refl _, fun _ h => .inl h, fun _ _ h => .inl h⟩

/-- Appending one instruction. -/
theorem Grows.instr {i : DecodedInstr} (h : Origin [] g i) : Grows [] g (g.adds [.instr i]) := by
  refine ((Grows.refl g).more _ (.instr h .nil)).grows fun l => le_refl _

/-- Allocating a temporary. -/
theorem Grows.temp {ty : IrType} {off : ℕ} (h : allocTemp ty g = .ok off g') :
    Grows [(off, ty)] g g' := by
  refine ⟨.temp h, fun l => ?_, ⟨(allocTemp_ok h).1, (top_of_allocTemp h).ge⟩, ?_, ?_⟩
  · obtain ⟨-, rfl⟩ := allocTemp_ok h
    exact Nat.le_add_right _ _
  · obtain ⟨-, rfl⟩ := allocTemp_ok h
    exact fun i hi => .inl hi
  · obtain ⟨-, rfl⟩ := allocTemp_ok h
    exact fun op l hl => .inl hl

/-! ## Loads and stores -/

section Field

variable {n fb : String} {base : ℕ} {l : UserFbLayout} {f : FieldLayout} {u : Unit}

theorem grows_emitLoadField (hst : g.look n = some (.userInst fb base))
    (hl : g.fbLayouts.lookup (lower fb) = some l) (hf : f ∈ l.fields)
    (h : emitLoadField base f g = .ok u g') : Grows [] g g' := by
  unfold emitLoadField at h
  replace h := fieldOffset_bind_ok h
  split_ifs at h with hr
  · obtain rfl := append_ok.mp h
    exact .instr (.retainField (.inl rfl) hst hl hf hr)
  · obtain rfl := append_ok.mp h
    exact .instr (.field (.inl rfl) hst hl hf)

theorem grows_emitStoreField (hst : g.look n = some (.userInst fb base))
    (hl : g.fbLayouts.lookup (lower fb) = some l) (hf : f ∈ l.fields)
    (h : emitStoreField base f g = .ok u g') : Grows [] g g' := by
  unfold emitStoreField at h
  split_ifs at h with hr
  · obtain rfl := append_ok.mp h
    exact .instr (.retainField (.inr rfl) hst hl hf hr)
  · obtain rfl := append_ok.mp (fieldOffset_bind_ok h)
    exact .instr (.field (.inr rfl) hst hl hf)

end Field

theorem grows_emitStoreWhole {n : String} {st : Storage} {u : Unit} (hst : g.look n = some st)
    (h : emitStoreWhole st g = .ok u g') : Grows [] g g' := by
  cases st with
  | output slot ty =>
      obtain rfl := append_ok.mp h
      exact .instr (.output (.inr rfl) hst)
  | data off ty =>
      obtain rfl := append_ok.mp h
      exact .instr (.data (.inr rfl) hst)
  | retain off ty =>
      obtain rfl := append_ok.mp h
      exact .instr (.retain (.inr rfl) hst)
  | input slot ty => exact absurd h failWith_ok
  | const ty value => exact absurd h failWith_ok
  | prim id inst outs => exact absurd h failWith_ok
  | userInst fb base => exact absurd h failWith_ok

/-- An output that is found is one of the outputs. -/
theorem findOutput_mem {outs : List (String × ℕ × IrType)} {name : String}
    {o : String × ℕ × IrType} (h : findOutput outs name = some o) : o ∈ outs :=
  List.mem_of_find?_eq_some h

/-- A field that is found is one of the fields. -/
theorem field_mem {l : UserFbLayout} {name : String} {f : FieldLayout} (h : l.field name = some f) :
    f ∈ l.fields :=
  List.mem_of_find?_eq_some h

theorem grows_emitStoreSub {n field : String} {st : Storage} {u : Unit} (hst : g.look n = some st)
    (h : emitStoreSub field st g = .ok u g') : Grows [] g g' := by
  unfold emitStoreSub at h
  split at h
  · obtain ⟨⟨_, off, _⟩, ho, h⟩ := liftResult_bind_ok.mp h
    obtain rfl := append_ok.mp h
    exact .instr (.out (.inr rfl) hst (findOutput_mem (orReject_ok.mp ho)))
  · obtain ⟨l, hl, h⟩ := instLayout_bind_ok h
    obtain ⟨f, hf, h⟩ := liftResult_bind_ok.mp h
    exact grows_emitStoreField hst hl (field_mem (orReject_ok.mp hf)) h
  · cases h
    exact .refl _
  · exact absurd h failWith_ok

theorem grows_emitStore {lhs : Expr} {u : Unit} (h : emitStore lhs g = .ok u g') :
    Grows [] g g' := by
  unfold emitStore at h
  split at h
  · obtain ⟨⟨root, rest⟩, -, h⟩ := liftResult_bind_ok.mp h
    obtain ⟨st, hst, h⟩ := lookup_bind_ok.mp h
    split at h
    · exact grows_emitStoreWhole hst h
    · exact grows_emitStoreSub hst h
    · exact absurd h failWith_ok
  · exact absurd h failWith_ok

theorem grows_emitLiteral {v : Literal} {t : IrType} (h : emitLiteral v g = .ok t g') :
    Grows [] g g' := by
  cases v with
  | bool b =>
      cases h
      exact .instr (.bool _ (by split_ifs <;> omega))
  | int v =>
      cases h
      exact .instr (.imm .pushIDint _ rfl)
  | real v =>
      cases h
      exact .instr (.imm .pushIReal _ rfl)
  | timeMs v =>
      cases h
      exact .instr (.imm .pushTime _ rfl)

theorem grows_emitLoadWhole {n root : String} {st : Storage} {t : IrType}
    (hst : g.look n = some st) (h : emitLoadWhole root st g = .ok t g') : Grows [] g g' := by
  unfold emitLoadWhole at h
  split at h
  · cases h
    exact .instr (.input (.inl rfl) hst)
  · cases h
    exact .instr (.output (.inl rfl) hst)
  · cases h
    exact .instr (.data (.inl rfl) hst)
  · cases h
    exact .instr (.retain (.inl rfl) hst)
  · exact grows_emitLiteral h
  · exact absurd h failWith_ok

theorem grows_emitLoadIndex {n : String} {index : Expr} {st : Storage} {t : IrType}
    (hst : g.look n = some st) (h : emitLoadIndex index st g = .ok t g') : Grows [] g g' := by
  unfold emitLoadIndex at h
  split at h
  · rename_i off e len
    rcases het : e.irElem with _ | et
    · simp [het] at h
    · simp only [het] at h
      split at h
      · obtain ⟨off, hoff, h⟩ := liftResult_bind_ok.mp h
        obtain ⟨-, rfl⟩ := checkU32_ok.mp hoff
        cases h
        exact .instr (.elem het hst)
      · exact absurd h failWith_ok
  · exact absurd h failWith_ok

theorem grows_emitLoadSub {n field : String} {st : Storage} {t : IrType} (hst : g.look n = some st)
    (h : emitLoadSub field st g = .ok t g') : Grows [] g g' := by
  unfold emitLoadSub at h
  split at h
  · obtain ⟨⟨_, off, _⟩, ho, h⟩ := liftResult_bind_ok.mp h
    cases h
    exact .instr (.out (.inl rfl) hst (findOutput_mem (orReject_ok.mp ho)))
  · obtain ⟨l, hl, h⟩ := instLayout_bind_ok h
    obtain ⟨f, hf, h⟩ := liftResult_bind_ok.mp h
    obtain ⟨⟨⟩, g₁, h₁, h⟩ := estate_bind_ok.mp h
    cases h
    exact grows_emitLoadField hst hl (field_mem (orReject_ok.mp hf)) h₁
  · exact absurd h failWith_ok

theorem grows_emitLoadPath {path : List PathSeg} {t : IrType}
    (h : emitLoadPath path g = .ok t g') : Grows [] g g' := by
  unfold emitLoadPath at h
  obtain ⟨⟨root, rest⟩, -, h⟩ := liftResult_bind_ok.mp h
  obtain ⟨st, hst, h⟩ := lookup_bind_ok.mp h
  split at h
  · exact grows_emitLoadWhole hst h
  · exact grows_emitLoadSub hst h
  · exact grows_emitLoadIndex hst h

theorem grows_emitQGood {e : Expr} {t : IrType} (h : emitQGood e g = .ok t g') :
    Grows [] g g' := by
  unfold emitQGood at h
  split at h
  · obtain ⟨⟨root, rest⟩, -, h⟩ := liftResult_bind_ok.mp h
    obtain ⟨st, hst, h⟩ := lookup_bind_ok.mp h
    cases st with
    | input slot ty =>
        cases h
        exact .instr (.input (.inr rfl) hst)
    | _ => exact absurd h failWith_ok
  · exact absurd h failWith_ok

/-! ## Calls -/

/-- Every successful run of the action grows the emitter. -/
structure Whole {α : Type} (m : EmitM α) : Prop where
  grows : ∀ {g a g'}, m g = .ok a g' → ∃ T, Grows T g g'

/-- What holds of every argument holds of every input that got one. -/
theorem bindArgs_forall {α : Type} {P : α → Prop} {names : List String} {inputs : List (Arg α)}
    {pos : ℕ} {args args' : List (Option α)} (h : bindArgs names inputs pos args = .ok args')
    (hin : ∀ a ∈ inputs, P a.value) (hargs : ∀ m, some m ∈ args → P m) :
    ∀ m, some m ∈ args' → P m := by
  induction inputs generalizing pos args with
  | nil =>
      cases h
      exact hargs
  | cons a rest ih =>
      have hrest : ∀ b ∈ rest, P b.value := fun b hb => hin b (List.mem_cons_of_mem _ hb)
      have hset : ∀ idx m, some m ∈ args.set idx (some a.value) → P m := by
        intro idx m hm
        rcases List.mem_or_eq_of_mem_set hm with hm | hm
        · exact hargs m hm
        · cases hm
          exact hin a List.mem_cons_self
      unfold bindArgs at h
      split at h
      · split_ifs at h
        · cases h
        · exact ih h hrest (hset _)
      · split_ifs at h
        · exact ih h hrest hargs
        · cases h
        · split at h
          · cases h
          · exact ih h hrest (hset _)

theorem grows_emitArgs {names : List String} {args : List (Option (EmitM IrType))} {u : Unit}
    (hargs : ∀ m, some m ∈ args → Whole m) (h : emitArgs names args g = .ok u g') :
    ∃ T, Grows T g g' := by
  induction names generalizing args g with
  | nil =>
      cases h
      exact ⟨[], .refl _⟩
  | cons name names ih =>
      rcases args with _ | ⟨_ | arg, args⟩
      · cases h
        exact ⟨[], .refl _⟩
      · exact absurd h failWith_ok
      · obtain ⟨t, g₁, h₁, h⟩ := estate_bind_ok.mp h
        obtain ⟨T₁, e₁⟩ := (hargs arg List.mem_cons_self).grows h₁
        obtain ⟨T₂, e₂⟩ := ih (fun m hm => hargs m (List.mem_cons_of_mem _ hm)) h
        exact ⟨T₁ ++ T₂, e₁.trans e₂⟩

/-- Storing the outputs of a primitive always succeeds. -/
theorem forM_stData_eq (outs : List (String × ℕ × IrType)) :
    (outs.forM fun o => emitSimple .stData o.2.1) g =
      .ok () (g.adds (outs.map fun o => .simple .stData o.2.1)) := by
  induction outs generalizing g with
  | nil => simp [List.forM_eq_forM]
  | cons o outs ih =>
      rw [List.forM_eq_forM, List.forM_cons]
      rw [List.forM_eq_forM] at ih
      simp only [emitSimple, emit, append_bind]
      simp only [emitSimple, emit] at ih
      simp [ih]

/-- The operands of these stores are the outputs. -/
theorem sourced_stores {T : Temps} {outs : List (String × ℕ × IrType)}
    (h : ∀ o ∈ outs, Origin T g (.simple .stData o.2.1)) :
    Sourced T g (outs.map fun o => .simple .stData o.2.1) := by
  induction outs with
  | nil => exact .nil
  | cons o outs ih =>
      exact .instr (h o List.mem_cons_self) (ih fun o' ho => h o' (List.mem_cons_of_mem _ ho))

section PrimCall

variable {n : String} {id : PrimitiveId} {inst : ℕ} {outs : List (String × ℕ × IrType)}

theorem grows_emitPrimOuts {os : List CallOut} {u : Unit} (hst : g.look n = some (.prim id inst outs))
    (h : emitPrimOuts outs os g = .ok u g') : Grows [] g g' := by
  induction os generalizing g with
  | nil =>
      cases h
      exact .refl _
  | cons o rest ih =>
      unfold emitPrimOuts at h
      split_ifs at h
      · exact ih hst h
      · obtain ⟨⟨_, off, _⟩, ho, h⟩ := liftResult_bind_ok.mp h
        simp only [emitSimple, emit, append_bind] at h
        obtain ⟨⟨⟩, g₁, h₁, h⟩ := estate_bind_ok.mp h
        have hmem := findOutput_mem (orReject_ok.mp ho)
        have e₀ : Grows [] g _ := .instr (.out (.inl rfl) hst hmem)
        have e₁ := grows_emitStore h₁
        have e₂ := ih (e₁.look (e₀.look hst)) h
        exact (e₀.trans e₁).trans e₂

theorem grows_emitPrimCall {inputs : List ArgCode} {os : List CallOut} {u : Unit}
    (hst : g.look n = some (.prim id inst outs)) (hin : ∀ a ∈ inputs, Whole a.value)
    (h : emitPrimCall id inst outs inputs os g = .ok u g') : ∃ T, Grows T g g' := by
  unfold emitPrimCall at h
  obtain ⟨args, hbind, h⟩ := liftResult_bind_ok.mp h
  obtain ⟨⟨⟩, g₁, h₁, h⟩ := estate_bind_ok.mp h
  simp only [emit, append_bind] at h
  rw [estate_bind_of_ok (forM_stData_eq outs)] at h
  obtain ⟨T, e₁⟩ := grows_emitArgs (bindArgs_forall hbind hin fun m hm => by simp at hm) h₁
  have hst₁ := e₁.look hst
  have e₂ : Grows [] g₁ _ := .instr (.prim hst₁)
  have e₃ : Grows [] (g₁.adds [.instr (.callFb 0 id.toU32 inst)])
      ((g₁.adds [.instr (.callFb 0 id.toU32 inst)]).adds
        (outs.map fun o => .simple .stData o.2.1)) := by
    refine ((Grows.refl _).more _ ?_).grows fun l => ?_
    · exact sourced_stores fun o ho => .out (.inr rfl) (e₂.look hst₁) ho
    · rw [Pi.add_apply, labelRange_map_instr]
      exact le_refl _
  have e₄ := grows_emitPrimOuts (e₃.look (e₂.look hst₁)) h
  exact ⟨_, ((e₁.trans e₂).trans e₃).trans e₄⟩

end PrimCall

section UserCall

variable {n fb : String} {base : ℕ} {l : UserFbLayout}

theorem grows_emitPositional {inputs : List ArgCode} {pos : ℕ}
    {named named' : List (String × EmitM IrType)} (hst : g.look n = some (.userInst fb base))
    (hl : g.fbLayouts.lookup (lower fb) = some l) (hin : ∀ a ∈ inputs, Whole a.value)
    (hnamed : ∀ a ∈ named, Whole a.2)
    (h : emitPositional l base inputs pos named g = .ok named' g') :
    (∀ a ∈ named', Whole a.2) ∧ ∃ T, Grows T g g' := by
  induction inputs generalizing g pos named with
  | nil =>
      cases h
      exact ⟨hnamed, [], .refl _⟩
  | cons a rest ih =>
      have hrest : ∀ b ∈ rest, Whole b.value := fun b hb => hin b (List.mem_cons_of_mem _ hb)
      unfold emitPositional at h
      rcases hname : a.name with _ | name
      · simp only [hname] at h
        rcases hpos : l.inputs[pos]? with _ | field
        · simp [hpos] at h
        · simp only [hpos] at h
          rcases hf : l.field field with _ | f
          · simp [hf] at h
          · simp only [hf] at h
            obtain ⟨t, g₁, h₁, h⟩ := estate_bind_ok.mp h
            replace h := fieldOffset_bind_ok h
            simp only [emitSimple, emit, append_bind] at h
            obtain ⟨T₁, e₁⟩ := (hin a List.mem_cons_self).grows h₁
            have hl₁ : g₁.fbLayouts.lookup (lower fb) = some l := e₁.fbLayouts ▸ hl
            have e₂ : Grows [] g₁ (g₁.adds [.simple .stData (base + f.offset)]) :=
              .instr (.field (.inr rfl) (e₁.look hst) hl₁ (field_mem hf))
            obtain ⟨hnamed', T₃, e₃⟩ := ih (e₂.look (e₁.look hst)) hl₁ hrest hnamed h
            exact ⟨hnamed', _, (e₁.trans e₂).trans e₃⟩
      · simp only [hname] at h
        split_ifs at h
        · exact ih hst hl hrest hnamed h
        · refine ih hst hl hrest ?_ h
          intro b hb
          rcases List.mem_append.mp hb with hb | hb
          · exact hnamed b (List.mem_of_mem_filter hb)
          · cases List.mem_singleton.mp hb
            exact hin a List.mem_cons_self

theorem grows_emitNamed {named : List (String × EmitM IrType)} {u : Unit}
    (hst : g.look n = some (.userInst fb base)) (hl : g.fbLayouts.lookup (lower fb) = some l)
    (hnamed : ∀ a ∈ named, Whole a.2) (h : emitNamed l base named g = .ok u g') :
    ∃ T, Grows T g g' := by
  induction named generalizing g with
  | nil =>
      cases h
      exact ⟨[], .refl _⟩
  | cons a rest ih =>
      obtain ⟨fname, value⟩ := a
      unfold emitNamed at h
      obtain ⟨f, hf, h⟩ := liftResult_bind_ok.mp h
      obtain ⟨t, g₁, h₁, h⟩ := estate_bind_ok.mp h
      obtain ⟨⟨⟩, g₂, h₂, h⟩ := estate_bind_ok.mp h
      obtain ⟨T₁, e₁⟩ := (hnamed _ List.mem_cons_self).grows h₁
      have hl₁ : g₁.fbLayouts.lookup (lower fb) = some l := e₁.fbLayouts ▸ hl
      have e₂ := grows_emitStoreField (e₁.look hst) hl₁ (field_mem (orReject_ok.mp hf)) h₂
      obtain ⟨T₃, e₃⟩ := ih (e₂.look (e₁.look hst)) (e₂.fbLayouts ▸ hl₁)
        (fun b hb => hnamed b (List.mem_cons_of_mem _ hb)) h
      exact ⟨_, (e₁.trans e₂).trans e₃⟩

theorem grows_emitUserOuts {os : List CallOut} {u : Unit}
    (hst : g.look n = some (.userInst fb base)) (hl : g.fbLayouts.lookup (lower fb) = some l)
    (h : emitUserOuts l base os g = .ok u g') : Grows [] g g' := by
  induction os generalizing g with
  | nil =>
      cases h
      exact .refl _
  | cons o rest ih =>
      unfold emitUserOuts at h
      obtain ⟨f, hf, h⟩ := liftResult_bind_ok.mp h
      obtain ⟨⟨⟩, g₁, h₁, h⟩ := estate_bind_ok.mp h
      obtain ⟨⟨⟩, g₂, h₂, h⟩ := estate_bind_ok.mp h
      have e₁ := grows_emitLoadField hst hl (field_mem (orReject_ok.mp hf)) h₁
      have e₂ := grows_emitStore h₂
      have e₃ := ih ((e₁.trans e₂).look hst) ((e₁.trans e₂).fbLayouts ▸ hl) h
      exact (e₁.trans e₂).trans e₃

theorem grows_emitUserCall {inputs : List ArgCode} {os : List CallOut} {u : Unit}
    (hst : g.look n = some (.userInst fb base)) (hin : ∀ a ∈ inputs, Whole a.value)
    (h : emitUserCall order fb base inputs os g = .ok u g') : ∃ T, Grows T g g' := by
  unfold emitUserCall at h
  obtain ⟨o, g₁, ho, h⟩ := estate_bind_ok.mp h
  cases ho
  rcases hl : g.fbLayouts.lookup (lower fb) with _ | l
  · simp [hl] at h
  · simp only [hl] at h
    rw [estate_bind_of_ok (estate_get _)] at h
    obtain ⟨named, g₁, h₁, h⟩ := estate_bind_ok.mp h
    obtain ⟨⟨⟩, g₂, h₂, h⟩ := estate_bind_ok.mp h
    rw [estate_bind_of_ok (estate_get _)] at h
    simp only [emit, append_bind] at h
    obtain ⟨hnamed, T₁, e₁⟩ := grows_emitPositional hst hl hin (by simp) h₁
    have hl₁ : g₁.fbLayouts.lookup (lower fb) = some l := e₁.fbLayouts ▸ hl
    obtain ⟨T₂, e₂⟩ := grows_emitNamed (e₁.look hst) hl₁
      (fun a ha => hnamed a ((order.named_perm _ _).mem_iff.mp ha)) h₂
    have hst₂ := e₂.look (e₁.look hst)
    have hl₂ : g₂.fbLayouts.lookup (lower fb) = some l := e₂.fbLayouts ▸ hl₁
    have e₃ : Grows [] g₂ (g₂.adds [.instr (.callFb 1 (userFbId g₂.entries l.entryName) base)]) :=
      .instr (.user hst₂ hl₂)
    have e₄ := grows_emitUserOuts (e₃.look hst₂) hl₂ h
    exact ⟨_, ((e₁.trans e₂).trans e₃).trans e₄⟩

end UserCall

theorem grows_emitFbCall {callee : List PathSeg} {inputs : List ArgCode} {os : List CallOut}
    {u : Unit} (hin : ∀ a ∈ inputs, Whole a.value)
    (h : emitFbCall order callee inputs os g = .ok u g') : ∃ T, Grows T g g' := by
  unfold emitFbCall at h
  split at h
  · obtain ⟨st, hst, h⟩ := lookup_bind_ok.mp h
    cases st with
    | prim id inst outs => exact grows_emitPrimCall hst hin h
    | userInst fb base => exact grows_emitUserCall hst hin h
    | _ => exact absurd h failWith_ok
  · exact absurd h failWith_ok

/-! ## Expressions -/

theorem grows_emitShortCircuit {left right : EmitM IrType} {skip : Opcode} {kind : LabelKind}
    {decided : ℕ} {t : IrType} (hleft : Whole left) (hright : Whole right) (hd : decided ≤ 1)
    (hskip : Opcode.isJump skip = true)
    (h : emitShortCircuit left right skip kind decided g = .ok t g') : ∃ T, Grows T g g' := by
  obtain ⟨g₁, tmp, g₂, u, g₃, h₁, h₂, h₃, -, rfl⟩ := emitShortCircuit_ok h
  obtain ⟨T₁, e₁⟩ := hleft.grows h₁
  have e₂ := Grows.temp h₂
  obtain ⟨T₃, e₃⟩ := hright.grows h₃
  have a := (((Grown.bump g).comp e₁).comp (.bump g₁)).comp e₂
  have b := (a.more
    [.simple .stData tmp, .simple .ldData tmp, .jump skip ⟨kind, g₁.labelId⟩]
    (.instr (.temp (t := .bool) (.inr rfl) (by simp))
      (.instr (.temp (t := .bool) (.inl rfl) (by simp)) (.jump hskip .nil)))).comp e₃
  have c := b.more
    [.jump .jmp ⟨.scEnd, g.labelId⟩, .label ⟨kind, g₁.labelId⟩, .simple .pushIBool decided,
      .label ⟨.scEnd, g.labelId⟩]
    (.jump rfl (.label (.instr (.bool _ hd) (.label .nil))))
  refine ⟨_, c.grows fun l => ?_⟩
  have l₁ := e₁.labelId
  have l₂ := e₂.labelId
  have l₃ := e₃.labelId
  simp only [Codegen.bump_labelId, Codegen.adds_labelId] at l₁ l₂ l₃
  have r₁ := inRange_add (Nat.le_succ g.labelId) l₁ l
  have r₂ := inRange_add (Nat.le_succ g₁.labelId) l₂ l
  have r₃ := inRange_add (a := g.labelId) (b := g₁.labelId) (c := g₂.labelId) (by omega) (by omega) l
  have r₄ := inRange_add (a := g.labelId) (b := g₂.labelId) (c := g₃.labelId) (by omega) (by omega) l
  simp only [Pi.add_apply, Pi.zero_apply, labelRange, Codegen.bump_labelId, Codegen.adds_labelId,
    Nat.succ_eq_add_one] at *
  omega

theorem isOperator_of_binaryOpcode {op : BinaryOp} {code : Opcode}
    (h : binaryOpcode op = some code) : isOperator code = true := by
  cases op <;> cases h <;> rfl

theorem grows_emitBinary {op : BinaryOp} {left right : EmitM IrType} {t : IrType}
    (hleft : Whole left) (hright : Whole right) (h : emitBinary op left right g = .ok t g') :
    ∃ T, Grows T g g' := by
  obtain ⟨lt, g₁, rt, g₂, code, h₁, h₂, hcode, -, -, rfl⟩ := emitBinary_ok h
  obtain ⟨T₁, e₁⟩ := hleft.grows h₁
  obtain ⟨T₂, e₂⟩ := hright.grows h₂
  exact ⟨_, (e₁.trans e₂).trans (.instr (.operator code (isOperator_of_binaryOpcode hcode)))⟩

mutual

theorem whole_emitExpr (order : HashOrder) : (e : Expr) → Whole (emitExpr order e)
  | .literal value => by
      rw [emitExpr]
      exact ⟨fun h => ⟨[], grows_emitLiteral h⟩⟩
  | .qGood expr => by
      rw [emitExpr]
      exact ⟨fun h => ⟨[], grows_emitQGood h⟩⟩
  | .unary op expr => by
      refine ⟨fun h => ?_⟩
      obtain ⟨u, g₁, h₁, hop⟩ := emitExpr_unary_ok h
      obtain ⟨T, e⟩ := (whole_emitExpr order expr).grows h₁
      rcases hop with ⟨-, -, rfl⟩ | ⟨-, -, rfl⟩
      · exact ⟨_, e.trans (.instr (.operator .not rfl))⟩
      · exact ⟨_, e.trans (.instr (.operator .neg rfl))⟩
  | .binary op left right => by
      have hleft := whole_emitExpr order left
      have hright := whole_emitExpr order right
      refine ⟨fun h => ?_⟩
      rw [emitExpr_binary] at h
      split at h
      · exact grows_emitShortCircuit hleft hright (by omega) rfl h
      · exact grows_emitShortCircuit hleft hright (by omega) rfl h
      · exact grows_emitBinary hleft hright h
  | .name path => by
      rw [emitExpr]
      exact ⟨fun h => ⟨[], grows_emitLoadPath h⟩⟩
  | .fbCall call => ⟨fun h => absurd h emitExpr_fbCall_ne_ok⟩

theorem whole_argCodes (order : HashOrder) :
    (args : List CallArg) → ∀ a ∈ argCodes order args, Whole a.value
  | [] => by simp [argCodes]
  | .positional value :: rest => by
      intro a ha
      rw [argCodes] at ha
      rcases List.mem_cons.mp ha with rfl | ha
      · exact whole_emitExpr order value
      · exact whole_argCodes order rest a ha
  | .named name value :: rest => by
      intro a ha
      rw [argCodes] at ha
      rcases List.mem_cons.mp ha with rfl | ha
      · exact whole_emitExpr order value
      · exact whole_argCodes order rest a ha

end

/-! ## Statements -/

theorem labelRange_labelTests (tmp : ℕ) (bodyL nextL : Label) (labels : List ℤ) (l : Label) :
    labelRange (labelTests tmp bodyL nextL labels) l = 0 := by
  induction labels with
  | nil => rfl
  | cons lab rest ih =>
      rw [labelTests, labelRange_append, ih]
      split_ifs <;> rfl

section Sourced

variable {T : Temps} {t : IrType}

theorem sourced_counterTest {counter : ℕ} (h : (counter, t) ∈ T) (endL : Label) :
    Sourced T g (counterTest counter endL) :=
  .instr (.temp (.inl rfl) h) (.instr (.imm _ _ rfl) (.instr (.operator _ rfl) (.jump rfl .nil)))

theorem sourced_counterNext {counter : ℕ} (h : (counter, t) ∈ T) (head : Label) :
    Sourced T g (counterNext counter head) :=
  .instr (.temp (.inl rfl) h) (.instr (.imm _ _ rfl) (.instr (.operator _ rfl)
    (.instr (.temp (.inr rfl) h) (.jump rfl .nil))))

theorem sourced_boundTest {n : String} {varOff toTmp : ℕ} {ty : TypeDef}
    (hvar : g.look n = some (.data varOff ty)) (h : (toTmp, t) ∈ T) (endL : Label) :
    Sourced T g (boundTest varOff toTmp endL) :=
  .instr (.data (.inl rfl) hvar) (.instr (.temp (.inl rfl) h) (.instr (.operator _ rfl)
    (.jump rfl .nil)))

theorem sourced_stepNext {n : String} {varOff byTmp : ℕ} {ty : TypeDef}
    (hvar : g.look n = some (.data varOff ty)) (h : (byTmp, t) ∈ T) :
    Sourced T g (stepNext varOff byTmp) :=
  .instr (.data (.inl rfl) hvar) (.instr (.temp (.inl rfl) h) (.instr (.operator _ rfl)
    (.instr (.data (.inr rfl) hvar) .nil)))

theorem sourced_labelTests {tmp : ℕ} (h : (tmp, t) ∈ T) (bodyL nextL : Label) (labels : List ℤ) :
    Sourced T g (labelTests tmp bodyL nextL labels) := by
  induction labels with
  | nil => exact .nil
  | cons lab rest ih =>
      rw [labelTests]
      refine .instr (.temp (.inl rfl) h) (.instr (.imm _ _ rfl) (.instr (.operator _ rfl) ?_))
      split_ifs
      · exact .jump rfl ih
      · exact .jump rfl ih

theorem sourced_branchEnd (more : Bool) (endL : Label) : Sourced T g (branchEnd more endL) := by
  cases more
  · exact .nil
  · exact .jump rfl .nil

end Sourced

theorem labelRange_branchEnd (more : Bool) (endL l : Label) :
    labelRange (branchEnd more endL) l = 0 := by
  cases more <;> rfl

/-- What a `FOR` variable is: a data variable in scope, or a temporary under a new name. -/
theorem forVariable_ok {var : String} {off : ℕ} (h : forVariable var g = .ok off g') :
    (∃ ty, g.look (lower var) = some (.data off ty) ∧ g' = g) ∨
      (g.look (lower var) = none ∧ ∃ g₁, allocTemp .dint g = .ok off g₁ ∧
        g' = { g₁ with locals := (lower var, .data off (.elem .dint)) :: g₁.locals }) := by
  have hsym : g.symbol var = g.look (lower var) := rfl
  unfold forVariable at h
  rw [estate_bind_of_ok (estate_get _), hsym] at h
  rcases hlook : g.look (lower var) with _ | st
  · simp only [hlook] at h
    obtain ⟨off', g₁, htmp, h⟩ := estate_bind_ok.mp h
    rw [estate_bind_of_ok (estate_get _), estate_bind_of_ok (estate_set _ _)] at h
    cases h
    exact .inr ⟨rfl, g₁, htmp, rfl⟩
  · cases st with
    | data offset ty =>
        simp only [hlook] at h
        cases h
        exact .inl ⟨ty, rfl, rfl⟩
    | _ =>
        simp only [hlook] at h
        exact absurd h failWith_ok

/-- The emitter with a name bound to a temporary. -/
def Codegen.local (g : Codegen) (n : String) (off : ℕ) : Codegen :=
  { g with locals := (n, .data off (.elem .dint)) :: g.locals }

theorem look_local {n m : String} {off : ℕ} :
    (g.local n off).look m = if m = n then some (.data off (.elem .dint)) else g.look m := by
  unfold Codegen.local Codegen.look
  rw [List.lookup_cons]
  by_cases h : m = n
  · simp [h]
  · simp [h, beq_false_of_ne h]

/-- Binding a new name to a new temporary. -/
theorem Ext.local {n : String} {off : ℕ} (hnone : g.look n = none)
    (h : allocTemp .dint g = .ok off g') : Ext g (g'.local n off) := by
  have e := Ext.temp h
  have hoff := (allocTemp_ok h).1
  have htop : g'.top = off + 4 := top_of_allocTemp h
  have hlook' : g'.look = g.look := by
    obtain ⟨-, rfl⟩ := allocTemp_ok h
    rfl
  have hcases : ∀ {m st}, (g'.local n off).look m = some st →
      (m = n ∧ st = .data off (.elem .dint)) ∨ (m ≠ n ∧ g.look m = some st) := by
    intro m st hm
    rw [look_local, hlook'] at hm
    split_ifs at hm with hmn
    · cases hm
      exact .inl ⟨hmn, rfl⟩
    · exact .inr ⟨hmn, hm⟩
  refine ⟨e.items, e.labelId, e.globals, e.fbLayouts, e.entries, e.extraRetain, e.extraData,
    ?_, ?_, ?_⟩
  · intro m st hm
    rw [look_local, hlook', if_neg]
    · exact hm
    · rintro rfl
      rw [hnone] at hm
      cases hm
  · intro m st hm
    rcases hcases hm with ⟨rfl, rfl⟩ | ⟨-, hm⟩
    · exact .inr ⟨hnone, off, rfl, hoff, htop.ge⟩
    · exact .inl hm
  · intro hap
    have hcell : ∀ {k o t}, (Storage.data off (.elem .dint)).cell k = some (o, t) →
        k = 0 ∧ o = off ∧ t = .dint := by
      intro k o t hk
      rcases k with _ | k
      · cases hk
        exact ⟨rfl, rfl, rfl⟩
      · cases hk
    -- The new cell starts at the old top, where every other cell has ended.
    have hold : ∀ {m st k o t}, g.look m = some st → st.cell k = some (o, t) →
        o + t.byteWidth ≤ off := fun h₁ h₂ => (hap.below h₁ h₂).trans hoff
    refine ⟨?_, ?_⟩
    · intro m st k o t hm hk
      show _ ≤ g'.top
      rcases hcases hm with ⟨-, rfl⟩ | ⟨-, hm⟩
      · obtain ⟨-, rfl, rfl⟩ := hcell hk
        exact htop.ge
      · exact (hap.below hm hk).trans e.top
    · intro m st k o t m' st' k' o' t' hm hk hm' hk' hne
      rcases hcases hm with ⟨hmn, hst⟩ | ⟨-, hold₁⟩
      · obtain ⟨hk₀, ho, -⟩ := hcell (hst ▸ hk)
        rcases hcases hm' with ⟨hmn', hst'⟩ | ⟨-, hold₂⟩
        · obtain ⟨hk₀', -, -⟩ := hcell (hst' ▸ hk')
          simp [hmn, hmn', hk₀, hk₀'] at hne
        · exact .inr (ho ▸ hold hold₂ hk')
      · rcases hcases hm' with ⟨-, hst'⟩ | ⟨-, hold₂⟩
        · obtain ⟨-, ho', -⟩ := hcell (hst' ▸ hk')
          exact .inl (ho' ▸ hold hold₁ hk)
        · exact hap.disjoint hold₁ hk hold₂ hk' hne

/-- The variable of a `FOR` is a symbol in scope afterwards. -/
theorem grows_forVariable {var : String} {off : ℕ} (h : forVariable var g = .ok off g') :
    (∃ T, Grows T g g') ∧ ∃ ty, g'.look (lower var) = some (.data off ty) := by
  rcases forVariable_ok h with ⟨ty, hlook, rfl⟩ | ⟨hnone, g₁, htmp, rfl⟩
  · exact ⟨⟨[], .refl _⟩, ty, hlook⟩
  · refine ⟨⟨[(off, .dint)], .local hnone htmp, (Grows.temp htmp).placed, (Grows.temp htmp).temps,
      ?_, ?_⟩, .elem .dint, ?_⟩
    · obtain ⟨-, rfl⟩ := allocTemp_ok htmp
      exact fun i hi => .inl hi
    · obtain ⟨-, rfl⟩ := allocTemp_ok htmp
      exact fun op l hl => .inl hl
    · exact (look_local (g := g₁)).trans (if_pos rfl)

theorem whole_emitStep (order : HashOrder) : (step : Option Expr) → Whole (emitStep order step)
  | some b => by
      refine ⟨fun h => ?_⟩
      rw [emitStep] at h
      obtain ⟨t, g₁, h₁, h⟩ := estate_bind_ok.mp h
      cases h
      exact (whole_emitExpr order b).grows h₁
  | none => by
      refine ⟨fun h => ⟨[], ?_⟩⟩
      obtain rfl := append_ok.mp h
      exact .instr (.imm .pushIDint _ rfl)

mutual

theorem whole_emitStmt (order : HashOrder) : (s : Stmt) → Whole (emitStmt order s)
  | .empty => by
      refine ⟨fun h => ⟨[], ?_⟩⟩
      rw [emitStmt] at h
      cases h
      exact .refl _
  | .return => by
      refine ⟨fun h => ⟨[], ?_⟩⟩
      rw [emitStmt] at h
      obtain rfl := append_ok.mp h
      exact .instr (.operator .ret rfl)
  | .assign lhs rhs => by
      refine ⟨fun h => ?_⟩
      rw [emitStmt] at h
      obtain ⟨t, g₁, h₁, h⟩ := estate_bind_ok.mp h
      obtain ⟨T, e⟩ := (whole_emitExpr order rhs).grows h₁
      exact ⟨_, e.trans (grows_emitStore h)⟩
  | .fbCall call => by
      rw [emitStmt]
      exact ⟨fun h => grows_emitFbCall (whole_argCodes order call.inputs) h⟩
  | .ifs branches elseBody => by
      refine ⟨fun {g _ _} h => ?_⟩
      obtain ⟨g₁, g₂, h₁, h₂, rfl⟩ := emitStmt_ifs_ok h
      obtain ⟨T₁, e₁⟩ := (whole_emitBranches order branches _ _).grows h₁
      obtain ⟨T₂, e₂⟩ := (whole_emitElse order elseBody).grows h₂
      have a := ((Grown.bump g).comp (Grown.comp e₁ e₂)).more [.label ⟨.ifEnd, g.labelId⟩]
        (.label .nil)
      refine ⟨_, a.grows fun l => ?_⟩
      have r₁ := inRange_add e₁.labelId e₂.labelId l
      have r₂ := inRange_add (Nat.le_succ g.labelId) (e₁.labelId.trans e₂.labelId) l
      simp only [Pi.add_apply, Pi.zero_apply, labelRange, Codegen.bump_labelId,
        Codegen.adds_labelId, Nat.succ_eq_add_one] at *
      omega
  | .case selector arms elseBody => by
      refine ⟨fun {g _ _} h => ?_⟩
      obtain ⟨t, g₁, tmp, g₂, g₃, g₄, h₁, -, h₂, h₃, h₄, rfl⟩ := emitStmt_case_ok h
      obtain ⟨T₁, e₁⟩ := (whole_emitExpr order selector).grows h₁
      have e₂ := Grows.temp h₂
      have a := ((Grown.comp e₁ e₂).more [.simple .stData tmp]
        (.instr (.temp (t := t) (.inr rfl) (by simp)) .nil)).comp (.bump _)
      obtain ⟨l₃, T₃, e₃⟩ := grows_emitArms order arms (t := t) a (by simp) h₃
      obtain ⟨T₄, e₄⟩ := (whole_emitElse order elseBody).grows h₄
      have b := (e₃.comp e₄).more [.label ⟨.caseEnd, g₂.labelId⟩] (.label .nil)
      refine ⟨_, b.grows fun l => ?_⟩
      have l₁ := e₁.labelId
      have l₂ := e₂.labelId
      have l₄ := e₄.labelId
      simp only [Codegen.bump_labelId, Codegen.adds_labelId] at l₁ l₂ l₃ l₄
      have r₁ := inRange_add l₁ l₂ l
      have r₂ := inRange_add (Nat.le_succ g₂.labelId) l₃ l
      have r₃ := inRange_add ((Nat.le_succ g₂.labelId).trans l₃) l₄ l
      have r₄ := inRange_add (l₁.trans l₂) (((Nat.le_succ g₂.labelId).trans l₃).trans l₄) l
      simp only [Pi.add_apply, Pi.zero_apply, labelRange, Codegen.bump_labelId,
        Codegen.adds_labelId, Nat.succ_eq_add_one] at *
      omega
  | .while cond maxIter body => by
      refine ⟨fun {g _ _} h => ?_⟩
      obtain ⟨max, counter, g₁, g₂, g₃, -, h₁, h₂, h₃, rfl⟩ := emitStmt_while_ok h
      have e₁ := Grows.temp h₁
      obtain ⟨T₂, e₂⟩ := (whole_emitExpr order cond).grows h₂
      obtain ⟨T₃, e₃⟩ := (whole_emitStmts order body).grows h₃
      have a := ((Grown.more e₁ [.dint max, .simple .stData counter]
        (.instr (.imm _ _ rfl) (.instr (.temp (t := .dint) (.inr rfl) (by simp)) .nil))).comp
        (.bump _)).comp (.bump _)
      have b := (a.more
        (.label ⟨.whHead, g₁.labelId⟩ :: counterTest counter ⟨.whEnd, g₁.labelId + 1⟩)
        (.label (sourced_counterTest (t := .dint) (by simp) _))).comp e₂
      have c := (b.more [.jump .jmpIfNot ⟨.whEnd, g₁.labelId + 1⟩] (.jump rfl .nil)).comp e₃
      have d := c.more
        (counterNext counter ⟨.whHead, g₁.labelId⟩ ++ [.label ⟨.whEnd, g₁.labelId + 1⟩])
        ((sourced_counterNext (t := .dint) (by simp) _).append (.label .nil))
      refine ⟨_, d.grows fun l => ?_⟩
      have l₁ := e₁.labelId
      have l₂ := e₂.labelId
      have l₃ := e₃.labelId
      simp only [Codegen.bump_labelId, Codegen.adds_labelId] at l₂ l₃
      have r₁ := inRange_add (Nat.le_succ g₁.labelId) (Nat.le_succ (g₁.labelId + 1)) l
      have r₂ := inRange_add (a := g₁.labelId) (by omega) l₂ l
      have r₃ := inRange_add (a := g₁.labelId) (by omega) l₃ l
      have r₄ := inRange_add (c := g₃.labelId) l₁ (by omega) l
      simp only [Pi.add_apply, Pi.zero_apply, labelRange, labelRange_append, counterTest,
        counterNext, Codegen.bump_labelId, Codegen.adds_labelId, Nat.succ_eq_add_one] at *
      omega
  | .for var first last step maxIter body => by
      refine ⟨fun {g _ _} h => ?_⟩
      obtain ⟨max, varOff, g₁, t₂, g₂, toTmp, g₃, t₄, g₄, byTmp, g₅, g₆, counter, g₇, g₈, -, h₁, h₂,
        h₃, h₄, h₅, h₆, h₇, h₈, rfl⟩ := emitStmt_for_ok h
      obtain ⟨⟨T₁, e₁⟩, ty, hvar⟩ := grows_forVariable h₁
      obtain ⟨T₂, e₂⟩ := (whole_emitExpr order first).grows h₂
      have e₃ := Grows.temp h₃
      obtain ⟨T₄, e₄⟩ := (whole_emitExpr order last).grows h₄
      have e₅ := Grows.temp h₅
      obtain ⟨T₆, e₆⟩ := (whole_emitStep order step).grows h₆
      have e₇ := Grows.temp h₇
      obtain ⟨T₈, e₈⟩ := (whole_emitStmts order body).grows h₈
      have hvar₂ := e₂.look hvar
      have hvar₇ := e₇.look (e₆.look (e₅.look (e₄.look (e₃.look hvar₂))))
      have a := ((Grown.comp e₁ e₂).more [.simple .stData varOff]
        (.instr (.data (.inr rfl) hvar₂) .nil)).comp e₃
      have b := ((a.comp e₄).more [.simple .stData toTmp]
        (.instr (.temp (t := .dint) (.inr rfl) (by simp)) .nil)).comp e₅
      have c := ((b.comp e₆).more [.simple .stData byTmp]
        (.instr (.temp (t := .dint) (.inr rfl) (by simp)) .nil)).comp e₇
      have d := ((c.more [.dint max, .simple .stData counter]
        (.instr (.imm _ _ rfl) (.instr (.temp (t := .dint) (.inr rfl) (by simp)) .nil))).comp
        (.bump _)).comp (.bump _)
      have e := (d.more
        (.label ⟨.forHead, g₇.labelId⟩ :: (counterTest counter ⟨.forEnd, g₇.labelId + 1⟩ ++
          boundTest varOff toTmp ⟨.forEnd, g₇.labelId + 1⟩))
        (.label ((sourced_counterTest (t := .dint) (by simp) _).append
          (sourced_boundTest (t := .dint) (by exact hvar₇) (by simp) _)))).comp e₈
      have f := e.more
        (stepNext varOff byTmp ++
          (counterNext counter ⟨.forHead, g₇.labelId⟩ ++ [.label ⟨.forEnd, g₇.labelId + 1⟩]))
        ((sourced_stepNext (t := .dint) (e₈.look hvar₇) (by simp)).append
          ((sourced_counterNext (t := .dint) (by simp) _).append (.label .nil)))
      refine ⟨_, f.grows fun l => ?_⟩
      have l₁ := e₁.labelId
      have l₂ := e₂.labelId
      have l₃ := e₃.labelId
      have l₄ := e₄.labelId
      have l₅ := e₅.labelId
      have l₆ := e₆.labelId
      have l₇ := e₇.labelId
      have l₈ := e₈.labelId
      simp only [Codegen.bump_labelId, Codegen.adds_labelId] at l₃ l₅ l₇ l₈
      have r₁ := inRange_add l₁ l₂ l
      have r₂ := inRange_add (a := g.labelId) (by omega) l₃ l
      have r₃ := inRange_add (a := g.labelId) (by omega) l₄ l
      have r₄ := inRange_add (a := g.labelId) (by omega) l₅ l
      have r₅ := inRange_add (a := g.labelId) (by omega) l₆ l
      have r₆ := inRange_add (a := g.labelId) (by omega) l₇ l
      have r₇ := inRange_add (Nat.le_succ g₇.labelId) (Nat.le_succ (g₇.labelId + 1)) l
      have r₈ := inRange_add (a := g₇.labelId) (by omega) l₈ l
      have r₉ := inRange_add (a := g.labelId) (b := g₇.labelId) (c := g₈.labelId) (by omega)
        (by omega) l
      simp only [Pi.add_apply, Pi.zero_apply, labelRange, labelRange_append, counterTest,
        counterNext, boundTest, stepNext, Codegen.bump_labelId, Codegen.adds_labelId,
        Nat.succ_eq_add_one] at *
      omega

theorem whole_emitStmts (order : HashOrder) : (body : List Stmt) → Whole (emitStmts order body)
  | [] => by
      refine ⟨fun h => ⟨[], ?_⟩⟩
      rw [emitStmts] at h
      cases h
      exact .refl _
  | s :: rest => by
      refine ⟨fun h => ?_⟩
      rw [emitStmts] at h
      obtain ⟨⟨⟩, g₁, h₁, h⟩ := estate_bind_ok.mp h
      obtain ⟨T₁, e₁⟩ := (whole_emitStmt order s).grows h₁
      obtain ⟨T₂, e₂⟩ := (whole_emitStmts order rest).grows h
      exact ⟨_, e₁.trans e₂⟩

theorem whole_emitBranches (order : HashOrder) : (branches : List (Expr × List Stmt)) →
    (endL : Label) → (hasElse : Bool) → Whole (emitBranches order branches endL hasElse)
  | [], endL, hasElse => by
      refine ⟨fun h => ⟨[], ?_⟩⟩
      rw [emitBranches] at h
      cases h
      exact .refl _
  | (cond, body) :: rest, endL, hasElse => by
      refine ⟨fun {g _ _} h => ?_⟩
      obtain ⟨g₁, g₂, h₁, h₂, h₃⟩ := emitBranches_cons_ok h
      obtain ⟨T₁, e₁⟩ := (whole_emitExpr order cond).grows h₁
      obtain ⟨T₂, e₂⟩ := (whole_emitStmts order body).grows h₂
      obtain ⟨T₃, e₃⟩ := (whole_emitBranches order rest endL hasElse).grows h₃
      have a := ((((Grown.bump g).comp e₁).more [.jump .jmpIfNot ⟨.ifNext, g.labelId⟩]
        (.jump rfl .nil)).comp e₂).more
        (branchEnd (!rest.isEmpty || hasElse) endL ++ [.label ⟨.ifNext, g.labelId⟩])
        ((sourced_branchEnd _ _).append (.label .nil))
      refine ⟨_, (a.comp e₃).grows fun l => ?_⟩
      have l₁ := e₁.labelId
      have l₂ := e₂.labelId
      have l₃ := e₃.labelId
      simp only [Codegen.bump_labelId, Codegen.adds_labelId] at l₁ l₂ l₃
      have r₁ := inRange_add l₁ l₂ l
      have r₂ := inRange_add (l₁.trans l₂) l₃ l
      have r₃ := inRange_add (Nat.le_succ g.labelId) ((l₁.trans l₂).trans l₃) l
      simp only [Pi.add_apply, Pi.zero_apply, labelRange, labelRange_append, labelRange_branchEnd,
        Codegen.bump_labelId, Codegen.adds_labelId, Nat.succ_eq_add_one] at *
      omega

theorem whole_emitElse (order : HashOrder) :
    (elseBody : Option (List Stmt)) → Whole (emitElse order elseBody)
  | none => by
      refine ⟨fun h => ⟨[], ?_⟩⟩
      rw [emitElse] at h
      cases h
      exact .refl _
  | some body => by
      rw [emitElse]
      exact whole_emitStmts order body

/-- The comparisons of an arm use the temporary of the selector. -/
theorem grows_emitArms (order : HashOrder) : (arms : List CaseArm) →
    ∀ {tmp : ℕ} {t : IrType} {endL : Label} {n : Label → ℕ} {T : Temps} {g₀ g g' : Codegen}
      {u : Unit}, Grown n T g₀ g → (tmp, t) ∈ T → emitArms order arms tmp endL g = .ok u g' →
      g.labelId ≤ g'.labelId ∧ ∃ T', Grown (n + inRange g.labelId g'.labelId) T' g₀ g'
  | [], _, _, _, _, T, _, _, _, _, e, _, h => by
      rw [emitArms] at h
      cases h
      refine ⟨le_refl _, T, e.toExt, fun l => (e.placed l).trans ?_, e.temps, e.origin, e.jumps⟩
      exact Nat.add_le_add_left (Nat.le_add_right _ _) _
  | ⟨labels, body⟩ :: rest, tmp, t, endL, n, T, g₀, g, g', _, e, hT, h => by
      obtain ⟨g₁, h₁, h₂⟩ := emitArms_cons_ok h
      obtain ⟨T₁, e₁⟩ := (whole_emitStmts order body).grows h₁
      have a := ((e.comp (.bump g)).comp (.bump _)).more
        (labelTests tmp ⟨.caseBody, g.labelId⟩ ⟨.caseNext, g.labelId + 1⟩ labels ++
          [.label ⟨.caseBody, g.labelId⟩])
        ((sourced_labelTests (t := t) (by simpa using hT) _ _ _).append (.label .nil))
      have b := (a.comp e₁).more [.jump .jmp endL, .label ⟨.caseNext, g.labelId + 1⟩]
        (.jump rfl (.label .nil))
      obtain ⟨l₂, T₂, e₂⟩ := grows_emitArms order rest (t := t) b (by simp [hT]) h₂
      have l₁ := e₁.labelId
      simp only [Codegen.bump_labelId, Codegen.adds_labelId] at l₁ l₂
      refine ⟨by omega, T₂, e₂.toExt, fun l => (e₂.placed l).trans ?_, e₂.temps, e₂.origin,
        e₂.jumps⟩
      have r₁ := inRange_add (Nat.le_succ g.labelId) (Nat.le_succ (g.labelId + 1)) l
      have r₂ := inRange_add (a := g.labelId) (by omega) l₁ l
      have r₃ := inRange_add (a := g.labelId) (by omega) l₂ l
      simp only [Pi.add_apply, Pi.zero_apply, labelRange, labelRange_append, labelRange_labelTests,
        Codegen.bump_labelId, Codegen.adds_labelId, Nat.succ_eq_add_one] at *
      omega

end

end SoftPlc.Compiler
