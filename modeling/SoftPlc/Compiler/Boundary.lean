import SoftPlc.Compiler.Binding
import SoftPlc.Compiler.Growth
import SoftPlc.Vm.Calls

/-!
# Where runs of compiled code go

A pc is a boundary when an item of the code starts there. In code that `Codegen.finish` returned,
every jump and every entry goes to a boundary, so a run that starts at an entry never leaves the
boundaries (`Assembled.closed`) and executes nothing but emitted items (`Assembled.executed`).
-/

namespace SoftPlc.Compiler

open SoftPlc.Ir SoftPlc.St SoftPlc.Lib SoftPlc.Vm

variable {items : List Item} {code : List UInt8}

/-- An item starts at the pc, or the code ends there. -/
def Boundary (items : List Item) (pc : ℕ) : Prop :=
  ∃ pre post, items = pre ++ post ∧ itemsSize pre = pc

/-- Items as the emitter appends them: jumps are apart from all other instructions. -/
structure Emitted (items : List Item) : Prop where
  /-- Opcodes with their operands. -/
  shaped : ∀ i, .instr i ∈ items → i.Shaped
  /-- No jump is emitted as a plain instruction. -/
  straight : ∀ op payload, .instr (.simple op payload) ∈ items → Opcode.isJump op = false
  /-- Jumps. -/
  jumps : ∀ op l, .jump op l ∈ items → Opcode.isJump op = true

theorem Emitted.append {xs ys : List Item} (hx : Emitted xs) (hy : Emitted ys) :
    Emitted (xs ++ ys) := by
  refine ⟨?_, ?_, ?_⟩
  · intro i hi
    exact (List.mem_append.mp hi).elim (hx.shaped i) (hy.shaped i)
  · intro op payload hi
    exact (List.mem_append.mp hi).elim (hx.straight op payload) (hy.straight op payload)
  · intro op l hl
    exact (List.mem_append.mp hl).elim (hx.jumps op l) (hy.jumps op l)

/-- A pc inside the code that is a boundary has an item with bytes. -/
theorem Boundary.item {pc : ℕ} (h : Boundary items pc) (hlt : pc < itemsSize items) :
    ∃ pre item post, items = pre ++ item :: post ∧ itemsSize pre = pc ∧ ∀ l, item ≠ .label l := by
  obtain ⟨pre, post, rfl, rfl⟩ := h
  induction post generalizing pre with
  | nil =>
      rw [List.append_nil] at hlt
      exact absurd hlt (lt_irrefl _)
  | cons x post ih =>
      -- labels take no bytes: the item that starts here is the first one that is no label
      cases x with
      | instr i => exact ⟨pre, _, post, rfl, rfl, by simp⟩
      | jump op l => exact ⟨pre, _, post, rfl, rfl, by simp⟩
      | label l =>
          have heq : pre ++ .label l :: post = (pre ++ [.label l]) ++ post := by simp
          have hsize : itemsSize (pre ++ [.label l]) = itemsSize pre := by simp
          rw [heq] at hlt ⊢
          rw [← hsize] at hlt ⊢
          exact ih _ hlt

/-- The end of an item is a boundary. -/
theorem boundary_next {pre post : List Item} {item : Item} (h : items = pre ++ item :: post) :
    Boundary items (itemsSize pre + item.size) :=
  ⟨pre ++ [item], post, by simp [h], by simp⟩

/-- The pc of a label is where it was placed. -/
theorem mem_placements {l : Label} {pc at_ : ℕ} (h : (l, at_) ∈ placements pc items) :
    ∃ pre post, items = pre ++ .label l :: post ∧ at_ = (pc + itemsSize pre) % 2 ^ 32 := by
  induction items generalizing pc with
  | nil => cases h
  | cons x xs ih =>
      have hlater : (l, at_) ∈ placements (pc + x.size) xs → ∃ pre post,
          x :: xs = pre ++ .label l :: post ∧ at_ = (pc + itemsSize pre) % 2 ^ 32 := by
        intro hmem
        obtain ⟨pre, post, hxs, hat⟩ := ih hmem
        refine ⟨x :: pre, post, by simp [hxs], ?_⟩
        rw [hat, itemsSize_cons, Nat.add_assoc]
      cases x with
      | instr i => exact hlater h
      | jump op l' => exact hlater h
      | label l' =>
          rcases List.mem_append.mp h with hmem | hmem
          · exact hlater hmem
          · obtain ⟨rfl, rfl⟩ := Prod.mk.inj (List.mem_singleton.mp hmem)
            exact ⟨[], xs, rfl, by simp⟩

/-- Code of the items, with every jump to a boundary. -/
structure Assembled (items : List Item) (code : List UInt8) : Prop where
  /-- What was emitted. -/
  emitted : Emitted items
  /-- The bytes. -/
  code : ∃ labels : List (Label × ℕ), code = items.flatMap (Item.final labels) ∧
    ∀ op l, .jump op l ∈ items → Boundary items ((labels.lookup l).getD 0 % 2 ^ 24)

/-- **Finished code is assembled**, as long as it is shorter than the payload of a jump can
address. -/
theorem Codegen.finish_assembled {g : Codegen} {dataSize retainSize inputSlots outputSlots : ℕ}
    {m : IrModule} (h : g.finish dataSize retainSize inputSlots outputSlots = .ok m)
    (hem : Emitted g.items) (hsize : itemsSize g.items < 2 ^ 24) : Assembled g.items m.code := by
  unfold Codegen.finish at h
  obtain ⟨code, hpatch, h⟩ := except_bind_ok.mp h
  cases h
  obtain ⟨hcode, hjumps⟩ := @patchAll_ok _ _ [] _ hpatch
  refine ⟨hem, g.labels, hcode, ?_⟩
  intro op l hl
  obtain ⟨pc, hpc⟩ := Option.isSome_iff_exists.mp (hjumps op l hl)
  obtain ⟨pre, post, hitems, rfl⟩ := mem_placements (mem_of_lookup hpc)
  have hle : itemsSize pre ≤ itemsSize g.items := by
    rw [hitems, itemsSize_append]
    exact Nat.le_add_right _ _
  rw [hpc, Option.getD_some, Nat.zero_add, Nat.mod_eq_of_lt (by omega),
    Nat.mod_eq_of_lt (by omega)]
  exact ⟨pre, .label l :: post, hitems, rfl⟩

section Run

variable {m : IrModule}

/-- **At a boundary the item that starts there is executed.** -/
theorem Assembled.decode (h : Assembled items m.code) {pc n : ℕ} {i : DecodedInstr}
    (hb : Boundary items pc) (hdec : decodeInstruction m.code pc = .ok (i, n)) :
    ∃ pre post, itemsSize pre = pc ∧
      ((∃ j, items = pre ++ .instr j :: post ∧ i = j.stored) ∨
        ∃ op l target, items = pre ++ .jump op l :: post ∧ i = .simple op target ∧
          Boundary items target) := by
  obtain ⟨labels, hcode, htargets⟩ := h.code
  have hlt : pc < itemsSize items := by
    obtain ⟨-, hle, -⟩ := decodeInstruction_ok hdec
    have hpos : 0 < i.size := by cases i <;> simp [DecodedInstr.size]
    rw [hcode, flatMap_final_length] at hle
    omega
  obtain ⟨pre, item, post, hitems, rfl, hlabel⟩ := hb.item hlt
  have hresolved : ∀ j, item.resolve labels = some j → j.Shaped → i = j.stored := by
    intro j hj hshape
    have hfinal : item.final labels = encodeInstruction j := by simp [Item.final, hj]
    have hstored := decodeInstruction_encode_stored (pre.flatMap (Item.final labels))
      (post.flatMap (Item.final labels)) hshape
    rw [flatMap_final_length, ← hfinal] at hstored
    have hsplit : m.code = pre.flatMap (Item.final labels) ++ item.final labels ++
        post.flatMap (Item.final labels) := by
      rw [hcode, hitems]
      simp
    rw [hsplit, hstored] at hdec
    exact (Prod.mk.inj (Except.ok.inj hdec)).1.symm
  refine ⟨pre, post, rfl, ?_⟩
  cases item with
  | instr j =>
      have hmem : .instr j ∈ items := by simp [hitems]
      exact .inl ⟨j, hitems, hresolved j rfl (h.emitted.shaped j hmem)⟩
  | jump op l =>
      have hmem : .jump op l ∈ items := by simp [hitems]
      have hop := h.emitted.jumps op l hmem
      have hshape : op.hasImm32 = false ∧ op ≠ .callFb := by
        revert hop
        cases op <;> simp [Opcode.isJump, Opcode.hasImm32]
      refine .inr ⟨op, l, (labels.lookup l).getD 0 % 2 ^ 24, hitems, ?_, htargets op l hmem⟩
      have hi := hresolved _ rfl hshape
      rw [hi, DecodedInstr.stored, Nat.mod_mod]
  | label l => exact absurd rfl (hlabel l)

/-- An instruction that is no jump goes on behind itself. -/
theorem successors_straight {j : DecodedInstr} {pc q : ℕ}
    (hop : ∀ op payload, j = .simple op payload → Opcode.isJump op = false)
    (hq : q ∈ j.stored.successors pc) : q = pc + j.size := by
  cases j with
  | simple op payload =>
      have hop := hop op payload rfl
      cases op <;> simp_all [DecodedInstr.stored, DecodedInstr.successors, DecodedInstr.size,
        Opcode.isJump]
  | withImm32 op payload imm => exact List.mem_singleton.mp hq
  | callFb fbKind fbId base => exact List.mem_singleton.mp hq

/-- A jump goes to its target or goes on behind itself. -/
theorem successors_jump {op : Opcode} {target pc q : ℕ} (hop : Opcode.isJump op = true)
    (hq : q ∈ (DecodedInstr.simple op target).successors pc) : q = target ∨ q = pc + 4 := by
  cases op <;> simp_all [DecodedInstr.successors, Opcode.isJump]

/-- Runs stay on boundaries. -/
theorem Assembled.succ (h : Assembled items m.code) {p q : ℕ} (hb : Boundary items p)
    (hsucc : Succ m p q) : Boundary items q := by
  obtain ⟨i, n, hdec, hq⟩ := hsucc
  obtain ⟨pre, post, rfl, ⟨j, hitems, rfl⟩ | ⟨op, l, target, hitems, rfl, htarget⟩⟩ :=
    h.decode hb hdec
  · have hstraight : ∀ op payload, j = .simple op payload → Opcode.isJump op = false := by
      rintro op payload rfl
      exact h.emitted.straight op payload (by simp [hitems])
    rw [successors_straight hstraight hq]
    exact boundary_next hitems
  · have hop := h.emitted.jumps op l (by simp [hitems])
    rcases successors_jump hop hq with rfl | rfl
    · exact htarget
    · exact boundary_next hitems

/-- With every entry at a boundary, calls go to boundaries as well. -/
theorem Assembled.closed (h : Assembled items m.code)
    (hentries : ∀ e ∈ m.entries, Boundary items e.pc) :
    BodyClosed m fun _ pc => Boundary items pc where
  succ := fun hb hsucc => h.succ hb hsucc
  call := by
    intro _ p fbKind fbId base n entry _ _ _ hentry
    obtain ⟨e, he, -, rfl⟩ := userFbTable_entry hentry
    exact hentries e he

/-- **Every instruction of a run was emitted.** -/
theorem Assembled.executed (h : Assembled items m.code)
    (hentries : ∀ e ∈ m.entries, Boundary items e.pc) {e : EntryPoint} (he : e ∈ m.entries)
    {budget nowMs k : ℕ} {s : VmState} {c : Config}
    (hc : Passes (.ofModule m budget) nowMs e.pc s k c) {i : DecodedInstr} {n : ℕ}
    (hdec : decodeInstruction m.code c.pc = .ok (i, n)) :
    (∃ j, .instr j ∈ items ∧ i = j.stored) ∨
      ∃ op l target, .jump op l ∈ items ∧ i = .simple op target := by
  have hb := (Nested.passes (h.closed hentries) (hentries e he) hc).top
  obtain ⟨pre, post, -, ⟨j, hitems, hi⟩ | ⟨op, l, target, hitems, hi, -⟩⟩ := h.decode hb hdec
  · exact .inl ⟨j, by simp [hitems], hi⟩
  · exact .inr ⟨op, l, target, by simp [hitems], hi⟩

end Run

/-! ## The driver -/

section Driver

variable {order : HashOrder} {g g' : Codegen}

/-- A body is its statements and its last instruction. -/
theorem emitBody_run {locals : Symbols} {body : List Stmt} {last : Opcode} {u : Unit}
    (h : emitBody order locals body last g = .ok u g') :
    ∃ g₁, emitStmts order body { g with locals := locals } = .ok () g₁ ∧
      g' = { g₁.adds [.simple last 0] with locals := [] } := by
  unfold emitBody at h
  obtain ⟨⟨⟩, g₀, h₀, h⟩ := estate_bind_ok.mp h
  cases h₀
  obtain ⟨⟨⟩, g₁, h₁, h⟩ := estate_bind_ok.mp h
  obtain ⟨⟨⟩, g₂, h₂, h⟩ := estate_bind_ok.mp h
  obtain rfl := append_ok.mp h₂
  cases h
  exact ⟨g₁, h₁, rfl⟩

/-- What a body does to the emitter. -/
theorem emitBody_ok {locals : Symbols} {body : List Stmt} {last : Opcode} {u : Unit}
    (h : emitBody order locals body last g = .ok u g') :
    ∃ T g₁, Grows T { g with locals := locals } g₁ ∧
      g' = { g₁.adds [.simple last 0] with locals := [] } := by
  obtain ⟨g₁, hbody, rfl⟩ := emitBody_run h
  obtain ⟨T, hgrows⟩ := (whole_emitStmts order body).grows hbody
  exact ⟨T, g₁, hgrows, rfl⟩

/-- What a function block does to the emitter. -/
theorem emitFb_ok {maxInstances id : ℕ} {key : String} {layout : UserFbLayout}
    {st st' : BindState} (h : emitFb order maxInstances id key layout st g = .ok st' g') :
    ∃ locals, instanceSymbols (setEntryName key (fbEntryName id) g.fbLayouts) maxInstances
        layout.instances st (fieldSymbols layout.fields) = .ok (locals, st') ∧
      emitBody order locals layout.body .ret { g with
        fbLayouts := setEntryName key (fbEntryName id) g.fbLayouts
        entries := g.entries ++ [⟨fbEntryName id, g.code.length % 2 ^ 32, true⟩] } = .ok () g' := by
  unfold emitFb at h
  obtain ⟨⟨⟩, g₀, h₀, h⟩ := estate_bind_ok.mp h
  cases h₀
  obtain ⟨⟨⟩, g₁, h₁, h⟩ := estate_bind_ok.mp h
  cases h₁
  obtain ⟨g₂, g₃, h₂, h⟩ := estate_bind_ok.mp h
  cases h₂
  obtain ⟨⟨locals, st₁⟩, hlocals, h⟩ := liftResult_bind_ok.mp h
  obtain ⟨⟨⟩, g₄, h₄, h⟩ := estate_bind_ok.mp h
  cases h
  exact ⟨locals, hlocals, h₄⟩

/-- What is so of every block's emission is so of all of them. -/
theorem emitFbs_invariant {I : BindState → Codegen → Prop} {maxInstances : ℕ}
    (hfb : ∀ {id key layout st st' g g'}, I st g →
      emitFb order maxInstances id key layout st g = .ok st' g' → I st' g')
    {id : ℕ} {fbs : FbLayouts} {st st' : BindState} (hI : I st g)
    (h : emitFbs order maxInstances id fbs st g = .ok st' g') : I st' g' := by
  induction fbs generalizing id st g with
  | nil =>
      cases h
      exact hI
  | cons x fbs ih =>
      obtain ⟨st₁, g₁, h₁, h⟩ := estate_bind_ok.mp h
      exact ih (hfb hI h₁) h

/-- What is so of every task's emission is so of all of them. -/
theorem emitTasks_invariant {I : Codegen → Prop} {programs : List (String × Program)}
    (htask : ∀ {t p u g g'}, I g → emitTask order t p g = .ok u g' → I g')
    {tasks : List TaskMap} {u : Unit} (hI : I g)
    (h : emitTasks order programs tasks g = .ok u g') : I g' := by
  induction tasks generalizing g with
  | nil =>
      cases h
      exact hI
  | cons t tasks ih =>
      rw [emitTasks] at h
      rcases hp : programs.lookup (lower t.program) with _ | p
      · rw [hp] at h
        exact absurd h unwrapFail_ok
      · rw [hp] at h
        obtain ⟨⟨⟩, g₁, h₁, h⟩ := estate_bind_ok.mp h
        exact ih (htask hI h₁) h

/-- Where the operand comes from determines the kind of instruction. -/
theorem Origin.shaped {T : Temps} {i : DecodedInstr} (h : Origin T g i) :
    i.Shaped ∧ ∀ op payload, i = .simple op payload → Opcode.isJump op = false := by
  have hsimple : ∀ {op : Opcode} {n : ℕ}, op.hasImm32 = false → op ≠ .callFb →
      Opcode.isJump op = false → (DecodedInstr.simple op n).Shaped ∧
        ∀ op' payload, DecodedInstr.simple op n = .simple op' payload →
          Opcode.isJump op' = false := by
    intro op n himm hcall hjump
    refine ⟨⟨himm, hcall⟩, ?_⟩
    rintro op' payload ⟨⟩
    exact hjump
  cases h with
  | bool payload h => exact hsimple rfl (by decide) rfl
  | imm op imm h => exact ⟨h, by simp⟩
  | operator op h =>
      revert h
      cases op <;> intro h <;> first
        | exact hsimple rfl (by decide) rfl
        | cases h
  | data hop _ => rcases hop with rfl | rfl <;> exact hsimple rfl (by decide) rfl
  | elem _ _ => exact hsimple rfl (by decide) rfl
  | out hop _ _ => rcases hop with rfl | rfl <;> exact hsimple rfl (by decide) rfl
  | field hop _ _ _ => rcases hop with rfl | rfl <;> exact hsimple rfl (by decide) rfl
  | retainField hop _ _ _ _ => rcases hop with rfl | rfl <;> exact hsimple rfl (by decide) rfl
  | retain hop _ => rcases hop with rfl | rfl <;> exact hsimple rfl (by decide) rfl
  | input hop _ => rcases hop with rfl | rfl <;> exact hsimple rfl (by decide) rfl
  | output hop _ => rcases hop with rfl | rfl <;> exact hsimple rfl (by decide) rfl
  | temp hop _ => rcases hop with rfl | rfl <;> exact hsimple rfl (by decide) rfl
  | prim _ => exact ⟨trivial, by simp⟩
  | user _ _ => exact ⟨trivial, by simp⟩

/-- The emitter appends items as they should be. -/
theorem Emitted.grows {T : Temps} (h : Emitted g.items) (hg : Grows T g g') : Emitted g'.items := by
  refine ⟨?_, ?_, ?_⟩
  · intro i hi
    exact (hg.origin i hi).elim (h.shaped i) fun ho => ho.shaped.1
  · intro op payload hi
    exact (hg.origin _ hi).elim (h.straight op payload) fun ho => ho.shaped.2 op payload rfl
  · intro op l hl
    exact (hg.jumps op l hl).elim (h.jumps op l) id

/-- Items as they should be, and entries in front of some of them. -/
structure Laid (g : Codegen) : Prop where
  emitted : Emitted g.items
  entries : ∀ e ∈ g.entries, ∃ pre, pre <+: g.items ∧ e.pc = itemsSize pre % 2 ^ 32

/-- A new entry is at the end of the items. -/
theorem Laid.entry (h : Laid g) (name : String) (isUserFb : Bool) (fbs : FbLayouts) :
    Laid { g with
      fbLayouts := fbs
      entries := g.entries ++ [⟨name, g.code.length % 2 ^ 32, isUserFb⟩] } := by
  refine ⟨h.emitted, ?_⟩
  intro e he
  rcases List.mem_append.mp he with he | he
  · exact h.entries e he
  · obtain rfl := List.mem_singleton.mp he
    refine ⟨g.items, List.prefix_refl _, ?_⟩
    rw [Codegen.code, flatMap_bytes_length]

/-- A body keeps the layout. -/
theorem Laid.body (h : Laid g) {locals : Symbols} {body : List Stmt} {last : Opcode} {u : Unit}
    (hlast : last = .ret ∨ last = .halt) (hbody : emitBody order locals body last g = .ok u g') :
    Laid g' := by
  obtain ⟨T, g₁, hgrows, rfl⟩ := emitBody_ok hbody
  have hstart : Emitted ({ g with locals := locals } : Codegen).items := h.emitted
  have hem := hstart.grows hgrows
  have hend : Emitted [.simple last 0] := by
    rcases hlast with rfl | rfl
    · refine ⟨?_, ?_, by simp⟩
      · simp [DecodedInstr.Shaped, Opcode.hasImm32]
      · simp [Opcode.isJump]
    · refine ⟨?_, ?_, by simp⟩
      · simp [DecodedInstr.Shaped, Opcode.hasImm32]
      · simp [Opcode.isJump]
  refine ⟨hem.append hend, ?_⟩
  intro e he
  have he' : e ∈ g.entries := hgrows.entries ▸ he
  obtain ⟨pre, hpre, hpc⟩ := h.entries e he'
  exact ⟨pre, (hpre.trans hgrows.items).trans (List.prefix_append _ _), hpc⟩

/-- The whole emission keeps the layout. -/
theorem Laid.project {file : ProjectFile} {programs : List (String × Program)} {fbs : FbLayouts}
    {bound final : BindState} (h : Laid g)
    (hrun : emitProject order file programs fbs bound g = .ok final g') : Laid g' := by
  unfold emitProject at hrun
  obtain ⟨st, g₁, h₁, hrun⟩ := estate_bind_ok.mp hrun
  obtain ⟨u, g₂, h₂, hrun⟩ := estate_bind_ok.mp hrun
  cases hrun
  have hfbs : Laid g₁ := by
    refine emitFbs_invariant (I := fun _ g => Laid g) ?_ h h₁
    intro id key layout st st' g g' hg hfb
    obtain ⟨locals, -, hbody⟩ := emitFb_ok hfb
    exact (hg.entry _ true _).body (.inl rfl) hbody
  refine emitTasks_invariant ?_ hfbs h₂
  intro t p u g g' hg htask
  obtain ⟨⟨⟩, g₁, hentry, hbody⟩ := estate_bind_ok.mp htask
  cases hentry
  exact (hg.entry _ false g.fbLayouts).body (.inr rfl) hbody

end Driver

/-- The verifier bounds the length of compiled code that is shorter than `2 ^ 32` bytes. -/
theorem compiled_short {order : HashOrder} {p : LoadedProject} {c : Compiled}
    (h : Stages order p c) (hsize : c.module.code.length < 2 ^ 32) :
    itemsSize c.codegen.items < 2 ^ 24 := by
  have hlen := Codegen.finish_length h.finished
  have hshort : c.module.code.length ≤ maxCodeBytes := by
    have hverified := h.verified
    unfold verifyModule at hverified
    split_ifs at hverified with _ hlong
    rw [Nat.mod_eq_of_lt hsize] at hlong
    exact not_lt.mp hlong
  rw [← hlen]
  exact hshort.trans_lt (by decide)

/-- **Compiled code is assembled and its entries are boundaries**, if it is shorter than `2 ^ 32`
bytes: then the verifier bounds its length. -/
theorem compiled_assembled {order : HashOrder} {p : LoadedProject} {c : Compiled}
    (hc : compileStages order p = .ok c) (hsize : c.module.code.length < 2 ^ 32) :
    Assembled c.codegen.items c.module.code ∧
      ∀ e ∈ c.module.entries, Boundary c.codegen.items e.pc := by
  have hstages := compileStages_ok hc
  have hlaid : Laid c.codegen := by
    refine Laid.project ⟨⟨?_, ?_, ?_⟩, ?_⟩ hstages.emitted
    · intro i hi
      cases hi
    · intro op payload hi
      cases hi
    · intro op l hl
      cases hl
    · intro e he
      cases he
  have hbound := compiled_short hstages hsize
  refine ⟨Codegen.finish_assembled hstages.finished hlaid.emitted hbound, ?_⟩
  intro e he
  rw [Codegen.finish_entries hstages.finished] at he
  obtain ⟨pre, ⟨post, hitems⟩, hpc⟩ := hlaid.entries e he
  refine ⟨pre, post, hitems.symm, ?_⟩
  have hle : itemsSize pre ≤ itemsSize c.codegen.items := by
    rw [← hitems, itemsSize_append]
    exact Nat.le_add_right _ _
  rw [hpc, Nat.mod_eq_of_lt (by omega)]

end SoftPlc.Compiler
