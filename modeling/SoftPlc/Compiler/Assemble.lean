import SoftPlc.Compiler.Compile
import SoftPlc.Lib.Bind

/-!
# From items to code

The bytes that `Codegen.finish` returns are the encodings of the items with every jump aimed at its
label (`patchAll_ok`). What later proofs use of this is `Linked`: each instruction decodes at its
place, and each jump decodes with the place of its label as target, as long as no label is placed
twice.
-/

namespace SoftPlc.Compiler

open SoftPlc.Ir SoftPlc.St SoftPlc.Lib SoftPlc.Vm

/-! ## Sizes and places -/

/-- Bytes of a list of items. -/
def itemsSize (items : List Item) : ℕ := (items.map Item.size).sum

@[simp] theorem itemsSize_nil : itemsSize [] = 0 := rfl

@[simp] theorem itemsSize_cons (item : Item) (items : List Item) :
    itemsSize (item :: items) = item.size + itemsSize items := rfl

@[simp] theorem itemsSize_append (xs ys : List Item) :
    itemsSize (xs ++ ys) = itemsSize xs + itemsSize ys := by
  simp [itemsSize]

@[simp] theorem Item.size_instr (i : DecodedInstr) : (Item.instr i).size = i.size := rfl

@[simp] theorem Item.size_jump (op : Opcode) (l : Label) : (Item.jump op l).size = 4 := rfl

@[simp] theorem Item.size_label (l : Label) : (Item.label l).size = 0 := rfl

/-- An item has as many bytes as its size says. -/
@[simp] theorem Item.bytes_length (item : Item) : item.bytes.length = item.size := by
  cases item with
  | instr i => exact encodeInstruction_length i
  | jump op l => exact encodeInstruction_length (.simple op _)
  | label l => rfl

/-- The unpatched code is as long as its items. -/
@[simp] theorem flatMap_bytes_length (items : List Item) :
    (items.flatMap Item.bytes).length = itemsSize items := by
  induction items with
  | nil => rfl
  | cons item items ih => simp [ih]

/-- Labels of a list in two parts. -/
theorem placements_append (pc : ℕ) (xs ys : List Item) :
    placements pc (xs ++ ys) = placements (pc + itemsSize xs) ys ++ placements pc xs := by
  induction xs generalizing pc with
  | nil => simp [placements]
  | cons x xs ih =>
      cases x with
      | label l => simp [placements, ih]
      | instr i => simp [placements, ih, Nat.add_assoc]
      | jump op l => simp [placements, ih, Nat.add_assoc]

/-- A label that is not among the items is not placed. -/
theorem lookup_placements_eq_none {pc : ℕ} {items : List Item} {l : Label}
    (h : .label l ∉ items) : (placements pc items).lookup l = none := by
  induction items generalizing pc with
  | nil => rfl
  | cons x xs ih =>
      have hxs : .label l ∉ xs := fun h' => h (List.mem_cons_of_mem _ h')
      cases x with
      | label l' =>
          have hne : (l == l') = false := by
            rw [beq_eq_false_iff_ne]
            rintro rfl
            exact h List.mem_cons_self
          simp [placements, List.lookup_append, ih hxs, List.lookup_cons, hne]
      | instr i => exact ih hxs
      | jump op l' => exact ih hxs

/-- A label stands where it was placed last. -/
theorem lookup_placements {pre post : List Item} {l : Label} (h : .label l ∉ post) :
    (placements 0 (pre ++ .label l :: post)).lookup l = some (itemsSize pre % 2 ^ 32) := by
  rw [placements_append, Nat.zero_add, placements, List.append_assoc, List.lookup_append,
    lookup_placements_eq_none h]
  simp

/-! ## Patching -/

/-- The instruction that an item becomes once the labels are known. -/
def Item.resolve (labels : List (Label × ℕ)) : Item → Option DecodedInstr
  | .instr i => some i
  | .jump op l => some (.simple op ((labels.lookup l).getD 0 % 2 ^ 24))
  | .label _ => none

/-- The final bytes of an item. -/
def Item.final (labels : List (Label × ℕ)) (item : Item) : List UInt8 :=
  match item.resolve labels with
  | some i => encodeInstruction i
  | none => []

/-- Final bytes are as many as unpatched ones. -/
@[simp] theorem Item.final_length (labels : List (Label × ℕ)) (item : Item) :
    (item.final labels).length = item.size := by
  cases item with
  | instr i => exact encodeInstruction_length i
  | jump op l => exact encodeInstruction_length (.simple op _)
  | label l => rfl

/-- The final code is as long as its items. -/
@[simp] theorem flatMap_final_length (labels : List (Label × ℕ)) (items : List Item) :
    (items.flatMap (Item.final labels)).length = itemsSize items := by
  induction items with
  | nil => rfl
  | cons item items ih => simp [ih]

/-- Patching a jump gives the jump to the label's pc. -/
theorem patch_jump (pre post : List UInt8) (op : Opcode) (pc : ℕ) :
    patch (pre ++ encodeInstruction (.simple op 0) ++ post) pre.length pc =
      pre ++ encodeInstruction (.simple op (pc % 2 ^ 24)) ++ post := by
  obtain ⟨hlt, -, -⟩ := packWord_fields op (by decide : 0 < 2 ^ 24)
  have hword : wordAt (pre ++ encodeInstruction (.simple op 0) ++ post) pre.length =
      packWord op 0 := wordAt_append pre post hlt
  have hop : packWord op 0 / 2 ^ 24 * 2 ^ 24 + pc % 2 ^ 24 = packWord op (pc % 2 ^ 24) := by
    simp only [packWord]
    omega
  rw [patch, hword, hop, writeAt]
  simp [encodeInstruction, List.append_assoc]

/-- **Patching resolves every jump.** -/
theorem patchAll_ok {labels : List (Label × ℕ)} {items : List Item} {d code : List UInt8}
    (h : patchAll labels (d ++ items.flatMap Item.bytes) (jumpSites d.length items) =
      .ok code) :
    code = d ++ items.flatMap (Item.final labels) ∧
      ∀ op l, .jump op l ∈ items → (labels.lookup l).isSome := by
  induction items generalizing d with
  | nil =>
      cases h
      exact ⟨rfl, by simp⟩
  | cons item items ih =>
      have hnext : ∀ bytes : List UInt8, bytes.length = item.size →
          patchAll labels (d ++ bytes ++ items.flatMap Item.bytes)
            (jumpSites (d.length + item.size) items) = .ok code →
          code = d ++ bytes ++ items.flatMap (Item.final labels) ∧
            ∀ op l, .jump op l ∈ items → (labels.lookup l).isSome := by
        intro bytes hlen hrun
        rw [← hlen, ← List.length_append] at hrun
        exact ih hrun
      cases item with
      | instr i =>
          obtain ⟨hcode, hjumps⟩ := hnext (encodeInstruction i) (encodeInstruction_length i)
            (by simpa [jumpSites, Item.bytes, List.append_assoc] using h)
          refine ⟨by simpa [Item.final, Item.resolve, List.append_assoc] using hcode, ?_⟩
          intro op l hmem
          exact hjumps op l (by simpa using hmem)
      | label l =>
          obtain ⟨hcode, hjumps⟩ := hnext [] rfl (by simpa [jumpSites, Item.bytes] using h)
          refine ⟨by simpa [Item.final, Item.resolve] using hcode, ?_⟩
          intro op l hmem
          exact hjumps op l (by simpa using hmem)
      | jump op l =>
          simp only [jumpSites, patchAll, List.flatMap_cons, Item.bytes, except_bind_ok] at h
          obtain ⟨pc, hpc, h⟩ := h
          have hlook : labels.lookup l = some pc := by
            unfold orReject at hpc
            split at hpc
            · cases hpc
              assumption
            · cases hpc
          rw [← List.append_assoc, patch_jump] at h
          obtain ⟨hcode, hjumps⟩ := hnext _ (encodeInstruction_length _) h
          refine ⟨by simpa [Item.final, Item.resolve, hlook, List.append_assoc] using hcode, ?_⟩
          intro op' l' hmem
          rcases List.mem_cons.mp hmem with heq | hmem
          · cases heq
            simp [hlook]
          · exact hjumps op' l' hmem

/-! ## Linked code -/

/-- Opcodes of jumps. -/
def Opcode.isJump : Opcode → Bool
  | .jmp | .jmpIf | .jmpIfNot => true
  | _ => false

/-- Code in which every instruction stands at its place and every jump goes to its label. -/
structure Linked (items : List Item) (code : List UInt8) : Prop where
  /-- Instructions. -/
  instr : ∀ {pre i post}, items = pre ++ .instr i :: post → i.WellFormed →
    decodeInstruction code (itemsSize pre) = .ok (i, i.size)
  /-- Jumps. -/
  jump : ∀ {pre op l post pre' post'}, items = pre ++ .jump op l :: post →
    items = pre' ++ .label l :: post' → Opcode.isJump op = true →
    decodeInstruction code (itemsSize pre) = .ok (.simple op (itemsSize pre'), 4)

/-- An item of the final code decodes as the instruction it became. -/
theorem decode_final {labels : List (Label × ℕ)} {pre post : List Item} {item : Item}
    {i : DecodedInstr} (hi : item.resolve labels = some i) (hwf : i.WellFormed) :
    decodeInstruction ((pre ++ item :: post).flatMap (Item.final labels)) (itemsSize pre) =
      .ok (i, i.size) := by
  have h := decodeInstruction_encode (pre.flatMap (Item.final labels))
    (post.flatMap (Item.final labels)) hwf
  rw [flatMap_final_length] at h
  have hfinal : item.final labels = encodeInstruction i := by simp [Item.final, hi]
  simpa [hfinal, List.append_assoc] using h

/-- **Finished code is linked**, if no label is placed twice and the code is shorter than the
payload of a jump can address. -/
theorem Codegen.finish_linked {g : Codegen} {dataSize retainSize inputSlots outputSlots : ℕ}
    {m : IrModule} (h : g.finish dataSize retainSize inputSlots outputSlots = .ok m)
    (hlabels : ∀ l, g.items.count (.label l) ≤ 1) (hsize : itemsSize g.items < 2 ^ 24) :
    Linked g.items m.code := by
  unfold Codegen.finish at h
  obtain ⟨code, hpatch, h⟩ := except_bind_ok.mp h
  cases h
  obtain ⟨hcode, -⟩ := patchAll_ok (d := []) hpatch
  rw [List.nil_append] at hcode
  refine ⟨?_, ?_⟩
  · intro pre i post hitems hwf
    rw [hcode, hitems]
    exact decode_final rfl hwf
  · intro pre op l post pre' post' hitems hitems' hop
    have hnot : .label l ∉ post' := by
      have hcount := hlabels l
      rw [hitems', List.count_append, List.count_cons_self] at hcount
      exact List.count_eq_zero.mp (by omega)
    have hlook : g.labels.lookup l = some (itemsSize pre' % 2 ^ 32) := by
      rw [Codegen.labels, hitems']
      exact lookup_placements hnot
    have hlt : itemsSize pre' < 2 ^ 24 := by
      have : itemsSize g.items = itemsSize pre' + itemsSize (.label l :: post') := by
        rw [hitems', itemsSize_append]
      omega
    have hmod : itemsSize pre' % 2 ^ 32 % 2 ^ 24 = itemsSize pre' := by omega
    rw [hcode, hitems]
    refine decode_final ?_ ?_
    · rw [Item.resolve, hlook, Option.getD_some, hmod]
    · have hshape : op.hasImm32 = false ∧ op ≠ .callFb := by
        revert hop
        cases op <;> simp [Opcode.isJump, Opcode.hasImm32]
      exact ⟨hshape.1, hshape.2, hlt⟩

/-- The finished code is as long as its items. -/
theorem Codegen.finish_length {g : Codegen} {dataSize retainSize inputSlots outputSlots : ℕ}
    {m : IrModule} (h : g.finish dataSize retainSize inputSlots outputSlots = .ok m) :
    m.code.length = itemsSize g.items := by
  unfold Codegen.finish at h
  obtain ⟨code, hpatch, h⟩ := except_bind_ok.mp h
  cases h
  obtain ⟨hcode, -⟩ := patchAll_ok (d := []) hpatch
  rw [hcode, List.nil_append, flatMap_final_length]

/-- The finished module has the entries of the emitter. -/
theorem Codegen.finish_entries {g : Codegen} {dataSize retainSize inputSlots outputSlots : ℕ}
    {m : IrModule} (h : g.finish dataSize retainSize inputSlots outputSlots = .ok m) :
    m.entries = g.entries := by
  unfold Codegen.finish at h
  obtain ⟨code, -, h⟩ := except_bind_ok.mp h
  cases h
  rfl

end SoftPlc.Compiler
