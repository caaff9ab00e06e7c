import SoftPlc.Ir.AsmCode
import SoftPlc.Ir.Stream

/-!
# Assembled code means what was written

`Faithful` compares a source with its module: decoding from each entry gives back the instructions
written after it, operands as written and jumps at the labels they name, and the source has no operand
that its field cannot hold and no label twice. `assemble_faithful_iff` says for which accepted sources
this is so (`AsmFits`). The assembler checks header values for their range, but not operands, and a
label defined again takes the place of the first.
-/

namespace SoftPlc.Ir

open SoftPlc.Lib

theorem DecodedInstr.WellFormed.size_eq {i : DecodedInstr} (h : i.WellFormed) :
    i.size = i.opcode.shape.size := by
  cases i with
  | simple op payload =>
      obtain ⟨himm, hcall, -⟩ := h
      revert himm hcall
      cases op <;> simp [Opcode.hasImm32, DecodedInstr.size, DecodedInstr.opcode, Opcode.shape,
        Shape.size]
  | withImm32 op payload imm =>
      have himm := h.1
      revert himm
      cases op <;> simp [Opcode.hasImm32, DecodedInstr.size, DecodedInstr.opcode, Opcode.shape,
        Shape.size]
  | callFb kind id base => rfl

/-! ## The property -/

/-- A decoded instruction is the written one. -/
structure Recovers (stmts : List AsmStmt) (w : WrittenInstr) (i : DecodedInstr) : Prop where
  opcode : i.opcode = w.op
  operands : ∀ o ∈ w.operands, i.read o.1 = some o.2
  target : ∀ l, w.target = some l →
    ∃ pre post, stmts = pre ++ .label l :: post ∧ .label l ∉ pre ∧ .label l ∉ post ∧
      i.read .payload = some (offset pre : ℤ)

/-- The instructions of statements. -/
def instrsOf : List AsmStmt → List WrittenInstr
  | [] => []
  | .instr w :: stmts => w :: instrsOf stmts
  | _ :: stmts => instrsOf stmts

/-- The statements after each entry. -/
def entryBodies : List AsmStmt → List (List AsmStmt)
  | [] => []
  | .entry _ _ :: stmts => stmts :: entryBodies stmts
  | _ :: stmts => entryBodies stmts

/-- What each entry of the module runs; a source without entries is one task. -/
def bodies (stmts : List AsmStmt) : List (List AsmStmt) :=
  if entryBodies stmts = [] then [stmts] else entryBodies stmts

/-- The code that an entry runs is what was written after it. -/
def EntryRecovers (stmts : List AsmStmt) (m : IrModule) (e : EntryPoint) (body : List AsmStmt) : Prop :=
  ∃ is, Decodes m.code e.pc is ∧ List.Forall₂ (Recovers stmts) (instrsOf body) is

/-- **The module means what was written.** -/
structure Faithful (stmts : List AsmStmt) (m : IrModule) : Prop where
  /-- No operand is left that its field cannot hold. -/
  inRange : ∀ w, .instr w ∈ stmts → ∀ o ∈ w.operands, o.1.InRange o.2
  /-- No label is defined twice. -/
  labels : (stmts.filterMap AsmStmt.labelName).Nodup
  entries : List.Forall₂ (EntryRecovers stmts m) m.entries (bodies stmts)

/-- Sources that the fields of the code can hold. -/
structure AsmFits (stmts : List AsmStmt) : Prop where
  inRange : ∀ w, .instr w ∈ stmts → ∀ o ∈ w.operands, o.1.InRange o.2
  labels : (stmts.filterMap AsmStmt.labelName).Nodup
  /-- Entries lie within 32 bits. -/
  entries : ∀ pre name kind post, stmts = pre ++ .entry name kind :: post → offset pre < 2 ^ 32
  /-- No field of a call is written twice with different integers. -/
  once : ∀ body ∈ bodies stmts, ∀ w ∈ instrsOf body, ∀ o ∈ w.operands, ∀ o' ∈ w.operands,
    o.1 = o'.1 → o.2 = o'.2
  /-- Labels that jumps name lie within the payload of a jump. -/
  targets : ∀ body ∈ bodies stmts, ∀ w ∈ instrsOf body, ∀ l, w.target = some l →
    ∀ pre post, stmts = pre ++ .label l :: post → offset pre < 2 ^ 24

/-! ## Instructions and bodies -/

theorem mem_instrsOf {stmts : List AsmStmt} {w : WrittenInstr} :
    w ∈ instrsOf stmts ↔ .instr w ∈ stmts := by
  induction stmts with
  | nil => simp [instrsOf]
  | cons s stmts ih => cases s <;> simp [instrsOf, ih]

theorem offset_eq_instrs (stmts : List AsmStmt) :
    offset stmts = ((instrsOf stmts).map fun w => w.op.shape.size).sum := by
  induction stmts with
  | nil => rfl
  | cons s stmts ih => cases s <;> simp [instrsOf, ih, AsmStmt.size]

/-- The entries of the code and their bodies go together. -/
theorem forall₂_entries {P : EntryPoint → List AsmStmt → Prop} {o : ℕ} {stmts : List AsmStmt} :
    List.Forall₂ P (entriesOf (located o stmts)) (entryBodies stmts) ↔
      ∀ pre name kind post, stmts = pre ++ .entry name kind :: post →
        P (entryDirective name kind (o + offset pre)) post := by
  induction stmts generalizing o with
  | nil => simp [entriesOf, located, entryBodies]
  | cons s stmts ih =>
      -- the entries of the rest, found behind `s`
      have hrest : List.Forall₂ P (entriesOf (located (o + s.size) stmts)) (entryBodies stmts) ↔
          ∀ pre name kind post, s :: stmts = (s :: pre) ++ .entry name kind :: post →
            P (entryDirective name kind (o + offset (s :: pre))) post := by
        rw [ih]
        simp [Nat.add_assoc]
      have hsplit : (∀ pre name kind post, s :: stmts = pre ++ .entry name kind :: post →
            P (entryDirective name kind (o + offset pre)) post) ↔
          (∀ name kind, s = .entry name kind → P (entryDirective name kind o) stmts) ∧
          ∀ pre name kind post, s :: stmts = (s :: pre) ++ .entry name kind :: post →
            P (entryDirective name kind (o + offset (s :: pre))) post := by
        constructor
        · intro h
          refine ⟨?_, fun pre => h (s :: pre)⟩
          rintro name kind rfl
          exact h [] name kind stmts rfl
        · rintro ⟨hhead, htail⟩ pre name kind post heq
          cases pre with
          | nil =>
              cases heq
              exact hhead name kind rfl
          | cons x pre =>
              obtain rfl : s = x := (List.cons.inj heq).1
              exact htail pre name kind post heq
      rw [hsplit, ← hrest]
      cases s with
      | entry name kind =>
          show List.Forall₂ P (entryDirective name kind o :: _) (stmts :: _) ↔ _
          rw [List.forall₂_cons]
          apply and_congr_left'
          constructor
          · rintro h _ _ ⟨⟩
            exact h
          · intro h
            exact h name kind rfl
      | label l =>
          show List.Forall₂ P (entriesOf (located (o + (AsmStmt.label l).size) stmts)) _ ↔ _
          simp [entryBodies]
      | instr w =>
          show List.Forall₂ P (entriesOf (located (o + (AsmStmt.instr w).size) stmts)) _ ↔ _
          simp [entryBodies]

theorem entries_eq_nil_iff {o : ℕ} {stmts : List AsmStmt} :
    entriesOf (located o stmts) = [] ↔ entryBodies stmts = [] := by
  have hlen : (entriesOf (located o stmts)).length = (entryBodies stmts).length := by
    have h : List.Forall₂ (fun _ _ => True) (entriesOf (located o stmts)) (entryBodies stmts) :=
      forall₂_entries.mpr fun _ _ _ _ _ => trivial
    exact h.length_eq
  rw [← List.length_eq_zero_iff, hlen, List.length_eq_zero_iff]

/-- A body is the end of the source. -/
theorem bodies_suffix {stmts body : List AsmStmt} (h : body ∈ bodies stmts) :
    ∃ pre, stmts = pre ++ body := by
  have hentry : ∀ (stmts body : List AsmStmt), body ∈ entryBodies stmts → ∃ pre, stmts = pre ++ body := by
    intro stmts body h
    induction stmts with
    | nil => simp [entryBodies] at h
    | cons s stmts ih =>
        have htail : body ∈ entryBodies stmts → ∃ pre, s :: stmts = pre ++ body := by
          intro h
          obtain ⟨pre, rfl⟩ := ih h
          exact ⟨s :: pre, rfl⟩
        cases s with
        | entry name kind =>
            rcases List.mem_cons.mp h with rfl | h
            · exact ⟨[.entry name kind], rfl⟩
            · exact htail h
        | label l => exact htail h
        | instr w => exact htail h
  unfold bodies at h
  split_ifs at h
  · cases List.mem_singleton.mp h
    exact ⟨[], rfl⟩
  · exact hentry stmts body h

theorem mem_entryBodies (pre post : List AsmStmt) (name kind : String) :
    post ∈ entryBodies (pre ++ .entry name kind :: post) := by
  induction pre with
  | nil => exact List.mem_cons_self
  | cons s pre ih =>
      cases s with
      | entry name' kind' => exact List.mem_cons_of_mem _ ih
      | label l => exact ih
      | instr w => exact ih

theorem mem_bodies {stmts pre post : List AsmStmt} {name kind : String}
    (h : stmts = pre ++ .entry name kind :: post) : post ∈ bodies stmts := by
  have hmem : post ∈ entryBodies stmts := h ▸ mem_entryBodies pre post name kind
  rwa [bodies, if_neg (List.ne_nil_of_mem hmem)]

/-- Every body is run by an entry of the module, at its place. -/
theorem CodeOf.forall_entries {stmts : List AsmStmt} {m : IrModule} (hm : CodeOf stmts m)
    {P : EntryPoint → List AsmStmt → Prop} :
    List.Forall₂ P m.entries (bodies stmts) ↔
      (entryBodies stmts = [] → P ⟨"task.main", 0, false⟩ stmts) ∧
        ∀ pre name kind post, stmts = pre ++ .entry name kind :: post →
          P (entryDirective name kind (offset pre)) post := by
  have hentries := @forall₂_entries P 0 stmts
  simp only [Nat.zero_add] at hentries
  rw [hm.entries, bodies, ← hentries]
  by_cases hnone : entryBodies stmts = []
  · have hnone' : entriesOf (located 0 stmts) = [] := entries_eq_nil_iff.mpr hnone
    simp [hnone, hnone']
  · have hnone' : entriesOf (located 0 stmts) ≠ [] := mt entries_eq_nil_iff.mp hnone
    simp [hnone, hnone']

/-! ## Operands -/

theorem asU32_cast (n : ℤ) : (asU32 n : ℤ) = n % 2 ^ 32 := by
  unfold asU32
  omega

/-- A field keeps the last integer written for it, as far as it fits. -/
theorem read_stored {w : WrittenInstr} {f : Field} {n : ℤ} (hf : f ∈ w.op.shape.fields)
    (hlast : w.operands.reverse.lookup f = some n) : w.instr.stored.read f = some (f.wrap n) := by
  have hfield : w.field f = asU32 n := by
    rw [WrittenInstr.field, hlast, Option.getD_some]
  have hcast := asU32_cast n
  unfold WrittenInstr.instr
  cases hshape : w.op.shape <;> rw [hshape] at hf <;>
    simp only [Shape.fields, List.mem_cons, List.not_mem_nil, or_false] at hf
  case payload =>
    subst hf
    simp only [hfield, DecodedInstr.stored, DecodedInstr.read, Field.wrap]
    congr 1
    omega
  case imm =>
    subst hf
    have hint : (BitVec.ofNat 32 (asU32 n % 2 ^ 32)).toInt = n.bmod (2 ^ 32) := by
      rw [BitVec.toInt_ofNat', Int.natCast_mod, hcast]
      rw [← Int.emod_bmod n (2 ^ 32)]
      norm_num
    simp only [hfield, DecodedInstr.stored, DecodedInstr.read, Field.wrap]
    exact congrArg some hint
  case bits =>
    subst hf
    simp only [hfield, DecodedInstr.stored, DecodedInstr.read, Field.wrap]
    congr 1
    omega
  case call =>
    rcases hf with rfl | rfl | rfl <;>
      (simp only [hfield, DecodedInstr.stored, DecodedInstr.read, Field.wrap]
       congr 1
       omega)

theorem WrittenInstr.Shaped.instr_shaped {w : WrittenInstr} (hw : w.Shaped)
    (labels : List (String × ℕ)) : (w.resolve labels).Shaped := by
  have hop : ∀ op : Opcode, (op.shape = .payload → op.hasImm32 = false ∧ op ≠ .callFb) ∧
      (op.shape = .imm → op.hasImm32 = true) ∧ (op.shape = .bits → op.hasImm32 = true) := by
    intro op
    cases op <;> simp [Opcode.shape, Opcode.hasImm32]
  unfold WrittenInstr.resolve
  cases htarget : w.target with
  | some l => exact (hop w.op).1 (hw.target (by simp [htarget])).1
  | none =>
      unfold WrittenInstr.instr
      cases hshape : w.op.shape with
      | payload => exact (hop w.op).1 hshape
      | imm => exact (hop w.op).2.1 hshape
      | bits => exact (hop w.op).2.2 hshape
      | call => exact trivial

theorem opcode_instr (w : WrittenInstr) : w.instr.stored.opcode = w.op := by
  have hcall : w.op.shape = .call → w.op = .callFb := by
    cases w.op <;> simp [Opcode.shape]
  unfold WrittenInstr.instr
  cases hshape : w.op.shape with
  | call => exact (hcall hshape).symm
  | payload => rfl
  | imm => rfl
  | bits => rfl

/-- The operands of an instruction are read back exactly if they fit and no two compete. -/
theorem operands_read {w : WrittenInstr} (hw : w.Shaped)
    (hrange : ∀ o ∈ w.operands, o.1.InRange o.2)
    (honce : ∀ o ∈ w.operands, ∀ o' ∈ w.operands, o.1 = o'.1 → o.2 = o'.2) :
    ∀ o ∈ w.operands, w.instr.stored.read o.1 = some o.2 := by
  rintro ⟨f, n⟩ ho
  rcases hlast : w.operands.reverse.lookup f with _ | n'
  · exact absurd rfl (lookup_reverse_eq_none.mp hlast _ ho)
  have hn : n' = n := honce _ (mem_of_lookup_reverse hlast) _ ho rfl
  rw [read_stored (hw.fields _ ho) hlast, hn, (Field.wrap_eq_iff f n).mpr (hrange _ ho)]

/-! ## Labels -/

theorem mem_labelNames {stmts : List AsmStmt} {l : String} :
    l ∈ stmts.filterMap AsmStmt.labelName ↔ .label l ∈ stmts := by
  rw [List.mem_filterMap]
  constructor
  · rintro ⟨s, hs, hl⟩
    cases s <;> simp only [AsmStmt.labelName, reduceCtorEq, Option.some.injEq] at hl
    rwa [← hl]
  · intro h
    exact ⟨.label l, h, rfl⟩

/-- A label that is defined once. -/
theorem label_once {pre post : List AsmStmt} {l : String}
    (h : ((pre ++ .label l :: post).filterMap AsmStmt.labelName).Nodup) :
    .label l ∉ pre ∧ .label l ∉ post := by
  have hcons : (AsmStmt.label l :: post).filterMap AsmStmt.labelName =
      l :: post.filterMap AsmStmt.labelName := rfl
  rw [List.filterMap_append, hcons, List.nodup_append] at h
  obtain ⟨-, hpost, hpre⟩ := h
  rw [← mem_labelNames, ← mem_labelNames]
  exact ⟨fun hl => hpre l hl l List.mem_cons_self rfl, (List.nodup_cons.mp hpost).1⟩

/-- Labels of the table are labels of the source. -/
theorem mem_labelsOf {o : ℕ} {stmts : List AsmStmt} {l : String} :
    (∃ pc, (l, pc) ∈ labelsOf (located o stmts)) ↔ .label l ∈ stmts := by
  induction stmts generalizing o with
  | nil => simp [labelsOf, located]
  | cons s stmts ih =>
      rw [List.mem_cons, ← @ih (o + s.size), located, labelsOf, List.filterMap_cons]
      cases s with
      | label l' => simp [AsmStmt.labelName, labelsOf, exists_or]
      | entry name kind => simp [AsmStmt.labelName, labelsOf]
      | instr w => simp [AsmStmt.labelName, labelsOf]

theorem lookup_labels_eq_none {o : ℕ} {stmts : List AsmStmt} {l : String} (h : .label l ∉ stmts) :
    (labelsOf (located o stmts)).reverse.lookup l = none := by
  rw [List.lookup_eq_none_iff]
  rintro ⟨l', pc⟩ hmem
  rw [List.mem_reverse] at hmem
  rw [bne_iff_ne]
  rintro rfl
  exact h (mem_labelsOf.mp ⟨pc, hmem⟩)

/-- The table gives the last definition. -/
theorem lookup_labelTable {pre post : List AsmStmt} {l : String} (h : .label l ∉ post) :
    (labelTable (pre ++ .label l :: post)).lookup l = some (offset pre % 2 ^ 32) := by
  have hcons : labelsOf (located (0 + offset pre) (.label l :: post)) =
      (l, (0 + offset pre) % 2 ^ 32) ::
        labelsOf (located (0 + offset pre + (AsmStmt.label l).size) post) := rfl
  rw [labelTable, located_append, labelsOf_append, List.reverse_append, List.lookup_append, hcons,
    List.reverse_cons, List.lookup_append, lookup_labels_eq_none h, Nat.zero_add]
  simp

theorem label_of_lookup {stmts : List AsmStmt} {l : String}
    (h : ((labelTable stmts).lookup l).isSome) : .label l ∈ stmts := by
  by_contra hno
  rw [labelTable, lookup_labels_eq_none hno] at h
  cases h

/-! ## The code decodes -/

/-- The end of the code is the end of the source. -/
theorem decodes_final {labels : List (String × ℕ)} {pre post : List AsmStmt}
    (h : AllShaped (pre ++ post)) :
    Decodes ((pre ++ post).flatMap (AsmStmt.final labels)) (offset pre)
      ((instrsOf post).map fun w => (w.resolve labels).stored) := by
  induction post generalizing pre with
  | nil =>
      rw [← flatMap_stmt_final_length labels h.of_append.1, List.append_nil]
      exact .done
  | cons s post ih =>
      have hnext : pre ++ s :: post = (pre ++ [s]) ++ post := by simp
      have hrest := ih (hnext ▸ h)
      rw [← hnext, offset_append, offset_cons, offset_nil, Nat.add_zero] at hrest
      cases s with
      | entry name kind => exact hrest
      | label l => exact hrest
      | instr w =>
          have hw : w.Shaped := h w (by simp)
          have hdecode := decodeInstruction_encode_stored (pre.flatMap (AsmStmt.final labels))
            (post.flatMap (AsmStmt.final labels)) (hw.instr_shaped labels)
          rw [flatMap_stmt_final_length labels h.of_append.1, hw.size_resolve] at hdecode
          refine .step ?_ hrest
          show decodeInstruction _ _ = .ok ((w.resolve labels).stored, w.op.shape.size)
          simpa [AsmStmt.final, List.append_assoc] using hdecode

/-- An instruction of the final code is the written one, if it fits. -/
theorem recovers_resolve {stmts : List AsmStmt} {m : IrModule} {w : WrittenInstr}
    (hm : CodeOf stmts m) (hmem : .instr w ∈ stmts)
    (hlabels : (stmts.filterMap AsmStmt.labelName).Nodup)
    (hrange : ∀ o ∈ w.operands, o.1.InRange o.2)
    (honce : ∀ o ∈ w.operands, ∀ o' ∈ w.operands, o.1 = o'.1 → o.2 = o'.2)
    (htargets : ∀ l, w.target = some l →
      ∀ pre post, stmts = pre ++ .label l :: post → offset pre < 2 ^ 24) :
    Recovers stmts w (w.resolve (labelTable stmts)).stored := by
  have hw : w.Shaped := hm.shaped w hmem
  cases htarget : w.target with
  | none =>
      have hresolve : w.resolve (labelTable stmts) = w.instr := by
        simp [WrittenInstr.resolve, htarget]
      rw [hresolve]
      refine ⟨opcode_instr w, operands_read hw hrange honce, ?_⟩
      intro l hl
      rw [htarget] at hl
      cases hl
  | some l =>
      have hdefined := hm.defined w l hmem htarget
      obtain ⟨pre, post, hsplit⟩ := List.append_of_mem (label_of_lookup hdefined)
      obtain ⟨hpre, hpost⟩ := label_once (hsplit ▸ hlabels)
      have hlook : (labelTable stmts).lookup l = some (offset pre % 2 ^ 32) := by
        rw [hsplit]
        exact lookup_labelTable hpost
      have hlt := htargets l htarget pre post hsplit
      have hpc : offset pre % 2 ^ 32 % 2 ^ 24 % 2 ^ 24 = offset pre := by omega
      have hresolve : (w.resolve (labelTable stmts)).stored = .simple w.op (offset pre) := by
        simp only [WrittenInstr.resolve, htarget, hlook, Option.getD_some, DecodedInstr.stored, hpc]
      rw [hresolve]
      refine ⟨rfl, ?_, ?_⟩
      · simp [(hw.target (by simp [htarget])).2]
      · intro l' hl'
        rw [htarget] at hl'
        cases hl'
        exact ⟨pre, post, hsplit, hpre, hpost, rfl⟩

section Iff

variable {stmts : List AsmStmt} {m : IrModule}

/-- A source that fits is kept. -/
theorem AsmFits.faithful (hm : CodeOf stmts m) (h : AsmFits stmts) : Faithful stmts m := by
  have hbody : ∀ (pre body : List AsmStmt), body ∈ bodies stmts → stmts = pre ++ body →
      ∀ e : EntryPoint, e.pc = offset pre → EntryRecovers stmts m e body := by
    intro pre body hmem hsplit e he
    refine ⟨(instrsOf body).map fun w => (w.resolve (labelTable stmts)).stored, ?_, ?_⟩
    · rw [he, hm.code]
      have hdecodes := @decodes_final (labelTable stmts) pre body (hsplit ▸ hm.shaped)
      rwa [← hsplit] at hdecodes
    · rw [List.forall₂_map_right_iff, List.forall₂_same]
      intro w hw
      have hinstr : .instr w ∈ stmts := by
        rw [hsplit]
        exact List.mem_append_right _ (mem_instrsOf.mp hw)
      exact recovers_resolve hm hinstr h.labels (h.inRange w hinstr) (h.once body hmem w hw)
        (h.targets body hmem w hw)
  refine ⟨h.inRange, h.labels, hm.forall_entries.mpr ⟨?_, ?_⟩⟩
  · intro hnone
    exact hbody [] stmts (by simp [bodies, hnone]) rfl _ rfl
  · intro pre name kind post hsplit
    refine hbody (pre ++ [.entry name kind]) post (mem_bodies hsplit) (by simp [hsplit]) _ ?_
    have hlt := h.entries pre name kind post hsplit
    show offset pre % 2 ^ 32 = _
    rw [Nat.mod_eq_of_lt hlt]
    simp [AsmStmt.size]

/-- What an entry recovers is as long as what was written. -/
theorem EntryRecovers.size {e : EntryPoint} {body : List AsmStmt} (h : EntryRecovers stmts m e body) :
    e.pc + offset body = m.code.length := by
  obtain ⟨is, hdecodes, hforall⟩ := h
  have hwf := hdecodes.wellFormed
  have hsum : (is.map DecodedInstr.size).sum = offset body := by
    rw [offset_eq_instrs]
    congr 1
    have hmap : List.Forall₂ (fun w i => DecodedInstr.size i = w.op.shape.size) (instrsOf body) is := by
      rw [List.forall₂_iff_zip] at hforall ⊢
      refine ⟨hforall.1, ?_⟩
      intro w i hmem
      rw [(hwf i (List.of_mem_zip hmem).2).size_eq, (hforall.2 hmem).opcode]
    rw [← List.forall₂_eq_eq_eq, List.forall₂_map_left_iff, List.forall₂_map_right_iff]
    exact hmap.flip
  rw [← hsum]
  exact hdecodes.sizes

/-- A source that is kept fits. -/
theorem Faithful.fits (hm : CodeOf stmts m) (h : Faithful stmts m) : AsmFits stmts := by
  have hrecovers : ∀ body ∈ bodies stmts, ∀ w ∈ instrsOf body,
      ∃ i, i.WellFormed ∧ Recovers stmts w i := by
    intro body hbody w hw
    obtain ⟨e, -, is, hdecodes, hforall⟩ := exists_of_forall₂_right h.entries hbody
    obtain ⟨i, hi, hwi⟩ := exists_of_forall₂_right (List.Forall₂.flip hforall) hw
    exact ⟨i, hdecodes.wellFormed i hi, hwi⟩
  refine ⟨h.inRange, h.labels, ?_, ?_, ?_⟩
  · intro pre name kind post hsplit
    have hsize := ((hm.forall_entries.mp h.entries).2 pre name kind post hsplit).size
    have hpc : (entryDirective name kind (offset pre)).pc = offset pre % 2 ^ 32 := rfl
    have hoffset : offset stmts = offset pre + offset post := by
      rw [hsplit, offset_append, offset_cons]
      exact congrArg (offset pre + ·) (Nat.zero_add _)
    rw [hpc, hm.code, flatMap_stmt_final_length _ hm.shaped, hoffset] at hsize
    have hlt := Nat.mod_lt (offset pre) (show 2 ^ 32 > 0 by decide)
    omega
  · intro body hbody w hw o ho o' ho' heq
    obtain ⟨i, -, hi⟩ := hrecovers body hbody w hw
    have hread := hi.operands o ho
    rw [heq, hi.operands o' ho'] at hread
    exact (Option.some.inj hread).symm
  · intro body hbody w hw l hl pre post hsplit
    obtain ⟨i, hwf, hi⟩ := hrecovers body hbody w hw
    obtain ⟨pre', post', hsplit', -, -, hread⟩ := hi.target l hl
    obtain ⟨hpre, hpost⟩ := label_once (hsplit ▸ h.labels)
    obtain ⟨rfl, -⟩ :=
      (List.append_cons_inj_of_notMem hpre hpost).mp (hsplit.symm.trans hsplit')
    cases i with
    | simple op payload =>
        have hpayload : (payload : ℤ) = offset pre := Option.some.inj hread
        have hlt := hwf.2.2
        omega
    | withImm32 _ _ _ => cases hread
    | callFb _ _ _ => cases hread

end Iff

/-- **When assembled code means what was written.** -/
theorem assemble_faithful_iff {parseReal : String → Option F32} {source : String} {m : IrModule}
    (h : assemble parseReal source = .ok m) :
    Faithful (program parseReal source) m ↔ AsmFits (program parseReal source) :=
  ⟨Faithful.fits (assemble_ok h), AsmFits.faithful (assemble_ok h)⟩

/-- A loop that counts down. -/
def countdown : String := "start:\n  PUSHI_DINT -5\n  ST_DATA 8\n  JMP start"

/-- The module of `countdown`. -/
def countdownModule : IrModule :=
  ⟨irMajor, irMinor, 0, 256, 0, 16, 16, [⟨"task.main", 0, false⟩], [],
    encodeInstruction (.withImm32 .pushIDint 0 4294967291) ++ encodeInstruction (.simple .stData 8) ++
      encodeInstruction (.simple .jmp 0)⟩

theorem assemble_faithful_iff_countdown :
    Faithful (program (fun _ => none) countdown) countdownModule ↔
      AsmFits (program (fun _ => none) countdown) :=
  assemble_faithful_iff (by decide +kernel)

/-- An address that needs 25 bits. -/
def farLoad : String := "LD_DATA 16777216\nHALT"

/-- The module of `farLoad`, which loads from the address 0. -/
def farLoadModule : IrModule :=
  ⟨irMajor, irMinor, 0, 256, 0, 16, 16, [⟨"task.main", 0, false⟩], [],
    encodeInstruction (.simple .ldData 0) ++ encodeInstruction (.simple .halt 0)⟩

/-- **An operand that its field cannot hold is accepted**, and another is stored. -/
theorem operand_truncated :
    assemble (fun _ => none) farLoad = .ok farLoadModule ∧
      decodeInstruction farLoadModule.code 0 = .ok (.simple .ldData 0, 4) ∧
      ¬Faithful (program (fun _ => none) farLoad) farLoadModule := by
  refine ⟨by decide +kernel, by decide +kernel, ?_⟩
  intro h
  have hmem : .instr ⟨.ldData, [(.payload, 16777216)], none⟩ ∈ program (fun _ => none) farLoad := by
    decide +kernel
  have hrange := h.inRange _ hmem _ List.mem_cons_self
  exact absurd hrange.2 (by decide)

end SoftPlc.Ir
