import SoftPlc.Ir.AsmMeaning

/-!
# The code of a source

`program` lists what the lines of a source say: entries, labels and instructions. An accepted source
has the bytes of its instructions as code, with every jump aimed at the label it names
(`assemble_ok`).
-/

namespace SoftPlc.Ir

open SoftPlc.Lib

/-! ## Statements -/

/-- A line that names a place in the code or adds to it. -/
inductive AsmStmt where
  | entry (name kind : String)
  | label (name : String)
  | instr (w : WrittenInstr)
  deriving DecidableEq, Repr

/-- What a line says. -/
def stmtOf (parseReal : String → Option F32) (line : String) : Option AsmStmt :=
  match stripPrefix "." line with
  | some rest =>
      match splitWhitespace rest with
      | "entry" :: name :: more => some (.entry name (more.headD ""))
      | _ => none
  | none =>
  match stripColon line with
  | some label => some (.label (String.ofList (trimChars label.toList)))
  | none =>
  match tokenize line with
  | [] => none
  | mnem :: toks =>
      (Opcode.fromMnemonic mnem).bind fun op => (written parseReal op toks).map .instr

/-- What a source says. -/
def program (parseReal : String → Option F32) (source : String) : List AsmStmt :=
  (asmLines source).filterMap fun l => stmtOf parseReal l.2

namespace AsmStmt

/-- Bytes of a statement. -/
def size : AsmStmt → ℕ
  | .instr w => w.op.shape.size
  | _ => 0

/-- The bytes of a statement before the labels are known. -/
def bytes : AsmStmt → List UInt8
  | .instr w => encodeInstruction w.instr
  | _ => []

/-- The label that a statement defines. -/
def labelName : AsmStmt → Option String
  | .label l => some l
  | _ => none

end AsmStmt

/-- Bytes of a list of statements. -/
def offset (stmts : List AsmStmt) : ℕ := (stmts.map AsmStmt.size).sum

@[simp] theorem offset_nil : offset [] = 0 := rfl

@[simp] theorem offset_cons (s : AsmStmt) (stmts : List AsmStmt) :
    offset (s :: stmts) = s.size + offset stmts := rfl

@[simp] theorem offset_append (xs ys : List AsmStmt) : offset (xs ++ ys) = offset xs + offset ys := by
  simp [offset]

/-- Statements with the bytes before them. -/
def located (o : ℕ) : List AsmStmt → List (ℕ × AsmStmt)
  | [] => []
  | s :: stmts => (o, s) :: located (o + s.size) stmts

theorem located_append (o : ℕ) (xs ys : List AsmStmt) :
    located o (xs ++ ys) = located o xs ++ located (o + offset xs) ys := by
  induction xs generalizing o with
  | nil => rfl
  | cons x xs ih => simp [located, ih, Nat.add_assoc]

/-- A located statement has the ones before it in front. -/
theorem mem_located {o p : ℕ} {s : AsmStmt} {stmts : List AsmStmt} :
    (p, s) ∈ located o stmts ↔ ∃ pre post, stmts = pre ++ s :: post ∧ p = o + offset pre := by
  induction stmts generalizing o with
  | nil => simp [located]
  | cons x xs ih =>
      rw [located, List.mem_cons, ih]
      constructor
      · rintro (heq | ⟨pre, post, rfl, rfl⟩)
        · cases heq
          exact ⟨[], xs, rfl, rfl⟩
        · exact ⟨x :: pre, post, rfl, by simp [Nat.add_assoc]⟩
      · rintro ⟨pre, post, heq, rfl⟩
        cases pre with
        | nil =>
            cases heq
            exact .inl rfl
        | cons y pre =>
            cases heq
            exact .inr ⟨pre, post, rfl, by simp [Nat.add_assoc]⟩

/-- The labels of located statements. -/
def labelsOf (places : List (ℕ × AsmStmt)) : List (String × ℕ) :=
  places.filterMap fun p => p.2.labelName.map fun l => (l, p.1 % 2 ^ 32)

/-- The entries of located statements. -/
def entriesOf (places : List (ℕ × AsmStmt)) : List EntryPoint :=
  places.filterMap fun p =>
    match p.2 with
    | .entry name kind => some (entryDirective name kind p.1)
    | _ => none

/-- The jumps to labels of located statements. -/
def fixupsOf (places : List (ℕ × AsmStmt)) : List (ℕ × String) :=
  places.filterMap fun p =>
    match p.2 with
    | .instr w => w.target.map fun l => (p.1, l)
    | _ => none

theorem labelsOf_append (xs ys : List (ℕ × AsmStmt)) :
    labelsOf (xs ++ ys) = labelsOf xs ++ labelsOf ys := List.filterMap_append ..

theorem entriesOf_append (xs ys : List (ℕ × AsmStmt)) :
    entriesOf (xs ++ ys) = entriesOf xs ++ entriesOf ys := List.filterMap_append ..

theorem fixupsOf_append (xs ys : List (ℕ × AsmStmt)) :
    fixupsOf (xs ++ ys) = fixupsOf xs ++ fixupsOf ys := List.filterMap_append ..

/-! ## Sizes -/

theorem WrittenInstr.size_instr (w : WrittenInstr) : w.instr.size = w.op.shape.size := by
  unfold WrittenInstr.instr
  cases w.op.shape <;> rfl

@[simp] theorem AsmStmt.bytes_length (s : AsmStmt) : s.bytes.length = s.size := by
  cases s with
  | instr w => exact (encodeInstruction_length _).trans w.size_instr
  | entry _ _ => rfl
  | label _ => rfl

@[simp] theorem flatMap_stmt_bytes_length (stmts : List AsmStmt) :
    (stmts.flatMap AsmStmt.bytes).length = offset stmts := by
  induction stmts with
  | nil => rfl
  | cons s stmts ih => simp [ih]

/-- A jump to a label is emitted with the target 0. -/
theorem WrittenInstr.Shaped.instr_jump {w : WrittenInstr} (hw : w.Shaped) {l : String}
    (htarget : w.target = some l) : w.instr = .simple w.op 0 := by
  obtain ⟨hshape, hops⟩ := hw.target (by simp [htarget])
  simp [WrittenInstr.instr, hshape, WrittenInstr.field, hops, asU32]

/-! ## The run over the lines -/

/-- The assembler after some statements. -/
structure AsmState.Holds (st : AsmState) (stmts : List AsmStmt) : Prop where
  code : st.code = stmts.flatMap AsmStmt.bytes
  entries : st.entries = entriesOf (located 0 stmts)
  labels : st.labels = (labelsOf (located 0 stmts)).reverse
  fixups : st.fixups.map (fun f => (f.1, f.2.1)) = fixupsOf (located 0 stmts)
  shaped : ∀ w, .instr w ∈ stmts → w.Shaped

namespace AsmState.Holds

variable {st st' : AsmState} {stmts : List AsmStmt}

theorem initial : AsmState.initial.Holds [] := ⟨rfl, rfl, rfl, rfl, by simp⟩

theorem codeLength (h : st.Holds stmts) : st.code.length = offset stmts := by
  rw [h.code, flatMap_stmt_bytes_length]

/-- Header fields are not code. -/
theorem headerField {line : ℕ} {kv : String} (h : st.Holds stmts)
    (hok : headerField line st kv = .ok st') : st'.Holds stmts := by
  unfold Ir.headerField at hok
  dsimp only at hok
  split_ifs at hok
  obtain ⟨n, -, hok⟩ := except_bind_ok.mp hok
  split_ifs at hok
  split at hok
  all_goals
    cases hok
    try exact ⟨h.code, h.entries, h.labels, h.fixups, h.shaped⟩

theorem headerFields {line : ℕ} {fields : List String} (h : st.Holds stmts)
    (hok : fields.foldlM (Ir.headerField line) st = .ok st') : st'.Holds stmts := by
  induction fields generalizing st with
  | nil =>
      cases hok
      exact h
  | cons kv fields ih =>
      obtain ⟨st₁, h₁, hok⟩ := except_bind_ok.mp hok
      exact ih (h.headerField h₁) hok

theorem entry (h : st.Holds stmts) (name kind : String) :
    AsmState.Holds { st with entries := st.entries ++ [entryDirective name kind st.code.length] }
      (stmts ++ [.entry name kind]) := by
  refine ⟨?_, ?_, ?_, ?_, ?_⟩
  · simpa [AsmStmt.bytes] using h.code
  · rw [located_append, entriesOf_append, Nat.zero_add, ← h.entries, h.codeLength]
    rfl
  · rw [located_append, labelsOf_append, List.reverse_append, ← h.labels]
    rfl
  · rw [located_append, fixupsOf_append, ← h.fixups]
    exact (List.append_nil _).symm
  · simpa using h.shaped

theorem label (h : st.Holds stmts) (l : String) :
    AsmState.Holds { st with labels := (l, st.code.length % 2 ^ 32) :: st.labels }
      (stmts ++ [.label l]) := by
  refine ⟨?_, ?_, ?_, ?_, ?_⟩
  · simpa [AsmStmt.bytes] using h.code
  · rw [located_append, entriesOf_append, ← h.entries]
    exact (List.append_nil _).symm
  · rw [located_append, labelsOf_append, Nat.zero_add, List.reverse_append, ← h.labels,
      h.codeLength]
    rfl
  · rw [located_append, fixupsOf_append, ← h.fixups]
    exact (List.append_nil _).symm
  · simpa using h.shaped

theorem emit (h : st.Holds stmts) {w : WrittenInstr} (hw : w.Shaped) (line : ℕ) :
    (st.emit line w.emitted).Holds (stmts ++ [.instr w]) := by
  have hlabels : labelsOf (located 0 (stmts ++ [.instr w])) = labelsOf (located 0 stmts) := by
    rw [located_append, labelsOf_append]
    exact List.append_nil _
  have hentries : entriesOf (located 0 (stmts ++ [.instr w])) = entriesOf (located 0 stmts) := by
    rw [located_append, entriesOf_append]
    exact List.append_nil _
  have hfixups : fixupsOf (located 0 (stmts ++ [.instr w])) =
      fixupsOf (located 0 stmts) ++ (w.target.map fun l => (offset stmts, l)).toList := by
    rw [located_append, fixupsOf_append, Nat.zero_add]
    cases htarget : w.target <;> simp [fixupsOf, located, htarget]
  have hbytes : (stmts ++ [AsmStmt.instr w]).flatMap AsmStmt.bytes =
      stmts.flatMap AsmStmt.bytes ++ encodeInstruction w.instr := by
    simp [AsmStmt.bytes]
  have hshaped : ∀ w', .instr w' ∈ stmts ++ [AsmStmt.instr w] → w'.Shaped := by
    intro w' hw'
    rcases List.mem_append.mp hw' with hw' | hw'
    · exact h.shaped w' hw'
    · cases List.mem_singleton.mp hw'
      exact hw
  cases htarget : w.target with
  | none =>
      simp only [WrittenInstr.emitted, htarget, AsmState.emit]
      refine ⟨?_, ?_, ?_, ?_, hshaped⟩
      · rw [hbytes, h.code]
      · rw [hentries, h.entries]
      · rw [hlabels, h.labels]
      · rw [hfixups, htarget, h.fixups]
        exact (List.append_nil _).symm
  | some l =>
      simp only [WrittenInstr.emitted, htarget, AsmState.emit]
      refine ⟨?_, ?_, ?_, ?_, hshaped⟩
      · rw [hbytes, h.code, hw.instr_jump htarget]
      · rw [hentries, h.entries]
      · rw [hlabels, h.labels]
      · rw [hfixups, htarget, List.map_append, h.fixups, h.codeLength]
        rfl

/-- **One line adds what it says.** -/
theorem line {parseReal : String → Option F32} {l : ℕ × String} (h : st.Holds stmts)
    (hok : asmLine parseReal st l = .ok st') :
    st'.Holds (stmts ++ (stmtOf parseReal l.2).toList) := by
  unfold asmLine at hok
  unfold stmtOf
  rcases hdot : stripPrefix "." l.2 with _ | rest
  swap
  · simp only [hdot] at hok ⊢
    unfold directive at hok
    split at hok
    · rename_i fields hfields
      simpa [hfields] using h.headerFields hok
    · rename_i parts hparts
      split at hok
      · cases hok
      · rename_i name more
        cases hok
        simpa [hparts] using h.entry name (more.headD "")
    · cases hok
  simp only [hdot] at hok ⊢
  rcases hcolon : stripColon l.2 with _ | label
  swap
  · simp only [hcolon] at hok ⊢
    split_ifs at hok
    cases hok
    simpa using h.label _
  simp only [hcolon] at hok ⊢
  rcases htoks : tokenize l.2 with _ | ⟨mnem, toks⟩
  · rw [htoks] at hok
    cases hok
    simpa using h
  simp only [htoks] at hok ⊢
  rcases hop : Opcode.fromMnemonic mnem with _ | op
  · rw [hop] at hok
    cases hok
  simp only [hop] at hok
  obtain ⟨e, he, hok⟩ := except_bind_ok.mp hok
  cases hok
  obtain ⟨w, hwritten, hshaped, rfl⟩ := emitInstr_says he
  simpa [hwritten] using h.emit hshaped l.1

theorem lines {parseReal : String → Option F32} {ls : List (ℕ × String)} (h : st.Holds stmts)
    (hok : ls.foldlM (asmLine parseReal) st = .ok st') :
    st'.Holds (stmts ++ ls.filterMap fun l => stmtOf parseReal l.2) := by
  induction ls generalizing st stmts with
  | nil =>
      cases hok
      simpa using h
  | cons l ls ih =>
      obtain ⟨st₁, h₁, hok⟩ := except_bind_ok.mp hok
      have hrest := ih (h.line h₁) hok
      cases hl : stmtOf parseReal l.2 <;> simpa [hl, List.filterMap_cons] using hrest

end AsmState.Holds

/-! ## Fixups -/

/-- The instruction that a line becomes once the labels are known. -/
def WrittenInstr.resolve (labels : List (String × ℕ)) (w : WrittenInstr) : DecodedInstr :=
  match w.target with
  | some l => .simple w.op ((labels.lookup l).getD 0 % 2 ^ 24)
  | none => w.instr

/-- The bytes of a statement. -/
def AsmStmt.final (labels : List (String × ℕ)) : AsmStmt → List UInt8
  | .instr w => encodeInstruction (w.resolve labels)
  | _ => []

theorem WrittenInstr.Shaped.size_resolve {w : WrittenInstr} (hw : w.Shaped)
    (labels : List (String × ℕ)) : (w.resolve labels).size = w.op.shape.size := by
  unfold WrittenInstr.resolve
  cases htarget : w.target with
  | none => exact w.size_instr
  | some l =>
      rw [(hw.target (by simp [htarget])).1]
      rfl

/-- Statements whose instructions are shaped. -/
def AllShaped (stmts : List AsmStmt) : Prop := ∀ w, .instr w ∈ stmts → w.Shaped

theorem AllShaped.of_append {xs ys : List AsmStmt} (h : AllShaped (xs ++ ys)) :
    AllShaped xs ∧ AllShaped ys :=
  ⟨fun w hw => h w (List.mem_append_left _ hw), fun w hw => h w (List.mem_append_right _ hw)⟩

theorem flatMap_stmt_final_length {stmts : List AsmStmt} (labels : List (String × ℕ))
    (h : AllShaped stmts) : (stmts.flatMap (AsmStmt.final labels)).length = offset stmts := by
  induction stmts with
  | nil => rfl
  | cons s stmts ih =>
      have hrest : AllShaped stmts := fun w hw => h w (List.mem_cons_of_mem _ hw)
      rw [List.flatMap_cons, List.length_append, ih hrest, offset_cons]
      congr 1
      cases s with
      | instr w =>
          rw [AsmStmt.final, encodeInstruction_length, (h w List.mem_cons_self).size_resolve]
          rfl
      | entry _ _ => rfl
      | label _ => rfl

/-- Aiming a jump. -/
theorem patchWord_jump (pre post : List UInt8) (op : Opcode) (pc : ℕ) :
    patchWord (pre ++ encodeInstruction (.simple op 0) ++ post) pre.length pc =
      pre ++ encodeInstruction (.simple op (pc % 2 ^ 24)) ++ post := by
  obtain ⟨hlt, -, -⟩ := packWord_fields op (by decide : 0 < 2 ^ 24)
  have hword : wordAt (pre ++ encodeInstruction (.simple op 0) ++ post) pre.length =
      packWord op 0 := wordAt_append pre post hlt
  have hop : packWord op 0 / 2 ^ 24 * 2 ^ 24 + pc % 2 ^ 24 = packWord op (pc % 2 ^ 24) := by
    simp only [packWord]
    omega
  rw [patchWord, hword, hop, writeAt]
  simp [encodeInstruction, List.append_assoc]

/-- **The fixups aim every jump at its label.** -/
theorem applyFixups_ok {labels : List (String × ℕ)} {stmts : List AsmStmt} {d code : List UInt8}
    {fixups : List (ℕ × String × ℕ)} (hshaped : AllShaped stmts)
    (hfixups : fixups.map (fun f => (f.1, f.2.1)) = fixupsOf (located d.length stmts))
    (h : applyFixups labels (d ++ stmts.flatMap AsmStmt.bytes) fixups = .ok code) :
    code = d ++ stmts.flatMap (AsmStmt.final labels) ∧
      ∀ w l, .instr w ∈ stmts → w.target = some l → (labels.lookup l).isSome := by
  induction stmts generalizing d fixups with
  | nil =>
      obtain rfl : fixups = [] := List.map_eq_nil_iff.mp hfixups
      cases h
      exact ⟨rfl, by simp⟩
  | cons s stmts ih =>
      have hrest : AllShaped stmts := fun w hw => hshaped w (List.mem_cons_of_mem _ hw)
      -- the statements after one that needs no patch, or has had it
      have hnext : ∀ (b : List UInt8) (fs : List (ℕ × String × ℕ)), b.length = s.size →
          fs.map (fun f => (f.1, f.2.1)) = fixupsOf (located (d.length + s.size) stmts) →
          applyFixups labels (d ++ b ++ stmts.flatMap AsmStmt.bytes) fs = .ok code →
          code = d ++ b ++ stmts.flatMap (AsmStmt.final labels) ∧
            ∀ w l, .instr w ∈ stmts → w.target = some l → (labels.lookup l).isSome := by
        intro b fs hb hfs hrun
        rw [← hb, ← List.length_append] at hfs
        exact ih hrest hfs hrun
      rw [located] at hfixups
      cases s with
      | entry name kind =>
          obtain ⟨hcode, hjumps⟩ := hnext [] fixups rfl hfixups (by simpa [AsmStmt.bytes] using h)
          refine ⟨by simpa [AsmStmt.final] using hcode, ?_⟩
          intro w l hw
          exact hjumps w l (by simpa using hw)
      | label name =>
          obtain ⟨hcode, hjumps⟩ := hnext [] fixups rfl hfixups (by simpa [AsmStmt.bytes] using h)
          refine ⟨by simpa [AsmStmt.final] using hcode, ?_⟩
          intro w l hw
          exact hjumps w l (by simpa using hw)
      | instr w =>
          have hw : w.Shaped := hshaped w List.mem_cons_self
          have hsize : ∀ i : DecodedInstr, i.size = w.op.shape.size →
              (encodeInstruction i).length = (AsmStmt.instr w).size := by
            intro i hi
            rw [encodeInstruction_length, hi]
            rfl
          cases htarget : w.target with
          | none =>
              have hfinal : AsmStmt.final labels (.instr w) = encodeInstruction w.instr := by
                simp [AsmStmt.final, WrittenInstr.resolve, htarget]
              obtain ⟨hcode, hjumps⟩ := hnext (encodeInstruction w.instr) fixups
                (hsize _ w.size_instr) (by simpa [fixupsOf, htarget] using hfixups)
                (by simpa [AsmStmt.bytes, List.append_assoc] using h)
              refine ⟨by simpa [hfinal, List.append_assoc] using hcode, ?_⟩
              intro w' l hw' hl
              rcases List.mem_cons.mp hw' with heq | hw'
              · cases heq
                rw [htarget] at hl
                cases hl
              · exact hjumps w' l hw' hl
          | some l =>
              have hcons : fixupsOf ((d.length, AsmStmt.instr w) ::
                  located (d.length + (AsmStmt.instr w).size) stmts) =
                  (d.length, l) :: fixupsOf (located (d.length + (AsmStmt.instr w).size) stmts) := by
                simp [fixupsOf, htarget]
              rw [hcons] at hfixups
              obtain ⟨⟨off, label, line⟩, fs, rfl, hhead, htail⟩ := List.map_eq_cons_iff.mp hfixups
              cases hhead
              simp only [applyFixups] at h
              split at h
              · cases h
              rename_i pc hpc
              split_ifs at h
              rw [List.flatMap_cons, AsmStmt.bytes, hw.instr_jump htarget, ← List.append_assoc,
                patchWord_jump] at h
              obtain ⟨hcode, hjumps⟩ := hnext _ fs
                (hsize (.simple w.op (pc % 2 ^ 24)) (by rw [(hw.target (by simp [htarget])).1]; rfl))
                htail h
              have hfinal : AsmStmt.final labels (.instr w) =
                  encodeInstruction (.simple w.op (pc % 2 ^ 24)) := by
                simp [AsmStmt.final, WrittenInstr.resolve, htarget, hpc]
              refine ⟨by simpa [hfinal, List.append_assoc] using hcode, ?_⟩
              intro w' l' hw' hl'
              rcases List.mem_cons.mp hw' with heq | hw'
              · cases heq
                rw [htarget] at hl'
                cases hl'
                simp [hpc]
              · exact hjumps w' l' hw' hl'

/-! ## Accepted sources -/

/-- The places of the labels, the last definition first. -/
def labelTable (stmts : List AsmStmt) : List (String × ℕ) := (labelsOf (located 0 stmts)).reverse

/-- What the assembler makes of statements. -/
structure CodeOf (stmts : List AsmStmt) (m : IrModule) : Prop where
  code : m.code = stmts.flatMap (AsmStmt.final (labelTable stmts))
  entries : m.entries =
    if entriesOf (located 0 stmts) = [] then [⟨"task.main", 0, false⟩]
    else entriesOf (located 0 stmts)
  defined : ∀ w l, .instr w ∈ stmts → w.target = some l → ((labelTable stmts).lookup l).isSome
  shaped : AllShaped stmts

/-- **The code of an accepted source.** -/
theorem assemble_ok {parseReal : String → Option F32} {source : String} {m : IrModule}
    (h : assemble parseReal source = .ok m) : CodeOf (program parseReal source) m := by
  obtain ⟨st, hlines, h⟩ := except_bind_ok.mp h
  obtain ⟨code, hfix, h⟩ := except_bind_ok.mp h
  cases h
  have hst : st.Holds (program parseReal source) := AsmState.Holds.initial.lines hlines
  have hlabels : st.labels = labelTable (program parseReal source) := hst.labels
  have hstart := hst.fixups
  rw [hst.code, hlabels] at hfix
  obtain ⟨hcode, hdefined⟩ := @applyFixups_ok _ _ [] _ _ hst.shaped hstart hfix
  exact ⟨hcode, by rw [← hst.entries], hdefined, hst.shaped⟩

end SoftPlc.Ir
