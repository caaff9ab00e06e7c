import SoftPlc.Compiler.Initial
import SoftPlc.St.Literals
import SoftPlc.St.Occurrences

/-!
# What literals denote at run time

An integer literal of the source is an `i64`, and the instruction that pushes it has 32 bits. The
compiler drops the upper half without a check, of integers in expressions, of constants and of `CASE`
labels; the sum of a TIME literal wraps at 64 bits before its range is checked, and initialisers of
anything but a constant of a program are not compiled at all. `literals_kept_iff` says for which
accepted programs every literal denotes what is written.
-/

namespace SoftPlc.Compiler

open SoftPlc.Ir SoftPlc.St SoftPlc.Lib SoftPlc.Vm

/-! ## Accepted programs -/

/-- The bodies that a compilation emits: those of the function blocks, and those of the programs that
tasks name. -/
def Compiled.bodies (c : Compiled) (file : ProjectFile) : List (List Stmt) :=
  c.decls.fbs.map (fun fb => fb.2.body) ++
    file.task.filterMap fun t => (c.decls.programs.lookup (lower t.program)).map Program.body

/-- An accepted program: its project as the parser returns it, which compiles, with the tokens of the
labels of its `CASE` arms and the texts of its TIME literals behind `T#`. -/
structure Accepted (order : HashOrder) (floats : Lex.Floats) (checks : Bool) where
  project : LoadedProject
  compiled : Compiled
  compiles : compileStages order project = .ok compiled
  /-- Tokens of labels, and what the parser makes of them. -/
  arms : List (List Token × List ℤ)
  parsed : ∀ a ∈ arms, ∃ rest, parseLabels a.1 = .ok (a.2, rest)
  armsOf : ∀ body ∈ compiled.bodies project.file, ∀ labels ∈ stmtsLabels body, ∃ toks,
    (toks, labels) ∈ arms
  /-- Texts of TIME literals, and what the lexer makes of them. -/
  times : List (List UInt8 × ℤ)
  lexed : ∀ t ∈ times, Lex.parseTimeLiteral floats checks t.1 = .ok t.2
  timesOf : ∀ body ∈ compiled.bodies project.file, ∀ v, .timeMs v ∈ stmtsLiterals body → ∃ text ms,
    (text, ms) ∈ times ∧ v = BitVec.ofInt 32 ms

/-! ## Denotation -/

/-- Executing an instruction pushes a value, whatever the state is. -/
def Pushes (i : DecodedInstr) (v : VmValue) : Prop :=
  ∀ image nowMs pc size s ctl t, execInstr image nowMs pc size i s = .ok ctl t →
    t.stack = v :: s.stack

/-- A written number fits a cell of 32 bits, and the code for it pushes the number. -/
def Kept (n : ℤ) (cell : BitVec 32 → VmValue) (code : DecodedInstr → Prop) : Prop :=
  fitsI32 n ∧ ∀ i, code i → ∃ v, Pushes i (cell v) ∧ v.toInt = n

/-- The instruction that pushes a label of an arm, in the code that tests its labels. -/
def LabelCode (labels : List ℤ) (k : ℕ) (i : DecodedInstr) : Prop :=
  ∃ tmp bodyL nextL g g', emitLabelTests tmp bodyL nextL labels g = .ok () g' ∧
    (g'.items.drop g.items.length)[4 * k + 1]? = some (.instr i)

variable {order : HashOrder} {floats : Lex.Floats} {checks : Bool}

/-- **Every literal denotes what is written.** -/
structure LiteralsKept (a : Accepted order floats checks) : Prop where
  /-- Integers in expressions. -/
  ints : ∀ body ∈ a.compiled.bodies a.project.file, ∀ n, .int n ∈ stmtsLiterals body →
    Kept n .dint (Emits (emitExpr order (.literal (.int n))))
  /-- Integers as initial values: the read of the variable pushes them. -/
  inits : ∀ block v i n, ReadOf a.compiled block v i → v.init = some (.literal (.int n)) →
    Kept n .dint (· = i)
  /-- Labels: an arm tests exactly the members of the ranges that are written. -/
  labels : ∀ arm ∈ a.arms, ∃ ranges rest, Spells ranges arm.1 rest ∧
    (∀ n, n ∈ arm.2 ↔ Covers ranges n) ∧
    ∀ k n, arm.2[k]? = some n → Kept n .dint (LabelCode arm.2 k)
  /-- TIME literals with whole components. -/
  times : ∀ t ∈ a.times, ∀ s : ℕ, Lex.writtenMillis t.1 = some s →
    Kept s .time (Emits (emitExpr order (.literal (.timeMs (BitVec.ofInt 32 t.2)))))

/-- Every literal fits a cell, and integers are initial values of constants only. -/
structure LiteralsFit (a : Accepted order floats checks) : Prop where
  ints : ∀ body ∈ a.compiled.bodies a.project.file, ∀ n, .int n ∈ stmtsLiterals body → fitsI32 n
  inits : ∀ block v i n, ReadOf a.compiled block v i → v.init = some (.literal (.int n)) →
    fitsI32 n ∧ ∃ value, constantFor a.compiled.decls block v = some value ∧
      value.value = (Literal.int n).value
  labels : ∀ arm ∈ a.arms, ∀ n ∈ arm.2, fitsI32 n
  times : ∀ t ∈ a.times, ∀ s : ℕ, Lex.writtenMillis t.1 = some s → fitsI32 s

/-! ## Pushes -/

theorem fitsI32_iff {n : ℤ} : fitsI32 n = true ↔ -2 ^ 31 ≤ n ∧ n < 2 ^ 31 := by
  simp [fitsI32]

theorem ofInt_toInt {n : ℤ} (h : fitsI32 n) : (BitVec.ofInt 32 n).toInt = n := by
  rw [fitsI32_iff] at h
  rw [BitVec.toInt_ofInt]
  exact Int.bmod_eq_of_le (by omega) (by omega)

/-- The push of a literal, from any state with room for it. -/
theorem exec_literal (value : Literal) (image : VmImage) (nowMs pc size : ℕ) (s : VmState) :
    execInstr image nowMs pc size (literalInstr value) s =
      (do push value.value pc; pure (Control.goto (pc + size)) : VmM Control) s := by
  cases value with
  | bool b => cases b <;> rfl
  | int n =>
      have hv : BitVec.ofNat 32 (asU32 n) = BitVec.ofInt 32 n := by
        apply BitVec.eq_of_toNat_eq
        simp only [asU32, BitVec.toNat_ofNat, BitVec.toNat_ofInt]
        omega
      simp [literalInstr, execInstr, Literal.value, hv]
  | real v => simp [literalInstr, execInstr, Literal.value]
  | timeMs v => simp [literalInstr, execInstr, Literal.value]

theorem pushes_literal (value : Literal) : Pushes (literalInstr value) value.value := by
  intro image nowMs pc size s ctl t h
  rw [exec_literal] at h
  obtain ⟨u, t', hpush, h⟩ := estate_bind_ok.mp h
  obtain ⟨-, rfl⟩ := push_ok.mp hpush
  cases h
  rfl

/-- A machine to try instructions on, with so much memory. -/
def blankState (size : ℕ) : VmState :=
  .cold ⟨irMajor, irMinor, 0, size, size, size, size, [], [], []⟩ 0

/-- A literal pushes nothing else. -/
theorem Pushes.literal_eq {value : Literal} {v : VmValue} (h : Pushes (literalInstr value) v) :
    value.value = v := by
  have hrun : execInstr ⟨[], [], [], 0⟩ 0 0 0 (literalInstr value) (blankState 0) =
      .ok (.goto 0) ((blankState 0).withStack [value.value]) := by
    rw [exec_literal]
    rfl
  have hstack := h _ _ _ _ _ _ _ hrun
  exact (List.cons.inj hstack).1

/-! ## Loads -/

theorem load_zeros {n a pc : ℕ} (h : a < n) :
    (ByteSegment.zeros n).load a pc = .ok (.bool false) := by
  have hcold := ByteSegment.coldAt_zeros n a
  have htag : (ByteSegment.zeros n).tagAt a = .bool := by
    simp [ByteSegment.tagAt, hcold.2]
  have hload : ∃ v, (ByteSegment.zeros n).load a pc = .ok v :=
    ⟨_, ByteSegment.load_ok_iff.mpr ⟨by rw [htag, ByteSegment.len_zeros]; exact h, rfl⟩⟩
  obtain ⟨v, hv⟩ := hload
  rw [hv, hcold.load hv]

theorem get_bools {n slot pc : ℕ} (h : slot < n) :
    (SlotImage.bools n).get slot pc = .ok (.bool false) := by
  simp [SlotImage.get, SlotImage.bools, h]

/-- A load from cold memory. -/
theorem IsLoad.exec_cold {i : DecodedInstr} (hi : IsLoad i) :
    ∃ s t, s.stack = [] ∧ execInstr ⟨[], [], [], 0⟩ 0 0 0 i s = .ok (.goto 0) t ∧
      t.stack = [.bool false] := by
  obtain ⟨op, payload, rfl, hop⟩ := hi
  have hdata : ∀ segment : ByteSegment, segment = .zeros (payload + 1) →
      segment.load (satAdd32 0 payload) 0 = .ok (.bool false) := by
    rintro segment rfl
    have hle : satAdd32 0 payload ≤ 0 + payload := min_le_left _ _
    exact load_zeros (by omega)
  have hslot : ∀ slots : SlotImage, slots = .bools (payload + 1) →
      slots.get payload 0 = .ok (.bool false) := by
    rintro slots rfl
    exact get_bools (Nat.lt_succ_self payload)
  -- the blank state with the loaded value on its stack
  refine ⟨blankState (payload + 1), (blankState (payload + 1)).withStack [.bool false], rfl, ?_, rfl⟩
  rcases hop with rfl | rfl | rfl | rfl
  · exact estate_bind_ok.mpr ⟨_, _, rfl, estate_bind_ok.mpr
      ⟨_, _, liftErr_ok.mpr ⟨hdata _ rfl, rfl⟩, rfl⟩⟩
  · exact estate_bind_ok.mpr ⟨_, _, rfl, estate_bind_ok.mpr
      ⟨_, _, liftErr_ok.mpr ⟨hdata _ rfl, rfl⟩, rfl⟩⟩
  · exact estate_bind_ok.mpr ⟨_, _, rfl, estate_bind_ok.mpr
      ⟨_, _, liftErr_ok.mpr ⟨hslot _ rfl, rfl⟩, rfl⟩⟩
  · exact estate_bind_ok.mpr ⟨_, _, rfl, estate_bind_ok.mpr
      ⟨_, _, liftErr_ok.mpr ⟨hslot _ rfl, rfl⟩, rfl⟩⟩

/-- A load pushes what the memory holds, and so no integer of its own. -/
theorem IsLoad.not_pushes {i : DecodedInstr} (hi : IsLoad i) {v : BitVec 32} :
    ¬Pushes i (.dint v) := by
  intro h
  obtain ⟨s, t, hs, hrun, ht⟩ := hi.exec_cold
  have hpush := h _ _ _ _ _ _ _ hrun
  rw [ht, hs] at hpush
  cases hpush

/-! ## Labels -/

theorem getElem?_labelTests {tmp : ℕ} {bodyL nextL : Label} {labels : List ℤ} {k : ℕ} {n : ℤ}
    (h : labels[k]? = some n) :
    (labelTests tmp bodyL nextL labels)[4 * k + 1]? = some (.instr (literalInstr (.int n))) := by
  induction labels generalizing k with
  | nil => cases h
  | cons lab rest ih =>
      cases k with
      | zero =>
          cases h
          rfl
      | succ k =>
          have hk : 4 * (k + 1) + 1 = 4 * k + 1 + 1 + 1 + 1 + 1 := by omega
          rw [hk, labelTests]
          exact ih h

/-- A label is pushed like an integer in an expression. -/
theorem LabelCode.eq {labels : List ℤ} {k : ℕ} {i : DecodedInstr} {n : ℤ}
    (h : LabelCode labels k i) (hn : labels[k]? = some n) : i = literalInstr (.int n) := by
  obtain ⟨tmp, bodyL, nextL, g, g', hrun, hi⟩ := h
  rw [emitLabelTests_eq] at hrun
  cases hrun
  rw [Codegen.adds_items, List.drop_left, getElem?_labelTests hn] at hi
  cases hi
  rfl

/-! ## The property -/

theorem kept_int {n : ℤ} {code : DecodedInstr → Prop} (hfits : fitsI32 n)
    (hcode : ∀ i, code i → i = literalInstr (.int n)) : Kept n .dint code := by
  refine ⟨hfits, fun i hi => ?_⟩
  rw [hcode i hi]
  exact ⟨BitVec.ofInt 32 n, pushes_literal (.int n), ofInt_toInt hfits⟩

theorem emits_literalExpr {value : Literal} {i : DecodedInstr}
    (h : Emits (emitExpr order (.literal value)) i) : i = literalInstr value := by
  simp only [emitExpr] at h
  exact emits_literal h

section Iff

variable {a : Accepted order floats checks}

/-- Literals that fit are kept. -/
theorem LiteralsFit.kept (hfloats : floats.Whole) (h : LiteralsFit a) : LiteralsKept a where
  ints body hbody n hn := kept_int (h.ints body hbody n hn) fun i hi => emits_literalExpr hi
  inits block v i n hread hinit := by
    obtain ⟨hfits, value, hvalue, heq⟩ := h.inits block v i n hread hinit
    rcases hread.cases a.compiles with ⟨hnone, -⟩ | ⟨value', hvalue', rfl⟩
    · rw [hvalue] at hnone
      cases hnone
    · rw [hvalue] at hvalue'
      cases hvalue'
      refine ⟨hfits, fun i hi => ⟨BitVec.ofInt 32 n, ?_, ofInt_toInt hfits⟩⟩
      rw [show i = literalInstr value from hi]
      have hpush := pushes_literal value
      rwa [heq] at hpush
  labels arm harm := by
    obtain ⟨rest, hparse⟩ := a.parsed arm harm
    obtain ⟨ranges, hspells, hmem⟩ := parseLabels_spells hparse
    refine ⟨ranges, rest, hspells, hmem, fun k n hn => ?_⟩
    exact kept_int (h.labels arm harm n (List.mem_of_getElem? hn)) fun i hi => hi.eq hn
  times t ht s hs := by
    have hfits := h.times t ht s hs
    have hsmall : s < 2 ^ 31 := by
      rw [fitsI32_iff] at hfits
      omega
    have hms : t.2 = s := (Lex.parseTimeLiteral_sum hfloats (a.lexed t ht) hs).mpr hsmall
    refine ⟨hfits, fun i hi => ⟨BitVec.ofInt 32 t.2, ?_, ?_⟩⟩
    · rw [emits_literalExpr hi]
      exact pushes_literal (.timeMs _)
    · rw [hms]
      exact ofInt_toInt hfits

/-- Literals that are kept fit. -/
theorem LiteralsKept.fit (h : LiteralsKept a) : LiteralsFit a where
  ints body hbody n hn := (h.ints body hbody n hn).1
  inits block v i n hread hinit := by
    obtain ⟨hfits, hcode⟩ := h.inits block v i n hread hinit
    obtain ⟨w, hpush, hw⟩ := hcode i rfl
    refine ⟨hfits, ?_⟩
    rcases hread.cases a.compiles with ⟨-, hload⟩ | ⟨value, hvalue, rfl⟩
    · exact absurd hpush hload.not_pushes
    · refine ⟨value, hvalue, ?_⟩
      rw [hpush.literal_eq, ← hw]
      exact congrArg VmValue.dint (BitVec.ofInt_toInt).symm
  labels arm harm n hn := by
    obtain ⟨ranges, rest, -, -, hcode⟩ := h.labels arm harm
    obtain ⟨k, hk⟩ := List.mem_iff_getElem?.mp hn
    exact (hcode k n hk).1
  times t ht s hs := (h.times t ht s hs).1

end Iff

/-- **Which accepted programs keep their literals.** -/
theorem literals_kept_iff (hfloats : floats.Whole) (a : Accepted order floats checks) :
    LiteralsKept a ↔ LiteralsFit a :=
  ⟨LiteralsKept.fit, LiteralsFit.kept hfloats⟩

/-! ## Small programs -/

/-- Floating-point numbers for texts of whole numbers. -/
def wholeFloats : Lex.Floats where
  F64 := ℕ
  parse num := if num.all Lex.isDigit then some (Lex.digitsNumber num) else none
  millis value unit := BitVec.ofNat 64 (min (value * unit) (2 ^ 63 - 1))

theorem wholeFloats_whole : wholeFloats.Whole := by
  intro num value unit _ hdigits hparse _ hle
  have hall : num.all Lex.isDigit = true := List.all_eq_true.mpr hdigits
  obtain rfl : Lex.digitsNumber num = value := by
    have hsome : (if num.all Lex.isDigit then some (Lex.digitsNumber num) else none) = some value :=
      hparse
    rw [if_pos hall] at hsome
    exact Option.some.inj hsome
  show (BitVec.ofNat 64 (min (Lex.digitsNumber num * unit) (2 ^ 63 - 1))).toInt = _
  rw [min_eq_left (by omega), BitVec.toInt_ofNat']
  exact Int.bmod_eq_of_le (by omega) (by omega)

/-- A sum that wraps at 64 bits is accepted as one millisecond. -/
example : (Lex.parseTimeLiteral wholeFloats false
    (utf8 "9223372036854775807ms9223372036854775807ms3ms")).toOption = some 1 := by
  decide +kernel

/-- `y := 5; t := T#1s500ms; CASE y OF 1..3: END_CASE` -/
def smallProgram : LoadedProject :=
  singleTask [⟨.var, [plainVar "y" "DINT" none, plainVar "t" "TIME" none]⟩]
    [.assign (ident "y") (.literal (.int 5)), .assign (ident "t") (.literal (.timeMs 1500)),
      .case (ident "y") [⟨[1, 2, 3], []⟩] none] []

theorem literals_kept_iff_small :
    ∃ a : Accepted .listed wholeFloats false, a.project = smallProgram ∧
      (LiteralsKept a ↔ LiteralsFit a) := by
  obtain ⟨c, hc, hlabels, hliterals⟩ :
      ∃ c, compileStages .listed smallProgram = .ok c ∧
        (c.bodies smallProgram.file).map stmtsLabels = [[[1, 2, 3]]] ∧
        (c.bodies smallProgram.file).map stmtsLiterals = [[.int 5, .timeMs 1500]] :=
    except_of_decide (by decide +kernel)
  have hparse : parseLabels [.intLit (some 1), .dotDot, .intLit (some 3), .colon] =
      .ok ([1, 2, 3], [.colon]) := by
    simp [parseLabels, parseLabel, span, List.range_succ]
  have hlex : Lex.parseTimeLiteral wholeFloats false (utf8 "1s500ms") = .ok 1500 :=
    except_of_toOption (by decide +kernel)
  refine ⟨⟨smallProgram, c, hc,
    [([.intLit (some 1), .dotDot, .intLit (some 3), .colon], [1, 2, 3])], ?_, ?_,
    [(utf8 "1s500ms", 1500)], ?_, ?_⟩, rfl, literals_kept_iff wholeFloats_whole _⟩
  · intro a ha
    cases List.mem_singleton.mp ha
    exact ⟨_, hparse⟩
  · intro body hbody labels hl
    have hmem := List.mem_map_of_mem (f := stmtsLabels) hbody
    rw [hlabels, List.mem_singleton] at hmem
    rw [hmem, List.mem_singleton] at hl
    exact ⟨_, by rw [hl]; exact List.mem_singleton_self _⟩
  · intro t ht
    cases List.mem_singleton.mp ht
    exact hlex
  · intro body hbody v hv
    have hmem := List.mem_map_of_mem (f := stmtsLiterals) hbody
    rw [hliterals, List.mem_singleton] at hmem
    rw [hmem] at hv
    refine ⟨_, _, List.mem_singleton_self _, ?_⟩
    simpa using hv

/-- `y := 4294967301` -/
def wideProgram : LoadedProject :=
  singleTask [⟨.var, [plainVar "y" "DINT" none]⟩]
    [.assign (ident "y") (.literal (.int 4294967301))] []

/-- **An integer of 33 bits is accepted**, and its code pushes 5. -/
theorem wide_literal_wraps :
    ∃ a : Accepted .listed wholeFloats false, a.project = wideProgram ∧
      (∀ i, Emits (emitExpr .listed (.literal (.int 4294967301))) i → Pushes i (.dint 5)) ∧
      ¬LiteralsKept a := by
  obtain ⟨c, hc, hlabels, hliterals⟩ :
      ∃ c, compileStages .listed wideProgram = .ok c ∧
        (c.bodies wideProgram.file).map stmtsLabels = [[]] ∧
        (c.bodies wideProgram.file).map stmtsLiterals = [[.int 4294967301]] :=
    except_of_decide (by decide +kernel)
  have hbodies : ∀ body ∈ c.bodies wideProgram.file,
      stmtsLabels body = [] ∧ stmtsLiterals body = [.int 4294967301] := by
    intro body hbody
    have h₁ := List.mem_map_of_mem (f := stmtsLabels) hbody
    have h₂ := List.mem_map_of_mem (f := stmtsLiterals) hbody
    rw [hlabels, List.mem_singleton] at h₁
    rw [hliterals, List.mem_singleton] at h₂
    exact ⟨h₁, h₂⟩
  refine ⟨⟨wideProgram, c, hc, [], by simp, ?_, [], by simp, ?_⟩, rfl, ?_, ?_⟩
  · intro body hbody labels hl
    rw [(hbodies body hbody).1] at hl
    cases hl
  · intro body hbody v hv
    rw [(hbodies body hbody).2] at hv
    simp at hv
  · intro i hi
    rw [emits_literalExpr hi]
    exact pushes_literal (.int 4294967301)
  · intro h
    obtain ⟨body, hbody⟩ : ∃ body, body ∈ c.bodies wideProgram.file := by
      apply List.exists_mem_of_ne_nil
      intro hnil
      rw [hnil] at hlabels
      cases hlabels
    have hmem : .int 4294967301 ∈ stmtsLiterals body := by
      rw [(hbodies body hbody).2]
      exact List.mem_singleton_self _
    exact absurd (h.ints body hbody 4294967301 hmem).1 (by decide)

end SoftPlc.Compiler
