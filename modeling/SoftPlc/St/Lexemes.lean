import SoftPlc.St.Lex
import Mathlib.Data.List.TakeWhile

/-!
# What the lexer reads

The lexemes of a source, stated on its bytes and without the loop of `plc-compiler/src/lex.rs`, with
what the scans of the loop find of them: stretches of bytes, block comments, numbers and the sums of
TIME literals.
-/

namespace SoftPlc.St.Lex

open SoftPlc.Lib

/-! ## Characters -/

/-- Bytes that start with a character, where a character starts after every ASCII byte. -/
structure Clean (bytes : List UInt8) : Prop where
  boundary : atBoundary bytes = true
  chain : bytes.IsChain fun a b => a.toNat < 128 → isContinuation b = false

theorem atBoundary_cons {b : UInt8} {rest : List UInt8} :
    atBoundary (b :: rest) = !isContinuation b := rfl

/-- The bytes of a character: one ASCII byte, or bytes beyond ASCII of which the first does not
continue a character. -/
theorem utf8EncodeChar_cases (c : Char) :
    (∃ b, String.utf8EncodeChar c = [b] ∧ b.toNat < 128) ∨
      ∃ b bs, String.utf8EncodeChar c = b :: bs ∧ 192 ≤ b.toNat ∧ ∀ d ∈ bs, 128 ≤ d.toNat := by
  unfold String.utf8EncodeChar
  dsimp only
  split
  · refine .inl ⟨_, rfl, ?_⟩
    rw [UInt8.toNat_ofNat']
    omega
  all_goals
    refine .inr ?_
    split_ifs
    all_goals
      refine ⟨_, _, rfl, ?_, ?_⟩
      · rw [UInt8.toNat_ofNat']
        omega
      · intro d hd
        simp only [List.mem_cons, List.not_mem_nil, or_false] at hd
        rcases hd with rfl | rfl | rfl
        all_goals
          rw [UInt8.toNat_ofNat']
          omega

theorem chain_of_large {bs : List UInt8} (h : ∀ b ∈ bs, 128 ≤ b.toNat) :
    bs.IsChain fun a b => a.toNat < 128 → isContinuation b = false := by
  induction bs with
  | nil => exact .nil
  | cons b bs ih =>
      rw [List.isChain_cons]
      refine ⟨?_, ih fun d hd => h d (List.mem_cons_of_mem _ hd)⟩
      intro _ _ hlt
      have hb := h b List.mem_cons_self
      omega

theorem clean_flatMap (cs : List Char) : Clean (cs.flatMap String.utf8EncodeChar) := by
  induction cs with
  | nil => exact ⟨rfl, .nil⟩
  | cons c cs ih =>
      rw [List.flatMap_cons]
      -- No character after the first starts with a continuation byte.
      have hnext : ∀ y ∈ (cs.flatMap String.utf8EncodeChar).head?, isContinuation y = false := by
        intro y hy
        obtain ⟨rest, hrest⟩ := List.head?_eq_some_iff.mp hy
        have hboundary := ih.boundary
        rw [hrest, atBoundary_cons] at hboundary
        simpa using hboundary
      rcases utf8EncodeChar_cases c with ⟨b, hb, hlt⟩ | ⟨b, bs, hb, hle, hbs⟩
      · rw [hb]
        refine ⟨?_, ?_⟩
        · rw [List.singleton_append, atBoundary_cons, isContinuation]
          have hnot : ¬128 ≤ b.toNat := by omega
          simp [hnot]
        · rw [List.isChain_append]
          exact ⟨.singleton b, ih.chain, fun _ _ y hy _ => hnext y hy⟩
      · rw [hb]
        refine ⟨?_, ?_⟩
        · rw [List.cons_append, atBoundary_cons, isContinuation]
          have hnot : ¬b.toNat < 192 := by omega
          simp [hnot]
        · rw [List.isChain_append]
          refine ⟨chain_of_large ?_, ih.chain, fun _ _ y hy _ => hnext y hy⟩
          intro d hd
          rcases List.mem_cons.mp hd with rfl | hd
          · omega
          · exact hbs d hd

/-- The bytes of a string are clean. -/
theorem utf8_clean (s : String) : Clean (utf8 s) := utf8_eq_flatMap s ▸ clean_flatMap s.toList

section Clean

variable {x y rest : List UInt8} {b : UInt8}

/-- After an ASCII byte a character starts. -/
theorem Clean.after (h : Clean (x ++ rest)) (hlast : ∀ b ∈ x.getLast?, b.toNat < 128) :
    Clean rest := by
  have hsplit := List.isChain_append.mp h.chain
  refine ⟨?_, hsplit.2.1⟩
  rcases x.eq_nil_or_concat with rfl | ⟨x', b, rfl⟩
  · exact h.boundary
  · rcases rest with _ | ⟨d, rest⟩
    · rfl
    · rw [atBoundary_cons]
      have hb : b.toNat < 128 := hlast b (by simp)
      have hd := hsplit.2.2 b (by simp) d rfl hb
      rw [hd]
      rfl

/-- Before an ASCII byte, and at the end, a character starts. -/
theorem Clean.before (h : Clean (x ++ rest)) (hhead : ∀ b ∈ rest.head?, b.toNat < 128) :
    Clean rest := by
  refine ⟨?_, (List.isChain_append.mp h.chain).2.1⟩
  rcases rest with _ | ⟨b, rest⟩
  · rfl
  · have hb : b.toNat < 128 := hhead b rfl
    rw [atBoundary_cons, isContinuation]
    have hnot : ¬128 ≤ b.toNat := by omega
    simp [hnot]

theorem all_getLast? {p : UInt8 → Prop} (h : ∀ b ∈ x, p b) : ∀ b ∈ x.getLast?, p b :=
  fun b hb => h b (List.mem_of_getLast? hb)

/-- A slice between two characters. -/
theorem slice_append (hy : atBoundary (y ++ rest) = true) (hrest : atBoundary rest = true) :
    slice (x ++ (y ++ rest)) x.length (x.length + y.length) = .ok y := by
  have hlast : (x ++ (y ++ rest)).drop (x.length + y.length) = rest := by
    rw [← List.drop_drop, List.drop_left, List.drop_left]
  unfold slice
  rw [hlast, List.drop_left, hy, hrest, Nat.add_sub_cancel_left, List.take_left]
  simp only [List.length_append]
  rw [if_pos]
  simp only [Bool.and_true, Bool.and_eq_true, decide_eq_true_eq]
  omega

/-- The slice of a lexeme. -/
theorem slice_front (h : Clean (x ++ rest)) (hrest : Clean rest) :
    slice (x ++ rest) 0 x.length = .ok x := by
  have hslice := slice_append (x := []) h.boundary hrest.boundary
  simpa using hslice

/-- A slice that ends inside of a character. -/
theorem slice_panics {lo hi : ℕ} (h : atBoundary (rest.drop hi) = false) :
    slice rest lo hi = .error .panic := by
  unfold slice
  rw [h, Bool.and_false]
  rfl

end Clean

/-! ## Lexemes -/

/-- The longest stretch of bytes of a kind in front of a rest. -/
structure Stretch (p : UInt8 → Bool) (x rest : List UInt8) : Prop where
  all : ∀ b ∈ x, p b = true
  stop : ∀ b ∈ rest.head?, p b = false

/-- A text in which no block comment ends, also not with a star after it. -/
def Unclosed (body : List UInt8) : Prop := ∀ pre post, body ++ [42] ≠ pre ++ 42 :: 41 :: post

/-- White space and comments, with the bytes after them. -/
inductive GapPart : List UInt8 → List UInt8 → Prop
  | space {b : UInt8} {rest : List UInt8} (h : isSpace b = true) : GapPart [b] rest
  | block {body rest : List UInt8} (h : Unclosed body) :
      GapPart ([40, 42] ++ (body ++ [42, 41])) rest
  | line {body rest : List UInt8} (h : Stretch (· != 10) body rest) : GapPart ([47, 47] ++ body) rest

/-- The exponent of a real number, perhaps none. -/
inductive Exponent : List UInt8 → List UInt8 → Prop
  | none {rest : List UInt8} (h : ∀ b ∈ rest.head?, b ≠ 101 ∧ b ≠ 69) : Exponent [] rest
  | signed {e sign : UInt8} {ds rest : List UInt8} (he : e = 101 ∨ e = 69)
      (hsign : sign = 43 ∨ sign = 45) (hds : Stretch isDigit ds rest) :
      Exponent (e :: sign :: ds) rest
  | unsigned {e : UInt8} {ds rest : List UInt8} (he : e = 101 ∨ e = 69)
      (hsign : ∀ b ∈ (ds ++ rest).head?, b ≠ 43 ∧ b ≠ 45) (hds : Stretch isDigit ds rest) :
      Exponent (e :: ds) rest

/-- Numbers; the flag says whether it is a real one. -/
inductive Number : Bool → List UInt8 → List UInt8 → Prop
  | int {ds rest : List UInt8} (hne : ds ≠ []) (hds : Stretch isDigit ds rest)
      (hnot : ∀ d more, rest = 46 :: d :: more → isDigit d = false) : Number false ds rest
  | real {ds fs ex rest : List UInt8} (hne : ds ≠ []) (hds : ∀ d ∈ ds, isDigit d = true)
      (hfs : fs ≠ []) (hstretch : Stretch isDigit fs (ex ++ rest)) (hex : Exponent ex rest) :
      Number true (ds ++ 46 :: (fs ++ ex)) rest

/-- A byte that starts an operator or nothing at all, with the bytes after it. -/
structure Symbol (b : UInt8) (rest : List UInt8) : Prop where
  space : isSpace b = false
  block : ¬(b = 40 ∧ rest.head? = some 42)
  line : ¬(b = 47 ∧ rest.head? = some 47)
  address : b ≠ 37
  digit : isDigit b = false
  alpha : isAlpha b = false
  underscore : b ≠ 95

/-- The parts of a TIME literal, a number and a unit each, with what they add up. -/
inductive TimeParts (floats : Floats) : List UInt8 → List (BitVec 64) → Prop
  | nil : TimeParts floats [] []
  | cons {num rest rest' : List UInt8} {c : UInt8} {value : floats.F64} {unit : ℕ}
      {adds : List (BitVec 64)} (hne : num ≠ [])
      (hnum : ∀ d ∈ num, (isDigit d || d == 46) = true) (hvalue : floats.parse num = some value)
      (hunit : timeUnit c rest = some (unit, rest')) (hrest : TimeParts floats rest' adds) :
      TimeParts floats (num ++ c :: rest) (floats.millis value unit :: adds)

/-- A TIME literal, with its `i64` sum in the range of an `i32`. -/
def TimeText (floats : Floats) (body : List UInt8) (ms : ℤ) : Prop :=
  body ≠ [] ∧ ∃ adds, TimeParts floats (body.map toLower) adds ∧
    ms = (adds.foldl (· + ·) 0).toInt ∧ -2 ^ 31 ≤ ms ∧ ms < 2 ^ 31

/-- Lexemes with the bytes after them: gaps and tokens. -/
inductive Lexeme (floats : Floats) : List UInt8 → List UInt8 → Prop
  | gap {x rest : List UInt8} (h : GapPart x rest) : Lexeme floats x rest
  | address {plane : UInt8} {ds rest : List UInt8} (hplane : toUpper plane ∈ [73, 81, 77, 82])
      (hne : ds ≠ []) (hds : Stretch isDigit ds rest) : Lexeme floats (37 :: plane :: ds) rest
  | time {t : UInt8} {body rest : List UInt8} {ms : ℤ} (ht : t = 84 ∨ t = 116)
      (hbody : Stretch isTimeByte body rest)
      (hms : TimeText floats body ms) : Lexeme floats (t :: 35 :: body) rest
  | number {isReal : Bool} {x rest : List UInt8} (h : Number isReal x rest) : Lexeme floats x rest
  | word {b : UInt8} {ws rest : List UInt8} (hb : isAlpha b = true ∨ b = 95)
      (hws : Stretch isWord ws rest)
      (hnot : ¬((b = 84 ∨ b = 116) ∧ (ws ++ rest).head? = some 35)) : Lexeme floats (b :: ws) rest
  | two {b c : UInt8} {kind : TokenKind} {rest : List UInt8} (h : twoByte [b, c] = some kind) :
      Lexeme floats [b, c] rest
  | one {b : UInt8} {kind : TokenKind} {rest : List UInt8} (hb : Symbol b rest)
      (h : oneByte b = some kind) (hnot : ∀ c ∈ rest.head?, twoByte [b, c] = none) :
      Lexeme floats [b] rest

/-- What is left after some lexemes. -/
inductive Reaches (floats : Floats) : List UInt8 → List UInt8 → Prop
  | refl (bytes : List UInt8) : Reaches floats bytes bytes
  | step {x rest bytes : List UInt8} (h : Lexeme floats x rest) (hrest : Reaches floats rest bytes) :
      Reaches floats (x ++ rest) bytes

/-! ## Sums of TIME literals -/

/-- What a TIME literal adds up, up to its first error. -/
def timeAddends (floats : Floats) (chars_ num : List UInt8) : List (BitVec 64) :=
  match chars_ with
  | [] => []
  | c :: rest =>
      if isDigit c || c == 46 then timeAddends floats rest (num ++ [c])
      else if num = [] then []
      else
        match floats.parse num with
        | none => []
        | some value =>
            match _h : timeUnit c rest with
            | none => []
            | some (unit, rest') => floats.millis value unit :: timeAddends floats rest' []
termination_by chars_.length
decreasing_by
  · exact Nat.lt_succ_self _
  · exact Nat.lt_succ_of_le (timeUnit_rest _h)

/-- Some partial sum is no `i64`. -/
def Exceeds (total : ℤ) (adds : List (BitVec 64)) : Prop :=
  ∃ k, ¬(-2 ^ 63 ≤ total + ((adds.take k).map BitVec.toInt).sum ∧
    total + ((adds.take k).map BitVec.toInt).sum < 2 ^ 63)

theorem not_exceeds_nil (total : BitVec 64) : ¬Exceeds total.toInt [] := by
  rintro ⟨k, hk⟩
  apply hk
  have hlo := @BitVec.le_toInt 64 total
  have hhi := @BitVec.toInt_lt 64 total
  simp only [List.take_nil, List.map_nil, List.sum_nil, Int.add_zero]
  omega

theorem saddOverflow_iff (x y : BitVec 64) :
    x.saddOverflow y = true ↔ ¬(-2 ^ 63 ≤ x.toInt + y.toInt ∧ x.toInt + y.toInt < 2 ^ 63) := by
  unfold BitVec.saddOverflow
  simp only [Bool.or_eq_true, decide_eq_true_eq]
  omega

theorem exceeds_cons {total add : BitVec 64} {adds : List (BitVec 64)} :
    Exceeds total.toInt (add :: adds) ↔
      total.saddOverflow add = true ∨ Exceeds (total.toInt + add.toInt) adds := by
  rw [saddOverflow_iff]
  constructor
  · rintro ⟨k, hk⟩
    rcases k with _ | k
    · exact absurd (not_exceeds_nil total) (not_not.mpr ⟨0, hk⟩)
    · refine .inr ⟨k, ?_⟩
      rw [List.take_succ_cons, List.map_cons, List.sum_cons, ← Int.add_assoc] at hk
      exact hk
  · rintro (h | ⟨k, hk⟩)
    · refine ⟨1, ?_⟩
      simpa using h
    · refine ⟨k + 1, ?_⟩
      rw [List.take_succ_cons, List.map_cons, List.sum_cons, ← Int.add_assoc]
      exact hk

variable {floats : Floats}

theorem timeLoop_value {checks : Bool} {c : UInt8} {rest num : List UInt8} {total : BitVec 64}
    {value : floats.F64} (hdigit : ¬(isDigit c || c == 46) = true) (hnum : num ≠ [])
    (hvalue : floats.parse num = some value) :
    timeLoop floats checks (c :: rest) num total = match timeUnit c rest with
      | none => .error (some ("unknown TIME unit " ++ chars [c]))
      | some (unit, rest') =>
          if checks && total.saddOverflow (floats.millis value unit) then .error none
          else timeLoop floats checks rest' [] (total + floats.millis value unit) := by
  rw [timeLoop, if_neg hdigit, if_neg hnum, hvalue]
  dsimp only
  split
  · rename_i hunit
    rw [hunit]
  · rename_i hunit
    rw [hunit]

theorem timeAddends_value {c : UInt8} {rest num : List UInt8} {value : floats.F64}
    (hdigit : ¬(isDigit c || c == 46) = true) (hnum : num ≠ [])
    (hvalue : floats.parse num = some value) :
    timeAddends floats (c :: rest) num = match timeUnit c rest with
      | none => []
      | some (unit, rest') => floats.millis value unit :: timeAddends floats rest' [] := by
  rw [timeAddends, if_neg hdigit, if_neg hnum, hvalue]
  dsimp only
  split
  · rename_i hunit
    rw [hunit]
  · rename_i hunit
    rw [hunit]

/-- Sums that are not checked do not panic. -/
theorem timeLoop_unchecked (chars_ num : List UInt8) (total : BitVec 64) :
    timeLoop floats false chars_ num total ≠ .error none := by
  induction hn : chars_.length using Nat.strong_induction_on generalizing chars_ num total with
  | h n ih =>
      rcases chars_ with _ | ⟨c, rest⟩
      · rw [timeLoop]
        exact fun h => by cases h
      · rw [List.length_cons] at hn
        by_cases hdigit : (isDigit c || c == 46) = true
        · rw [timeLoop, if_pos hdigit]
          exact ih rest.length (by omega) rest (num ++ [c]) total rfl
        · by_cases hnum : num = []
          · rw [timeLoop, if_neg hdigit, if_pos hnum]
            exact fun h => by cases h
          · rcases hvalue : floats.parse num with _ | value
            · rw [timeLoop, if_neg hdigit, if_neg hnum, hvalue]
              exact fun h => by cases h
            · rw [timeLoop_value hdigit hnum hvalue]
              rcases hunit : timeUnit c rest with _ | ⟨unit, rest'⟩
              · exact fun h => by cases h
              · have hshort := timeUnit_rest hunit
                exact ih rest'.length (by omega) rest' [] _ rfl

/-- **When a checked sum panics**, and that nothing else depends on the checks. -/
theorem timeLoop_checks (chars_ num : List UInt8) (total : BitVec 64) :
    (Exceeds total.toInt (timeAddends floats chars_ num) ∧
      timeLoop floats true chars_ num total = .error none) ∨
    (¬Exceeds total.toInt (timeAddends floats chars_ num) ∧
      timeLoop floats true chars_ num total = timeLoop floats false chars_ num total) := by
  induction hn : chars_.length using Nat.strong_induction_on generalizing chars_ num total with
  | h n ih =>
      rcases chars_ with _ | ⟨c, rest⟩
      · rw [timeLoop, timeLoop, timeAddends]
        exact .inr ⟨not_exceeds_nil total, rfl⟩
      · rw [List.length_cons] at hn
        by_cases hdigit : (isDigit c || c == 46) = true
        · rw [timeLoop, timeLoop, timeAddends, if_pos hdigit, if_pos hdigit, if_pos hdigit]
          exact ih rest.length (by omega) rest (num ++ [c]) total rfl
        · by_cases hnum : num = []
          · rw [timeLoop, timeLoop, timeAddends, if_neg hdigit, if_neg hdigit, if_neg hdigit,
              if_pos hnum, if_pos hnum, if_pos hnum]
            exact .inr ⟨not_exceeds_nil total, rfl⟩
          · rcases hvalue : floats.parse num with _ | value
            · rw [timeLoop, timeLoop, timeAddends, if_neg hdigit, if_neg hdigit, if_neg hdigit,
                if_neg hnum, if_neg hnum, if_neg hnum, hvalue]
              exact .inr ⟨not_exceeds_nil total, rfl⟩
            · rw [timeLoop_value hdigit hnum hvalue, timeLoop_value hdigit hnum hvalue,
                timeAddends_value hdigit hnum hvalue]
              rcases hunit : timeUnit c rest with _ | ⟨unit, rest'⟩
              · exact .inr ⟨not_exceeds_nil total, rfl⟩
              · have hshort := timeUnit_rest hunit
                dsimp only
                rw [exceeds_cons]
                by_cases hover : total.saddOverflow (floats.millis value unit) = true
                · rw [hover]
                  exact .inl ⟨.inl rfl, rfl⟩
                · have hsum := BitVec.toInt_add_of_not_saddOverflow hover
                  have hrest := ih rest'.length (by omega) rest' []
                    (total + floats.millis value unit) rfl
                  rw [hsum] at hrest
                  rw [if_neg (by simpa using hover), if_neg (by simp)]
                  rcases hrest with ⟨hex, hpanic⟩ | ⟨hnot, hsame⟩
                  · exact .inl ⟨.inr hex, hpanic⟩
                  · exact .inr ⟨fun h => h.elim hover hnot, hsame⟩

/-- A partial sum of the TIME literal with this text is no `i64`. -/
def Overflows (floats : Floats) (body : List UInt8) : Prop :=
  Exceeds 0 (timeAddends floats (body.map toLower) [])

theorem parseTimeLiteral_unchecked (body : List UInt8) :
    parseTimeLiteral floats false body ≠ .error none := by
  unfold parseTimeLiteral
  dsimp only
  split_ifs
  · exact fun h => by cases h
  · have hne := @timeLoop_unchecked floats (body.map toLower) [] 0
    rcases hloop : timeLoop floats false (body.map toLower) [] 0 with e | ⟨num, total⟩
    · rw [hloop] at hne
      intro h
      cases h
      exact hne rfl
    · show (if num ≠ [] then _ else _) ≠ _
      split_ifs
      · exact fun h => by cases h
      · exact fun h => by cases h
      · exact fun h => by cases h

theorem parseTimeLiteral_checks (body : List UInt8) :
    (Overflows floats body ∧ parseTimeLiteral floats true body = .error none) ∨
    (¬Overflows floats body ∧
      parseTimeLiteral floats true body = parseTimeLiteral floats false body) := by
  unfold parseTimeLiteral
  dsimp only
  by_cases hempty : body.map toLower = []
  · rw [if_pos hempty, if_pos hempty]
    have hnot : ¬Overflows floats body := by
      unfold Overflows
      rw [hempty, timeAddends]
      exact not_exceeds_nil 0
    exact .inr ⟨hnot, rfl⟩
  · rw [if_neg hempty, if_neg hempty]
    rcases @timeLoop_checks floats (body.map toLower) [] 0 with
      ⟨hex, hpanic⟩ | ⟨hnot, hsame⟩
    · rw [hpanic]
      exact .inl ⟨hex, rfl⟩
    · rw [hsame]
      exact .inr ⟨hnot, rfl⟩

/-- Either a checked sum panics, or the checks make no difference. -/
theorem parseTimeLiteral_cases (checks : Bool) (body : List UInt8) :
    (checks = true ∧ Overflows floats body ∧
      parseTimeLiteral floats checks body = .error none) ∨
    parseTimeLiteral floats checks body = parseTimeLiteral floats false body := by
  cases checks with
  | false => exact .inr rfl
  | true =>
      rcases @parseTimeLiteral_checks floats body with ⟨hover, hpanic⟩ | ⟨-, hsame⟩
      · exact .inl ⟨rfl, hover, hpanic⟩
      · exact .inr hsame

/-! ## Stretches -/

section Stretches

variable {p : UInt8 → Bool} {x rest : List UInt8}

theorem stretch_takeWhile (h : Stretch p x rest) : (x ++ rest).takeWhile p = x := by
  have hrest : rest.takeWhile p = [] := by
    rcases rest with _ | ⟨b, rest⟩
    · rfl
    · rw [List.takeWhile_cons, if_neg]
      rw [h.stop b rfl]
      exact Bool.false_ne_true
  rw [List.takeWhile_append_of_pos h.all, hrest, List.append_nil]

theorem takeWhile_stretch (p : UInt8 → Bool) (l : List UInt8) :
    Stretch p (l.takeWhile p) (l.dropWhile p) := by
  refine ⟨fun b hb => List.mem_takeWhile_imp hb, ?_⟩
  intro b hb
  induction l with
  | nil => cases hb
  | cons a l ih =>
      rw [List.dropWhile_cons] at hb
      by_cases ha : p a = true
      · rw [if_pos ha] at hb
        exact ih hb
      · rw [if_neg ha] at hb
        cases hb
        simpa using ha

/-- Bytes as a stretch and the rest. -/
theorem stretch_split (p : UInt8 → Bool) (l : List UInt8) : ∃ x rest, l = x ++ rest ∧
    Stretch p x rest ∧ l.takeWhile p = x :=
  ⟨l.takeWhile p, l.dropWhile p, List.takeWhile_append_dropWhile.symm, takeWhile_stretch p l, rfl⟩

theorem Unclosed.nil : Unclosed [] := by
  intro pre post h
  have hlen := congrArg List.length h
  simp only [List.length_append, List.length_cons, List.length_nil] at hlen
  omega

theorem unclosed_cons {a b : UInt8} {body : List UInt8} :
    Unclosed (a :: b :: body) ↔ ¬(a = 42 ∧ b = 41) ∧ Unclosed (b :: body) := by
  constructor
  · intro h
    refine ⟨?_, ?_⟩
    · rintro ⟨rfl, rfl⟩
      exact h [] (body ++ [42]) rfl
    · intro pre post heq
      exact h (a :: pre) post (by rw [List.cons_append, heq]; rfl)
  · rintro ⟨hab, h⟩ pre post heq
    rcases pre with _ | ⟨c, pre⟩
    · simp only [List.cons_append, List.nil_append, List.cons.injEq] at heq
      exact hab ⟨heq.1, heq.2.1⟩
    · simp only [List.cons_append, List.cons.injEq] at heq
      exact h pre post heq.2

theorem unclosed_singleton (a : UInt8) : Unclosed [a] := by
  intro pre post h
  rcases pre with _ | ⟨c, pre⟩
  · simp only [List.cons_append, List.nil_append, List.cons.injEq] at h
    exact absurd h.2.1 (by decide)
  · have hlen := congrArg List.length h
    simp only [List.length_append, List.length_cons, List.length_nil] at hlen
    omega

/-- A block comment ends at its first `*)`. -/
theorem blockEnd_append {body : List UInt8} (h : Unclosed body) (rest : List UInt8) :
    blockEnd (body ++ 42 :: 41 :: rest) = some (body.length + 2) := by
  induction body with
  | nil => rfl
  | cons a body ih =>
      rcases body with _ | ⟨b, body⟩
      · show (if a = 42 && (42 : UInt8) = 41 then some 2
          else (blockEnd (42 :: 41 :: rest)).map (· + 1)) = _
        rw [if_neg (by simp)]
        rfl
      · obtain ⟨hab, hrest⟩ := unclosed_cons.mp h
        show (if a = 42 && b = 41 then some 2
          else (blockEnd (b :: body ++ 42 :: 41 :: rest)).map (· + 1)) = _
        rw [if_neg (by simpa using hab), ih hrest]
        rfl

theorem blockEnd_some {l : List UInt8} {n : ℕ} (h : blockEnd l = some n) :
    ∃ body rest, l = body ++ 42 :: 41 :: rest ∧ Unclosed body ∧ n = body.length + 2 := by
  induction l generalizing n with
  | nil => cases h
  | cons a l ih =>
      rcases l with _ | ⟨b, l⟩
      · cases h
      · change (if a = 42 && b = 41 then some 2 else (blockEnd (b :: l)).map (· + 1)) = some n at h
        by_cases hab : a = 42 ∧ b = 41
        · rw [if_pos (by simpa using hab)] at h
          obtain ⟨rfl, rfl⟩ := hab
          cases h
          exact ⟨[], l, rfl, .nil, rfl⟩
        · rw [if_neg (by simpa using hab)] at h
          obtain ⟨k, hk, rfl⟩ := Option.map_eq_some_iff.mp h
          obtain ⟨body, rest, hl, hbody, rfl⟩ := ih hk
          refine ⟨a :: body, rest, by rw [hl]; rfl, ?_, rfl⟩
          rcases body with _ | ⟨c, body⟩
          · exact unclosed_singleton a
          · cases hl
            exact unclosed_cons.mpr ⟨hab, hbody⟩

end Stretches

/-! ## Texts of TIME literals -/

theorem timeUnit_not_digit {c : UInt8} {rest rest' : List UInt8} {unit : ℕ}
    (h : timeUnit c rest = some (unit, rest')) : (isDigit c || c == 46) = false := by
  unfold timeUnit at h
  split_ifs at h with h₁ h₂ h₃ h₄
  · rw [h₁]
    rfl
  · rw [h₂]
    rfl
  · rw [h₂]
    rfl
  · rw [h₄]
    rfl

/-- Digits alone are no TIME literal. -/
theorem timeParts_digits {num : List UInt8} {adds : List (BitVec 64)}
    (hnum : ∀ d ∈ num, (isDigit d || d == 46) = true) (h : TimeParts floats num adds) :
    num = [] ∧ adds = [] := by
  cases h with
  | nil => exact ⟨rfl, rfl⟩
  | @cons num' rest rest' c value unit adds hne hnum' hvalue hunit hrest =>
      have hc := hnum c (by simp)
      rw [timeUnit_not_digit hunit] at hc
      cases hc

/-- The first part of a TIME literal is the digits in front. -/
theorem timeParts_cons {num rest : List UInt8} {c : UInt8} {adds : List (BitVec 64)}
    (hnum : ∀ d ∈ num, (isDigit d || d == 46) = true) (hc : ¬(isDigit c || c == 46) = true)
    (h : TimeParts floats (num ++ c :: rest) adds) :
    num ≠ [] ∧ ∃ value unit rest' adds', floats.parse num = some value ∧
      timeUnit c rest = some (unit, rest') ∧ adds = floats.millis value unit :: adds' ∧
      TimeParts floats rest' adds' := by
  generalize htext : num ++ c :: rest = text at h
  cases h with
  | nil => simp at htext
  | @cons num' tail rest' d value unit adds hne hnum' hvalue hunit hrest =>
      have hstretch : Stretch (fun d => isDigit d || d == 46) num (c :: rest) :=
        ⟨hnum, fun b hb => by cases hb; simpa using hc⟩
      have hstretch' : Stretch (fun d => isDigit d || d == 46) num' (d :: tail) :=
        ⟨hnum', fun b hb => by cases hb; exact timeUnit_not_digit hunit⟩
      have hsame : num = num' := by
        rw [← stretch_takeWhile hstretch, ← stretch_takeWhile hstretch', htext]
      subst hsame
      have htail := List.append_cancel_left htext
      cases htail
      exact ⟨hne, value, unit, rest', adds, hvalue, hunit, rfl, hrest⟩

/-- What the loop adds up without an error. -/
theorem timeLoop_ok_iff {total sum : BitVec 64} (chars_ num : List UInt8)
    (hnum : ∀ d ∈ num, (isDigit d || d == 46) = true) :
    timeLoop floats false chars_ num total = .ok ([], sum) ↔
      ∃ adds, TimeParts floats (num ++ chars_) adds ∧ sum = adds.foldl (· + ·) total := by
  induction hn : chars_.length using Nat.strong_induction_on generalizing chars_ num total with
  | h n ih =>
      rcases chars_ with _ | ⟨c, rest⟩
      · rw [timeLoop, List.append_nil]
        constructor
        · intro h
          cases h
          exact ⟨[], .nil, rfl⟩
        · rintro ⟨adds, hparts, rfl⟩
          obtain ⟨rfl, rfl⟩ := timeParts_digits hnum hparts
          rfl
      · rw [List.length_cons] at hn
        by_cases hdigit : (isDigit c || c == 46) = true
        · have hnum' : ∀ d ∈ num ++ [c], (isDigit d || d == 46) = true := by
            intro d hd
            rcases List.mem_append.mp hd with hd | hd
            · exact hnum d hd
            · rw [List.mem_singleton.mp hd]
              exact hdigit
          rw [timeLoop, if_pos hdigit, ih rest.length (by omega) rest (num ++ [c]) hnum' rfl,
            List.append_assoc, List.singleton_append]
        · by_cases hne : num = []
          · rw [timeLoop, if_neg hdigit, if_pos hne]
            constructor
            · exact fun h => by cases h
            · rintro ⟨adds, hparts, -⟩
              exact absurd hne (timeParts_cons hnum hdigit hparts).1
          · constructor
            · intro h
              rcases hvalue : floats.parse num with _ | value
              · rw [timeLoop, if_neg hdigit, if_neg hne, hvalue] at h
                cases h
              · rw [timeLoop_value hdigit hne hvalue] at h
                rcases hunit : timeUnit c rest with _ | ⟨unit, rest'⟩
                · rw [hunit] at h
                  cases h
                · rw [hunit] at h
                  have hshort := timeUnit_rest hunit
                  obtain ⟨adds, hparts, hsum⟩ := (ih rest'.length (by omega) rest' []
                    (fun d hd => by cases hd) rfl).mp h
                  exact ⟨_, .cons hne hnum hvalue hunit hparts, hsum⟩
            · rintro ⟨adds, hparts, hsum⟩
              obtain ⟨-, value, unit, rest', adds', hvalue, hunit, rfl, hrest⟩ :=
                timeParts_cons hnum hdigit hparts
              have hshort := timeUnit_rest hunit
              rw [timeLoop_value hdigit hne hvalue, hunit]
              exact (ih rest'.length (by omega) rest' [] (fun d hd => by cases hd) rfl).mpr
                ⟨adds', hrest, hsum⟩

/-- **The texts of TIME literals.** -/
theorem timeText_iff {body : List UInt8} {ms : ℤ} :
    TimeText floats body ms ↔ parseTimeLiteral floats false body = .ok ms := by
  have hempty : body.map toLower = [] ↔ body = [] := List.map_eq_nil_iff
  unfold parseTimeLiteral
  dsimp only
  by_cases hne : body = []
  · rw [if_pos (hempty.mpr hne)]
    constructor
    · exact fun h => absurd hne h.1
    · exact fun h => by cases h
  · rw [if_neg (fun h => hne (hempty.mp h))]
    constructor
    · rintro ⟨-, adds, hparts, rfl, hlo, hhi⟩
      have hloop := (@timeLoop_ok_iff floats 0 _ (body.map toLower) []
        fun d hd => by cases hd).mpr ⟨adds, hparts, rfl⟩
      rw [hloop]
      simp only [bind, Except.bind]
      rw [if_neg (fun h => h rfl), if_pos (by simpa using ⟨hlo, hhi⟩)]
    · intro h
      rcases hloop : timeLoop floats false (body.map toLower) [] 0 with e | ⟨num, total⟩
      · rw [hloop] at h
        cases h
      · rw [hloop] at h
        simp only [bind, Except.bind] at h
        split_ifs at h with hnum hrange
        cases h
        rw [Bool.and_eq_true, decide_eq_true_eq, decide_eq_true_eq] at hrange
        obtain rfl : num = [] := not_not.mp hnum
        obtain ⟨adds, hparts, rfl⟩ := (@timeLoop_ok_iff floats 0 _ (body.map toLower) []
          fun d hd => by cases hd).mp hloop
        exact ⟨hne, adds, hparts, rfl, hrange.1, hrange.2⟩

/-! ## Numbers -/

theorem exponentLen_none {rest : List UInt8} (h : ∀ b ∈ rest.head?, b ≠ 101 ∧ b ≠ 69) :
    exponentLen rest = 0 := by
  rcases rest with _ | ⟨b, rest⟩
  · rfl
  · obtain ⟨h₁, h₂⟩ := h b rfl
    rw [exponentLen, if_neg (by simp [h₁, h₂])]

theorem exponentLen_signed {e sign : UInt8} {rest : List UInt8} (he : e = 101 ∨ e = 69)
    (hsign : sign = 43 ∨ sign = 45) :
    exponentLen (e :: sign :: rest) = 2 + (rest.takeWhile isDigit).length := by
  rw [exponentLen, if_pos (by simpa using he)]
  have hone : ((sign :: rest).head? = some 43 || (sign :: rest).head? = some 45) = true := by
    simpa using hsign
  rw [if_pos hone]
  rfl

theorem exponentLen_unsigned {e : UInt8} {rest : List UInt8} (he : e = 101 ∨ e = 69)
    (hsign : ∀ b ∈ rest.head?, b ≠ 43 ∧ b ≠ 45) :
    exponentLen (e :: rest) = 1 + (rest.takeWhile isDigit).length := by
  rw [exponentLen, if_pos (by simpa using he)]
  have hnone : ¬(rest.head? = some 43 || rest.head? = some 45) = true := by
    simp only [Bool.or_eq_true, decide_eq_true_eq]
    rintro (h | h)
    · exact (hsign _ h).1 rfl
    · exact (hsign _ h).2 rfl
  rw [if_neg hnone]
  rfl

theorem exponentLen_append {ex rest : List UInt8} (h : Exponent ex rest) :
    exponentLen (ex ++ rest) = ex.length := by
  cases h with
  | none h => exact exponentLen_none h
  | signed he hsign hds =>
      rw [List.cons_append, List.cons_append, exponentLen_signed he hsign, stretch_takeWhile hds,
        List.length_cons, List.length_cons]
      omega
  | unsigned he hsign hds =>
      rw [List.cons_append, exponentLen_unsigned he hsign, stretch_takeWhile hds, List.length_cons]
      omega

/-- Some exponent stands in front of all bytes. -/
theorem exponent_split (l : List UInt8) : ∃ ex rest, l = ex ++ rest ∧ Exponent ex rest := by
  rcases l with _ | ⟨e, l⟩
  · exact ⟨[], [], rfl, .none fun b hb => by cases hb⟩
  · by_cases he : e = 101 ∨ e = 69
    · by_cases hsign : ∀ b ∈ l.head?, b ≠ 43 ∧ b ≠ 45
      · obtain ⟨ds, rest, rfl, hds, -⟩ := stretch_split isDigit l
        exact ⟨e :: ds, rest, rfl, .unsigned he hsign hds⟩
      · push Not at hsign
        obtain ⟨sign, hhead, hs⟩ := hsign
        rcases l with _ | ⟨b, l⟩
        · cases hhead
        · obtain rfl : b = sign := Option.some.inj hhead
          obtain ⟨ds, rest, rfl, hds, -⟩ := stretch_split isDigit l
          refine ⟨e :: b :: ds, rest, rfl, .signed he ?_ hds⟩
          by_cases h43 : b = 43
          · exact .inl h43
          · exact .inr (hs h43)
    · refine ⟨[], e :: l, rfl, .none ?_⟩
      intro b hb
      cases hb
      exact not_or.mp he

theorem numberLen_append {isReal : Bool} {x rest : List UInt8} (h : Number isReal x rest) :
    numberLen (x ++ rest) = (x.length, isReal) := by
  cases h with
  | int hne hds hnot =>
      unfold numberLen
      dsimp only
      rw [stretch_takeWhile hds, List.drop_left]
      split
      · rename_i dot d more hrest
        rw [if_neg]
        intro h
        simp only [Bool.and_eq_true, beq_iff_eq] at h
        obtain ⟨rfl, hd⟩ := h
        have hfalse := hnot _ _ rfl
        rw [hd] at hfalse
        cases hfalse
      · rfl
  | @real ds fs ex rest hne hds hfs hstretch hex =>
      have hdot : Stretch isDigit ds (46 :: (fs ++ (ex ++ rest))) := by
        refine ⟨hds, ?_⟩
        intro b hb
        cases hb
        rfl
      have hshape : ds ++ 46 :: (fs ++ ex) ++ rest = ds ++ 46 :: (fs ++ (ex ++ rest)) := by
        simp only [List.append_assoc, List.cons_append]
      rw [hshape]
      unfold numberLen
      dsimp only
      rw [stretch_takeWhile hdot, List.drop_left]
      obtain ⟨d, fs', rfl⟩ := List.exists_cons_of_ne_nil hfs
      have hd : isDigit d = true := hstretch.all d List.mem_cons_self
      have hwhile := stretch_takeWhile hstretch
      simp only [List.cons_append] at hwhile ⊢
      rw [if_pos (by simp [hd]), hwhile]
      have hdrop : (d :: (fs' ++ (ex ++ rest))).drop (d :: fs').length = ex ++ rest :=
        @List.drop_left _ (d :: fs') _
      rw [hdrop, exponentLen_append hex]
      simp only [List.length_append, List.length_cons, Prod.mk.injEq, and_true]
      omega

/-- A digit starts a number. -/
theorem number_split {b : UInt8} (hb : isDigit b = true) (l : List UInt8) :
    ∃ isReal x rest, b :: l = x ++ rest ∧ Number isReal x rest := by
  obtain ⟨ds, rest, hl, hds, hwhile⟩ := stretch_split isDigit (b :: l)
  have hne : ds ≠ [] := by
    rw [← hwhile, List.takeWhile_cons, if_pos hb]
    exact List.cons_ne_nil _ _
  by_cases hreal : ∃ d more, rest = 46 :: d :: more ∧ isDigit d = true
  · obtain ⟨d, more, rfl, hd⟩ := hreal
    obtain ⟨fs, r, hfs, hstretch, hwhile'⟩ := stretch_split isDigit (d :: more)
    have hfsne : fs ≠ [] := by
      rw [← hwhile', List.takeWhile_cons, if_pos hd]
      exact List.cons_ne_nil _ _
    obtain ⟨ex, rest, rfl, hex⟩ := exponent_split r
    refine ⟨true, ds ++ 46 :: (fs ++ ex), rest, ?_, .real hne hds.all hfsne hstretch hex⟩
    rw [hl, hfs]
    simp only [List.append_assoc, List.cons_append]
  · refine ⟨false, ds, rest, hl, .int hne hds ?_⟩
    intro d more hrest
    by_contra hd
    exact hreal ⟨d, more, hrest, by simpa using hd⟩

end SoftPlc.St.Lex
