import SoftPlc.Lib.Bind
import SoftPlc.St.Lex
import SoftPlc.St.Parse

/-!
# Written literals

What the texts of literals say, against what the parser and the lexer make of them: the labels of a
`CASE` arm are the members of the ranges that its tokens spell (`parseLabels_spells`), and a TIME
literal with whole components is their sum as long as an `i32` holds it (`parseTimeLiteral_sum`).
-/

namespace SoftPlc.St

/-! ## CASE labels -/

/-- The integers of a range. Source: `parse.rs`, `for x in v..=hv`. -/
def span (lo hi : ℤ) : List ℤ := (List.range (hi - lo + 1).toNat).map fun k : ℕ => lo + (k : ℤ)

theorem mem_span {lo hi n : ℤ} : n ∈ span lo hi ↔ lo ≤ n ∧ n ≤ hi := by
  unfold span
  rw [List.mem_map]
  constructor
  · rintro ⟨k, hk, rfl⟩
    rw [List.mem_range] at hk
    omega
  · intro h
    exact ⟨(n - lo).toNat, by rw [List.mem_range]; omega, by omega⟩

/-- One label or range. Source: `parse.rs`, the `loop` body of the labels in
`Parser::parse_case`. -/
def parseLabel : List Token → Except ParseError (List ℤ × List Token)
  | .intLit (some v) :: .dotDot :: rest =>
      match rest with
      | .intLit (some hv) :: rest =>
          if hv < v then .error (.badLiteral "CASE range high < low") else .ok (span v hv, rest)
      | .intLit none :: _ => .error (.badLiteral "bad CASE range")
      | toks => .error (.expected "IntLit" toks.head?)
  | .intLit (some v) :: rest => .ok ([v], rest)
  | .intLit none :: _ => .error (.badLiteral "bad CASE label")
  | toks => .error (.expected "IntLit" toks.head?)

theorem parseLabel_shorter {toks rest : List Token} {labels : List ℤ}
    (h : parseLabel toks = .ok (labels, rest)) : rest.length < toks.length := by
  unfold parseLabel at h
  split at h
  · split at h
    · split_ifs at h
      cases h
      simp only [List.length_cons]
      omega
    · cases h
    · cases h
  · cases h
    simp
  · cases h
  · cases h

/-- The labels of an arm. Source: `parse.rs`, the `loop` over the labels in
`Parser::parse_case`. -/
def parseLabels (toks : List Token) : Except ParseError (List ℤ × List Token) :=
  match _h : parseLabel toks with
  | .error e => .error e
  | .ok (labels, .comma :: rest) => do
      let (more, rest) ← parseLabels rest
      .ok (labels ++ more, rest)
  | .ok (labels, rest) => .ok (labels, rest)
termination_by toks.length
decreasing_by
  have := parseLabel_shorter _h
  simp only [List.length_cons] at this
  omega

/-- Tokens that spell ranges with commas between them, and the tokens after them; a label is a range
of one. -/
inductive Spells : List (ℤ × ℤ) → List Token → List Token → Prop
  | label {v : ℤ} {rest : List Token} : Spells [(v, v)] (.intLit (some v) :: rest) rest
  | range {v hv : ℤ} {rest : List Token} :
      Spells [(v, hv)] (.intLit (some v) :: .dotDot :: .intLit (some hv) :: rest) rest
  | comma {r : ℤ × ℤ} {ranges : List (ℤ × ℤ)} {toks mid rest : List Token} :
      Spells [r] toks (.comma :: mid) → Spells ranges mid rest → Spells (r :: ranges) toks rest

/-- The integers of some ranges. -/
def Covers (ranges : List (ℤ × ℤ)) (n : ℤ) : Prop := ∃ r ∈ ranges, r.1 ≤ n ∧ n ≤ r.2

theorem parseLabel_spells {toks rest : List Token} {labels : List ℤ}
    (h : parseLabel toks = .ok (labels, rest)) :
    ∃ r, Spells [r] toks rest ∧ ∀ n, n ∈ labels ↔ r.1 ≤ n ∧ n ≤ r.2 := by
  unfold parseLabel at h
  split at h
  · split at h
    · split_ifs at h
      cases h
      exact ⟨_, .range, fun n => mem_span⟩
    · cases h
    · cases h
  · cases h
    refine ⟨_, .label, fun n => ?_⟩
    rw [List.mem_singleton]
    omega
  · cases h
  · cases h

/-- **The labels of an arm are the members of its ranges.** -/
theorem parseLabels_spells {toks rest : List Token} {labels : List ℤ}
    (h : parseLabels toks = .ok (labels, rest)) :
    ∃ ranges, Spells ranges toks rest ∧ ∀ n, n ∈ labels ↔ Covers ranges n := by
  induction toks using parseLabels.induct generalizing labels rest with
  | case1 toks e he =>
      rw [parseLabels, he] at h
      cases h
  | case2 toks first mid hfirst ih =>
      rw [parseLabels] at h
      split at h
      · rename_i heq
        rw [hfirst] at heq
        cases heq
      · rename_i first' mid' heq
        rw [hfirst] at heq
        cases heq
        obtain ⟨r, hr, hmem⟩ := parseLabel_spells hfirst
        rcases hmore : parseLabels mid with e | ⟨more, rest'⟩
        · rw [hmore] at h
          cases h
        · rw [hmore] at h
          cases h
          obtain ⟨ranges, hranges, hall⟩ := ih hmore
          refine ⟨r :: ranges, .comma hr hranges, fun n => ?_⟩
          rw [List.mem_append, hmem, hall]
          simp [Covers]
      · rename_i hne heq
        rw [hfirst] at heq
        cases heq
        exact absurd rfl (hne _)
  | case3 toks first mid hne hfirst =>
      rw [parseLabels] at h
      split at h
      · rename_i heq
        rw [hfirst] at heq
        cases heq
      · rename_i heq
        rw [hfirst] at heq
        cases heq
        exact absurd rfl (hne _)
      · rename_i heq
        rw [hfirst] at heq
        cases heq
        cases h
        obtain ⟨r, hr, hmem⟩ := parseLabel_spells hfirst
        refine ⟨[r], hr, fun n => ?_⟩
        rw [hmem]
        simp [Covers]

end SoftPlc.St

namespace SoftPlc.St.Lex

open SoftPlc.Lib

/-! ## TIME literals -/

/-- The number that digits spell. -/
def digitsNumber (num : List UInt8) : ℕ := num.foldl (fun n b => n * 10 + (b.toNat - 48)) 0

/-- The milliseconds of whole components, of which the digits in front have been read. -/
def wholeSum (chars_ num : List UInt8) : Option ℕ :=
  match chars_ with
  | [] => if num = [] then some 0 else none
  | c :: rest =>
      if isDigit c then wholeSum rest (num ++ [c])
      else if num = [] then none
      else
        match _h : timeUnit c rest with
        | none => none
        | some (unit, rest') => (wholeSum rest' []).map (digitsNumber num * unit + ·)
termination_by chars_.length
decreasing_by
  · exact Nat.lt_succ_self _
  · exact Nat.lt_succ_of_le (timeUnit_rest _h)

/-- What a TIME literal with whole components says, in milliseconds. -/
def writtenMillis (body : List UInt8) : Option ℕ :=
  let b := body.map toLower
  if b = [] then none else wholeSum b []

/-- Floating-point numbers that hold whole numbers of milliseconds up to `2 ^ 53` as they are. -/
def Floats.Whole (floats : Floats) : Prop :=
  ∀ num value unit, num ≠ [] → (∀ b ∈ num, isDigit b) → floats.parse num = some value →
    unit ∈ [1, 1000, 60000, 3600000] → digitsNumber num * unit ≤ 2 ^ 53 →
    (floats.millis value unit).toInt = digitsNumber num * unit

variable {floats : Floats} {checks : Bool}

theorem timeUnit_mem {c : UInt8} {rest rest' : List UInt8} {unit : ℕ}
    (h : timeUnit c rest = some (unit, rest')) : unit ∈ [1, 1000, 60000, 3600000] := by
  unfold timeUnit at h
  split_ifs at h <;> cases h <;> simp

/-- The loop adds the components, as long as they are small. -/
theorem timeLoop_sum (hfloats : floats.Whole) {chars_ num num' : List UInt8} {total total' : BitVec 64}
    {s : ℕ} (hnum : ∀ b ∈ num, isDigit b) (hs : wholeSum chars_ num = some s)
    (hsmall : 0 ≤ total.toInt ∧ total.toInt + s < 2 ^ 31)
    (h : timeLoop floats checks chars_ num total = .ok (num', total')) :
    total'.toInt = total.toInt + s := by
  induction hlen : chars_.length using Nat.strong_induction_on generalizing chars_ num total s with
  | _ n ih =>
  cases chars_ with
  | nil =>
      rw [wholeSum] at hs
      split_ifs at hs
      cases hs
      rw [timeLoop] at h
      cases h
      exact (add_zero _).symm
  | cons c rest =>
      rw [List.length_cons] at hlen
      rw [wholeSum] at hs
      split_ifs at hs with hdigit hempty
      · -- a digit is kept
        rw [timeLoop, if_pos (by rw [hdigit, Bool.true_or])] at h
        have hnum' : ∀ b ∈ num ++ [c], isDigit b := by
          intro b hb
          rcases List.mem_append.mp hb with hb | hb
          · exact hnum b hb
          · rwa [List.mem_singleton.mp hb]
        exact ih rest.length (by omega) hnum' hs hsmall h rfl
      · -- a unit ends a component
        split at hs
        · cases hs
        rename_i unit rest' hunit
        obtain ⟨s', hs', rfl⟩ := Option.map_eq_some_iff.mp hs
        have hdot : ¬(isDigit c || c == 46) = true := by
          intro hc
          rw [Bool.or_eq_true, beq_iff_eq] at hc
          rcases hc with hc | rfl
          · exact hdigit hc
          · cases hunit
        rw [timeLoop, if_neg hdot, if_neg hempty] at h
        split at h
        · cases h
        rename_i value hvalue
        split at h
        · cases h
        rename_i unit' rest'' hunit'
        rw [hunit] at hunit'
        cases hunit'
        have hadd := hfloats num value unit hempty hnum hvalue (timeUnit_mem hunit) (by
          have := hsmall.2
          omega)
        dsimp only at h
        split_ifs at h
        have hsum : (total + floats.millis value unit).toInt =
            total.toInt + digitsNumber num * unit := by
          rw [BitVec.toInt_add, hadd]
          have := hsmall.2
          push_cast at this
          exact Int.bmod_eq_of_le (by omega) (by omega)
        have hrest := timeUnit_rest hunit
        have hgo := ih rest'.length (by omega) (by simp) hs' ⟨by omega, by push_cast at hsmall; omega⟩ h rfl
        rw [hgo, hsum]
        push_cast
        ring

/-- **A TIME literal with whole components is their sum, if an `i32` holds it.** -/
theorem parseTimeLiteral_sum (hfloats : floats.Whole) {body : List UInt8} {ms : ℤ} {s : ℕ}
    (h : parseTimeLiteral floats checks body = .ok ms) (hs : writtenMillis body = some s) :
    ms = s ↔ s < 2 ^ 31 := by
  unfold parseTimeLiteral at h
  unfold writtenMillis at hs
  dsimp only at h hs
  split_ifs at h hs with hempty
  obtain ⟨⟨num, total⟩, hloop, h⟩ := except_bind_ok.mp h
  dsimp only at h
  split_ifs at h with hnum hrange
  cases h
  rw [Bool.and_eq_true, decide_eq_true_eq, decide_eq_true_eq] at hrange
  constructor
  · intro heq
    omega
  · intro hsmall
    have hsum := timeLoop_sum hfloats (by simp) hs ⟨le_refl _, by simpa using hsmall⟩ hloop
    simpa using hsum

end SoftPlc.St.Lex
