import SoftPlc.Ir.Encode

/-!
# Instruction streams

Encoded instructions one after the other decode to themselves and to nothing else, and whatever
decodes is encoded again to the bytes it was read from, except that the opcode word of `CALL_FB` has
room for a payload that nobody reads (`streams_decode_uniquely`).
-/

namespace SoftPlc.Ir

open SoftPlc.Lib

/-! ## Decoding to the end -/

/-- The instructions from a byte to the end of the code. -/
inductive Decodes (code : List UInt8) : ℕ → List DecodedInstr → Prop
  | done : Decodes code code.length []
  | step {pc n : ℕ} {i : DecodedInstr} {is : List DecodedInstr} :
      decodeInstruction code pc = .ok (i, n) → Decodes code (pc + n) is → Decodes code pc (i :: is)

namespace Decodes

variable {code : List UInt8} {pc : ℕ} {is : List DecodedInstr}

/-- The decoded instructions fill the rest of the code. -/
theorem sizes (h : Decodes code pc is) : pc + (is.map DecodedInstr.size).sum = code.length := by
  induction h with
  | done => rfl
  | step hi _ ih =>
      obtain ⟨rfl, -, -⟩ := decodeInstruction_ok hi
      rw [List.map_cons, List.sum_cons, ← Nat.add_assoc]
      exact ih

theorem wellFormed (h : Decodes code pc is) : ∀ i ∈ is, i.WellFormed := by
  induction h with
  | done => simp
  | step hi _ ih =>
      intro i hmem
      rcases List.mem_cons.mp hmem with rfl | hmem
      · exact (decodeInstruction_ok hi).2.2
      · exact ih i hmem

end Decodes

/-- Decoding is a function, to the end as well. -/
theorem Decodes.unique {code : List UInt8} {pc : ℕ} {is js : List DecodedInstr}
    (h : Decodes code pc is) (h' : Decodes code pc js) : js = is := by
  induction h generalizing js with
  | done =>
      cases h' with
      | done => rfl
      | @step _ n i _ hj _ =>
          obtain ⟨-, hle, -⟩ := decodeInstruction_ok hj
          have hpos := i.size_pos
          omega
  | @step _ n i _ hi _ ih =>
      cases h' with
      | done =>
          obtain ⟨-, hle, -⟩ := decodeInstruction_ok hi
          have hpos := i.size_pos
          omega
      | step hj hjs =>
          rw [hi] at hj
          cases hj
          rw [ih hjs]

/-- Encoded instructions are found again, behind any bytes. -/
theorem decodes_flatMap_encode (pre : List UInt8) {is : List DecodedInstr}
    (h : ∀ i ∈ is, i.WellFormed) :
    Decodes (pre ++ is.flatMap encodeInstruction) pre.length is := by
  induction is generalizing pre with
  | nil =>
      rw [List.flatMap_nil, List.append_nil]
      exact .done
  | cons i is ih =>
      have hfirst := decodeInstruction_encode pre (is.flatMap encodeInstruction)
        (h i List.mem_cons_self)
      have hrest := ih (pre ++ encodeInstruction i) fun j hj => h j (List.mem_cons_of_mem _ hj)
      rw [List.length_append, encodeInstruction_length] at hrest
      rw [List.append_assoc] at hfirst hrest
      rw [List.flatMap_cons]
      exact .step hfirst hrest

/-! ## Encoding again -/

/-- The opcode of a byte is the one with that byte. -/
theorem Opcode.toU8_of_fromU8 {v : ℕ} {op : Opcode} (h : Opcode.fromU8 v = some op) :
    op.toU8 = v := by
  unfold Opcode.fromU8 at h
  split at h
  all_goals cases h
  all_goals rfl

/-- The bytes are the encoding of the instruction, up to the payload in the opcode word of
`CALL_FB`. -/
def DecodedInstr.Reencodes (i : DecodedInstr) (bytes : List UInt8) : Prop :=
  match i with
  | .callFb _ _ _ => ∃ payload, payload < 2 ^ 24 ∧
      bytes = leBytes 4 (packWord .callFb payload) ++ (encodeInstruction i).drop 4
  | _ => bytes = encodeInstruction i

/-- The word at a place, written again. -/
theorem leBytes_wordAt {code : List UInt8} {pc : ℕ} (h : pc + 4 ≤ code.length) :
    leBytes 4 (wordAt code pc) = readAt code pc 4 := by
  have hword := leBytes_ofLeBytes (readAt code pc 4)
  rwa [readAt_length h] at hword

/-- A word with its opcode and its payload put together again. -/
theorem packWord_wordAt {code : List UInt8} {pc : ℕ} {op : Opcode}
    (hop : Opcode.fromU8 (wordAt code pc / 2 ^ 24) = some op) :
    packWord op (wordAt code pc % 2 ^ 24) = wordAt code pc := by
  rw [packWord, Opcode.toU8_of_fromU8 hop]
  omega

theorem readAt_add (code : List UInt8) (pc m n : ℕ) :
    readAt code pc (m + n) = readAt code pc m ++ readAt code (pc + m) n := by
  rw [readAt, readAt, readAt, ← List.drop_drop, List.take_add]

/-- **A decoded instruction encodes to the bytes it was read from.** -/
theorem reencodes_of_decode {code : List UInt8} {pc n : ℕ} {i : DecodedInstr}
    (h : decodeInstruction code pc = .ok (i, n)) : i.Reencodes (readAt code pc n) := by
  by_cases hpc : pc + 4 ≤ code.length
  · rcases hop : Opcode.fromU8 (wordAt code pc / 2 ^ 24) with _ | op
    · unfold decodeInstruction at h
      rw [if_neg (by omega)] at h
      simp only [hop] at h
      cases h
    · have hfirst := leBytes_wordAt hpc
      rw [← packWord_wordAt hop] at hfirst
      rw [decodeInstruction_of_opcode hpc hop] at h
      split_ifs at h with himm hlen hcall hlen
      · cases h
        have hword := @leBytes_wordAt code (pc + 4) (by omega)
        show readAt code pc (4 + 4) = _
        rw [readAt_add, encodeInstruction, hfirst, hword]
      · cases h
        have hword := @leBytes_wordAt code (pc + 4) (by omega)
        have hbase := @leBytes_wordAt code (pc + 8) (by omega)
        have hlt := wordAt_lt code (pc + 4)
        have hfields : wordAt code (pc + 4) / 2 ^ 24 % 2 ^ 8 % 2 ^ 8 * 2 ^ 24 +
            wordAt code (pc + 4) % 2 ^ 24 % 2 ^ 24 = wordAt code (pc + 4) := by omega
        subst hcall
        refine ⟨wordAt code pc % 2 ^ 24, Nat.mod_lt _ (by decide), ?_⟩
        show readAt code pc (4 + (4 + 4)) = _
        rw [readAt_add, readAt_add, encodeInstruction, hfields, hfirst, hword,
          show pc + 4 + 4 = pc + 8 from rfl, ← hbase, List.append_assoc, List.drop_left' (by simp)]
      · cases h
        show readAt code pc 4 = _
        rw [encodeInstruction, hfirst]
  · simp [decodeInstruction, Nat.lt_of_not_le hpc] at h

/-- **Instruction streams decode uniquely.** Encoded one after the other and decoded from offset 0 to
the end, well-formed instructions give themselves and no other list. And what decodes anywhere takes
4, 8 or 12 bytes of the code and encodes to those bytes again, except for the payload of
`CALL_FB`. -/
theorem streams_decode_uniquely :
    (∀ is : List DecodedInstr, (∀ i ∈ is, i.WellFormed) →
      ∀ js, Decodes (is.flatMap encodeInstruction) 0 js ↔ js = is) ∧
    ∀ (code : List UInt8) (pc n : ℕ) (i : DecodedInstr), decodeInstruction code pc = .ok (i, n) →
      (n = 4 ∨ n = 8 ∨ n = 12) ∧ pc + n ≤ code.length ∧ i.WellFormed ∧
        i.Reencodes (readAt code pc n) := by
  constructor
  · intro is h js
    have hdecodes := decodes_flatMap_encode [] h
    constructor
    · exact fun hjs => hdecodes.unique hjs
    · rintro rfl
      exact hdecodes
  · intro code pc n i h
    obtain ⟨rfl, hle, hwell⟩ := decodeInstruction_ok h
    refine ⟨?_, hle, hwell, reencodes_of_decode h⟩
    cases i with
    | simple op payload => exact .inl rfl
    | withImm32 op payload imm => exact .inr (.inl rfl)
    | callFb fbKind fbId base => exact .inr (.inr rfl)

/-- A stream with one instruction of each size. -/
theorem streams_decode_three :
    Decodes ([DecodedInstr.withImm32 .pushIDint 0 7, .callFb 1 2 64, .simple .halt 0].flatMap
      encodeInstruction) 0 [.withImm32 .pushIDint 0 7, .callFb 1 2 64, .simple .halt 0] := by
  refine (streams_decode_uniquely.1 _ ?_ _).mpr rfl
  intro i hi
  fin_cases hi
  · exact ⟨rfl, by decide, by decide⟩
  · exact ⟨by decide, by decide, by decide⟩
  · exact ⟨rfl, by decide, by decide⟩

end SoftPlc.Ir
