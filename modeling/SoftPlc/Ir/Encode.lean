import SoftPlc.Ir.Basic
import SoftPlc.Lib.Bytes

/-!
# Instruction words: encoding and decoding

`decodeInstruction code pc` reads the instruction at byte `pc`; `encodeInstruction` writes one.
An instruction is one, two or three little-endian words. The round trip
(`decodeInstruction_encode`) finds an encoded instruction again at its place in any code.
-/

namespace SoftPlc.Ir

open SoftPlc.Lib

/-- Decoded instruction, one or more words. Source: `plc-ir/src/encode.rs`, `DecodedInstr`. -/
inductive DecodedInstr where
  /-- Opcode with a 24-bit payload. -/
  | simple (op : Opcode) (payload : ℕ)
  /-- Opcode word followed by an immediate word. -/
  | withImm32 (op : Opcode) (payload imm : ℕ)
  /-- `CALL_FB`: opcode word, kind and id word, instance base word. -/
  | callFb (fbKind fbId instanceBase : ℕ)
  deriving DecidableEq, Repr

/-- Pack an opcode and a 24-bit payload into a word. Source: `encode.rs`, `pack_word`. -/
def packWord (op : Opcode) (payload : ℕ) : ℕ := op.toU8 * 2 ^ 24 + payload % 2 ^ 24

/-- Encode an instruction to bytes. Source: `encode.rs`, `encode_instruction`. -/
def encodeInstruction : DecodedInstr → List UInt8
  | .simple op payload => leBytes 4 (packWord op payload)
  | .withImm32 op payload imm => leBytes 4 (packWord op payload) ++ leBytes 4 imm
  | .callFb fbKind fbId instanceBase =>
      leBytes 4 (packWord .callFb 0) ++
        leBytes 4 (fbKind % 2 ^ 8 * 2 ^ 24 + fbId % 2 ^ 24) ++ leBytes 4 instanceBase

/-- The little-endian word at byte `pc` of the code. Source: `encode.rs`,
`u32::from_le_bytes(code[pc..pc + 4])`. -/
def wordAt (code : List UInt8) (pc : ℕ) : ℕ := ofLeBytes (readAt code pc 4)

/-- A byte as two upper-case hexadecimal digits. Source: `encode.rs`, `{op_byte:02X}`. -/
def hexByte (b : ℕ) : String :=
  String.ofList ((Nat.toDigits 16 (256 + b % 256)).drop 1 |>.map Char.toUpper)

/-- Decode the instruction that starts at byte `pc`, with its size in bytes.
Source: `encode.rs`, `decode_instruction`. -/
def decodeInstruction (code : List UInt8) (pc : ℕ) : Except IrError (DecodedInstr × ℕ) :=
  if pc + 4 > code.length then
    .error (.spbc s!"truncated decode OOB at pc={pc}")
  else
    let word := wordAt code pc
    let opByte := word / 2 ^ 24
    let payload := word % 2 ^ 24
    match Opcode.fromU8 opByte with
    | none => .error (.unknown "opcode" ("0x" ++ hexByte opByte))
    | some op =>
        match op with
        | .pushIDint | .pushIReal | .pushTime =>
            if pc + 8 > code.length then
              .error (.spbc "missing imm32")
            else
              .ok (.withImm32 op payload (wordAt code (pc + 4)), 8)
        | .callFb =>
            if pc + 12 > code.length then
              .error (.spbc "CALL_FB missing operands")
            else
              let w1 := wordAt code (pc + 4)
              .ok (.callFb (w1 / 2 ^ 24 % 2 ^ 8) (w1 % 2 ^ 24) (wordAt code (pc + 8)), 12)
        | _ => .ok (.simple op payload, 4)

/-! ## Shapes and sizes -/

/-- Opcodes that are followed by an immediate word. -/
def Opcode.hasImm32 : Opcode → Bool
  | .pushIDint | .pushIReal | .pushTime => true
  | _ => false

/-- The instructions that `decodeInstruction` can produce: operands of the shape their opcode
requires, each within its field. -/
def DecodedInstr.WellFormed : DecodedInstr → Prop
  | .simple op payload => op.hasImm32 = false ∧ op ≠ .callFb ∧ payload < 2 ^ 24
  | .withImm32 op payload imm => op.hasImm32 = true ∧ payload < 2 ^ 24 ∧ imm < 2 ^ 32
  | .callFb fbKind fbId instanceBase => fbKind < 2 ^ 8 ∧ fbId < 2 ^ 24 ∧ instanceBase < 2 ^ 32

/-- Size in bytes. -/
def DecodedInstr.size : DecodedInstr → ℕ
  | .simple _ _ => 4
  | .withImm32 _ _ _ => 8
  | .callFb _ _ _ => 12

/-- The encoding has the instruction's size. -/
@[simp] theorem encodeInstruction_length (i : DecodedInstr) :
    (encodeInstruction i).length = i.size := by
  cases i <;> simp [encodeInstruction, DecodedInstr.size]

/-- Instructions are never empty. -/
theorem DecodedInstr.size_pos (i : DecodedInstr) : 0 < i.size := by
  cases i <;> simp [DecodedInstr.size]

/-- A word of the code is a 32-bit number. -/
theorem wordAt_lt (code : List UInt8) (pc : ℕ) : wordAt code pc < 2 ^ 32 := by
  have hlen : (readAt code pc 4).length ≤ 4 := by
    simp [readAt]
  calc wordAt code pc < 256 ^ (readAt code pc 4).length := ofLeBytes_lt _
    _ ≤ 256 ^ 4 := Nat.pow_le_pow_right (by decide) hlen
    _ = 2 ^ 32 := by norm_num

/-- The word written at the end of a known prefix. -/
theorem wordAt_append (pre post : List UInt8) {w : ℕ} (hw : w < 2 ^ 32) :
    wordAt (pre ++ leBytes 4 w ++ post) pre.length = w := by
  have hread := readAt_append_middle pre (leBytes 4 w) post
  rw [leBytes_length] at hread
  rw [wordAt, hread, ofLeBytes_leBytes]
  exact Nat.mod_eq_of_lt hw

/-! ## Inversion and round trip -/

/-- The second half of a decode, once the opcode is known, as a choice between the three shapes. -/
theorem decodeInstruction_of_opcode {code : List UInt8} {pc : ℕ} {op : Opcode}
    (hpc : pc + 4 ≤ code.length) (hop : Opcode.fromU8 (wordAt code pc / 2 ^ 24) = some op) :
    decodeInstruction code pc =
      if op.hasImm32 then
        if pc + 8 > code.length then .error (.spbc "missing imm32")
        else .ok (.withImm32 op (wordAt code pc % 2 ^ 24) (wordAt code (pc + 4)), 8)
      else if op = .callFb then
        if pc + 12 > code.length then .error (.spbc "CALL_FB missing operands")
        else .ok (.callFb (wordAt code (pc + 4) / 2 ^ 24 % 2 ^ 8) (wordAt code (pc + 4) % 2 ^ 24)
          (wordAt code (pc + 8)), 12)
      else .ok (.simple op (wordAt code pc % 2 ^ 24), 4) := by
  unfold decodeInstruction
  rw [if_neg (by omega)]
  simp only [hop]
  cases op <;> rfl

/-- What a successful decode says: the instruction is well formed, the size returned is its own,
and it lies inside the code. -/
theorem decodeInstruction_ok {code : List UInt8} {pc : ℕ} {i : DecodedInstr} {n : ℕ}
    (h : decodeInstruction code pc = .ok (i, n)) :
    n = i.size ∧ pc + i.size ≤ code.length ∧ i.WellFormed := by
  have hw := wordAt_lt code pc
  have hw1 := wordAt_lt code (pc + 4)
  have hw2 := wordAt_lt code (pc + 8)
  by_cases hpc : pc + 4 ≤ code.length
  · rcases hop : Opcode.fromU8 (wordAt code pc / 2 ^ 24) with _ | op
    · unfold decodeInstruction at h
      rw [if_neg (by omega)] at h
      simp only [hop] at h
      cases h
    · rw [decodeInstruction_of_opcode hpc hop] at h
      split_ifs at h with himm hlen hcall hlen <;> cases h
      · exact ⟨rfl, by simp only [DecodedInstr.size]; omega, himm, Nat.mod_lt _ (by decide), hw1⟩
      · exact ⟨rfl, by simp only [DecodedInstr.size]; omega, Nat.mod_lt _ (by decide),
          Nat.mod_lt _ (by decide), hw2⟩
      · exact ⟨rfl, hpc, by simpa using himm, hcall, Nat.mod_lt _ (by decide)⟩
  · simp [decodeInstruction, Nat.lt_of_not_le hpc] at h

/-- The opcode and payload fields of a packed word. -/
theorem packWord_fields (op : Opcode) {payload : ℕ} (h : payload < 2 ^ 24) :
    packWord op payload < 2 ^ 32 ∧ Opcode.fromU8 (packWord op payload / 2 ^ 24) = some op ∧
      packWord op payload % 2 ^ 24 = payload := by
  have hop := op.toU8_lt
  have hdiv : packWord op payload / 2 ^ 24 = op.toU8 := by
    simp only [packWord]
    omega
  refine ⟨?_, by rw [hdiv, Opcode.fromU8_toU8], ?_⟩ <;> simp only [packWord] <;> omega

/-- **Round trip.** An encoded instruction is found again at its place in any code. -/
theorem decodeInstruction_encode (pre post : List UInt8) {i : DecodedInstr} (hi : i.WellFormed) :
    decodeInstruction (pre ++ encodeInstruction i ++ post) pre.length = .ok (i, i.size) := by
  have hlen : (pre ++ encodeInstruction i ++ post).length =
      pre.length + i.size + post.length := by
    simp [Nat.add_assoc]
  cases i with
  | simple op payload =>
      obtain ⟨himm, hcall, hp⟩ := hi
      obtain ⟨h32, hop, hpl⟩ := packWord_fields op hp
      have hw : wordAt (pre ++ encodeInstruction (.simple op payload) ++ post) pre.length =
          packWord op payload := wordAt_append pre post h32
      rw [← hw] at hop
      simp only [DecodedInstr.size] at hlen
      rw [decodeInstruction_of_opcode (by omega) hop, hw, hpl]
      simp [himm, hcall, DecodedInstr.size]
  | withImm32 op payload imm =>
      obtain ⟨himm, hp, h⟩ := hi
      obtain ⟨h32, hop, hpl⟩ := packWord_fields op hp
      have hw : wordAt (pre ++ encodeInstruction (.withImm32 op payload imm) ++ post) pre.length =
          packWord op payload := by
        simp only [encodeInstruction, List.append_assoc]
        rw [← List.append_assoc]
        exact wordAt_append pre _ h32
      have hw1 : wordAt (pre ++ encodeInstruction (.withImm32 op payload imm) ++ post)
          (pre.length + 4) = imm := by
        have := wordAt_append (pre ++ leBytes 4 (packWord op payload)) post h
        simpa [encodeInstruction, List.append_assoc] using this
      rw [← hw] at hop
      simp only [DecodedInstr.size] at hlen
      rw [decodeInstruction_of_opcode (by omega) hop, hw, hw1, hpl]
      rw [if_pos himm, if_neg (by omega), DecodedInstr.size]
  | callFb fbKind fbId instanceBase =>
      obtain ⟨hk, hid, hb⟩ := hi
      obtain ⟨h32, hop, -⟩ := packWord_fields .callFb (by decide : 0 < 2 ^ 24)
      have hmid : fbKind % 2 ^ 8 * 2 ^ 24 + fbId % 2 ^ 24 < 2 ^ 32 := by omega
      have hw : wordAt (pre ++ encodeInstruction (.callFb fbKind fbId instanceBase) ++ post)
          pre.length = packWord .callFb 0 := by
        simp only [encodeInstruction, List.append_assoc]
        rw [← List.append_assoc]
        exact wordAt_append pre _ h32
      have hw1 : wordAt (pre ++ encodeInstruction (.callFb fbKind fbId instanceBase) ++ post)
          (pre.length + 4) = fbKind % 2 ^ 8 * 2 ^ 24 + fbId % 2 ^ 24 := by
        have := wordAt_append (pre ++ leBytes 4 (packWord .callFb 0))
          (leBytes 4 instanceBase ++ post) hmid
        simpa [encodeInstruction, List.append_assoc] using this
      have hw2 : wordAt (pre ++ encodeInstruction (.callFb fbKind fbId instanceBase) ++ post)
          (pre.length + 8) = instanceBase := by
        have := wordAt_append (pre ++ leBytes 4 (packWord .callFb 0) ++
          leBytes 4 (fbKind % 2 ^ 8 * 2 ^ 24 + fbId % 2 ^ 24)) post hb
        simpa [encodeInstruction, List.append_assoc] using this
      have hkind : (fbKind % 2 ^ 8 * 2 ^ 24 + fbId % 2 ^ 24) / 2 ^ 24 % 2 ^ 8 = fbKind := by omega
      have hident : (fbKind % 2 ^ 8 * 2 ^ 24 + fbId % 2 ^ 24) % 2 ^ 24 = fbId := by omega
      rw [← hw] at hop
      simp only [DecodedInstr.size] at hlen
      rw [decodeInstruction_of_opcode (by omega) hop, hw1, hw2, hkind, hident]
      rw [if_neg (by decide), if_pos rfl, if_neg (by omega), DecodedInstr.size]

/-! ## Instructions that do not fit -/

/-- The opcode and the kind of the instruction go together. -/
def DecodedInstr.Shaped : DecodedInstr → Prop
  | .simple op _ => op.hasImm32 = false ∧ op ≠ .callFb
  | .withImm32 op _ _ => op.hasImm32 = true
  | .callFb _ _ _ => True

/-- What is left of an instruction in the fields of its encoding. -/
def DecodedInstr.stored : DecodedInstr → DecodedInstr
  | .simple op payload => .simple op (payload % 2 ^ 24)
  | .withImm32 op payload imm => .withImm32 op (payload % 2 ^ 24) (imm % 2 ^ 32)
  | .callFb fbKind fbId instanceBase =>
      .callFb (fbKind % 2 ^ 8) (fbId % 2 ^ 24) (instanceBase % 2 ^ 32)

@[simp] theorem DecodedInstr.size_stored (i : DecodedInstr) : i.stored.size = i.size := by
  cases i <;> rfl

theorem DecodedInstr.stored_wellFormed {i : DecodedInstr} (h : i.Shaped) : i.stored.WellFormed := by
  have h24 : ∀ n, n % 2 ^ 24 < 2 ^ 24 := fun n => Nat.mod_lt n (by decide)
  have h32 : ∀ n, n % 2 ^ 32 < 2 ^ 32 := fun n => Nat.mod_lt n (by decide)
  cases i with
  | simple op payload => exact ⟨h.1, h.2, h24 _⟩
  | withImm32 op payload imm => exact ⟨h, h24 _, h32 _⟩
  | callFb fbKind fbId base => exact ⟨Nat.mod_lt _ (by decide), h24 _, h32 _⟩

theorem encodeInstruction_stored (i : DecodedInstr) :
    encodeInstruction i.stored = encodeInstruction i := by
  have hword : ∀ n, leBytes 4 (n % 2 ^ 32) = leBytes 4 n := fun n => leBytes_mod 4 n
  cases i with
  | simple op payload => simp [encodeInstruction, DecodedInstr.stored, packWord]
  | withImm32 op payload imm =>
      simp only [encodeInstruction, DecodedInstr.stored, packWord, Nat.mod_mod, hword]
  | callFb fbKind fbId base =>
      simp only [encodeInstruction, DecodedInstr.stored, Nat.mod_mod, hword]

/-- An encoded instruction is found again as far as it fits its fields. -/
theorem decodeInstruction_encode_stored (pre post : List UInt8) {i : DecodedInstr}
    (hi : i.Shaped) :
    decodeInstruction (pre ++ encodeInstruction i ++ post) pre.length = .ok (i.stored, i.size) := by
  have h := decodeInstruction_encode pre post (DecodedInstr.stored_wellFormed hi)
  rwa [encodeInstruction_stored, DecodedInstr.size_stored] at h

end SoftPlc.Ir
