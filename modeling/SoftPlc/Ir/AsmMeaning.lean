import SoftPlc.Ir.Asm

/-!
# What the assembler writes

An instruction line says an opcode and the integers that its operands spell, each for a field
(`written`). `emitInstr_says` compares what the line emits with what it says.
-/

namespace SoftPlc.Ir

open SoftPlc.Lib

/-! ## Operands and their fields -/

/-- The fields of an instruction that an operand goes to. -/
inductive Field where
  | payload
  | imm
  | bits
  | kind
  | id
  | base
  deriving DecidableEq, Repr

/-- An operand as it is written: a field and an integer. -/
abbrev Operand := Field × ℤ

namespace Field

/-- The integers that a field can hold. -/
def InRange : Field → ℤ → Prop
  | .payload, n | .id, n => 0 ≤ n ∧ n < 2 ^ 24
  | .imm, n => -2 ^ 31 ≤ n ∧ n < 2 ^ 31
  | .bits, n | .base, n => 0 ≤ n ∧ n < 2 ^ 32
  | .kind, n => 0 ≤ n ∧ n < 2 ^ 8

/-- What a field keeps of an integer. -/
def wrap : Field → ℤ → ℤ
  | .payload, n | .id, n => n % 2 ^ 24
  | .imm, n => n.bmod (2 ^ 32)
  | .bits, n | .base, n => n % 2 ^ 32
  | .kind, n => n % 2 ^ 8

theorem wrap_eq_iff (f : Field) (n : ℤ) : f.wrap n = n ↔ f.InRange n := by
  cases f <;> simp only [wrap, InRange, Int.bmod] <;> (try split) <;> omega

end Field

/-- The integer in a field of a decoded instruction; an immediate word is read as an `i32` and as
bits. -/
def DecodedInstr.read : DecodedInstr → Field → Option ℤ
  | .simple _ payload, .payload => some payload
  | .withImm32 _ _ imm, .imm => some (BitVec.ofNat 32 imm).toInt
  | .withImm32 _ _ imm, .bits => some imm
  | .callFb kind _ _, .kind => some kind
  | .callFb _ id _, .id => some id
  | .callFb _ _ base, .base => some base
  | _, _ => none

/-- The opcode of a decoded instruction. -/
def DecodedInstr.opcode : DecodedInstr → Opcode
  | .simple op _ => op
  | .withImm32 op _ _ => op
  | .callFb _ _ _ => .callFb

/-! ## Written instructions -/

/-- Where the operands of an opcode go. -/
inductive Shape where
  | payload
  | imm
  | bits
  | call
  deriving DecidableEq, Repr

/-- The shape of an opcode. -/
def Opcode.shape : Opcode → Shape
  | .pushIDint | .pushTime => .imm
  | .pushIReal => .bits
  | .callFb => .call
  | _ => .payload

/-- The fields of a shape. -/
def Shape.fields : Shape → List Field
  | .payload => [.payload]
  | .imm => [.imm]
  | .bits => [.bits]
  | .call => [.kind, .id, .base]

/-- Bytes of an instruction of a shape. -/
def Shape.size : Shape → ℕ
  | .payload => 4
  | .imm | .bits => 8
  | .call => 12

/-- An instruction as it is written. -/
structure WrittenInstr where
  op : Opcode
  operands : List Operand
  /-- The label that a jump names. -/
  target : Option String
  deriving DecidableEq, Repr

/-- The operands that one token of a `CALL_FB` line spells, after others. -/
def callOperands (before : List Operand) (t : String) : Option (List Operand) :=
  match stripPrefix "prim=" t with
  | some v => (PrimitiveId.fromName v).map fun p => [(.kind, 0), (.id, p.toU32)]
  | none =>
  match stripPrefix "user=" t with
  | some v => (parseInt v).toOption.map fun n => [(.kind, 1), (.id, n)]
  | none =>
  match (stripPrefix "instance=" t).or (stripPrefix "inst=" t) with
  | some v => (parseInt v).toOption.map fun n => [(.base, n)]
  | none =>
  match PrimitiveId.fromName t with
  | some p => some [(.kind, 0), (.id, p.toU32)]
  | none =>
      if (∃ o ∈ before, o.1 = .kind) ∧ ∀ o ∈ before, o.1 ≠ .base then
        (parseInt t).toOption.map fun n => [(.base, n)]
      else none

/-- The operands of a `CALL_FB` line. -/
def allCallOperands : List Operand → List String → Option (List Operand)
  | before, [] => some before
  | before, t :: ts => (callOperands before t).bind fun new => allCallOperands (before ++ new) ts

/-- The one operand of a line. -/
def oneOperand (field : Field) (parse : String → Option ℤ) : List String → Option (List Operand)
  | [t] => (parse t).map fun n => [(field, n)]
  | _ => none

/-- An address or a label. -/
def jumpTarget (op : Opcode) : List String → Option WrittenInstr
  | [t] =>
      match (parseInt t).toOption with
      | some n => some ⟨op, [(.payload, n)], none⟩
      | none => some ⟨op, [], some t⟩
  | _ => none

/-- What an instruction line says. -/
def written (parseReal : String → Option F32) (op : Opcode) (toks : List String) :
    Option WrittenInstr :=
  let plain := fun operands => (⟨op, operands, none⟩ : WrittenInstr)
  match op with
  | .pushIDint | .pushTime => (oneOperand .imm (fun t => (parseInt t).toOption) toks).map plain
  | .pushIReal =>
      (oneOperand .bits (fun t => (parseReal t).map fun f => (f.bits.toNat : ℤ)) toks).map plain
  | .pushIBool =>
      (oneOperand .payload (fun t => (parseBool t).toOption.map fun b => if b then 1 else 0) toks).map
        plain
  | .conv =>
      (oneOperand .payload (fun t => (parseTypeTag t).toOption.map fun n => (n : ℤ)) toks).map plain
  | .ldData | .stData | .ldRetain | .stRetain | .ldI | .stQ | .ldQ | .ldIq =>
      (oneOperand .payload (fun t => (parseInt t).toOption) toks).map plain
  | .jmp | .jmpIf | .jmpIfNot => jumpTarget op toks
  | .callFb => (allCallOperands [] toks).map plain
  | .nop | .halt | .add | .sub | .mul | .div | .neg | .and | .or | .xor | .not | .eq | .ne | .lt |
    .le | .gt | .ge | .ret => some (plain [])

namespace WrittenInstr

/-- The last integer for a field, in 32 bits. -/
def field (w : WrittenInstr) (f : Field) : ℕ := asU32 ((w.operands.reverse.lookup f).getD 0)

/-- The instruction that the assembler makes of operands. -/
def instr (w : WrittenInstr) : DecodedInstr :=
  match w.op.shape with
  | .payload => .simple w.op (w.field .payload)
  | .imm => .withImm32 w.op 0 (w.field .imm)
  | .bits => .withImm32 w.op 0 (w.field .bits)
  | .call => .callFb (w.field .kind) (w.field .id) (w.field .base)

/-- What the assembler emits. -/
def emitted (w : WrittenInstr) : Emitted :=
  match w.target with
  | some label => .jump w.op label
  | none => .instr w.instr

/-- Operands go to fields of the opcode, and a line that names a label has no operand besides. -/
structure Shaped (w : WrittenInstr) : Prop where
  fields : ∀ o ∈ w.operands, o.1 ∈ w.op.shape.fields
  target : w.target ≠ none → w.op.shape = .payload ∧ w.operands = []

end WrittenInstr

/-! ### Calls -/

theorem lookup_reverse_append (xs ys : List Operand) (f : Field) :
    (xs ++ ys).reverse.lookup f = (ys.reverse.lookup f).or (xs.reverse.lookup f) := by
  rw [List.reverse_append, List.lookup_append]

theorem lookup_reverse_eq_none {ops : List Operand} {f : Field} :
    ops.reverse.lookup f = none ↔ ∀ o ∈ ops, o.1 ≠ f := by
  rw [List.lookup_eq_none_iff]
  simp only [List.mem_reverse, bne_iff_ne, ne_eq]
  exact forall₂_congr fun o _ => not_congr eq_comm

/-- The operand that is found is one of the list. -/
theorem mem_of_lookup_reverse {ops : List Operand} {f : Field} {n : ℤ}
    (h : ops.reverse.lookup f = some n) : (f, n) ∈ ops := by
  obtain ⟨l₁, l₂, hl, -⟩ := List.lookup_eq_some_iff.mp h
  rw [← List.mem_reverse, hl]
  simp

/-- The locals of `parse_call_fb` after some operands. -/
structure CallOperands.After (ops : CallOperands) (before : List Operand) : Prop where
  kind : ops.kind = (before.reverse.lookup .kind).map asU32
  id : ops.id = (before.reverse.lookup .id).map asU32
  base : ops.base = (before.reverse.lookup .base).map asU32

/-- Primitive ids are 32-bit numbers. -/
theorem asU32_toU32 (p : PrimitiveId) : asU32 (p.toU32 : ℤ) = p.toU32 := by
  cases p <;> rfl

theorem atLine_ok {α : Type} {line : ℕ} {x : Except String α} {a : α} (h : atLine line x = .ok a) :
    x = .ok a := by
  cases x with
  | ok b =>
      cases h
      rfl
  | error m => cases h

theorem CallOperands.After.prim {ops : CallOperands} {before : List Operand} (h : ops.After before)
    (p : PrimitiveId) :
    CallOperands.After { ops with kind := some 0, id := some p.toU32 }
      (before ++ [(.kind, 0), (.id, (p.toU32 : ℤ))]) := by
  refine ⟨?_, ?_, ?_⟩ <;> rw [lookup_reverse_append]
  · rfl
  · exact congrArg some (asU32_toU32 p).symm
  · exact h.base

theorem CallOperands.After.setBase {ops : CallOperands} {before : List Operand}
    (h : ops.After before) (n : ℤ) :
    CallOperands.After { ops with base := some (asU32 n) } (before ++ [(.base, n)]) := by
  refine ⟨?_, ?_, ?_⟩ <;> rw [lookup_reverse_append]
  · exact h.kind
  · exact h.id
  · rfl

theorem CallOperands.After.user {ops : CallOperands} {before : List Operand} (h : ops.After before)
    (n : ℤ) :
    CallOperands.After { ops with kind := some 1, id := some (asU32 n) }
      (before ++ [(.kind, 1), (.id, n)]) := by
  refine ⟨?_, ?_, ?_⟩ <;> rw [lookup_reverse_append]
  · rfl
  · rfl
  · exact h.base

/-- One token of a call. -/
theorem callToken_written {line : ℕ} {ops ops' : CallOperands} {before : List Operand} {t : String}
    (hops : ops.After before) (h : callToken line ops t = .ok ops') :
    ∃ new, callOperands before t = some new ∧ ops'.After (before ++ new) ∧
      ∀ o ∈ new, o.1 ∈ Shape.call.fields := by
  unfold callToken at h
  unfold callOperands
  rcases hprim : stripPrefix "prim=" t with _ | v
  swap
  · simp only [hprim] at h ⊢
    rcases hp : PrimitiveId.fromName v with _ | p
    · rw [hp] at h
      cases h
    · rw [hp] at h
      cases h
      exact ⟨_, rfl, hops.prim p, by simp [Shape.fields]⟩
  simp only [hprim] at h ⊢
  rcases huser : stripPrefix "user=" t with _ | v
  swap
  · simp only [huser] at h ⊢
    obtain ⟨n, hn, h⟩ := except_bind_ok.mp h
    cases h
    exact ⟨_, by rw [atLine_ok hn]; rfl, hops.user n, by simp [Shape.fields]⟩
  simp only [huser] at h ⊢
  rcases hinst : (stripPrefix "instance=" t).or (stripPrefix "inst=" t) with _ | v
  swap
  · simp only [hinst] at h ⊢
    obtain ⟨n, hn, h⟩ := except_bind_ok.mp h
    cases h
    exact ⟨_, by rw [atLine_ok hn]; rfl, hops.setBase n, by simp [Shape.fields]⟩
  simp only [hinst] at h ⊢
  rcases hp : PrimitiveId.fromName t with _ | p
  swap
  · simp only [hp] at h ⊢
    cases h
    exact ⟨_, rfl, hops.prim p, by simp [Shape.fields]⟩
  simp only [hp] at h ⊢
  split_ifs at h with hplain
  obtain ⟨n, hn, h⟩ := except_bind_ok.mp h
  cases h
  have hbefore : (∃ o ∈ before, o.1 = .kind) ∧ ∀ o ∈ before, o.1 ≠ .base := by
    rw [hops.kind, hops.base, Option.isSome_map, Option.map_eq_none_iff, lookup_reverse_eq_none,
      Option.isSome_iff_ne_none, ne_eq, lookup_reverse_eq_none] at hplain
    push Not at hplain
    exact hplain
  rw [if_pos hbefore]
  exact ⟨_, by rw [atLine_ok hn]; rfl, hops.setBase n, by simp [Shape.fields]⟩

theorem foldlM_callToken_written {line : ℕ} {toks : List String} {ops ops' : CallOperands}
    {before : List Operand} (hops : ops.After before)
    (hfields : ∀ o ∈ before, o.1 ∈ Shape.call.fields)
    (h : toks.foldlM (callToken line) ops = .ok ops') :
    ∃ all, allCallOperands before toks = some all ∧ ops'.After all ∧
      ∀ o ∈ all, o.1 ∈ Shape.call.fields := by
  induction toks generalizing ops before with
  | nil =>
      cases h
      exact ⟨before, rfl, hops, hfields⟩
  | cons t ts ih =>
      rw [List.foldlM_cons] at h
      obtain ⟨ops₁, h₁, h₂⟩ := except_bind_ok.mp h
      obtain ⟨new, hnew, hops₁, hf⟩ := callToken_written hops h₁
      obtain ⟨all, hall, hrest⟩ := ih hops₁ (fun o ho => (List.mem_append.mp ho).elim (hfields o) (hf o)) h₂
      exact ⟨all, by rw [allCallOperands, hnew, Option.bind_some, hall], hrest⟩

theorem parseCallFb_written {line : ℕ} {toks : List String} {i : DecodedInstr}
    (h : parseCallFb toks line = .ok i) :
    ∃ all, allCallOperands [] toks = some all ∧ (∀ o ∈ all, o.1 ∈ Shape.call.fields) ∧
      i = (⟨.callFb, all, none⟩ : WrittenInstr).instr := by
  obtain ⟨ops, hops, h⟩ := except_bind_ok.mp h
  have hstart : CallOperands.After ⟨none, none, none⟩ [] := ⟨rfl, rfl, rfl⟩
  obtain ⟨all, hall, hafter, hfields⟩ := foldlM_callToken_written hstart (by simp) hops
  refine ⟨all, hall, hfields, ?_⟩
  rw [hafter.kind, hafter.id, hafter.base] at h
  rcases hkind : all.reverse.lookup .kind with _ | kind
  · rw [hkind] at h
    cases h
  rcases hid : all.reverse.lookup .id with _ | id
  · rw [hkind, hid] at h
    cases h
  rcases hbase : all.reverse.lookup .base with _ | base
  · rw [hkind, hid, hbase] at h
    cases h
  rw [hkind, hid, hbase] at h
  cases h
  simp [WrittenInstr.instr, WrittenInstr.field, Opcode.shape, hkind, hid, hbase]

/-! ### Other instructions -/

section Emitted

variable {line : ℕ} {op : Opcode} {mnem : String} {toks : List String} {e : Emitted}

theorem expectOne_ok {t : String} (h : expectOne toks line = .ok t) : toks = [t] := by
  unfold expectOne at h
  split at h
  · cases h
    rfl
  · cases h

/-- What an instruction emits is written. -/
def Says (w : Option WrittenInstr) (e : Emitted) : Prop :=
  ∃ written, w = some written ∧ written.Shaped ∧ e = written.emitted

/-- An opcode that takes one operand in its payload. -/
theorem payloadOperand_says {parse : String → Except String ℕ} {spell : String → Option ℤ}
    (hshape : op.shape = .payload)
    (hparse : ∀ t v, parse t = .ok v → ∃ n, spell t = some n ∧ asU32 n = v)
    (h : payloadOperand line op parse toks = .ok e) :
    Says ((oneOperand .payload spell toks).map fun operands => ⟨op, operands, none⟩) e := by
  obtain ⟨t, ht, h⟩ := except_bind_ok.mp h
  obtain ⟨v, hv, h⟩ := except_bind_ok.mp h
  cases h
  obtain rfl := expectOne_ok ht
  obtain ⟨n, hn, rfl⟩ := hparse t v (atLine_ok hv)
  refine ⟨⟨op, [(.payload, n)], none⟩, by simp [oneOperand, hn], ⟨?_, fun h => absurd rfl h⟩, ?_⟩
  · simp [hshape, Shape.fields]
  · simp [WrittenInstr.emitted, WrittenInstr.instr, hshape, WrittenInstr.field]

/-- An opcode that takes an integer in the next word. -/
theorem immOperand_says (hshape : op.shape = .imm) (h : immOperand line op toks = .ok e) :
    Says ((oneOperand .imm (fun t => (parseInt t).toOption) toks).map fun operands =>
      ⟨op, operands, none⟩) e := by
  obtain ⟨t, ht, h⟩ := except_bind_ok.mp h
  obtain ⟨n, hn, h⟩ := except_bind_ok.mp h
  cases h
  obtain rfl := expectOne_ok ht
  refine ⟨⟨op, [(.imm, n)], none⟩, by simp [oneOperand, atLine_ok hn, Except.toOption],
    ⟨?_, fun h => absurd rfl h⟩, ?_⟩
  · simp [hshape, Shape.fields]
  · simp [WrittenInstr.emitted, WrittenInstr.instr, hshape, WrittenInstr.field]

/-- A jump to an address or a label. -/
theorem jumpOperand_says (hshape : op.shape = .payload) (h : jumpOperand line op toks = .ok e) :
    Says (jumpTarget op toks) e := by
  obtain ⟨t, ht, htarget⟩ := except_bind_ok.mp h
  obtain rfl := expectOne_ok ht
  split at htarget
  · rename_i n hn
    cases htarget
    refine ⟨⟨op, [(.payload, n)], none⟩, by simp [jumpTarget, hn, Except.toOption],
      ⟨?_, fun h => absurd rfl h⟩, ?_⟩
    · simp [hshape, Shape.fields]
    · simp [WrittenInstr.emitted, WrittenInstr.instr, hshape, WrittenInstr.field]
  · rename_i m hm
    cases htarget
    exact ⟨⟨op, [], some t⟩, by simp [jumpTarget, hm, Except.toOption],
      ⟨by simp, fun _ => ⟨hshape, rfl⟩⟩, rfl⟩

/-- An opcode without operands. -/
theorem noOperands_says (hshape : op.shape = .payload) (h : noOperands line op mnem toks = .ok e) :
    Says (some ⟨op, [], none⟩) e := by
  unfold noOperands at h
  split_ifs at h
  cases h
  refine ⟨_, rfl, ⟨by simp, fun h => absurd rfl h⟩, ?_⟩
  simp [WrittenInstr.emitted, WrittenInstr.instr, hshape, WrittenInstr.field, asU32]

theorem parseTypeTag_ok {t : String} {v : ℕ} (h : parseTypeTag t = .ok v) :
    asU32 (v : ℤ) = v := by
  unfold parseTypeTag at h
  split at h <;> first | (cases h; rfl) | cases h

theorem toOption_of_ok {α : Type} {x : Except String α} {a : α} (h : x = .ok a) :
    x.toOption = some a := by
  rw [h]
  rfl

/-- Parsed integers are the written ones, in 32 bits. -/
theorem parseInt_spells (t : String) (v : ℕ) (h : (parseInt t).map asU32 = .ok v) :
    ∃ n, (parseInt t).toOption = some n ∧ asU32 n = v := by
  rcases hp : parseInt t with m | n
  · rw [hp] at h
    cases h
  · rw [hp] at h
    exact ⟨n, rfl, Except.ok.inj h⟩

theorem parseBool_spells (t : String) (v : ℕ)
    (h : ((parseBool t).map fun b => if b then 1 else 0) = .ok v) :
    ∃ n : ℤ, ((parseBool t).toOption.map fun b => if b then 1 else 0) = some n ∧ asU32 n = v := by
  rcases hp : parseBool t with m | b
  · rw [hp] at h
    cases h
  · rw [hp] at h
    refine ⟨_, rfl, ?_⟩
    rw [← Except.ok.inj h]
    cases b <;> rfl

theorem parseTypeTag_spells (t : String) (v : ℕ) (h : parseTypeTag t = .ok v) :
    ∃ n : ℤ, ((parseTypeTag t).toOption.map fun n => (n : ℤ)) = some n ∧ asU32 n = v :=
  ⟨v, by rw [toOption_of_ok h]; rfl, parseTypeTag_ok h⟩

variable {parseReal : String → Option F32}

/-- A real literal. -/
theorem pushIReal_says (h : emitInstr parseReal line .pushIReal mnem toks = .ok e) :
    Says (written parseReal .pushIReal toks) e := by
  obtain ⟨t, ht, hreal⟩ := except_bind_ok.mp h
  obtain rfl := expectOne_ok ht
  split at hreal
  · rename_i f hf
    cases hreal
    refine ⟨⟨.pushIReal, [(.bits, f.bits.toNat)], none⟩, ?_,
      ⟨by simp [Opcode.shape, Shape.fields], fun h => absurd rfl h⟩, ?_⟩
    · show Option.map _ (oneOperand .bits _ [t]) = _
      simp [oneOperand, hf]
    · have hbits : asU32 (f.bits.toNat : ℤ) = f.bits.toNat := by
        have := f.bits.isLt
        unfold asU32
        omega
      simp [WrittenInstr.emitted, WrittenInstr.instr, Opcode.shape, WrittenInstr.field, hbits]
  · cases hreal

/-- A call. -/
theorem callFb_says (h : emitInstr parseReal line .callFb mnem toks = .ok e) :
    Says (written parseReal .callFb toks) e := by
  obtain ⟨i, hi, h⟩ := except_bind_ok.mp h
  cases h
  obtain ⟨all, hall, hfields, rfl⟩ := parseCallFb_written hi
  refine ⟨⟨.callFb, all, none⟩, ?_, ⟨hfields, fun h => absurd rfl h⟩, rfl⟩
  show Option.map _ (allCallOperands [] toks) = _
  rw [hall]
  rfl

/-- **An instruction line emits what it says.** -/
theorem emitInstr_says (h : emitInstr parseReal line op mnem toks = .ok e) :
    Says (written parseReal op toks) e := by
  cases op
  case pushIDint | pushTime => exact immOperand_says rfl h
  case pushIReal => exact pushIReal_says h
  case callFb => exact callFb_says h
  case pushIBool => exact payloadOperand_says rfl parseBool_spells h
  case conv => exact payloadOperand_says rfl parseTypeTag_spells h
  case ldData | stData | ldRetain | stRetain | ldI | stQ | ldQ | ldIq =>
      exact payloadOperand_says rfl parseInt_spells h
  case jmp | jmpIf | jmpIfNot =>
      simp only [emitInstr] at h
      simp only [written]
      exact jumpOperand_says rfl h
  all_goals
    simp only [emitInstr] at h
    simp only [written]
    exact noOperands_says rfl h

end Emitted

end SoftPlc.Ir
