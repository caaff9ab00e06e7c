import SoftPlc.Ir.Spbc
import SoftPlc.Lib.Bind
import SoftPlc.Lib.F32
import SoftPlc.Ir.Encode

/-!
# The text assembler

`plc-ir/src/asm.rs`. A source is a list of lines: directives, labels and instructions. Operands are
parsed as `i64` and cast to `u32`; the encoder masks them to their fields. Jumps to labels are patched
once all labels are known.
-/

namespace SoftPlc.Ir

open SoftPlc.Lib

/-! ## Texts -/

/-- Source: `str::trim`. -/
def trimChars (cs : List Char) : List Char :=
  ((cs.dropWhile isWhitespace).reverse.dropWhile isWhitespace).reverse

/-- Source: `str::strip_prefix`. -/
def stripPrefix (p s : String) : Option String :=
  if p.toList <+: s.toList then some (String.ofList (s.toList.drop p.toList.length)) else none

/-- Source: `str::strip_suffix(':')`. -/
def stripColon (s : String) : Option String :=
  if s.toList.getLast? = some ':' then some (String.ofList s.toList.dropLast) else none

/-- The pieces of a text between separators. -/
def pieces (separator : Char → Bool) (cs : List Char) : List String :=
  ((cs.splitOnP separator).filter (· ≠ [])).map String.ofList

/-- Source: `asm.rs`, `tokenize`. -/
def tokenize (line : String) : List String := pieces (fun c => isWhitespace c || c == ',') line.toList

/-- Source: `str::split_whitespace`. -/
def splitWhitespace (s : String) : List String := pieces isWhitespace s.toList

/-- Numbered lines without comments and blank lines; the trim takes the carriage returns that
`str::lines` takes. Source: `asm.rs`, the `let lines` of `assemble_with`. -/
def asmLines (source : String) : List (ℕ × String) :=
  ((source.toList.splitOn '\n').mapIdx fun i l =>
    (i + 1, String.ofList (trimChars (l.takeWhile (· ≠ ';'))))).filter fun l => l.2 ≠ ""

/-! ## Operands -/

/-- Source: `char::to_digit`. -/
def digitValue (radix : ℕ) (c : Char) : Option ℕ :=
  let d :=
    if '0' ≤ c ∧ c ≤ '9' then some (c.toNat - 48)
    else if 'a' ≤ c ∧ c ≤ 'f' then some (c.toNat - 87)
    else if 'A' ≤ c ∧ c ≤ 'F' then some (c.toNat - 55)
    else none
  d.filter (· < radix)

/-- The number that digits spell. -/
def digitsValue (radix : ℕ) (cs : List Char) : Option ℕ :=
  if cs = [] then none
  else cs.foldlM (fun acc c => (digitValue radix c).map fun d => acc * radix + d) 0

/-- The integer that a sign and digits spell, if an `i64` holds it. Source: `i64::from_str_radix`. -/
def fromStrRadix (radix : ℕ) (cs : List Char) : Option ℤ :=
  let n :=
    match cs with
    | '-' :: rest => (digitsValue radix rest).map fun n => -(n : ℤ)
    | '+' :: rest => (digitsValue radix rest).map fun n => (n : ℤ)
    | _ => (digitsValue radix cs).map fun n => (n : ℤ)
  n.filter fun n => -2 ^ 63 ≤ n ∧ n < 2 ^ 63

/-- Source: `asm.rs`, `parse_int`. -/
def parseInt (s : String) : Except String ℤ :=
  let s := String.ofList (trimChars s.toList)
  match (stripPrefix "0x" s).or (stripPrefix "0X" s) with
  | some hex =>
      match fromStrRadix 16 hex.toList with
      | some n => .ok n
      | none => .error ("bad hex integer " ++ s)
  | none =>
      match fromStrRadix 10 s.toList with
      | some n => .ok n
      | none => .error ("bad integer " ++ s)

/-- Source: `asm.rs`, `parse_bool`. -/
def parseBool (s : String) : Except String Bool :=
  match s.toLower with
  | "1" | "true" | "on" => .ok true
  | "0" | "false" | "off" => .ok false
  | _ => .error ("bad bool " ++ s)

/-- Source: `asm.rs`, `parse_type_tag`. -/
def parseTypeTag (s : String) : Except String ℕ :=
  match s.toUpper with
  | "BOOL" | "0" => .ok 0
  | "INT" | "1" => .ok 1
  | "DINT" | "2" => .ok 2
  | "REAL" | "3" => .ok 3
  | "TIME" | "4" => .ok 4
  | "LINT" | "5" => .ok 5
  | _ => .error ("bad type tag " ++ s)

/-- Source: `opcode.rs`, `Opcode::from_mnemonic`. -/
def Opcode.fromMnemonic (s : String) : Option Opcode :=
  match s.toUpper with
  | "NOP" => some .nop
  | "HALT" => some .halt
  | "PUSHI_DINT" => some .pushIDint
  | "PUSHI_REAL" => some .pushIReal
  | "PUSHI_BOOL" => some .pushIBool
  | "PUSH_TIME" => some .pushTime
  | "LD_DATA" => some .ldData
  | "ST_DATA" => some .stData
  | "LD_RETAIN" => some .ldRetain
  | "ST_RETAIN" => some .stRetain
  | "LD_I" => some .ldI
  | "ST_Q" => some .stQ
  | "LD_Q" => some .ldQ
  | "LD_IQ" => some .ldIq
  | "ADD" => some .add
  | "SUB" => some .sub
  | "MUL" => some .mul
  | "DIV" => some .div
  | "NEG" => some .neg
  | "AND" => some .and
  | "OR" => some .or
  | "XOR" => some .xor
  | "NOT" => some .not
  | "EQ" => some .eq
  | "NE" => some .ne
  | "LT" => some .lt
  | "LE" => some .le
  | "GT" => some .gt
  | "GE" => some .ge
  | "JMP" => some .jmp
  | "JMP_IF" => some .jmpIf
  | "JMP_IF_NOT" => some .jmpIfNot
  | "CALL_FB" => some .callFb
  | "RET" => some .ret
  | "CONV" => some .conv
  | _ => none

/-- Source: `opcode.rs`, `PrimitiveId::from_name`. -/
def PrimitiveId.fromName (s : String) : Option PrimitiveId :=
  match s.toUpper with
  | "TON" => some .ton
  | "TOF" => some .tof
  | "TP" => some .tp
  | "CTU" => some .ctu
  | "CTD" => some .ctd
  | "RS" => some .rs
  | "SR" => some .sr
  | "R_TRIG" | "RTRIG" => some .rTrig
  | "F_TRIG" | "FTRIG" => some .fTrig
  | "PID" => some .pid
  | _ => none

/-- The low 32 bits. Source: `as u32`. -/
def asU32 (n : ℤ) : ℕ := (n % 2 ^ 32).toNat

/-- An error at a line. Source: `map_err(|m| IrError::Asm { line, message: m })`. -/
def atLine {α : Type} (line : ℕ) : Except String α → Except IrError α
  | .ok a => .ok a
  | .error m => .error (.asm line m)

/-- Source: `asm.rs`, `expect_one`. -/
def expectOne (toks : List String) (line : ℕ) : Except IrError String :=
  match toks with
  | [t] => .ok t
  | _ => .error (.asm line ("expected 1 operand, found " ++ toString toks.length))

/-! ## Calls -/

/-- The locals of `parse_call_fb`. -/
structure CallOperands where
  kind : Option ℕ
  id : Option ℕ
  base : Option ℕ
  deriving DecidableEq, Repr

/-- One token. Source: `asm.rs`, the `for` body of `parse_call_fb`. -/
def callToken (line : ℕ) (ops : CallOperands) (t : String) : Except IrError CallOperands :=
  match stripPrefix "prim=" t with
  | some v =>
      match PrimitiveId.fromName v with
      | some p => .ok { ops with kind := some 0, id := some p.toU32 }
      | none => .error (.asm line ("unknown primitive " ++ v))
  | none =>
  match stripPrefix "user=" t with
  | some v => do
      let n ← atLine line (parseInt v)
      .ok { ops with kind := some 1, id := some (asU32 n) }
  | none =>
  match (stripPrefix "instance=" t).or (stripPrefix "inst=" t) with
  | some v => do
      let n ← atLine line (parseInt v)
      .ok { ops with base := some (asU32 n) }
  | none =>
  match PrimitiveId.fromName t with
  | some p => .ok { ops with kind := some 0, id := some p.toU32 }
  | none =>
      if ops.kind.isSome ∧ ops.base = none then do
        let n ← atLine line (parseInt t)
        .ok { ops with base := some (asU32 n) }
      else .error (.asm line ("unexpected CALL_FB token " ++ t))

/-- Source: `asm.rs`, `parse_call_fb`. -/
def parseCallFb (toks : List String) (line : ℕ) : Except IrError DecodedInstr := do
  let ops ← toks.foldlM (callToken line) ⟨none, none, none⟩
  match ops.kind with
  | none => .error (.asm line "CALL_FB missing primitive/user id")
  | some kind =>
      match ops.id with
      | none => .error (.asm line "CALL_FB missing id")
      | some id =>
          match ops.base with
          | none => .error (.asm line "CALL_FB missing instance base")
          | some base => .ok (.callFb kind id base)

/-! ## Instructions -/

/-- What an instruction line adds to the code: an instruction, or a jump whose target is patched in. -/
inductive Emitted where
  | instr (i : DecodedInstr)
  | jump (op : Opcode) (label : String)
  deriving DecidableEq, Repr

/-- The instruction of an opcode without operands. -/
def noOperands (line : ℕ) (op : Opcode) (mnem : String) (toks : List String) :
    Except IrError Emitted :=
  if toks ≠ [] then .error (.asm line (mnem ++ " takes no operands")) else .ok (.instr (.simple op 0))

/-- A payload operand. -/
def payloadOperand (line : ℕ) (op : Opcode) (parse : String → Except String ℕ) (toks : List String) :
    Except IrError Emitted := do
  let imm ← expectOne toks line
  let v ← atLine line (parse imm)
  .ok (.instr (.simple op v))

/-- An integer in the word after the opcode. -/
def immOperand (line : ℕ) (op : Opcode) (toks : List String) : Except IrError Emitted := do
  let imm ← expectOne toks line
  let v ← atLine line (parseInt imm)
  .ok (.instr (.withImm32 op 0 (asU32 v)))

/-- A jump to an address or a label. -/
def jumpOperand (line : ℕ) (op : Opcode) (toks : List String) : Except IrError Emitted := do
  let target ← expectOne toks line
  match parseInt target with
  | .ok abs => .ok (.instr (.simple op (asU32 abs)))
  | .error _ => .ok (.jump op target)

/-- One instruction; `parseReal` is `str::parse` of an `f32`. Source: `asm.rs`, the `match op`
of `assemble_with`. -/
def emitInstr (parseReal : String → Option F32) (line : ℕ) (op : Opcode) (mnem : String)
    (toks : List String) : Except IrError Emitted :=
  match op with
  | .pushIDint | .pushTime => immOperand line op toks
  | .pushIReal => do
      let imm ← expectOne toks line
      match parseReal imm with
      | some f => .ok (.instr (.withImm32 op 0 f.bits.toNat))
      | none => .error (.asm line ("bad real immediate " ++ imm))
  | .pushIBool => payloadOperand line op (fun s => (parseBool s).map fun b => if b then 1 else 0) toks
  | .conv => payloadOperand line op parseTypeTag toks
  | .ldData | .stData | .ldRetain | .stRetain | .ldI | .stQ | .ldQ | .ldIq =>
      payloadOperand line op (fun s => (parseInt s).map asU32) toks
  | .jmp | .jmpIf | .jmpIfNot => jumpOperand line op toks
  | .callFb => do
      let i ← parseCallFb toks line
      .ok (.instr i)
  | .nop | .halt | .add | .sub | .mul | .div | .neg | .and | .or | .xor | .not | .eq | .ne | .lt |
    .le | .gt | .ge | .ret => noOperands line op mnem toks

/-! ## Lines -/

/-- Source: `asm.rs`, the locals of `assemble_with`; the newest label first. -/
structure AsmState where
  dataSize : ℕ
  retainSize : ℕ
  inputSlots : ℕ
  outputSlots : ℕ
  constSize : Option ℕ
  entries : List EntryPoint
  labels : List (String × ℕ)
  code : List UInt8
  fixups : List (ℕ × String × ℕ)
  deriving DecidableEq, Repr

/-- Source: `asm.rs`, `AssembleOptions::default`. -/
def AsmState.initial : AsmState := ⟨256, 0, 16, 16, none, [], [], [], []⟩

/-- One field of the header. Source: `asm.rs`, the `for kv in parts` of the `"header"` arm. -/
def headerField (line : ℕ) (st : AsmState) (kv : String) : Except IrError AsmState :=
  let k := kv.toList.takeWhile (· ≠ '=')
  if k = kv.toList then .error (.asm line ("header expected key=value, got " ++ kv))
  else do
    let v := String.ofList (kv.toList.drop (k.length + 1))
    let n ← atLine line (parseInt v)
    if n < 0 ∨ 2 ^ 32 ≤ n then .error (.asm line ("value out of u32 range: " ++ v))
    else
      match String.ofList k with
      | "data_size" => .ok { st with dataSize := n.toNat }
      | "retain_size" => .ok { st with retainSize := n.toNat }
      | "input_slots" => .ok { st with inputSlots := n.toNat }
      | "output_slots" => .ok { st with outputSlots := n.toNat }
      | "const_size" => .ok { st with constSize := some n.toNat }
      | other => .error (.asm line ("unknown header field " ++ other))

/-- A directive, without its dot. Source: `asm.rs`, the `match dir` of `assemble_with`. -/
def directive (line : ℕ) (st : AsmState) (rest : String) : Except IrError AsmState :=
  match splitWhitespace rest with
  | "header" :: fields => fields.foldlM (headerField line) st
  | "entry" :: parts =>
      match parts with
      | [] => .error (.asm line ".entry requires a name")
      | name :: more =>
          .ok { st with
                entries := st.entries ++ [entryDirective name (more.headD "") st.code.length] }
  | other => .error (.asm line ("unknown directive ." ++ other.headD ""))

/-- Add what an instruction line emits. -/
def AsmState.emit (st : AsmState) (line : ℕ) : Emitted → AsmState
  | .instr i => { st with code := st.code ++ encodeInstruction i }
  | .jump op label =>
      { st with
        code := st.code ++ encodeInstruction (.simple op 0)
        fixups := st.fixups ++ [(st.code.length, label, line)] }

/-- One line. Source: `asm.rs`, the `for (line_no, line) in &lines` of `assemble_with`. -/
def asmLine (parseReal : String → Option F32) (st : AsmState) (l : ℕ × String) :
    Except IrError AsmState :=
  match stripPrefix "." l.2 with
  | some rest => directive l.1 st rest
  | none =>
  match stripColon l.2 with
  | some label =>
      let label := String.ofList (trimChars label.toList)
      if label = "" then .error (.asm l.1 "empty label")
      else .ok { st with labels := (label, st.code.length % 2 ^ 32) :: st.labels }
  | none =>
  match tokenize l.2 with
  | [] => .ok st
  | mnem :: toks =>
      match Opcode.fromMnemonic mnem with
      | none => .error (.asm l.1 ("unknown mnemonic " ++ mnem))
      | some op => do
          let e ← emitInstr parseReal l.1 op mnem toks
          .ok (st.emit l.1 e)

/-- Aim a jump at the byte `pc`. Source: `asm.rs`, the end of the loop over `fixups`. -/
def patchWord (code : List UInt8) (off pc : ℕ) : List UInt8 :=
  writeAt code off (leBytes 4 (wordAt code off / 2 ^ 24 * 2 ^ 24 + pc % 2 ^ 24))

/-- Source: `asm.rs`, the loop over `fixups` of `assemble_with`. -/
def applyFixups (labels : List (String × ℕ)) :
    List UInt8 → List (ℕ × String × ℕ) → Except IrError (List UInt8)
  | code, [] => .ok code
  | code, (off, label, line) :: rest =>
      match labels.lookup label with
      | none => .error (.asm line ("undefined label " ++ label))
      | some pc =>
          if pc % 4 ≠ 0 then .error (.asm line ("label " ++ label ++ " not word-aligned"))
          else applyFixups labels (patchWord code off pc) rest

/-- Source: `asm.rs`, `assemble`. -/
def assemble (parseReal : String → Option F32) (source : String) : Except IrError IrModule := do
  let st ← (asmLines source).foldlM (asmLine parseReal) .initial
  let code ← applyFixups st.labels st.code st.fixups
  let constData := List.replicate (st.constSize.getD 0) 0
  .ok
    { irMajor := irMajor
      irMinor := irMinor
      constSize := constData.length
      dataSize := st.dataSize
      retainSize := st.retainSize
      inputSlots := st.inputSlots
      outputSlots := st.outputSlots
      entries := if st.entries = [] then [⟨"task.main", 0, false⟩] else st.entries
      constData := constData
      code := code }

end SoftPlc.Ir
