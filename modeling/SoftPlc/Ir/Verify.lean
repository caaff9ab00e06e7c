import SoftPlc.Ir.Encode
import SoftPlc.Lib.Machine

/-!
# The IR verifier

`verifyModule` checks the header and then walks every entry with `verifyEntry`: a work list of
`(pc, abstract stack, call depth)` items, and the abstract stack recorded for each pc the first
time it is reached. A later arrival at a recorded pc is only compared with the record
(`stacksCompatible`). The work-list loop is `Lib.iterate` over `verifyStep`; its limit
`verifyFuel` is never reached (`verifyEntrySeen_stops`).

An abstract stack lists its top first, as the runtime stack of the interpreter does.
-/

namespace SoftPlc.Ir

open SoftPlc.Lib

/-- Operand stack limit. Source: `plc-ir/src/verify.rs`, `MAX_STACK`. -/
def maxStack : ℕ := 256

/-- Call depth limit. Source: `verify.rs`, `MAX_CALL_DEPTH`. -/
def maxCallDepth : ℕ := 32

/-- Code size limit. Source: `verify.rs`, `MAX_CODE_BYTES`. -/
def maxCodeBytes : ℕ := 4 * 1024 * 1024

/-- Data and retain size limit. Source: `verify.rs`, `MAX_DATA_RETAIN`. -/
def maxDataRetain : ℕ := 16 * 1024 * 1024

/-- Largest `u32`. -/
def u32Max : ℕ := 2 ^ 32 - 1

/-- `u32::saturating_add`. -/
def satAdd32 (a b : ℕ) : ℕ := min (a + b) u32Max

/-- Abstract operand stack, top first; `none` is an unknown type.
Source: `verify.rs`, `Frame::stack`. -/
abbrev AbsStack := List (Option IrType)

/-! ## Stack and type rules -/

/-- Push an abstract type. Source: `verify.rs`, `push`. -/
def push (stack : AbsStack) (ty : Option IrType) : Except VerifyError AbsStack :=
  if stack.length ≥ maxStack then .error ⟨2, "stack depth > 256"⟩ else .ok (ty :: stack)

/-- Pop an abstract type. Source: `verify.rs`, `pop`. -/
def pop : AbsStack → Except VerifyError (Option IrType × AbsStack)
  | [] => .error ⟨2, "stack underflow"⟩
  | ty :: rest => .ok (ty, rest)

/-- Whether two abstract types may meet at a join. Source: `verify.rs`, `stacks_compatible`,
the closure. -/
def typesCompatible : Option IrType → Option IrType → Bool
  | some t, some u => t == u
  | _, _ => true

/-- Whether a recorded stack lets a later arrival pass. Source: `verify.rs`,
`stacks_compatible`. -/
def stacksCompatible (a b : AbsStack) : Bool :=
  a.length == b.length && (a.zip b).all fun p => typesCompatible p.1 p.2

/-- Result type of an arithmetic opcode. Source: `verify.rs`, `binary_numeric`. -/
def binaryNumeric (a b : Option IrType) : Except VerifyError (Option IrType) :=
  match a, b with
  | some x, some y =>
      if x = y ∧ x.isNumeric then .ok (some x)
      else if x ≠ y then
        .error ⟨3, "numeric type mismatch " ++ x.debugName ++ " vs " ++ y.debugName⟩
      else .ok (a.or b)
  | _, _ => .ok (a.or b)

/-- Result type of a logic opcode. Source: `verify.rs`, `binary_logic`. -/
def binaryLogic (a b : Option IrType) : Except VerifyError (Option IrType) :=
  match a, b with
  | some .bool, some .bool => .ok (some .bool)
  | some x, some y =>
      if x = y ∧ x.isIntegral then .ok (some x) else .error ⟨3, "logic operand type mismatch"⟩
  | _, _ => .ok ((a.or b).or (some .bool))

/-- Size of the segment an opcode addresses. Source: `verify.rs`, `segment_size`. -/
def segmentSize (m : IrModule) : Opcode → ℕ
  | .ldData | .stData => m.dataSize
  | .ldRetain | .stRetain => m.retainSize
  | _ => 0

/-- Check a start offset. Source: `verify.rs`, `check_offset`. -/
def checkOffset (off size : ℕ) : Except VerifyError Unit :=
  if size > 0 ∧ off ≥ size then
    .error ⟨4, s!"offset {off} out of segment size {size}"⟩
  else .ok ()

/-- Check a jump target. Source: `verify.rs`, `check_jmp_target`. -/
def checkJmpTarget (m : IrModule) (target : ℕ) : Except VerifyError Unit :=
  if target % 4 ≠ 0 then .error ⟨1, s!"JMP target {target} unaligned"⟩
  else if target ≥ m.code.length then .error ⟨1, s!"JMP target {target} out of bounds"⟩
  else .ok ()

/-! ## One instruction -/

/-- What an instruction does to the walk: the abstract stack after it, the pcs that follow with
their call depths, and whether the path ends here. Source: `verify.rs`, the locals `stack`,
`next_pcs` and `terminal` of `verify_entry`. -/
structure Flow where
  /-- Abstract stack after the instruction. -/
  stack : AbsStack
  /-- Successors with their call depths. -/
  nextPcs : List (ℕ × ℕ)
  /-- `HALT` or `RET`. -/
  terminal : Bool
  deriving DecidableEq, Repr

/-- Pop the inputs of a primitive. Source: `verify.rs`, `for _ in 0..prim.input_count()`. -/
def popInputs : ℕ → AbsStack → Except VerifyError AbsStack
  | 0, stack => .ok stack
  | n + 1, stack => do
      let (_, rest) ← pop stack
      popInputs n rest

/-- Push the outputs `i, i + 1, …` of a primitive: the first is `BOOL`, every other `TIME`.
Source: `verify.rs`, `for i in 0..prim.output_count()`. -/
def pushOutputs (i : ℕ) : ℕ → AbsStack → Except VerifyError AbsStack
  | 0, stack => .ok stack
  | n + 1, stack => do
      let stack ← push stack (if i = 0 then some .bool else some .time)
      pushOutputs (i + 1) n stack

/-- The transfer function of one decoded instruction. Source: `verify.rs`, the `match &instr` of
`verify_entry`. The branches on `instance_base` there have empty bodies. -/
def verifyInstr (m : IrModule) (isUserFb : Bool) (name : String) (pc size depth : ℕ)
    (stack : AbsStack) : DecodedInstr → Except VerifyError Flow
  | .simple op payload =>
      match op with
      | .nop => .ok ⟨stack, [(pc + size, depth)], false⟩
      | .halt =>
          if isUserFb then .error ⟨6, s!"user FB '{name}' must end in RET, not HALT"⟩
          else .ok ⟨stack, [], true⟩
      | .ret => .ok ⟨stack, [], true⟩
      | .pushIBool => do
          let stack ← push stack (some .bool)
          .ok ⟨stack, [(pc + size, depth)], false⟩
      | .ldData | .ldRetain => do
          checkOffset payload (segmentSize m op)
          let stack ← push stack none
          .ok ⟨stack, [(pc + size, depth)], false⟩
      | .stData | .stRetain => do
          checkOffset payload (segmentSize m op)
          let (_, stack) ← pop stack
          .ok ⟨stack, [(pc + size, depth)], false⟩
      | .ldI | .ldIq =>
          if payload ≥ m.inputSlots then
            .error ⟨4, s!"LD_I/LD_IQ index {payload} >= input_slots"⟩
          else do
            let stack ← push stack (if op = .ldIq then some .bool else none)
            .ok ⟨stack, [(pc + size, depth)], false⟩
      | .stQ =>
          if payload ≥ m.outputSlots then
            .error ⟨4, s!"ST_Q index {payload} >= output_slots"⟩
          else do
            let (_, stack) ← pop stack
            .ok ⟨stack, [(pc + size, depth)], false⟩
      | .ldQ =>
          if payload ≥ m.outputSlots then
            .error ⟨4, s!"LD_Q index {payload} >= output_slots"⟩
          else do
            let stack ← push stack none
            .ok ⟨stack, [(pc + size, depth)], false⟩
      | .add | .sub | .mul | .div => do
          let (b, stack) ← pop stack
          let (a, stack) ← pop stack
          let r ← binaryNumeric a b
          let stack ← push stack r
          .ok ⟨stack, [(pc + size, depth)], false⟩
      | .neg => do
          let (a, stack) ← pop stack
          let stack ← push stack a
          .ok ⟨stack, [(pc + size, depth)], false⟩
      | .and | .or | .xor => do
          let (b, stack) ← pop stack
          let (a, stack) ← pop stack
          let r ← binaryLogic a b
          let stack ← push stack r
          .ok ⟨stack, [(pc + size, depth)], false⟩
      | .not => do
          let (a, stack) ← pop stack
          let stack ← push stack (a.or (some .bool))
          .ok ⟨stack, [(pc + size, depth)], false⟩
      | .eq | .ne | .lt | .le | .gt | .ge => do
          let (_, stack) ← pop stack
          let (_, stack) ← pop stack
          let stack ← push stack (some .bool)
          .ok ⟨stack, [(pc + size, depth)], false⟩
      | .jmp => do
          checkJmpTarget m payload
          .ok ⟨stack, [(payload, depth)], false⟩
      | .jmpIf | .jmpIfNot => do
          let (c, stack) ← pop stack
          if c.isSome && c != some .bool then
            .error ⟨3, "JMP_IF* requires BOOL condition"⟩
          else
            checkJmpTarget m payload
            .ok ⟨stack, [(payload, depth), (pc + size, depth)], false⟩
      | .conv => do
          let (_, stack) ← pop stack
          match IrType.fromU8 (UInt8.ofNat payload) with
          | none => .error ⟨3, s!"CONV bad type tag {payload}"⟩
          | some ty =>
              let stack ← push stack (some ty)
              .ok ⟨stack, [(pc + size, depth)], false⟩
      | .pushIDint | .pushIReal | .pushTime | .callFb =>
          .error ⟨7, "opcode " ++ op.debugName ++ " should be wide form"⟩
  | .withImm32 op _ _ =>
      match op with
      | .pushIDint => do
          let stack ← push stack (some .dint)
          .ok ⟨stack, [(pc + size, depth)], false⟩
      | .pushIReal => do
          let stack ← push stack (some .real)
          .ok ⟨stack, [(pc + size, depth)], false⟩
      | .pushTime => do
          let stack ← push stack (some .time)
          .ok ⟨stack, [(pc + size, depth)], false⟩
      | _ => .error ⟨7, "unexpected WithImm32"⟩
  | .callFb fbKind fbId _ =>
      if fbKind = 0 then
        match PrimitiveId.fromU32 fbId with
        | none => .error ⟨7, s!"unknown primitive id {fbId}"⟩
        | some prim => do
            let stack ← popInputs prim.inputCount stack
            let stack ← pushOutputs 0 prim.outputCount stack
            .ok ⟨stack, [(pc + size, depth)], false⟩
      else .ok ⟨stack, [(pc + size, depth + 1)], false⟩

/-! ## The work-list loop -/

/-- The abstract stack recorded for each pc reached so far. Source: `verify.rs`, `seen`. -/
abbrev Seen := List (ℕ × AbsStack)

/-- State of the work-list loop; the head of `work` is the top of the source's `Vec`.
Source: `verify.rs`, the locals of `verify_entry`. -/
structure VerifyState where
  /-- Recorded stacks. -/
  seen : Seen
  /-- Pending `(pc, stack, call depth)` items. -/
  work : List (ℕ × AbsStack × ℕ)
  /-- Some path ended in `HALT` or `RET`. -/
  endedOk : Bool

/-- One round of the work-list loop. Source: `verify.rs`, the `while let` body of
`verify_entry`. -/
def verifyStep (m : IrModule) (isUserFb : Bool) (name : String) (st : VerifyState) :
    Next VerifyState (Except VerifyError Seen) :=
  match st.work with
  | [] =>
      if st.endedOk then .stop (.ok st.seen)
      else .stop (.error ⟨6, s!"entry '{name}' has path without HALT/RET"⟩)
  | (pc, stack, depth) :: rest =>
      if depth > maxCallDepth then
        .stop (.error ⟨5, s!"call depth > {maxCallDepth} in {name}"⟩)
      else
        match st.seen.lookup pc with
        | some prev =>
            if stacksCompatible prev stack then .go { st with work := rest }
            else .stop (.error ⟨3, s!"stack type conflict at pc={pc} in {name}"⟩)
        | none =>
            if pc ≥ m.code.length then
              .stop (.error ⟨1, s!"fall off end of code in {name}"⟩)
            else
              match decodeInstruction m.code pc with
              | .error e => .stop (.error ⟨7, s!"decode at pc={pc}: " ++ e.text⟩)
              | .ok (instr, size) =>
                  match verifyInstr m isUserFb name pc size depth stack instr with
                  | .error e => .stop (.error e)
                  | .ok flow =>
                      if flow.terminal then
                        .go ⟨(pc, stack) :: st.seen, rest, true⟩
                      else if flow.nextPcs = [] then
                        .stop (.error ⟨6, s!"no successor at pc={pc} in {name}"⟩)
                      else
                        .go ⟨(pc, stack) :: st.seen,
                          (flow.nextPcs.map fun p => (p.1, flow.stack, p.2)).reverse ++ rest,
                          st.endedOk⟩

/-- Enough rounds for the work list of any entry: each recorded pc adds at most two items. -/
def verifyFuel (m : IrModule) : ℕ := 2 * m.code.length + 2

/-- The recorded stacks with which the walk of one entry ends. Source: `verify.rs`,
`verify_entry`, which drops the record. -/
def verifyEntrySeen (m : IrModule) (entryPc : ℕ) (isUserFb : Bool) (name : String) :
    Except VerifyError Seen :=
  iterate (verifyStep m isUserFb name) (fun _ => .error ⟨0, "out of fuel"⟩) (verifyFuel m)
    ⟨[], [(entryPc, [], 0)], false⟩

/-- Verify one entry. Source: `verify.rs`, `verify_entry`. -/
def verifyEntry (m : IrModule) (entryPc : ℕ) (isUserFb : Bool) (name : String) :
    Except VerifyError Unit :=
  (verifyEntrySeen m entryPc isUserFb name).map fun _ => ()

/-- The per-entry checks of `verify_module`. Source: `verify.rs`, `for e in &module.entries`. -/
def verifyEntryPoint (m : IrModule) (e : EntryPoint) : Except VerifyError Unit :=
  if e.pc ≥ m.code.length ∧ m.code ≠ [] then
    .error ⟨1, "entry '" ++ e.name ++ "' pc out of bounds"⟩
  else if e.pc % 4 ≠ 0 then
    .error ⟨1, "entry '" ++ e.name ++ "' pc not aligned"⟩
  else verifyEntry m e.pc e.isUserFb e.name

/-- Verify a module against the checklist. Source: `verify.rs`, `verify_module`. -/
def verifyModule (m : IrModule) : Except VerifyError Unit :=
  if m.irMajor ≠ irMajor then
    .error ⟨7, s!"unsupported ir_major {m.irMajor}"⟩
  else if m.code.length % 2 ^ 32 > maxCodeBytes then
    .error ⟨9, "code exceeds 4 MiB"⟩
  else if satAdd32 m.dataSize m.retainSize > maxDataRetain then
    .error ⟨9, "data+retain exceeds 16 MiB"⟩
  else if m.code.length % 4 ≠ 0 then
    .error ⟨1, "code size not multiple of 4"⟩
  else if m.constData.length % 2 ^ 32 ≠ m.constSize then
    .error ⟨4, "const_data length disagrees with const_size"⟩
  else m.entries.forM (verifyEntryPoint m)

end SoftPlc.Ir
