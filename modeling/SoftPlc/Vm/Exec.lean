import SoftPlc.Ir.Verify
import SoftPlc.Vm.Memory

/-!
# The interpreter

`Vm::run_at` of `plc-vm/src/exec.rs`. What a run never writes (the code, the entry table, the
user function-block table, the budget) is `VmImage`; what it writes is `VmState`. One instruction
is `execInstr`, in the error-and-state monad `VmM`, so that the state a failing instruction leaves
behind is part of the model. `stepVm` decodes and executes one instruction, and `runAt` iterates it
under the instruction budget.

A fault is an error value of the source or a panic. Arithmetic of the host language is that of a
build with overflow checks: the division-by-zero counter panics when it overflows. Signed division
panics on `MIN / -1` in every build.
-/

namespace SoftPlc.Vm

open SoftPlc.Ir SoftPlc.Fb SoftPlc.Lib

/-! ## State -/

/-- Outcome of a successful run. Source: `plc-vm/src/exec.rs`, `ExecResult`. -/
inductive ExecResult where
  /-- Task entry ended at HALT. -/
  | halted
  /-- User function-block body returned. -/
  | returned
  deriving DecidableEq, Repr

/-- Call frame. Source: `exec.rs`, `Frame`. -/
structure Frame where
  /-- Where `RET` continues. -/
  returnPc : ℕ
  /-- Base added to data and retain offsets inside this block. -/
  dataBase : ℕ
  deriving DecidableEq, Repr

/-- What a run reads and never writes. Source: `exec.rs`, `Vm`. -/
structure VmImage where
  /-- Code bytes. -/
  code : List UInt8
  /-- Entry points. -/
  entries : List EntryPoint
  /-- User function-block id to code pc. -/
  userFbPc : List (Option ℕ)
  /-- Largest number of instructions of one run. -/
  instructionBudget : ℕ
  deriving DecidableEq, Repr

/-- What a run writes. The operand stack and the call frames list their top first; `sp` and `fp`
of the source are their lengths. Source: `exec.rs`, `Vm`. -/
structure VmState where
  /-- Data segment. -/
  data : ByteSegment
  /-- Retain segment. -/
  retain : ByteSegment
  /-- Input image. -/
  inputs : SlotImage
  /-- Output image. -/
  outputs : SlotImage
  /-- Primitive instances. -/
  primitives : PrimitiveStore
  /-- Operand stack. -/
  stack : List VmValue
  /-- Call frames. -/
  frames : List Frame
  /-- Current data base. -/
  dataBase : ℕ
  /-- Divisions by zero so far. -/
  div0Count : ℕ
  /-- Some `ST_RETAIN` ran since the flag was cleared. -/
  retainDirty : Bool
  deriving DecidableEq, Repr

/-- An armed machine. Source: `exec.rs`, `Vm`. -/
structure ArmedVm where
  /-- The part that runs do not write. -/
  image : VmImage
  /-- The part that runs write. -/
  state : VmState
  deriving DecidableEq, Repr

/-- How an instruction can fail: an error value, or a panic of the host language. -/
inductive VmFault where
  | err (e : VmError)
  | panic (message : String)
  deriving DecidableEq, Repr

/-- Interpreter actions. -/
abbrev VmM := EStateM VmFault VmState

/-- Fail with an error value. -/
def fail {α : Type} (e : VmError) : VmM α := fun s => .error (.err e) s

/-- Panic. -/
def panicWith {α : Type} (message : String) : VmM α := fun s => .error (.panic message) s

/-- Use the result of a memory operation. -/
def liftErr {α : Type} : Except VmError α → VmM α
  | .ok a => pure a
  | .error e => fail e

/-! ## Operand stack -/

/-- The state with another operand stack. -/
def VmState.withStack (s : VmState) (stack : List VmValue) : VmState := { s with stack := stack }

section WithStack

variable (s : VmState) (stack stack' : List VmValue)

@[simp] theorem VmState.withStack_data : (s.withStack stack).data = s.data := rfl

@[simp] theorem VmState.withStack_retain : (s.withStack stack).retain = s.retain := rfl

@[simp] theorem VmState.withStack_inputs : (s.withStack stack).inputs = s.inputs := rfl

@[simp] theorem VmState.withStack_outputs : (s.withStack stack).outputs = s.outputs := rfl

@[simp] theorem VmState.withStack_primitives : (s.withStack stack).primitives = s.primitives := rfl

@[simp] theorem VmState.withStack_stack : (s.withStack stack).stack = stack := rfl

@[simp] theorem VmState.withStack_frames : (s.withStack stack).frames = s.frames := rfl

@[simp] theorem VmState.withStack_dataBase : (s.withStack stack).dataBase = s.dataBase := rfl

@[simp] theorem VmState.withStack_div0Count : (s.withStack stack).div0Count = s.div0Count := rfl

@[simp] theorem VmState.withStack_withStack :
    (s.withStack stack).withStack stack' = s.withStack stack' := rfl

end WithStack

/-- Push a value. Source: `exec.rs`, `Vm::push`. -/
def push (v : VmValue) (pc : ℕ) : VmM Unit := fun s =>
  if s.stack.length ≥ maxStack then .error (.err (.stackOverflow pc)) s
  else .ok () (s.withStack (v :: s.stack))

/-- Pop a value. Source: `exec.rs`, `Vm::pop`. -/
def pop (pc : ℕ) : VmM VmValue := fun s =>
  match s.stack with
  | [] => .error (.err (.stackUnderflow pc)) s
  | v :: rest => .ok v (s.withStack rest)

/-! ## Operators -/

/-- Count a division by zero. Source: `exec.rs`, `*div0 += 1`. -/
def bumpDiv0 : VmM Unit := fun s =>
  if s.div0Count ≥ u32Max then .error (.panic "attempt to add with overflow") s
  else .ok () { s with div0Count := s.div0Count + 1 }

/-- Integer division: zero divisors are counted and give zero, and the quotient that has no
representation panics. Source: `exec.rs`, the `Div` arms of `arith_op` and `int_arith`. -/
def divOp {w : ℕ} (x y : BitVec w) : VmM (BitVec w) :=
  if y = 0#w then do
    bumpDiv0
    pure 0#w
  else if x = BitVec.intMin w ∧ y = -1#w then
    panicWith "attempt to divide with overflow"
  else pure (x.sdiv y)

/-- Wrapping 32-bit arithmetic. Source: `exec.rs`, `int_arith`. -/
def intArith (op : Opcode) (x y : BitVec 32) : VmM (BitVec 32) :=
  match op with
  | .add => pure (x + y)
  | .sub => pure (x - y)
  | .mul => pure (x * y)
  | .div => divOp x y
  | _ => pure 0

/-- The arithmetic opcodes on two values. Source: `exec.rs`, `arith_op`. -/
def arithOp (op : Opcode) (a b : VmValue) (pc : ℕ) : VmM VmValue :=
  match a, b with
  | .real x, .real y =>
      match op with
      | .add => pure (.real (x.add y))
      | .sub => pure (.real (x.sub y))
      | .mul => pure (.real (x.mul y))
      | .div =>
          if y.isZero then do
            bumpDiv0
            pure (.real F32.zero)
          else pure (.real (x.div y))
      | _ => fail (.type pc "bad arith")
  | .time x, .time y => do
      let r ← intArith op x y
      pure (.time r)
  | .dint x, .dint y => do
      let r ← intArith op x y
      pure (.dint r)
  | .int x, .int y => do
      let r ← intArith op (x.signExtend 32) (y.signExtend 32)
      pure (.int (r.setWidth 16))
  | .lint x, .lint y =>
      match op with
      | .add => pure (.lint (x + y))
      | .sub => pure (.lint (x - y))
      | .mul => pure (.lint (x * y))
      | .div => do
          let r ← divOp x y
          pure (.lint r)
      | _ => fail (.type pc "bad arith")
  | .int x, .dint y => do
      let r ← intArith op (x.signExtend 32) y
      pure (.dint r)
  | .dint x, .int y => do
      let r ← intArith op x (y.signExtend 32)
      pure (.dint r)
  | _, _ =>
      fail (.type pc ("arith type mismatch " ++ a.debugText ++ " " ++ b.debugText))

/-- Equality of values; REAL by bits, and never equal to another type.
Source: `exec.rs`, `values_eq`. -/
def valuesEq (a b : VmValue) : Bool :=
  match a, b with
  | .bool x, .bool y => x == y
  | .real x, .real y => x.bits == y.bits
  | .real _, _ | _, .real _ => false
  | _, _ =>
      match a.asI64, b.asI64 with
      | some x, some y => x == y
      | _, _ => false

/-- The Boolean table of a logic opcode. Source: `exec.rs`, the `match op` on BOOL operands of
`logic_op`. -/
def logicBool (op : Opcode) (x y : Bool) : Bool :=
  match op with
  | .and => x && y
  | .or => x || y
  | _ => x ^^ y

/-- The bitwise table of a logic opcode. Source: `exec.rs`, the `match op` on DINT and INT
operands of `logic_op`. -/
def logicBits {w : ℕ} (op : Opcode) (x y : BitVec w) : BitVec w :=
  match op with
  | .and => x &&& y
  | .or => x ||| y
  | _ => x ^^^ y

/-- AND, OR, XOR. The source's tables are `unreachable!` on other opcodes, with which it is never
called. Source: `exec.rs`, `logic_op`. -/
def logicOp (op : Opcode) (a b : VmValue) (pc : ℕ) : Except VmError VmValue :=
  match a, b with
  | .bool x, .bool y => .ok (.bool (logicBool op x y))
  | .dint x, .dint y => .ok (.dint (logicBits op x y))
  | .int x, .int y => .ok (.int (logicBits op x y))
  | _, _ => .error (.type pc ("logic type mismatch " ++ a.debugText ++ " " ++ b.debugText))

/-- The order relation of a comparison opcode on REAL. Source: `exec.rs`, `cmp_op`. -/
def cmpReal (op : Opcode) (x y : F32) : Bool :=
  match op with
  | .lt => x.lt y
  | .le => x.le y
  | .gt => y.lt x
  | .ge => y.le x
  | _ => false

/-- The order relation of a comparison opcode on integers. Source: `exec.rs`, `cmp_op`. -/
def cmpInt (op : Opcode) (x y : ℤ) : Bool :=
  match op with
  | .lt => x < y
  | .le => x ≤ y
  | .gt => y < x
  | .ge => y ≤ x
  | _ => false

/-- LT, LE, GT, GE. Source: `exec.rs`, `cmp_op`. -/
def cmpOp (op : Opcode) (a b : VmValue) (pc : ℕ) : Except VmError VmValue :=
  match a, b with
  | .real x, .real y => .ok (.bool (cmpReal op x y))
  | _, _ =>
      match a.asI64, b.asI64 with
      | some x, some y => .ok (.bool (cmpInt op x y))
      | _, _ => .error (.type pc "cmp needs numeric")

/-- Binary opcodes. Source: `exec.rs`, `Vm::binop`. -/
def binop (op : Opcode) (a b : VmValue) (pc : ℕ) : VmM VmValue :=
  match op with
  | .and | .or | .xor => liftErr (logicOp op a b pc)
  | .eq => pure (.bool (valuesEq a b))
  | .ne => pure (.bool (!valuesEq a b))
  | .lt | .le | .gt | .ge => liftErr (cmpOp op a b pc)
  | .add | .sub | .mul | .div => arithOp op a b pc
  | _ => fail (.type pc ("not a binary op " ++ op.debugName))

/-- NOT and NEG. Source: `exec.rs`, `unary_op`. -/
def unaryOp (op : Opcode) (value : VmValue) (pc : ℕ) : Except VmError VmValue :=
  match op with
  | .not =>
      match value with
      | .bool b => .ok (.bool !b)
      | .int v => .ok (.int (~~~v))
      | .dint v => .ok (.dint (~~~v))
      | .time v => .ok (.time (~~~v))
      | .lint v => .ok (.lint (~~~v))
      | .real _ => .error (.type pc "NOT on REAL")
  | .neg =>
      match value with
      | .int v => .ok (.int (-v))
      | .dint v => .ok (.dint (-v))
      | .time v => .ok (.time (-v))
      | .lint v => .ok (.lint (-v))
      | .real v => .ok (.real v.neg)
      | .bool _ => .error (.type pc "NEG on BOOL")
  | _ => .error (.type pc ("not a unary op " ++ op.debugName))

/-! ## Primitive calls -/

/-- Pop the inputs of a primitive; the top is the last of them. Source: `exec.rs`, the
`for i in (0..n).rev()` of `Vm::call_prim`. -/
def popArgs (pc : ℕ) : ℕ → VmM (List StackValue)
  | 0 => pure []
  | n + 1 => do
      let v ← pop pc
      let before ← popArgs pc n
      pure (before ++ [v.toStackValue])

/-- Push the outputs `i, i + 1, …` of a primitive, the last of them first. Source: `exec.rs`, the
`for i in (0..out.count).rev()` of `Vm::call_prim`. -/
def pushResults (timer : Bool) (pc : ℕ) : ℕ → List StackValue → VmM Unit
  | _, [] => pure ()
  | i, v :: later => do
      pushResults timer pc (i + 1) later
      push (.fromStackValue v (timer && i == 1)) pc

/-- Whether the second output of a primitive is pushed as TIME. Source: `exec.rs`,
`matches!(id, Ton | Tof | Tp)` in `Vm::call_prim`. -/
def isTimer : PrimitiveId → Bool
  | .ton | .tof | .tp => true
  | _ => false

/-- Run a primitive on the store. Source: `exec.rs`, the `call_primitive` call of
`Vm::call_prim`. -/
def invokePrimitive (id : PrimitiveId) (inst : ℕ) (inputs : List StackValue) (nowMs pc : ℕ) :
    VmM (List StackValue) := fun s =>
  match callPrimitive s.primitives id inst inputs nowMs with
  | .ok (store, out) => .ok out { s with primitives := store }
  | .error (.call e) => .error (.err (.primitive pc e.debugText)) s
  | .error .panic => .error (.panic "primitive") s

/-- Call a primitive. Source: `exec.rs`, `Vm::call_prim`. -/
def callPrim (fbId inst nowMs pc : ℕ) : VmM Unit :=
  match PrimitiveId.fromU32 fbId with
  | none => fail (.primitive pc s!"unknown primitive id {fbId}")
  | some id => do
      let inputs ← popArgs pc id.inputCount
      let out ← invokePrimitive id inst inputs nowMs pc
      pushResults (isTimer id) pc 0 out

/-! ## One instruction -/

/-- What follows an instruction: another pc, or the end of the run. -/
inductive Control where
  | goto (pc : ℕ)
  | done (r : ExecResult)
  deriving DecidableEq, Repr

/-- Enter a user function block. Source: `exec.rs`, the `else` of the `CallFb` arm of
`Vm::run_at`. -/
def callUserFb (image : VmImage) (fbId instanceBase pc size : ℕ) : VmM Control := fun s =>
  match image.userFbPc[fbId]?.join with
  | none => .error (.err (.unknownUserFb fbId)) s
  | some entry =>
      if s.frames.length ≥ maxCallDepth then .error (.err (.callDepth pc)) s
      else
        .ok (.goto entry)
          { s with frames := ⟨pc + size, instanceBase⟩ :: s.frames, dataBase := instanceBase }

/-- Leave a user function block, or the run when no frame is left. Source: `exec.rs`, the `Ret`
arm of `Vm::run_at`. -/
def returnFromFb : VmM Control := fun s =>
  match s.frames with
  | [] => .ok (.done .returned) s
  | frame :: rest =>
      .ok (.goto frame.returnPc)
        { s with frames := rest, dataBase := (rest.head?.map Frame.dataBase).getD 0 }

/-- The offset that a data or retain access addresses. Source: `exec.rs`,
`self.data_base.saturating_add(payload)`. -/
def VmState.address (s : VmState) (payload : ℕ) : ℕ := satAdd32 s.dataBase payload

/-- Execute one decoded instruction of `size` bytes at `pc`. Source: `exec.rs`, the `match instr`
of `Vm::run_at`. -/
def execInstr (image : VmImage) (nowMs pc size : ℕ) : DecodedInstr → VmM Control
  | .simple op payload =>
      match op with
      | .nop => pure (.goto (pc + size))
      | .halt => pure (.done .halted)
      | .ret => returnFromFb
      | .pushIBool => do
          push (.bool (payload != 0)) pc
          pure (.goto (pc + size))
      | .ldData => do
          let s ← get
          let v ← liftErr (s.data.load (s.address payload) pc)
          push v pc
          pure (.goto (pc + size))
      | .stData => do
          let v ← pop pc
          let s ← get
          let data ← liftErr (s.data.store (s.address payload) v pc)
          set { s with data := data }
          pure (.goto (pc + size))
      | .ldRetain => do
          let s ← get
          let v ← liftErr (s.retain.load (s.address payload) pc)
          push v pc
          pure (.goto (pc + size))
      | .stRetain => do
          let v ← pop pc
          let s ← get
          let retain ← liftErr (s.retain.store (s.address payload) v pc)
          set { s with retain := retain, retainDirty := true }
          pure (.goto (pc + size))
      | .ldI => do
          let s ← get
          let v ← liftErr (s.inputs.get payload pc)
          push v pc
          pure (.goto (pc + size))
      | .stQ => do
          let v ← pop pc
          let s ← get
          let outputs ← liftErr (s.outputs.set payload v pc)
          set { s with outputs := outputs }
          pure (.goto (pc + size))
      | .ldQ => do
          let s ← get
          let v ← liftErr (s.outputs.get payload pc)
          push v pc
          pure (.goto (pc + size))
      | .ldIq => do
          let s ← get
          let g ← liftErr (s.inputs.qualityAt payload pc)
          push (.bool g) pc
          pure (.goto (pc + size))
      | .add | .sub | .mul | .div | .and | .or | .xor | .eq | .ne | .lt | .le | .gt | .ge => do
          let b ← pop pc
          let a ← pop pc
          let r ← binop op a b pc
          push r pc
          pure (.goto (pc + size))
      | .neg | .not => do
          let a ← pop pc
          let r ← liftErr (unaryOp op a pc)
          push r pc
          pure (.goto (pc + size))
      | .jmp => pure (.goto payload)
      | .jmpIf => do
          let c ← pop pc
          pure (.goto (if c.asBool then payload else pc + size))
      | .jmpIfNot => do
          let c ← pop pc
          pure (.goto (if !c.asBool then payload else pc + size))
      | .conv => do
          let a ← pop pc
          match IrType.fromU8 (UInt8.ofNat payload) with
          | none => fail (.type pc s!"bad CONV tag {payload}")
          | some ty => do
              push (a.convert ty) pc
              pure (.goto (pc + size))
      | .pushIDint | .pushIReal | .pushTime | .callFb =>
          fail (.decode pc ("opcode " ++ op.debugName ++ " expected wide form"))
  | .withImm32 op _ imm =>
      match op with
      | .pushIDint => do
          push (.dint (BitVec.ofNat 32 imm)) pc
          pure (.goto (pc + size))
      | .pushIReal => do
          push (.real ⟨BitVec.ofNat 32 imm⟩) pc
          pure (.goto (pc + size))
      | .pushTime => do
          push (.time (BitVec.ofNat 32 imm)) pc
          pure (.goto (pc + size))
      | _ => fail (.decode pc "unexpected WithImm32")
  | .callFb fbKind fbId instanceBase =>
      if fbKind = 0 then do
        callPrim fbId instanceBase nowMs pc
        pure (.goto (pc + size))
      else callUserFb image fbId instanceBase pc size

/-! ## Runs -/

/-- A machine between two instructions. -/
structure Config where
  /-- State. -/
  state : VmState
  /-- Byte pc of the next instruction. -/
  pc : ℕ

/-- Outcome of a run with the state it leaves behind. -/
abbrev RunResult := Except VmFault ExecResult × VmState

/-- Decode and execute one instruction. Source: `exec.rs`, the `loop` body of `Vm::run_at`. -/
def stepVm (image : VmImage) (nowMs : ℕ) (c : Config) : Next Config RunResult :=
  match decodeInstruction image.code c.pc with
  | .error e => .stop (.error (.err (.decode c.pc e.text)), c.state)
  | .ok (instr, size) =>
      match execInstr image nowMs c.pc size instr c.state with
      | .ok (.goto pc) s => .go ⟨s, pc⟩
      | .ok (.done r) s => .stop (.ok r, s)
      | .error f s => .stop (.error f, s)

/-- Fresh operand stack and call frames, and a cleared output mask. Source: `exec.rs`, the opening
assignments of `Vm::run_at`. -/
def VmState.enter (s : VmState) : VmState :=
  { s with stack := [], frames := [], dataBase := 0, outputs := s.outputs.clearWritten }

/-- Run from a pc until `HALT`, or a `RET` that finds no frame. Source: `exec.rs`,
`Vm::run_at`. -/
def runAt (image : VmImage) (startPc nowMs : ℕ) (s : VmState) : RunResult :=
  iterate (stepVm image nowMs)
    (fun c => (.error (.err (.budget image.instructionBudget)), c.state))
    image.instructionBudget ⟨s.enter, startPc⟩

/-- Look up an entry by name. Source: `exec.rs`, `Vm::entry_pc`. -/
def VmImage.entryPc (image : VmImage) (name : String) : Except VmError ℕ :=
  match image.entries.find? fun e => e.name == name with
  | some e => .ok e.pc
  | none => .error (.unknownEntry name)

/-- Run a named entry. Source: `exec.rs`, `Vm::run_entry`. -/
def runEntry (image : VmImage) (name : String) (nowMs : ℕ) (s : VmState) : RunResult :=
  match image.entryPc name with
  | .ok pc => runAt image pc nowMs s
  | .error e => (.error (.err e), s)

/-! ## Loading -/

/-- `str::parse::<u32>`: an optional plus sign, then decimal digits, at most `u32::MAX`. -/
def parseU32 (s : List Char) : Option ℕ :=
  let digits := match s with
    | '+' :: rest => rest
    | _ => s
  if digits = [] ∨ !digits.all Char.isDigit then none
  else
    let n := digits.foldl (fun acc c => acc * 10 + (c.toNat - '0'.toNat)) 0
    if n ≤ u32Max then some n else none

/-- The id in an entry name such as `fb.3`. Source: `exec.rs`, `parse_user_fb_id`. -/
def parseUserFbId (name : String) : Option ℕ :=
  match name.toList with
  | 'f' :: 'b' :: '.' :: rest => parseU32 rest
  | 'F' :: 'B' :: '.' :: rest => parseU32 rest
  | _ => none

/-- Register one entry in the user function-block table. Source: `exec.rs`, the `for` body of
`Vm::load`. -/
def registerEntry (table : List (Option ℕ)) (e : EntryPoint) : List (Option ℕ) :=
  if e.isUserFb then
    let idx := (parseUserFbId e.name).getD (table.length % 2 ^ 32)
    (table ++ List.replicate (idx + 1 - table.length) none).set idx (some e.pc)
  else table

/-- The table that the entries of a module give. Source: `exec.rs`, `user_fb_pc` in
`Vm::load`. -/
def userFbTable (entries : List EntryPoint) : List (Option ℕ) :=
  entries.foldl registerEntry []

/-- The read-only part of a machine loaded from a module. Source: `exec.rs`, `Vm::load`. -/
def VmImage.ofModule (m : IrModule) (budget : ℕ) : VmImage where
  code := m.code
  entries := m.entries
  userFbPc := userFbTable m.entries
  instructionBudget := budget

/-- Arm-time options. Source: `plc-vm/src/load.rs`, `VmConfig`. -/
structure VmConfig where
  /-- Pool size of each primitive kind. -/
  primitiveInstances : ℕ := 128
  /-- Largest number of instructions of one run. -/
  instructionBudget : ℕ := 1000000
  /-- Verify the module first. -/
  verify : Bool := true
  deriving DecidableEq, Repr

/-- Cold state of a module. Source: `exec.rs`, `Vm::load`. -/
def VmState.cold (m : IrModule) (primitiveInstances : ℕ) : VmState where
  data := .zeros m.dataSize
  retain := .zeros m.retainSize
  inputs := .bools m.inputSlots
  outputs := .bools m.outputSlots
  primitives := .withCapacity primitiveInstances
  stack := []
  frames := []
  dataBase := 0
  div0Count := 0
  retainDirty := false

/-- The text of a verification error. Source: `plc-ir/src/error.rs`, `Display` of
`VerifyError`. -/
def verifyText (e : VerifyError) : String :=
  "verify rule " ++ toString e.rule ++ ": " ++ e.message

/-- Verify and arm a module. Source: `exec.rs`, `Vm::load`. -/
def ArmedVm.load (m : IrModule) (config : VmConfig) : Except VmError ArmedVm :=
  let armed : ArmedVm := ⟨.ofModule m config.instructionBudget, .cold m config.primitiveInstances⟩
  if config.verify then
    match verifyModule m with
    | .ok () => .ok armed
    | .error e => .error (.verify (verifyText e))
  else .ok armed

end SoftPlc.Vm
