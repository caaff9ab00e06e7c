import Mathlib.Tactic

/-!
# IR v0.1: types, opcodes, primitive ids, modules

The data model of `plc-ir`: type tags (`value.rs`), the opcode catalog and the primitive function
blocks (`opcode.rs`), modules and entry points (`module.rs`), assembler and verifier errors
(`error.rs`). A `u32` or `usize` of the source is a natural number here; where an operation of the
source wraps, truncates or saturates, the operation says so.
-/

namespace SoftPlc.Ir

/-! ## Type tags -/

/-- Abstract-machine type tag. Source: `plc-ir/src/value.rs`, `IrType`. -/
inductive IrType where
  | bool
  | int
  | dint
  | real
  | time
  | lint
  deriving DecidableEq, Repr

namespace IrType

/-- The tag's `repr(u8)` value. Source: `value.rs`, `IrType` discriminants. -/
def toU8 : IrType → UInt8
  | bool => 0
  | int => 1
  | dint => 2
  | real => 3
  | time => 4
  | lint => 5

/-- Parse from a tag byte. Source: `value.rs`, `IrType::from_u8`. -/
def fromU8 (v : UInt8) : Option IrType :=
  if v = 0 then some bool
  else if v = 1 then some int
  else if v = 2 then some dint
  else if v = 3 then some real
  else if v = 4 then some time
  else if v = 5 then some lint
  else none

/-- Whether this is a numeric type for ADD, SUB and so on. Source: `value.rs`,
`IrType::is_numeric`. -/
def isNumeric : IrType → Bool
  | int | dint | real | time | lint => true
  | bool => false

/-- Whether bitwise operations apply. Source: `value.rs`, `IrType::is_integral`. -/
def isIntegral : IrType → Bool
  | bool | int | dint | time | lint => true
  | real => false

/-- Byte width in the data and retain images. Source: `value.rs`, `IrType::byte_width`. -/
def byteWidth : IrType → ℕ
  | bool => 1
  | int => 2
  | dint | real | time => 4
  | lint => 8

/-- The name that the source's derived `Debug` prints. Source: `value.rs`, `derive(Debug)`. -/
def debugName : IrType → String
  | bool => "Bool"
  | int => "Int"
  | dint => "Dint"
  | real => "Real"
  | time => "Time"
  | lint => "Lint"

/-- A tag byte parses back to its type. -/
@[simp] theorem fromU8_toU8 (t : IrType) : fromU8 t.toU8 = some t := by
  cases t <;> rfl

/-- No type uses the byte that marks an unset tag. -/
theorem toU8_ne_unset (t : IrType) : t.toU8 ≠ 0xFF := by
  cases t <;> decide

/-- Every type takes at least one byte. -/
theorem byteWidth_pos (t : IrType) : 0 < t.byteWidth := by
  cases t <;> decide

end IrType

/-! ## Opcodes -/

/-- IR v0.1 opcodes. Source: `plc-ir/src/opcode.rs`, `Opcode`. -/
inductive Opcode where
  | nop
  | halt
  | pushIDint
  | pushIReal
  | pushIBool
  | pushTime
  | ldData
  | stData
  | ldRetain
  | stRetain
  | ldI
  | stQ
  | ldQ
  | ldIq
  | add
  | sub
  | mul
  | div
  | neg
  | and
  | or
  | xor
  | not
  | eq
  | ne
  | lt
  | le
  | gt
  | ge
  | jmp
  | jmpIf
  | jmpIfNot
  | callFb
  | ret
  | conv
  deriving DecidableEq, Repr

namespace Opcode

/-- The opcode byte. Source: `opcode.rs`, `Opcode` discriminants. -/
def toU8 : Opcode → ℕ
  | nop => 0x00
  | halt => 0x01
  | pushIDint => 0x02
  | pushIReal => 0x03
  | pushIBool => 0x04
  | pushTime => 0x05
  | ldData => 0x10
  | stData => 0x11
  | ldRetain => 0x12
  | stRetain => 0x13
  | ldI => 0x14
  | stQ => 0x15
  | ldQ => 0x16
  | ldIq => 0x17
  | add => 0x20
  | sub => 0x21
  | mul => 0x22
  | div => 0x23
  | neg => 0x24
  | and => 0x28
  | or => 0x29
  | xor => 0x2A
  | not => 0x2B
  | eq => 0x30
  | ne => 0x31
  | lt => 0x32
  | le => 0x33
  | gt => 0x34
  | ge => 0x35
  | jmp => 0x40
  | jmpIf => 0x41
  | jmpIfNot => 0x42
  | callFb => 0x50
  | ret => 0x51
  | conv => 0x60

/-- Decode from the opcode byte. Source: `opcode.rs`, `Opcode::from_u8`. -/
def fromU8 : ℕ → Option Opcode
  | 0x00 => some nop
  | 0x01 => some halt
  | 0x02 => some pushIDint
  | 0x03 => some pushIReal
  | 0x04 => some pushIBool
  | 0x05 => some pushTime
  | 0x10 => some ldData
  | 0x11 => some stData
  | 0x12 => some ldRetain
  | 0x13 => some stRetain
  | 0x14 => some ldI
  | 0x15 => some stQ
  | 0x16 => some ldQ
  | 0x17 => some ldIq
  | 0x20 => some add
  | 0x21 => some sub
  | 0x22 => some mul
  | 0x23 => some div
  | 0x24 => some neg
  | 0x28 => some and
  | 0x29 => some or
  | 0x2A => some xor
  | 0x2B => some not
  | 0x30 => some eq
  | 0x31 => some ne
  | 0x32 => some lt
  | 0x33 => some le
  | 0x34 => some gt
  | 0x35 => some ge
  | 0x40 => some jmp
  | 0x41 => some jmpIf
  | 0x42 => some jmpIfNot
  | 0x50 => some callFb
  | 0x51 => some ret
  | 0x60 => some conv
  | _ => none

/-- The name that the source's derived `Debug` prints, used in error texts.
Source: `opcode.rs`, `derive(Debug)`. -/
def debugName : Opcode → String
  | nop => "Nop"
  | halt => "Halt"
  | pushIDint => "PushIDint"
  | pushIReal => "PushIReal"
  | pushIBool => "PushIBool"
  | pushTime => "PushTime"
  | ldData => "LdData"
  | stData => "StData"
  | ldRetain => "LdRetain"
  | stRetain => "StRetain"
  | ldI => "LdI"
  | stQ => "StQ"
  | ldQ => "LdQ"
  | ldIq => "LdIq"
  | add => "Add"
  | sub => "Sub"
  | mul => "Mul"
  | div => "Div"
  | neg => "Neg"
  | and => "And"
  | or => "Or"
  | xor => "Xor"
  | not => "Not"
  | eq => "Eq"
  | ne => "Ne"
  | lt => "Lt"
  | le => "Le"
  | gt => "Gt"
  | ge => "Ge"
  | jmp => "Jmp"
  | jmpIf => "JmpIf"
  | jmpIfNot => "JmpIfNot"
  | callFb => "CallFb"
  | ret => "Ret"
  | conv => "Conv"

/-- An opcode byte decodes back to its opcode. -/
@[simp] theorem fromU8_toU8 (op : Opcode) : fromU8 op.toU8 = some op := by
  cases op <;> rfl

/-- Opcode bytes are bytes. -/
theorem toU8_lt (op : Opcode) : op.toU8 < 256 := by
  cases op <;> decide

end Opcode

/-! ## Primitive function blocks -/

/-- Built-in primitive function blocks. Source: `opcode.rs`, `PrimitiveId`. -/
inductive PrimitiveId where
  | ton
  | tof
  | tp
  | ctu
  | ctd
  | rs
  | sr
  | rTrig
  | fTrig
  | pid
  deriving DecidableEq, Repr

namespace PrimitiveId

/-- The id's `repr(u32)` value. Source: `opcode.rs`, `PrimitiveId` discriminants. -/
def toU32 : PrimitiveId → ℕ
  | ton => 1
  | tof => 2
  | tp => 3
  | ctu => 4
  | ctd => 5
  | rs => 6
  | sr => 7
  | rTrig => 8
  | fTrig => 9
  | pid => 10

/-- The `match` on a `CALL_FB` id that the verifier and the interpreter each spell out.
Source: `plc-ir/src/verify.rs`, `verify_entry` and `plc-vm/src/exec.rs`, `Vm::call_prim`. -/
def fromU32 : ℕ → Option PrimitiveId
  | 1 => some ton
  | 2 => some tof
  | 3 => some tp
  | 4 => some ctu
  | 5 => some ctd
  | 6 => some rs
  | 7 => some sr
  | 8 => some rTrig
  | 9 => some fTrig
  | 10 => some pid
  | _ => none

/-- Stack inputs consumed. Source: `opcode.rs`, `PrimitiveId::input_count`. -/
def inputCount : PrimitiveId → ℕ
  | ton | tof | tp => 2
  | ctu => 3
  | ctd => 3
  | rs | sr => 2
  | rTrig | fTrig => 1
  | pid => 3

/-- Stack outputs produced. Source: `opcode.rs`, `PrimitiveId::output_count`. -/
def outputCount : PrimitiveId → ℕ
  | ton | tof | tp => 2
  | ctu | ctd => 2
  | rs | sr => 1
  | rTrig | fTrig => 1
  | pid => 1

/-- An id parses back to its primitive. -/
@[simp] theorem fromU32_toU32 (p : PrimitiveId) : fromU32 p.toU32 = some p := by
  cases p <;> rfl

end PrimitiveId

/-! ## Modules -/

/-- IR major version of the v0.1 contract. Source: `module.rs`, `IR_MAJOR`. -/
def irMajor : ℕ := 0

/-- IR minor version of the v0.1 contract. Source: `module.rs`, `IR_MINOR`. -/
def irMinor : ℕ := 1

/-- Named entry point (task or user function block). Source: `module.rs`, `EntryPoint`. -/
structure EntryPoint where
  /-- Entry name, such as `task.main` or `fb.0`. -/
  name : String
  /-- Byte offset into the code. -/
  pc : ℕ
  /-- A user function block body, which must end in `RET`. -/
  isUserFb : Bool
  deriving DecidableEq, Repr

/-- Parsed or assembled IR module. Source: `module.rs`, `IrModule`. -/
structure IrModule where
  /-- IR major. -/
  irMajor : ℕ
  /-- IR minor. -/
  irMinor : ℕ
  /-- Const segment size in bytes. -/
  constSize : ℕ
  /-- Data segment size in bytes. -/
  dataSize : ℕ
  /-- Retain segment size in bytes. -/
  retainSize : ℕ
  /-- Number of typed `%I` slots. -/
  inputSlots : ℕ
  /-- Number of typed `%Q` slots. -/
  outputSlots : ℕ
  /-- Entry points. -/
  entries : List EntryPoint
  /-- Const bytes. -/
  constData : List UInt8
  /-- Instruction stream bytes (little-endian words). -/
  code : List UInt8
  deriving DecidableEq, Repr

/-! ## Errors -/

/-- Assembler, binary parse or encode errors. Source: `error.rs`, `IrError`. -/
inductive IrError where
  /-- Text assembly error. -/
  | asm (line : ℕ) (message : String)
  /-- Binary framing error. -/
  | spbc (message : String)
  /-- Unknown opcode or primitive. -/
  | unknown (what name : String)
  /-- Retain layout rejected. -/
  | retainLayout (message : String)
  deriving DecidableEq, Repr

/-- The text of an `IrError`. Source: `error.rs`, the `#[error(...)]` attributes. -/
def IrError.text : IrError → String
  | asm line message => s!"spasm error at line {line}: {message}"
  | spbc message => s!"spbc error: {message}"
  | unknown what name => s!"unknown {what}: {name}"
  | retainLayout message => s!"retain layout: {message}"

/-- Verifier rule violation. Source: `error.rs`, `VerifyError::Rule`. -/
structure VerifyError where
  /-- Checklist rule number. -/
  rule : ℕ
  /-- Detail. -/
  message : String
  deriving DecidableEq, Repr

end SoftPlc.Ir
