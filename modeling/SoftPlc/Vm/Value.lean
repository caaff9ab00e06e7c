import SoftPlc.Fb.Primitives
import SoftPlc.Lib.Bytes

/-!
# Runtime values

The tagged values of the abstract machine (`plc-vm/src/value.rs`) and the errors of the
interpreter (`plc-vm/src/error.rs`). `INT`, `DINT`, `TIME` and `LINT` are bit vectors read as
signed numbers, `REAL` is a binary32 bit pattern. The round trip `ofPayload_payload` says that a
value is what its little-endian payload decodes to.
-/

namespace SoftPlc.Vm

open SoftPlc.Ir SoftPlc.Fb SoftPlc.Lib

/-- Tagged runtime value. Source: `plc-vm/src/value.rs`, `VmValue`. -/
inductive VmValue where
  | bool (b : Bool)
  | int (v : BitVec 16)
  | dint (v : BitVec 32)
  | real (v : F32)
  | time (v : BitVec 32)
  | lint (v : BitVec 64)
  deriving DecidableEq, Repr

namespace VmValue

/-- Type tag. Source: `value.rs`, `VmValue::ir_type`. -/
def irType : VmValue → IrType
  | bool _ => .bool
  | int _ => .int
  | dint _ => .dint
  | real _ => .real
  | time _ => .time
  | lint _ => .lint

/-- Zero of a type. Source: `value.rs`, `VmValue::zero`. -/
def zero : IrType → VmValue
  | .bool => bool false
  | .int => int 0
  | .dint => dint 0
  | .real => real F32.zero
  | .time => time 0
  | .lint => lint 0

/-- Byte width in the data and retain images. Source: `value.rs`, `VmValue::byte_width`. -/
def byteWidth : VmValue → ℕ
  | bool _ => 1
  | int _ => 2
  | dint _ | real _ | time _ => 4
  | lint _ => 8

/-- Interpret as BOOL; every other type is false. Source: `value.rs`, `VmValue::as_bool`. -/
def asBool : VmValue → Bool
  | bool b => b
  | _ => false

/-- The integer a value denotes, if it is integral. Source: `value.rs`, `VmValue::as_i64`. -/
def asI64 : VmValue → Option ℤ
  | bool b => some (if b then 1 else 0)
  | int v => some v.toInt
  | dint v | time v => some v.toInt
  | lint v => some v.toInt
  | real _ => none

/-- Convert to a primitive's scalar. Source: `value.rs`, `VmValue::to_stack_value`. -/
def toStackValue : VmValue → StackValue
  | bool b => .bool b
  | int v => .dint (v.signExtend 32)
  | dint v | time v => .dint v
  | real v => .real v
  | lint v => .dint (v.setWidth 32)

/-- Convert from a primitive's scalar. Source: `value.rs`, `VmValue::from_stack_value`. -/
def fromStackValue (v : StackValue) (preferTime : Bool) : VmValue :=
  match v with
  | .bool b => bool b
  | .dint d => if preferTime then time d else dint d
  | .real r => real r

/-- Convert to a target type (`CONV`). Source: `value.rs`, `VmValue::convert`. -/
def convert (value : VmValue) : IrType → VmValue
  | .bool => bool <|
      match value with
      | bool b => b
      | int v => v != 0
      | dint v | time v => v != 0
      | real v => !v.isZero
      | lint v => v != 0
  | .int => int <|
      match value with
      | bool b => if b then 1 else 0
      | int v => v
      | dint v | time v => v.setWidth 16
      | real v => v.toI16
      | lint v => v.setWidth 16
  | .dint => dint <|
      match value with
      | bool b => if b then 1 else 0
      | int v => v.signExtend 32
      | dint v | time v => v
      | real v => v.toI32
      | lint v => v.setWidth 32
  | .real => real <|
      match value with
      | bool b => if b then F32.one else F32.zero
      | int v => F32.ofI16 v
      | dint v | time v => F32.ofI32 v
      | real v => v
      | lint v => F32.ofI64 v
  | .time => time <|
      match value with
      | bool b => if b then 1 else 0
      | int v => v.signExtend 32
      | dint v | time v => v
      | real v => v.toI32
      | lint v => v.setWidth 32
  | .lint => lint <|
      match value with
      | bool b => if b then 1 else 0
      | int v => v.signExtend 64
      | dint v | time v => v.signExtend 64
      | real v => v.toI64
      | lint v => v

/-- The text of a value in error details; a REAL is shown by its bits.
Source: `value.rs`, `derive(Debug)`. -/
def debugText : VmValue → String
  | bool b => "Bool(" ++ toString b ++ ")"
  | int v => "Int(" ++ toString v.toInt ++ ")"
  | dint v => "Dint(" ++ toString v.toInt ++ ")"
  | real v => "Real(" ++ toString v.bits.toNat ++ ")"
  | time v => "Time(" ++ toString v.toInt ++ ")"
  | lint v => "Lint(" ++ toString v.toInt ++ ")"

/-- The little-endian bytes stored for a value. Source: `plc-vm/src/memory.rs`, the `match value`
of `ByteSegment::store`. -/
def payload : VmValue → List UInt8
  | bool b => [if b then 1 else 0]
  | int v => leBytes 2 v.toNat
  | dint v | time v => leBytes 4 v.toNat
  | real v => leBytes 4 v.bits.toNat
  | lint v => leBytes 8 v.toNat

/-- The value that a payload of a given type spells. Source: `memory.rs`, the `match ty` of
`ByteSegment::load_as`, and `value.rs`, `VmValue::from_le_bytes`. -/
def ofPayload (ty : IrType) (bytes : List UInt8) : VmValue :=
  match ty with
  | .bool => bool (bytes.headD 0 != 0)
  | .int => int (BitVec.ofNat 16 (ofLeBytes bytes))
  | .dint => dint (BitVec.ofNat 32 (ofLeBytes bytes))
  | .time => time (BitVec.ofNat 32 (ofLeBytes bytes))
  | .real => real ⟨BitVec.ofNat 32 (ofLeBytes bytes)⟩
  | .lint => lint (BitVec.ofNat 64 (ofLeBytes bytes))

/-! ## Lemmas -/

/-- A value's width is its type's. -/
theorem byteWidth_eq (v : VmValue) : v.byteWidth = v.irType.byteWidth := by
  cases v <;> rfl

/-- The zero of a type has the type. -/
@[simp] theorem irType_zero (t : IrType) : (zero t).irType = t := by
  cases t <;> rfl

/-- A conversion gives a value of its target type. -/
@[simp] theorem irType_convert (v : VmValue) (t : IrType) : (v.convert t).irType = t := by
  cases t <;> rfl

/-- A decoded payload has the type it was decoded at. -/
@[simp] theorem irType_ofPayload (t : IrType) (bs : List UInt8) : (ofPayload t bs).irType = t := by
  cases t <;> rfl

/-- A payload is as long as the value is wide. -/
@[simp] theorem payload_length (v : VmValue) : v.payload.length = v.byteWidth := by
  cases v <;> simp [payload, byteWidth]

/-- **Round trip.** A value is what its payload spells at its type. -/
@[simp] theorem ofPayload_payload (v : VmValue) : ofPayload v.irType v.payload = v := by
  cases v with
  | bool b => cases b <;> rfl
  | int v => exact congrArg int (ofNat_ofLeBytes_leBytes (by norm_num) v)
  | dint v => exact congrArg dint (ofNat_ofLeBytes_leBytes (by norm_num) v)
  | real v => exact congrArg (fun b => real ⟨b⟩) (ofNat_ofLeBytes_leBytes (by norm_num) v.bits)
  | time v => exact congrArg time (ofNat_ofLeBytes_leBytes (by norm_num) v)
  | lint v => exact congrArg lint (ofNat_ofLeBytes_leBytes (by norm_num) v)

end VmValue

/-- Errors of loading and executing IR. Source: `plc-vm/src/error.rs`, `VmError`. -/
inductive VmError where
  | verify (message : String)
  | unknownEntry (name : String)
  | stackUnderflow (pc : ℕ)
  | stackOverflow (pc : ℕ)
  | callDepth (pc : ℕ)
  | retOutsideFb (pc : ℕ)
  | bounds (pc : ℕ) (detail : String)
  | type (pc : ℕ) (detail : String)
  | decode (pc : ℕ) (detail : String)
  | primitive (pc : ℕ) (detail : String)
  | unknownUserFb (id : ℕ)
  | budget (n : ℕ)
  deriving DecidableEq, Repr

end SoftPlc.Vm
