import SoftPlc.Telemetry.Catalog
import SoftPlc.Lib.Bytes

/-!
# Sparkplug payloads as bytes

`plc-telemetry/src/protobuf.rs`. The readers run over a cursor whose slices can be out of range, and
the loops over a number of rounds that can run out; that neither happens is a theorem
(`Telemetry.Wire`).
-/

namespace SoftPlc.Telemetry

open SoftPlc.Lib

/-! ## Writing -/

/-- Source: `protobuf.rs`, `WIRE_VARINT`. -/
def wireVarint : BitVec 32 := 0

/-- Source: `protobuf.rs`, `WIRE_LEN`. -/
def wireLen : BitVec 32 := 2

/-- Source: `protobuf.rs`, `WIRE_32`. -/
def wire32 : BitVec 32 := 5

theorem shiftRight_lt {v : BitVec 64} (h : v >>> 7 ≠ 0) : (v >>> 7).toNat < v.toNat := by
  have hdiv : (v >>> 7).toNat = v.toNat / 128 := by
    rw [BitVec.toNat_ushiftRight, Nat.shiftRight_eq_div_pow]
  have hne : (v >>> 7).toNat ≠ 0 := fun hzero => h (BitVec.eq_of_toNat_eq hzero)
  omega

/-- Source: `protobuf.rs`, `write_varint`. -/
def writeVarint (v : BitVec 64) : List UInt8 :=
  let b := UInt8.ofBitVec ((v &&& 0x7f).setWidth 8)
  if _h : v >>> 7 ≠ 0 then (b ||| 0x80) :: writeVarint (v >>> 7) else [b]
termination_by v.toNat
decreasing_by exact shiftRight_lt _h

/-- Source: `protobuf.rs`, `write_key`. -/
def writeKey (field wire : BitVec 32) : List UInt8 :=
  writeVarint ((field <<< 3 ||| wire).setWidth 64)

/-- A field of bytes with their length. Source: `protobuf.rs`, the `write_key`, `write_varint` and
`extend_from_slice` calls of the encoders. -/
def writeBytes (field : BitVec 32) (bytes : List UInt8) : List UInt8 :=
  writeKey field wireLen ++ (writeVarint (BitVec.ofNat 64 bytes.length) ++ bytes)

/-- Source: `protobuf.rs`, `write_string`. -/
def writeString (field : BitVec 32) (s : String) : List UInt8 := writeBytes field (utf8 s)

/-- A field of a number. Source: `protobuf.rs`, the `write_key` and `write_varint` calls of the
encoders. -/
def writeNumber (field : BitVec 32) (v : BitVec 64) : List UInt8 :=
  writeKey field wireVarint ++ writeVarint v

/-- A field of four bytes. Source: `protobuf.rs`, `v.to_bits().to_le_bytes()` with its key. -/
def writeFixed32 (field : BitVec 32) (v : F32) : List UInt8 :=
  writeKey field wire32 ++ leBytes 4 v.bits.toNat

/-- A value under the field numbers of its kinds. -/
def writeValue (int long float bool string : BitVec 32) : MetricValue → List UInt8
  | .int v => writeNumber int (v.setWidth 64)
  | .long v => writeNumber long v
  | .float v => writeFixed32 float v
  | .bool b => writeNumber bool (if b then 1 else 0)
  | .string s => writeString string s

/-- Source: `protobuf.rs`, `write_metric_value`. -/
def writeMetricValue (v : MetricValue) : List UInt8 := writeValue 10 11 12 14 15 v

/-- Source: `protobuf.rs`, `encode_property_value`. -/
def encodePropertyValue (p : Property) : List UInt8 :=
  writeNumber 1 (p.datatype.setWidth 64) ++ writeValue 3 4 5 7 8 p.value

/-- Source: `protobuf.rs`, `encode_property_set`. -/
def encodePropertySet (props : List Property) : List UInt8 :=
  props.flatMap (fun p => writeString 1 p.key) ++
    props.flatMap fun p => writeBytes 2 (encodePropertyValue p)

/-- Source: `protobuf.rs`, the `if let` of the encoders. -/
def writeOption {α : Type} (write : α → List UInt8) (o : Option α) : List UInt8 :=
  o.elim [] write

/-- Source: `protobuf.rs`, `encode_metric`. -/
def encodeMetric (m : Metric) : List UInt8 :=
  writeOption (writeString 1) m.name ++ (writeOption (writeNumber 2) m.aliasId ++
    (writeOption (writeNumber 3) m.timestamp ++ (writeNumber 4 (m.datatype.setWidth 64) ++
      ((if m.properties.isEmpty then [] else writeBytes 9 (encodePropertySet m.properties)) ++
        writeOption writeMetricValue m.value))))

/-- Source: `protobuf.rs`, `Payload::encode`. -/
def Payload.encode (p : Payload) : List UInt8 :=
  writeOption (writeNumber 1) p.timestamp ++
    (p.metrics.flatMap (fun m => writeBytes 2 (encodeMetric m)) ++
      writeOption (writeNumber 3) p.seq)

/-! ## Reading -/

/-- How decoding can end without a payload: with an error value, with a slice index out of range, or
with the rounds of a loop used up. -/
inductive DecodeFault where
  | err (e : TelemetryError)
  | panic
  | outOfRounds
  deriving DecidableEq, Repr

/-- Source: `protobuf.rs`, `Cursor`. -/
structure Cursor where
  buf : List UInt8
  pos : ℕ
  deriving DecidableEq, Repr

/-- Programs over a cursor. -/
abbrev Read (α : Type) := StateT Cursor (Except DecodeFault) α

namespace Cursor

/-- Source: `protobuf.rs`, `Cursor::new`. -/
def new (buf : List UInt8) : Cursor := ⟨buf, 0⟩

/-- Source: `protobuf.rs`, `Cursor::remaining`. -/
def remaining (cur : Cursor) : ℕ := cur.buf.length - cur.pos

/-- Source: `error.rs`, `TelemetryError::protobuf`. -/
def fail {α : Type} (message : String) : Read α := throw (.err (.protobuf message))

/-- The slice from the position on, `n` bytes long, and the position after it. -/
def slice (n : ℕ) : Read (List UInt8) := do
  let cur ← get
  match slice? cur.buf cur.pos (cur.pos + n) with
  | some xs => do
      set { cur with pos := cur.pos + n }
      return xs
  | none => throw .panic

/-- Source: `protobuf.rs`, `Cursor::read_byte`. -/
def readByte : Read UInt8 := do
  let cur ← get
  match cur.buf[cur.pos]? with
  | some b => do
      set { cur with pos := cur.pos + 1 }
      return b
  | none => fail "truncated protobuf"

/-- The rounds from `shift` on. Source: `protobuf.rs`, the `for` of `Cursor::read_varint`. -/
def readGroups : ℕ → ℕ → BitVec 64 → Read (BitVec 64)
  | 0, _, _ => fail "varint overflow"
  | n + 1, shift, result => do
      let b ← readByte
      let result := result ||| ((b &&& 0x7f).toBitVec.setWidth 64 <<< (shift * 7))
      if b &&& 0x80 = 0 then return result
      else readGroups n (shift + 1) result

/-- Source: `protobuf.rs`, `Cursor::read_varint`. -/
def readVarint : Read (BitVec 64) := readGroups 10 0 0

/-- Source: `protobuf.rs`, `Cursor::read_key`. -/
def readKey : Read (ℕ × ℕ) := do
  let tag ← readVarint
  return (((tag >>> 3).setWidth 32).toNat, ((tag &&& 7).setWidth 32).toNat)

/-- Source: `protobuf.rs`, `Cursor::read_len_bytes`. -/
def readLenBytes : Read (List UInt8) := do
  let len ← readVarint
  let cur ← get
  if cur.remaining < len.toNat then fail "truncated length-delimited"
  else slice len.toNat

/-- Source: `protobuf.rs`, `Cursor::read_string`. -/
def readString : Read String := do
  let bytes ← readLenBytes
  match ofUtf8 bytes with
  | some s => return s
  | none => fail "metric name is not utf-8"

/-- Source: `protobuf.rs`, `Cursor::read_fixed32`. -/
def readFixed32 : Read (BitVec 32) := do
  let cur ← get
  if cur.remaining < 4 then fail "truncated fixed32"
  else do
    let b ← slice 4
    return BitVec.ofNat 32 (ofLeBytes b)

/-- Source: `protobuf.rs`, `Cursor::skip`. -/
def skip (wire : ℕ) : Read Unit := do
  match wire with
  | 0 => do
      let _ ← readVarint
      return ()
  | 1 => do
      let cur ← get
      if cur.remaining < 8 then fail "truncated fixed64"
      else set { cur with pos := cur.pos + 8 }
  | 2 => do
      let _ ← readLenBytes
      return ()
  | 5 => do
      let _ ← readFixed32
      return ()
  | other => fail ("unsupported wire type " ++ toString other)

end Cursor

open Cursor

variable {σ : Type}

/-- The loop of the decoders, at most so many rounds; `arm` is its `match`. Source: `protobuf.rs`,
`while cur.remaining() > 0`. -/
def decodeFields (arm : σ → ℕ → ℕ → Read σ) : ℕ → σ → Read σ
  | 0, _ => throw .outOfRounds
  | n + 1, s => do
      let cur ← get
      if cur.remaining > 0 then do
        let (field, wire) ← readKey
        let s ← arm s field wire
        decodeFields arm n s
      else return s

/-- A decoder: the loop over a buffer. -/
def decodeWith (arm : σ → ℕ → ℕ → Read σ) (s : σ) (bytes : List UInt8) : Except DecodeFault σ :=
  (decodeFields arm (bytes.length + 1) s).run' (Cursor.new bytes)

/-- Source: `protobuf.rs`, the `match` of `decode_property_value`. -/
def propertyValueArm (s : BitVec 32 × MetricValue) : ℕ → ℕ → Read (BitVec 32 × MetricValue)
  | 1, 0 => do return ((← readVarint).setWidth 32, s.2)
  | 3, 0 => do return (s.1, .int ((← readVarint).setWidth 32))
  | 4, 0 => do return (s.1, .long (← readVarint))
  | 5, 5 => do return (s.1, .float ⟨← readFixed32⟩)
  | 7, 0 => do return (s.1, .bool ((← readVarint) != 0))
  | 8, 2 => do return (s.1, .string (← readString))
  | _, wire => do
      skip wire
      return s

/-- Source: `protobuf.rs`, `decode_property_value`. -/
def decodePropertyValue (bytes : List UInt8) : Except DecodeFault (BitVec 32 × MetricValue) :=
  decodeWith propertyValueArm (0, .bool false) bytes

/-- Source: `protobuf.rs`, the `match` of `decode_property_set`. -/
def propertySetArm (s : List String × List (BitVec 32 × MetricValue)) :
    ℕ → ℕ → Read (List String × List (BitVec 32 × MetricValue))
  | 1, 2 => do return (s.1 ++ [← readString], s.2)
  | 2, 2 => do
      let inner ← readLenBytes
      let value ← decodePropertyValue inner
      return (s.1, s.2 ++ [value])
  | _, wire => do
      skip wire
      return s

/-- Keys with the values at their places; a key without a value is dropped. Source: `protobuf.rs`, the
`for` of `decode_property_set`. -/
def pairProperties : List String → List (BitVec 32 × MetricValue) → List Property
  | key :: keys, (datatype, value) :: values => ⟨key, datatype, value⟩ :: pairProperties keys values
  | _, _ => []

/-- Source: `protobuf.rs`, `decode_property_set`. -/
def decodePropertySet (bytes : List UInt8) : Except DecodeFault (List Property) := do
  let (keys, values) ← decodeWith propertySetArm ([], []) bytes
  return pairProperties keys values

/-- Source: `protobuf.rs`, `Metric::new`. -/
def Metric.new (datatype : BitVec 32) : Metric := ⟨none, none, none, datatype, [], none⟩

/-- Source: `protobuf.rs`, the `match` of `decode_metric`. -/
def metricArm (m : Metric) : ℕ → ℕ → Read Metric
  | 1, 2 => do return { m with name := some (← readString) }
  | 2, 0 => do return { m with aliasId := some (← readVarint) }
  | 3, 0 => do return { m with timestamp := some (← readVarint) }
  | 4, 0 => do return { m with datatype := (← readVarint).setWidth 32 }
  | 9, 2 => do
      let inner ← readLenBytes
      let properties ← decodePropertySet inner
      return { m with properties := properties }
  | 10, 0 => do return { m with value := some (.int ((← readVarint).setWidth 32)) }
  | 11, 0 => do return { m with value := some (.long (← readVarint)) }
  | 12, 5 => do return { m with value := some (.float ⟨← readFixed32⟩) }
  | 14, 0 => do return { m with value := some (.bool ((← readVarint) != 0)) }
  | 15, 2 => do return { m with value := some (.string (← readString)) }
  | _, wire => do
      skip wire
      return m

/-- Source: `protobuf.rs`, `decode_metric`. -/
def decodeMetric (bytes : List UInt8) : Except DecodeFault Metric :=
  decodeWith metricArm (.new 0) bytes

/-- Source: `protobuf.rs`, the `match` of `Payload::decode`. -/
def payloadArm (p : Payload) : ℕ → ℕ → Read Payload
  | 1, 0 => do return { p with timestamp := some (← readVarint) }
  | 2, 2 => do
      let inner ← readLenBytes
      let m ← decodeMetric inner
      return { p with metrics := p.metrics ++ [m] }
  | 3, 0 => do return { p with seq := some (← readVarint) }
  | _, wire => do
      skip wire
      return p

/-- Source: `protobuf.rs`, `Payload::decode`. -/
def Payload.decode (bytes : List UInt8) : Except DecodeFault Payload :=
  decodeWith payloadArm ⟨none, [], none⟩ bytes

end SoftPlc.Telemetry
