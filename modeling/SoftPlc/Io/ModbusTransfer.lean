import SoftPlc.Io.ModbusPlan
import SoftPlc.Lib.Coalesce
import SoftPlc.Lib.Footprint

/-!
# Modbus transfers

The groups of `plc-io-modbus/src/driver.rs` (`build_groups`), the reads and writes of a poll
(`read_inputs`, `write_with`) against the memory of a device, and the conversions of `convert.rs`. A
group reads or writes adjacent points at once. `batched_transfers` says that this is the same as one
transfer for each point. The frames of the protocol are not modelled: a transfer answers what the
device holds, or refuses a quantity or an address that the protocol does not allow.
-/

namespace SoftPlc.Io.Modbus

open SoftPlc.Lib

/-! ## Conversions -/

namespace F64

/-- The number as a `Float`. -/
def toFloat (x : F64) : Float := Float.ofBits (UInt64.ofBitVec x.bits)

end F64

/-- Source: `plc-io/src/scale.rs`, `apply_scale_offset_clamp`. -/
def applyScaleOffsetClamp (raw : Float) (scale offset : F64) (clamp : Option (F64 × F64)) : Float :=
  let eng := raw * scale.toFloat + offset.toFloat
  match clamp with
  | none => eng
  | some (a, b) =>
      let (lo, hi) := if a.toFloat ≤ b.toFloat then (a.toFloat, b.toFloat) else (b.toFloat, a.toFloat)
      if eng < lo then lo else if hi < eng then hi else eng

/-- Source: `scale.rs`, `eng_to_raw`. -/
def engToRaw (eng : Float) (scale offset : F64) : Float :=
  if scale.isZero then 0 else (eng - offset.toFloat) / scale.toFloat

/-- Source: `convert.rs`, `sat_i16`; the cast of Rust saturates as well. -/
def satI16 (x : Float) : BitVec 16 := if x.isFinite then x.round.toInt16.toBitVec else 0

/-- Source: `convert.rs`, `sat_u16`. -/
def satU16 (x : Float) : BitVec 16 := if x.isFinite then x.round.toUInt16.toBitVec else 0

/-- Source: `convert.rs`, `sat_i32`. -/
def satI32 (x : Float) : BitVec 32 := if x.isFinite then x.round.toInt32.toBitVec else 0

/-- The largest number of 32 bits. -/
def f32Max : F32 := ⟨0x7F7FFFFF#32⟩

/-- Source: `convert.rs`, `sat_f32`. -/
def satF32 (x : Float) : F32 :=
  if !x.isFinite then F32.zero
  else if f32Max.toFloat.toFloat < x then f32Max
  else if x < -f32Max.toFloat.toFloat then f32Max.neg
  else F32.ofFloat x.toFloat32

/-- Source: `convert.rs`, `finish`. -/
def finish (eng : Float) : ValueType → PlcValue
  | .bool => .bool (eng.isFinite && eng != 0)
  | .int => .int (satI16 eng)
  | .dint => .dint (satI32 eng)
  | .time => .time (satI32 eng)
  | .real => .real (satF32 eng)

/-- Source: `convert.rs`, `decode_number`. -/
def decodeNumber (raw : Float) (p : PlannedPoint) : PlcValue :=
  finish (if p.direction = .input then applyScaleOffsetClamp raw p.scale p.offset p.clamp else raw)
    p.valueType

/-- Source: `convert.rs`, `decode_regs`. -/
def decodeRegs (regs : List (BitVec 16)) (p : PlannedPoint) : PlcValue :=
  let first := regs.headD 0
  let both : BitVec 32 := first ++ regs.getD 1 0
  decodeNumber
    (match p.raw with
    | .bool => if first.getLsbD (p.bit.getD 0) then 1 else 0
    | .int => Float.ofInt first.toInt
    | .uint => Float.ofNat first.toNat
    | .dint => Float.ofInt both.toInt
    | .real => (F32.mk both).toFloat.toFloat) p

/-- Source: `convert.rs`, `plc_eng`. -/
def plcEng : PlcValue → Float
  | .bool b => if b then 1 else 0
  | .int v => Float.ofInt v.toInt
  | .dint v | .time v => Float.ofInt v.toInt
  | .real v => v.toFloat.toFloat

/-- Source: `convert.rs`, `coil_on`. -/
def coilOn (value : PlcValue) (p : PlannedPoint) : Bool :=
  let raw := engToRaw (plcEng value) p.scale p.offset
  raw.isFinite && raw != 0

/-- The two halves of a number, the upper one first. -/
def halves (v : BitVec 32) : List (BitVec 16) := [v.extractLsb' 16 16, v.setWidth 16]

/-- Source: `convert.rs`, `value_to_words`. -/
def valueToWords (value : PlcValue) (p : PlannedPoint) : List (BitVec 16) :=
  let raw := engToRaw (plcEng value) p.scale p.offset
  match p.raw with
  | .bool => [if coilOn value p then 1 else 0]
  | .int => [satI16 raw]
  | .uint => [satU16 raw]
  | .dint => halves (satI32 raw)
  | .real => halves (satF32 raw).bits

/-! ## Groups -/

/-- Adjacent points of one table. Source: `driver.rs`, `Group`; the source keeps the indices of the
members in the list of points. -/
structure Group where
  start : ℕ
  qty : ℕ
  members : List PlannedPoint

/-- Source: `u16::saturating_add`. -/
def satAdd16 (a b : ℕ) : ℕ := min (a + b) 65535

/-- Points in order of their addresses, with the group that is open. Source: `driver.rs`, the second
`for` of `build_groups`. -/
def groupFrom (maxQty : ℕ) : Option Group → List PlannedPoint → List Group
  | cur, [] => cur.toList
  | none, p :: ps => groupFrom maxQty (some ⟨p.pdu, p.words, [p]⟩) ps
  | some g, p :: ps =>
      let span := satAdd16 p.pdu p.words - g.start
      if p.pdu = satAdd16 g.start g.qty ∧ span ≤ maxQty ∧ 0 < span then
        groupFrom maxQty (some { g with qty := span, members := g.members ++ [p] }) ps
      else g :: groupFrom maxQty (some ⟨p.pdu, p.words, [p]⟩) ps

/-- Source: `driver.rs`, `build_groups`. -/
def buildGroups (points : List PlannedPoint) (pred : PlannedPoint → Bool) (maxQty : ℕ) : List Group :=
  groupFrom maxQty none ((points.filter pred).mergeSort fun p q => p.pdu ≤ q.pdu)

/-- The tables in the order in which they are read. Source: `driver.rs`, `tables` in
`read_groups`. -/
def tables : List RegisterType := [.coil, .discrete, .holding, .input]

/-- Largest quantity of a read. -/
def readMax (table : RegisterType) : ℕ := if isBitTable table then 2000 else 125

/-- Inputs of a table. -/
def isInputOf (table : RegisterType) (p : PlannedPoint) : Bool := p.direction == .input && p.table == table

/-- Source: `driver.rs`, `read_groups`. -/
def readGroups (points : List PlannedPoint) : List Group :=
  tables.flatMap fun table => buildGroups points (isInputOf table) (readMax table)

/-- Coils that are written. -/
def isCoilOut (p : PlannedPoint) : Bool := p.direction == .output && p.table == .coil

/-- Registers that are written whole. -/
def isRegOut (p : PlannedPoint) : Bool := p.direction == .output && p.table == .holding && p.raw != .bool

/-- Bits of registers that are written. -/
def isBitOut (p : PlannedPoint) : Bool := p.direction == .output && p.table == .holding && p.raw == .bool

/-- What a poll works with. Source: `driver.rs`, `ModRt`, the part that transfers use. -/
structure ModRt where
  points : List PlannedPoint
  readGroups : List Group
  coilGroups : List Group
  regGroups : List Group
  bitOuts : List PlannedPoint
  lastInputs : List PlcValue

/-- Source: `driver.rs`, `defaults` in `split_module`. -/
def inputDefaults (points : List PlannedPoint) : List PlcValue :=
  points.foldl (fun defaults p =>
    match p.inputPos with
    | some pos => defaults.set pos (.defaultOf p.valueType)
    | none => defaults) (List.replicate (points.filterMap PlannedPoint.inputPos).length (.bool false))

/-- Put a value for each input in its place. -/
def place {α : Type} (f : PlannedPoint → α) (points : List PlannedPoint) (l : List α) : List α :=
  points.foldl (fun l p =>
    match p.inputPos with
    | some pos => l.set pos (f p)
    | none => l) l

section Place

variable {α : Type} {f : PlannedPoint → α} {points : List PlannedPoint} {pos : ℕ}

theorem place_cons (p : PlannedPoint) (l : List α) :
    place f (p :: points) l = place f points (place f [p] l) := rfl

theorem place_length (l : List α) : (place f points l).length = l.length := by
  unfold place
  induction points generalizing l with
  | nil => rfl
  | cons p ps ih =>
      rw [List.foldl_cons, ih]
      split
      · exact List.length_set
      · rfl

/-- A place of no point stays as it is. -/
theorem place_other (h : ∀ q ∈ points, q.inputPos ≠ some pos) (l : List α) :
    (place f points l)[pos]? = l[pos]? := by
  unfold place
  induction points generalizing l with
  | nil => rfl
  | cons q qs ih =>
      rw [List.foldl_cons, ih fun q' hq' => h q' (List.mem_cons_of_mem _ hq')]
      split
      · next pos' hpos' =>
          apply List.getElem?_set_ne
          rintro rfl
          exact h q List.mem_cons_self hpos'
      · rfl

/-- The place of a point gets its value, if no other point has this place. -/
theorem place_get {p : PlannedPoint} (hp : p ∈ points) (hpos : p.inputPos = some pos)
    (hunique : ∀ q ∈ points, q.inputPos = some pos → q = p) {l : List α} (hlen : pos < l.length) :
    (place f points l)[pos]? = some (f p) := by
  induction points generalizing l with
  | nil => exact absurd hp List.not_mem_nil
  | cons q qs ih =>
      have hrest : ∀ q' ∈ qs, q'.inputPos = some pos → q' = p :=
        fun q' hq' => hunique q' (List.mem_cons_of_mem _ hq')
      rw [place_cons]
      by_cases hmem : p ∈ qs
      · exact ih hmem hrest (by rwa [place_length])
      · -- The points that follow have other places.
        have hne : ∀ q' ∈ qs, q'.inputPos ≠ some pos := by
          intro q' hq' hpos'
          exact hmem (hrest q' hq' hpos' ▸ hq')
        obtain rfl : p = q := (List.mem_cons.mp hp).resolve_right hmem
        rw [place_other hne]
        unfold place
        rw [List.foldl_cons, List.foldl_nil, hpos]
        exact List.getElem?_set_self hlen

end Place

/-- Source: `driver.rs`, `split_module`. -/
def splitModule (m : PlannedModule) : ModRt where
  points := m.points
  readGroups := readGroups m.points
  coilGroups := buildGroups m.points isCoilOut 1968
  regGroups := buildGroups m.points isRegOut 123
  bitOuts := m.points.filter isBitOut
  lastInputs := inputDefaults m.points

/-! ## The device -/

/-- The four tables of a device. -/
@[ext] structure FieldMemory where
  coils : ℕ → Bool
  discretes : ℕ → Bool
  holdings : ℕ → BitVec 16
  inputs : ℕ → BitVec 16

namespace FieldMemory

/-- A table of bits. -/
def bits (m : FieldMemory) : RegisterType → ℕ → Bool
  | .coil => m.coils
  | _ => m.discretes

/-- A table of registers. -/
def regs (m : FieldMemory) : RegisterType → ℕ → BitVec 16
  | .holding => m.holdings
  | _ => m.inputs

end FieldMemory

/-- The device answers with an exception. -/
def exception {α : Type} (code : ℕ) : Except String α := .error ("modbus exception " ++ toString code)

/-- A request is answered if its quantity is allowed and its addresses exist. -/
def answer {α : Type} (start qty maxQty : ℕ) (a : α) : Except String α :=
  if ¬(1 ≤ qty ∧ qty ≤ maxQty) then exception 3
  else if 65536 < start + qty then exception 2
  else .ok a

/-- A byte by its bits, the first one lowest. -/
def byteOf (f : ℕ → Bool) : BitVec 8 :=
  BitVec.ofBoolListLE [f 0, f 1, f 2, f 3, f 4, f 5, f 6, f 7]

/-- Bits packed into bytes; the last byte is filled up with zeros. -/
def packBits (bit : ℕ → Bool) (start qty : ℕ) : List (BitVec 8) :=
  (List.range ((qty + 7) / 8)).map fun k =>
    byteOf fun j => decide (8 * k + j < qty) && bit (start + (8 * k + j))

/-- Source: `codec.rs`, `Session::read_bits`. -/
def readBits (m : FieldMemory) (table : RegisterType) (start qty : ℕ) : Except String (List (BitVec 8)) :=
  answer start qty 2000 (packBits (m.bits table) start qty)

/-- Source: `codec.rs`, `Session::read_regs`. -/
def readRegs (m : FieldMemory) (table : RegisterType) (start qty : ℕ) :
    Except String (List (BitVec 16)) :=
  answer start qty 125 ((List.range qty).map fun i => m.regs table (start + i))

/-- What a write leaves behind. -/
abbrev Reply := FieldMemory × Except String Unit

/-- A write that is refused changes nothing. -/
def reply (start qty maxQty : ℕ) (m m' : FieldMemory) : Reply :=
  match answer start qty maxQty () with
  | .ok () => (m', .ok ())
  | .error e => (m, .error e)

/-- Source: `codec.rs`, `Session::write_coil`. -/
def writeCoil (m : FieldMemory) (addr : ℕ) (on : Bool) : Reply :=
  reply addr 1 1 m { m with coils := writeBlock m.coils addr [on] }

/-- Source: `codec.rs`, `Session::write_coils`. -/
def writeCoils (m : FieldMemory) (addr : ℕ) (bits : List Bool) : Reply :=
  reply addr bits.length 1968 m { m with coils := writeBlock m.coils addr bits }

/-- Source: `codec.rs`, `Session::write_reg`. -/
def writeReg (m : FieldMemory) (addr : ℕ) (value : BitVec 16) : Reply :=
  reply addr 1 1 m { m with holdings := writeBlock m.holdings addr [value] }

/-- Source: `codec.rs`, `Session::write_regs`. -/
def writeRegs (m : FieldMemory) (addr : ℕ) (regs : List (BitVec 16)) : Reply :=
  reply addr regs.length 123 m { m with holdings := writeBlock m.holdings addr regs }

/-! ## Reads -/

/-- Source: `driver.rs`, `Payload`. -/
inductive Payload where
  | bits (bytes : List (BitVec 8))
  | regs (regs : List (BitVec 16))

/-- One read. -/
def transfer (m : FieldMemory) (table : RegisterType) (start qty : ℕ) : Except String Payload :=
  if isBitTable table then (readBits m table start qty).map .bits
  else (readRegs m table start qty).map .regs

/-- The value of a point in the answer to a read from `start` on. Source: `driver.rs`, the `match` of
`ModRt::store_group`. -/
def pointValue (start : ℕ) (data : Payload) (p : PlannedPoint) : Except String PlcValue :=
  let rel := p.pdu - start
  match data with
  | .bits bytes =>
      let on := (bytes[rel / 8]?).any fun byte => byte.getLsbD (rel % 8)
      .ok (decodeNumber (if on then 1 else 0) p)
  | .regs regs =>
      if rel + p.words > regs.length then .error "short register block"
      else .ok (decodeRegs ((regs.drop rel).take p.words) p)

/-- Keep the value of a point. -/
def storeValue (last : List PlcValue) (p : PlannedPoint) (value : PlcValue) : List PlcValue :=
  match p.inputPos with
  | some pos => last.set pos value
  | none => last

/-- The inputs and the answer of a read. -/
abbrev ReadReply := List PlcValue × Except String Unit

/-- Source: `driver.rs`, `ModRt::store_group`. -/
def storeGroup (start : ℕ) (data : Payload) : List PlannedPoint → List PlcValue → ReadReply
  | [], last => (last, .ok ())
  | p :: ps, last =>
      match pointValue start data p with
      | .error e => (last, .error e)
      | .ok value => storeGroup start data ps (storeValue last p value)

/-- The groups one after the other, until one fails. Source: `driver.rs`, `ModRt::read_inputs`. -/
def readInputs (m : FieldMemory) : List Group → List PlcValue → ReadReply
  | [], last => (last, .ok ())
  | g :: gs, last =>
      match g.members with
      | [] => readInputs m gs last
      | first :: _ =>
          match transfer m first.table g.start g.qty with
          | .error e => (last, .error e)
          | .ok data =>
              match storeGroup g.start data g.members last with
              | (last, .error e) => (last, .error e)
              | (last, .ok ()) => readInputs m gs last

/-- Read only the range of one point. -/
def readPoint (m : FieldMemory) (p : PlannedPoint) : Except String PlcValue := do
  let data ← transfer m p.table p.pdu p.words
  pointValue p.pdu data p

/-! ## Writes -/

/-- What is written. Source: `driver.rs`, `WriteCtx`. -/
structure WriteCtx where
  mail : Mail
  force : Bool

/-- Source: `driver.rs`, `selected`. -/
def selected (ctx : WriteCtx) (p : PlannedPoint) : PlcValue :=
  (Io.selected ⟨p.outputPos, p.safe⟩ ctx.mail ctx.force).1

/-- Write one after the other, until one is refused. -/
def writeAll {ι : Type} (write : ι → FieldMemory → Reply) : List ι → FieldMemory → Reply
  | [], m => (m, .ok ())
  | i :: is, m =>
      match write i m with
      | (m, .ok ()) => writeAll write is m
      | (m, .error e) => (m, .error e)

/-- Go on unless a write was refused. -/
def Reply.andThen (x : Reply) (next : FieldMemory → Reply) : Reply :=
  match x with
  | (m, .ok ()) => next m
  | (m, .error e) => (m, .error e)

/-- Source: `driver.rs`, the first `for` of `write_with`. -/
def writeCoilGroup (ctx : WriteCtx) (g : Group) (m : FieldMemory) : Reply :=
  match g.members.map fun p => coilOn (selected ctx p) p with
  | [on] => writeCoil m g.start on
  | bits => writeCoils m g.start bits

/-- The registers of a group. -/
def groupRegs (ctx : WriteCtx) (g : Group) : List (BitVec 16) :=
  g.members.foldl (fun regs p => fillAt regs (p.pdu - g.start) (valueToWords (selected ctx p) p))
    (List.replicate g.qty 0)

/-- Source: `driver.rs`, the second `for` of `write_with`. -/
def writeRegGroup (ctx : WriteCtx) (g : Group) (m : FieldMemory) : Reply :=
  match groupRegs ctx g with
  | [reg] => writeReg m g.start reg
  | [] => (m, .ok ())
  | regs => writeRegs m g.start regs

/-- A register with one bit set or cleared. -/
def withBit (reg : BitVec 16) (bit : ℕ) (on : Bool) : BitVec 16 :=
  if on then reg ||| (1#16 <<< bit) else reg &&& ~~~(1#16 <<< bit)

/-- Read a register, and write it back with the bit of the point. Source: `driver.rs`, the third `for`
of `write_with`. -/
def writeBit (ctx : WriteCtx) (p : PlannedPoint) (m : FieldMemory) : Reply :=
  match readRegs m .holding p.pdu 1 with
  | .error e => (m, .error e)
  | .ok regs => writeReg m p.pdu (withBit (regs.headD 0) (p.bit.getD 0) (coilOn (selected ctx p) p))

/-- Source: `driver.rs`, `write_with`. -/
def writeWith (ctx : WriteCtx) (rt : ModRt) (m : FieldMemory) : Reply :=
  Reply.andThen
    (Reply.andThen (writeAll (writeCoilGroup ctx) rt.coilGroups m) (writeAll (writeRegGroup ctx) rt.regGroups))
    (writeAll (writeBit ctx) rt.bitOuts)

/-- Write only one point. -/
def writePoint (ctx : WriteCtx) (p : PlannedPoint) (m : FieldMemory) : Reply :=
  if p.table = .coil then writeCoil m p.pdu (coilOn (selected ctx p) p)
  else if p.raw = .bool then writeBit ctx p m
  else writeRegs m p.pdu (valueToWords (selected ctx p) p)

/-! ## Groups of valid points -/

/-- A run of points as a group. -/
def ofRun (r : Run PlannedPoint) : Group := ⟨r.start, r.qty, r.members⟩

/-- Order of the addresses. -/
def byPdu (points : List PlannedPoint) (pred : PlannedPoint → Bool) : List PlannedPoint :=
  (points.filter pred).mergeSort fun p q => p.pdu ≤ q.pdu

/-- What a group is: adjacent points of a class, as many as are allowed. -/
structure Group.Of (points : List PlannedPoint) (pred : PlannedPoint → Bool) (maxQty : ℕ) (g : Group) :
    Prop where
  nonempty : g.members ≠ []
  tiles : Tiles PlannedPoint.pdu PlannedPoint.words g.start g.members (g.start + g.qty)
  qty_le : g.qty ≤ maxQty
  members : ∀ p ∈ g.members, p ∈ points ∧ pred p = true

section Groups

variable {points : List PlannedPoint} {pred : PlannedPoint → Bool} {maxQty : ℕ} {g : Group}
  {p : PlannedPoint}

/-- Below the top of the address space nothing saturates. -/
theorem groupFrom_eq {cur : Option (Run PlannedPoint)} (hcur : ∀ r ∈ cur, r.start + r.qty ≤ 65535)
    (hpoints : ∀ p ∈ points, p.pdu + p.words ≤ 65535 ∧ 1 ≤ p.words) :
    groupFrom maxQty (cur.map ofRun) points =
      (coalesceFrom PlannedPoint.pdu PlannedPoint.words maxQty cur points).map ofRun := by
  induction points generalizing cur with
  | nil => cases cur <;> rfl
  | cons p ps ih =>
      obtain ⟨htop, hwords⟩ := hpoints p List.mem_cons_self
      have hrest : ∀ q ∈ ps, q.pdu + q.words ≤ 65535 ∧ 1 ≤ q.words :=
        fun q hq => hpoints q (List.mem_cons_of_mem _ hq)
      have hone : ∀ r ∈ some (Run.one PlannedPoint.pdu PlannedPoint.words p), r.start + r.qty ≤ 65535 := by
        rintro _ ⟨⟩
        exact htop
      cases cur with
      | none => exact ih hone hrest
      | some r =>
          have hr := hcur r rfl
          have hiff : (p.pdu = satAdd16 r.start r.qty ∧ satAdd16 p.pdu p.words - r.start ≤ maxQty ∧
              0 < satAdd16 p.pdu p.words - r.start) ↔
              r.Takes PlannedPoint.pdu PlannedPoint.words maxQty p := by
            unfold satAdd16 Run.Takes
            omega
          unfold groupFrom coalesceFrom
          dsimp only [Option.map_some, ofRun]
          by_cases htakes : r.Takes PlannedPoint.pdu PlannedPoint.words maxQty p
          · rw [if_pos (hiff.mpr htakes), if_pos htakes]
            have hspan : satAdd16 p.pdu p.words - r.start = p.pdu + p.words - r.start := by
              unfold satAdd16
              omega
            have hadd : ∀ r' ∈ some (r.add PlannedPoint.pdu PlannedPoint.words p),
                r'.start + r'.qty ≤ 65535 := by
              rintro _ ⟨⟩
              have hstart := htakes.1
              show r.start + (p.pdu + p.words - r.start) ≤ 65535
              omega
            have hgroup := ih hadd hrest
            rw [← hgroup, Option.map_some]
            dsimp only [ofRun, Run.add]
            rw [hspan]
          · rw [if_neg (fun h => htakes (hiff.mp h)), if_neg htakes, List.map_cons]
            exact congrArg (ofRun r :: ·) (ih hone hrest)

theorem buildGroups_eq (h : ValidPoints points) : buildGroups points pred maxQty =
    (coalesce PlannedPoint.pdu PlannedPoint.words maxQty (byPdu points pred)).map ofRun := by
  apply @groupFrom_eq _ _ none (fun _ h => nomatch h)
  intro p hp
  have hsound := h.sound p (List.mem_of_mem_filter ((List.mergeSort_perm _ _).mem_iff.mp hp))
  have htop := hsound.top
  have hwords := hsound.words_bounds
  omega

theorem mem_byPdu : p ∈ byPdu points pred ↔ p ∈ points ∧ pred p = true := by
  unfold byPdu
  rw [(List.mergeSort_perm _ _).mem_iff, List.mem_filter]

/-- **What the groups are.** -/
theorem buildGroups_of (h : ValidPoints points) (hmax : 2 ≤ maxQty) :
    ∀ g ∈ buildGroups points pred maxQty, g.Of points pred maxQty := by
  intro g hg
  rw [buildGroups_eq h] at hg
  obtain ⟨r, hr, rfl⟩ := List.mem_map.mp hg
  have htiled := coalesce_run (fun p hp =>
    ((h.sound p (mem_byPdu.mp hp).1).words_bounds.2).trans hmax) r hr
  refine ⟨htiled.nonempty, htiled.tiles, htiled.qty_le, ?_⟩
  intro p hp
  have hmem : p ∈ byPdu points pred := by
    rw [← @coalesce_members _ PlannedPoint.pdu PlannedPoint.words maxQty (byPdu points pred)]
    exact List.mem_flatMap.mpr ⟨r, hr, hp⟩
  exact mem_byPdu.mp hmem

/-- Every point of the class is in a group. -/
theorem buildGroups_members (h : ValidPoints points) :
    (buildGroups points pred maxQty).flatMap Group.members = byPdu points pred := by
  rw [buildGroups_eq h, List.flatMap_map]
  exact coalesce_members

theorem Group.Of.qty_eq (h : g.Of points pred maxQty) :
    g.qty = (g.members.map PlannedPoint.words).sum := (Nat.add_left_cancel h.tiles.sum).symm

/-- Bounds of a group, from those of its points. -/
theorem Group.Of.bounds (h : g.Of points pred maxQty) (hpoints : ValidPoints points) :
    1 ≤ g.qty ∧ g.start + g.qty ≤ 10000 := by
  -- The group ends where its last member ends.
  have hlast : ∀ {a b : ℕ} {l : List PlannedPoint}, l ≠ [] →
      Tiles PlannedPoint.pdu PlannedPoint.words a l b → ∃ p ∈ l, b = p.pdu + p.words := by
    intro a b l hl htiles
    induction l generalizing a with
    | nil => exact absurd rfl hl
    | cons p l ih =>
        cases l with
        | nil =>
            refine ⟨p, List.mem_cons_self, ?_⟩
            rw [htiles.1]
            exact htiles.2.symm
        | cons q l =>
            obtain ⟨p', hp', heq⟩ := ih (List.cons_ne_nil _ _) htiles.2
            exact ⟨p', List.mem_cons_of_mem _ hp', heq⟩
  obtain ⟨p, hp, hend⟩ := hlast h.nonempty h.tiles
  have hsound := hpoints.sound p (h.members p hp).1
  have hbounds := h.tiles.bounds hp
  have htop := hsound.top
  have hwords := hsound.words_bounds
  omega

end Groups

end SoftPlc.Io.Modbus
