import SoftPlc.Io.ModbusTransfer

/-!
# Requests and responses on the wire

`plc-io-modbus/src/codec.rs`, `Session`: a request is sent in a frame with a transaction id, and the
frames that come back are read until one has this id, but at most two. What the socket brings is any
sequence of pieces and faults. `request_cases` says what a request can do with it: it never panics, it
passes over at most one frame, and what it returns is the content of a frame that answers it.
-/

namespace SoftPlc.Io.Modbus

open SoftPlc.Lib

/-! ## The socket -/

/-- A byte. -/
abbrev Byte := BitVec 8

/-- What a read of the socket brings; no bytes are the end of the stream. -/
inductive Segment where
  | data (bytes : List Byte)
  | fault (text : String)

/-- The bytes that are still to come. -/
def bytesOf : List Segment → List Byte
  | [] => []
  | .data bytes :: segments => bytes ++ bytesOf segments
  | .fault _ :: segments => bytesOf segments

/-- An open connection, with what its socket will do. -/
structure Conn where
  id : ℕ
  incoming : List Segment
  /-- The results of the next writes; later ones succeed. -/
  sends : List (Except String Unit)

/-- What happens on a connection. -/
inductive WireEvent where
  | sent (conn : ℕ) (bytes : List Byte)
  | received (conn : ℕ) (bytes : List Byte)
  /-- A request has failed, or what it returned was refused. -/
  | failed (conn : ℕ)

/-- What a session works on. Source: `codec.rs`, `Session`, without the unit. -/
structure Link where
  conn : Conn
  tid : BitVec 16
  log : List WireEvent

/-- Source: `codec.rs`, `Fail`. -/
inductive Fail where
  | mismatch
  | other (text : String)

/-- How a request ends without a result. -/
inductive Halt where
  | fail (f : Fail)
  | panic

/-- A request. -/
abbrev SessionM := EStateM Halt Link

/-- A failure with a message. -/
def other {α : Type} (text : String) : SessionM α := throw (.fail (.other text))

/-- Read until `n` bytes are there. Source: `Read::read_exact`. -/
def readExact : ℕ → List Segment → (List Byte × Option String) × List Segment
  | 0, segments => (([], none), segments)
  | _ + 1, [] => (([], some "failed to fill whole buffer"), [])
  | _ + 1, .fault e :: segments => (([], some e), segments)
  | _ + 1, .data [] :: segments => (([], some "failed to fill whole buffer"), segments)
  | n + 1, .data (b :: bytes) :: segments =>
      if n < bytes.length then
        (((b :: bytes).take (n + 1), none), .data ((b :: bytes).drop (n + 1)) :: segments)
      else
        let ((more, e), rest) := readExact (n - bytes.length) segments
        ((b :: bytes ++ more, e), rest)

/-- `read_exact` on the connection of a link. -/
def recvExact (n : ℕ) : SessionM (List Byte) := fun s =>
  match readExact n s.conn.incoming with
  | ((bytes, e), incoming) =>
      let s' : Link :=
        ⟨{ s.conn with incoming }, s.tid, s.log ++ [.received s.conn.id bytes]⟩
      match e with
      | none => .ok bytes s'
      | some e => .error (.fail (.other e)) s'

/-- `write_all` on the connection of a link. -/
def sendAll (bytes : List Byte) : SessionM Unit := fun s =>
  let s' : Link := { s with conn := { s.conn with sends := s.conn.sends.tail } }
  match s.conn.sends.head? with
  | some (.error e) => .error (.fail (.other e)) s'
  | _ => .ok () { s' with log := s.log ++ [.sent s.conn.id bytes] }

/-! ## Checked indexing -/

/-- An index that must be in range. -/
def byteAt (bytes : List Byte) (i : ℕ) : SessionM Byte :=
  match bytes[i]? with
  | some b => pure b
  | none => throw .panic

/-- A range that must be in range. -/
def slice (bytes : List Byte) (start stop : ℕ) : SessionM (List Byte) :=
  if start ≤ stop ∧ stop ≤ bytes.length then pure ((bytes.drop start).take (stop - start))
  else throw .panic

/-! ## Frames -/

/-- The upper byte first. Source: `u16::to_be_bytes`. -/
def be16 (x : BitVec 16) : List Byte := [x.extractLsb' 8 8, x.setWidth 8]

/-- Source: `u16::from_be_bytes`. -/
def ofBe16 (hi lo : Byte) : BitVec 16 := hi ++ lo

/-- Source: `u16::try_from(..).unwrap_or(0)`. -/
def u16OrZero (n : ℕ) : BitVec 16 := if n < 65536 then BitVec.ofNat 16 n else 0

/-- Source: `u8::try_from(..).unwrap_or(255)`. -/
def u8OrMax (n : ℕ) : Byte := if n < 256 then BitVec.ofNat 8 n else 255

/-- Source: `codec.rs`, `Session::send`. -/
def send (unit : Byte) (tid : BitVec 16) (pdu : List Byte) : SessionM Unit :=
  sendAll (be16 tid ++ be16 0 ++ be16 (u16OrZero (1 + pdu.length)) ++ unit :: pdu)

/-- Source: `codec.rs`, `Session::recv_tid`; the head of six bytes is an array there. -/
def recvTid (unit : Byte) (expect : BitVec 16) : SessionM (List Byte) := do
  let head ← recvExact 6
  match head with
  | [t₁, t₀, p₁, p₀, l₁, l₀] =>
      let tid := ofBe16 t₁ t₀
      let proto := ofBe16 p₁ p₀
      let len := (ofBe16 l₁ l₀).toNat
      if proto ≠ 0 then other "protocol id"
      else if ¬(2 ≤ len ∧ len ≤ 254) then other ("bad mbap length " ++ toString len)
      else do
        let rest ← recvExact len
        if tid ≠ expect then throw (.fail .mismatch)
        else do
          let u ← byteAt rest 0
          if u ≠ unit then other "unit id mismatch" else slice rest 1 rest.length
  | _ => throw .panic

/-- One more try after a frame with another id. Source: `codec.rs`, the first `match` of
`Session::transact`. -/
def recvRetry (unit : Byte) (tid : BitVec 16) : SessionM (List Byte) := fun s =>
  match recvTid unit tid s with
  | .error (.fail .mismatch) s' => recvTid unit tid s'
  | result => result

/-- The next transaction id. -/
def nextTid : SessionM (BitVec 16) := fun s => .ok s.tid { s with tid := s.tid + 1 }

/-- Source: `codec.rs`, `Session::transact`. -/
def transact (unit : Byte) (request : List Byte) : SessionM (List Byte) := do
  let tid ← nextTid
  send unit tid request
  let pdu ← recvRetry unit tid
  let fc := request.headD 0
  match pdu.head? with
  | some got =>
      if got = fc ||| 0x80 then
        other ("modbus exception " ++ toString ((pdu[1]?).getD 0).toNat)
      else if got = fc then pure pdu
      else other "unexpected function code"
  | none => other "unexpected function code"

/-! ## Requests -/

namespace Session

/-- Source: `codec.rs`, `read_pdu`. -/
def readPdu (fc : Byte) (start qty : BitVec 16) : List Byte := fc :: (be16 start ++ be16 qty)

/-- Source: `codec.rs`, `Session::read_bits`. -/
def readBits (unit fc : Byte) (start qty : BitVec 16) : SessionM (List Byte) := do
  let pdu ← transact unit (readPdu fc start qty)
  let count := ((pdu[1]?).getD 0).toNat
  if count ≠ (qty.toNat + 7) / 8 ∨ pdu.length < 2 + count then other "short bit response"
  else slice pdu 2 (2 + count)

/-- The registers from the `i`-th on. Source: `codec.rs`, the loop of `Session::read_regs`. -/
def regsFrom (pdu : List Byte) : ℕ → ℕ → SessionM (List (BitVec 16))
  | _, 0 => pure []
  | i, n + 1 => do
      let hi ← byteAt pdu (2 + i * 2)
      let lo ← byteAt pdu (2 + i * 2 + 1)
      let rest ← regsFrom pdu (i + 1) n
      pure (ofBe16 hi lo :: rest)

/-- Source: `codec.rs`, `Session::read_regs`. -/
def readRegs (unit fc : Byte) (start qty : BitVec 16) : SessionM (List (BitVec 16)) := do
  let pdu ← transact unit (readPdu fc start qty)
  let count := ((pdu[1]?).getD 0).toNat
  if count ≠ qty.toNat * 2 ∨ pdu.length < 2 + count then other "short register response"
  else regsFrom pdu 0 qty.toNat

/-- Source: `codec.rs`, `Session::write_coil`. -/
def writeCoil (unit : Byte) (addr : BitVec 16) (on : Bool) : SessionM Unit := do
  let _ ← transact unit (5 :: (be16 addr ++ be16 (if on then 0xFF00 else 0)))

/-- Source: `codec.rs`, `Session::write_reg`. -/
def writeReg (unit : Byte) (addr value : BitVec 16) : SessionM Unit := do
  let _ ← transact unit (6 :: (be16 addr ++ be16 value))

/-- The bits from the `i`-th on. Source: `codec.rs`, the loop of `Session::write_coils`. -/
def packFrom : ℕ → List Bool → List Byte → SessionM (List Byte)
  | _, [], data => pure data
  | i, on :: bits, data =>
      if on then do
        let b ← byteAt data (i / 8)
        packFrom (i + 1) bits (data.set (i / 8) (b ||| 1#8 <<< (i % 8)))
      else packFrom (i + 1) bits data

/-- Source: `codec.rs`, `Session::write_coils`. -/
def writeCoils (unit : Byte) (addr : BitVec 16) (bits : List Bool) : SessionM Unit := do
  let nbytes := (bits.length + 7) / 8
  let data ← packFrom 0 bits (List.replicate nbytes 0)
  let _ ← transact unit (15 :: (be16 addr ++ be16 (u16OrZero bits.length) ++ u8OrMax nbytes :: data))

/-- Source: `codec.rs`, `Session::write_regs`. -/
def writeRegs (unit : Byte) (addr : BitVec 16) (regs : List (BitVec 16)) : SessionM Unit := do
  let _ ← transact unit (16 :: (be16 addr ++ be16 (u16OrZero regs.length) ++
    u8OrMax (regs.length * 2) :: regs.flatMap be16))

end Session

/-- The requests of a session. -/
inductive Request where
  | readBits (fc : Byte) (start qty : BitVec 16)
  | readRegs (fc : Byte) (start qty : BitVec 16)
  | writeCoil (addr : BitVec 16) (on : Bool)
  | writeReg (addr value : BitVec 16)
  | writeCoils (addr : BitVec 16) (bits : List Bool)
  | writeRegs (addr : BitVec 16) (regs : List (BitVec 16))

/-- What a request returns. -/
inductive Answer where
  | bits (bytes : List Byte)
  | regs (regs : List (BitVec 16))
  | done

/-- The request as the session makes it. -/
def Request.run (unit : Byte) : Request → SessionM Answer
  | .readBits fc start qty => Answer.bits <$> Session.readBits unit fc start qty
  | .readRegs fc start qty => Answer.regs <$> Session.readRegs unit fc start qty
  | .writeCoil addr on => (fun _ => Answer.done) <$> Session.writeCoil unit addr on
  | .writeReg addr value => (fun _ => Answer.done) <$> Session.writeReg unit addr value
  | .writeCoils addr bits => (fun _ => Answer.done) <$> Session.writeCoils unit addr bits
  | .writeRegs addr regs => (fun _ => Answer.done) <$> Session.writeRegs unit addr regs

/-- The function code of a request. -/
def Request.fc : Request → Byte
  | .readBits fc _ _ | .readRegs fc _ _ => fc
  | .writeCoil _ _ => 5
  | .writeReg _ _ => 6
  | .writeCoils _ _ => 15
  | .writeRegs _ _ => 16

end SoftPlc.Io.Modbus
