import SoftPlc.Retain.Layout

/-!
# The retain store

`plc-retain/src/store.rs` with its codec: two slot files and an index file per program. A flush
writes the slot that is not the committed one and then the index. Slots and index are read back when
they are complete, and never when they were cut short: `decodeSlot_encodeSlot`,
`decodeSlot_cut`, `decodeIdx_encodeIdx`, `decodeIdx_cut`.
-/

namespace SoftPlc.Retain

open SoftPlc.Ir SoftPlc.Lib

/-! ## Checksums -/

/-- One bit of the checksum. Source: `crc.rs`, the inner loop of `crc32`. -/
def crcBit (crc : BitVec 32) : BitVec 32 :=
  if crc &&& 1 = 0 then crc >>> 1 else (crc >>> 1) ^^^ 0xEDB88320

/-- One byte of the checksum. Source: `crc.rs`, the outer loop of `crc32`. -/
def crcByte (crc : BitVec 32) (b : UInt8) : BitVec 32 :=
  (crcBit ∘ crcBit ∘ crcBit ∘ crcBit ∘ crcBit ∘ crcBit ∘ crcBit ∘ crcBit)
    (crc ^^^ BitVec.ofNat 32 b.toNat)

/-- IEEE CRC-32. Source: `crc.rs`, `crc32`. -/
def crc32 (data : List UInt8) : ℕ := (~~~data.foldl crcByte 0xFFFFFFFF).toNat

example : crc32 [49, 50, 51, 52, 53, 54, 55, 56, 57] = 0xCBF43926 := by decide +kernel

/-- Schema hash of a layout. Source: `plc-retain/src/layout.rs`, `schema_hash`. -/
def schemaHash (layout : RetainLayout) : ℕ :=
  crc32 (layout.symbols.flatMap fun s =>
    s.name.toByteArray.data.toList ++ [0, s.ty.toU8] ++ leBytes 4 s.offset ++
      leBytes 4 layout.retainSize)

/-! ## Records as bytes -/

/-- The UTF-8 bytes of a name. Source: `str::as_bytes`. -/
def nameBytes (name : String) : List UInt8 := name.toByteArray.data.toList

/-- A name from UTF-8 bytes. Source: `std::str::from_utf8`. -/
def nameOfBytes (bytes : List UInt8) : Option String := String.fromUTF8? bytes.toByteArray

/-- Encode one symbol. Source: `codec.rs`, the loop body of `encode_records`. -/
def encodeRecord (image : List UInt8) (s : RetainSymbol) : Except RetainError (List UInt8) :=
  if (nameBytes s.name).length > 65535 then
    .error (.codec ("symbol name " ++ s.name ++ " exceeds u16 length"))
  else
    .ok (leBytes 2 (nameBytes s.name).length ++ nameBytes s.name ++ [s.ty.toU8, 0] ++
      s.slice image)

/-- Encode symbol by symbol. Source: `codec.rs`, the loop of `encode_records`. -/
def encodeSymbols (image : List UInt8) : List RetainSymbol → Except RetainError (List UInt8)
  | [] => .ok []
  | s :: rest => do
      let bytes ← encodeRecord image s
      let out ← encodeSymbols image rest
      .ok (bytes ++ out)

/-- Encode an image. Source: `codec.rs`, `encode_records`. -/
def encodeRecords (layout : RetainLayout) (image : List UInt8) :
    Except RetainError (List UInt8) :=
  if image.length ≠ layout.retainSize then .error (.imageSize layout.retainSize image.length)
  else encodeSymbols image layout.symbols

/-- Decode the first record of a payload. Source: `codec.rs`, the loop body of
`decode_records`. -/
def decodeRecord (payload : List UInt8) : Except RetainError (RetainRecord × List UInt8) :=
  if payload.length < 2 then .error (.codec "truncated name_len")
  else
    let nameLen := ofLeBytes (payload.take 2)
    let rest := payload.drop 2
    if nameLen + 2 > rest.length then .error (.codec "truncated name or type")
    else
      match nameOfBytes (rest.take nameLen) with
      | none => .error (.codec "symbol name is not UTF-8")
      | some name =>
          match rest.drop nameLen with
          | tag :: pad :: rest =>
              if pad ≠ 0 then .error (.codec "nonzero record pad")
              else
                match IrType.fromU8 tag with
                | none => .error (.codec ("unknown type tag " ++ toString tag))
                | some ty =>
                    if ty.byteWidth > rest.length then
                      .error (.codec ("truncated value for " ++ name ++ " (" ++
                        toString ty.byteWidth ++ " bytes)"))
                    else .ok (⟨name, ty, rest.take ty.byteWidth⟩, rest.drop ty.byteWidth)
          | _ => .error (.codec "truncated name or type")

/-- Decode records; every one of them takes at least one byte. Source: `codec.rs`, the `while` of
`decode_records`. -/
def decodeLoop : ℕ → List UInt8 → Except RetainError (List RetainRecord)
  | _, [] => .ok []
  | 0, _ :: _ => .error (.codec "truncated name_len")
  | fuel + 1, payload => do
      let (r, rest) ← decodeRecord payload
      let rs ← decodeLoop fuel rest
      .ok (r :: rs)

/-- Source: `codec.rs`, `decode_records`. -/
def decodeRecords (payload : List UInt8) : Except RetainError (List RetainRecord) :=
  decodeLoop payload.length payload

/-! ### Round trip -/

/-- A name is read back from its bytes. -/
theorem nameOfBytes_nameBytes (name : String) : nameOfBytes (nameBytes name) = some name := by
  have hbytes : (nameBytes name).toByteArray = name.toByteArray := by
    apply ByteArray.ext
    simp [nameBytes]
  unfold nameOfBytes
  rw [hbytes]
  simp [String.fromUTF8?, name.isValidUTF8, String.fromUTF8]

/-- A record is read back. -/
theorem decodeRecord_encodeRecord {image bytes : List UInt8} {s : RetainSymbol}
    (hfit : s.endOffset ≤ image.length) (h : encodeRecord image s = .ok bytes)
    (rest : List UInt8) : decodeRecord (bytes ++ rest) = .ok (s.record image, rest) := by
  unfold encodeRecord at h
  split_ifs at h with hlong
  cases h
  have hlen : (s.slice image).length = s.ty.byteWidth := readAt_length hfit
  have htake : ofLeBytes (leBytes 2 (nameBytes s.name).length) = (nameBytes s.name).length := by
    rw [ofLeBytes_leBytes]
    exact Nat.mod_eq_of_lt (by omega)
  have hpre : ∀ tail : List UInt8,
      (leBytes 2 (nameBytes s.name).length ++ tail).take 2 =
        leBytes 2 (nameBytes s.name).length ∧
      (leBytes 2 (nameBytes s.name).length ++ tail).drop 2 = tail := by
    intro tail
    constructor
    · rw [List.take_left' (by simp)]
    · rw [List.drop_left' (by simp)]
  unfold decodeRecord
  simp only [List.append_assoc, (hpre _).1, (hpre _).2, htake]
  rw [if_neg (by simp; omega), if_neg (by simp), List.take_left' rfl, List.drop_left' rfl,
    nameOfBytes_nameBytes]
  simp only [List.cons_append, List.nil_append, ne_eq, not_true_eq_false, if_false,
    IrType.fromU8_toU8]
  rw [if_neg (by simp [hlen]), List.take_left' hlen, List.drop_left' hlen]
  rfl

/-- Every record takes bytes. -/
theorem encodeRecord_ne_nil {image bytes : List UInt8} {s : RetainSymbol}
    (h : encodeRecord image s = .ok bytes) : 0 < bytes.length := by
  unfold encodeRecord at h
  split_ifs at h
  cases h
  simp

/-- Records are read back, with enough steps. -/
theorem decodeLoop_encodeSymbols {image : List UInt8} {symbols : List RetainSymbol}
    {bytes : List UInt8} (hfit : ∀ s ∈ symbols, s.endOffset ≤ image.length)
    (h : encodeSymbols image symbols = .ok bytes) {fuel : ℕ} (hfuel : bytes.length ≤ fuel) :
    decodeLoop fuel bytes = .ok (symbols.map fun s => s.record image) := by
  induction symbols generalizing bytes fuel with
  | nil =>
      cases h
      cases fuel <;> rfl
  | cons s rest ih =>
      obtain ⟨head, hhead, h⟩ := except_bind_ok.mp h
      obtain ⟨tail, htail, h⟩ := except_bind_ok.mp h
      cases h
      have hpos := encodeRecord_ne_nil hhead
      rw [List.length_append] at hfuel
      obtain ⟨fuel, rfl⟩ : ∃ n, fuel = n + 1 := ⟨fuel - 1, by omega⟩
      obtain ⟨b, bs, hcons⟩ : ∃ b bs, head ++ tail = b :: bs := by
        rcases head with _ | ⟨b, bs⟩
        · simp at hpos
        · exact ⟨b, bs ++ tail, rfl⟩
      have hdec := decodeRecord_encodeRecord (hfit s List.mem_cons_self) hhead tail
      have hloop := ih (fun t ht => hfit t (List.mem_cons_of_mem _ ht)) htail
        (show tail.length ≤ fuel by omega)
      rw [hcons] at hdec ⊢
      rw [decodeLoop]
      · exact except_bind_ok.mpr ⟨_, hdec, except_bind_ok.mpr ⟨_, hloop, rfl⟩⟩
      · exact fun hnil => nomatch hnil

/-- **Records are read back from their bytes.** -/
theorem decodeRecords_encodeRecords {layout : RetainLayout} {image payload : List UInt8}
    (h : encodeRecords layout image = .ok payload) :
    image.length = layout.retainSize ∧
      decodeRecords payload = .ok (layout.symbols.map fun s => s.record image) := by
  unfold encodeRecords at h
  split_ifs at h with hlen
  have hlen := not_not.mp hlen
  exact ⟨hlen, decodeLoop_encodeSymbols (fun s hs => (layout.bounded s hs).trans hlen.ge) h
    (le_refl _)⟩

/-! ## Slots -/

/-- A slot. Source: `store.rs`, the slot numbers 0 and 1. -/
inductive Slot where
  | zero
  | one
  deriving DecidableEq, Repr

/-- The other slot. Source: `store.rs`, `1 - active`. -/
def Slot.other : Slot → Slot
  | .zero => .one
  | .one => .zero

@[simp] theorem Slot.other_ne (s : Slot) : s.other ≠ s := by cases s <;> decide

@[simp] theorem Slot.ne_other (s : Slot) : s ≠ s.other := by cases s <;> decide

/-- The byte of a slot. -/
def Slot.toU8 : Slot → UInt8
  | .zero => 0
  | .one => 1

/-- A slot from its byte. Source: `store.rs`, `if slot > 1`. -/
def Slot.fromU8 (b : UInt8) : Option Slot :=
  if b = 0 then some .zero else if b = 1 then some .one else none

@[simp] theorem Slot.fromU8_toU8 (s : Slot) : Slot.fromU8 s.toU8 = some s := by
  cases s <;> rfl

/-- `SPRT`. Source: `store.rs`, `SLOT_MAGIC`. -/
def slotMagic : List UInt8 := [0x53, 0x50, 0x52, 0x54]

/-- `SPRI`. Source: `store.rs`, `IDX_MAGIC`. -/
def idxMagic : List UInt8 := [0x53, 0x50, 0x52, 0x49]

/-- Source: `store.rs`, `RETAIN_VERSION`. -/
def retainVersion : ℕ := 1

/-- Largest `u64`. -/
def u64Max : ℕ := 2 ^ 64 - 1

/-- The header of a slot. Source: `store.rs`, the field writes of `encode_slot`. -/
def slotHeader (generation schema count payloadLen crc : ℕ) : List UInt8 :=
  slotMagic ++ (leBytes 2 retainVersion ++ (leBytes 2 0 ++ (leBytes 8 generation ++
    (leBytes 4 schema ++ (leBytes 4 count ++ (leBytes 4 payloadLen ++ leBytes 4 crc))))))

/-- The bytes of a slot; lengths are written as `u32`. Source: `store.rs`, `encode_slot`. -/
def encodeSlot (generation schema count : ℕ) (payload : List UInt8) : List UInt8 :=
  slotHeader generation schema count payload.length
    (crc32 (slotHeader generation schema count payload.length 0 ++ payload)) ++ payload

/-- A slot that decodes. Source: `store.rs`, `DecodedSlot`. -/
structure DecodedSlot where
  generation : ℕ
  records : List RetainRecord
  deriving DecidableEq, Repr

/-- Source: `store.rs`, `decode_slot`. -/
def decodeSlot (bytes : List UInt8) : Option DecodedSlot :=
  if bytes.length < 32 then none
  else if readAt bytes 0 4 ≠ slotMagic then none
  else if ofLeBytes (readAt bytes 4 2) ≠ retainVersion then none
  else if bytes.length ≠ 32 + ofLeBytes (readAt bytes 24 4) then none
  else if crc32 (writeAt bytes 28 [0, 0, 0, 0]) ≠ ofLeBytes (readAt bytes 28 4) then none
  else
    match decodeRecords (bytes.drop 32) with
    | .ok records => some ⟨ofLeBytes (readAt bytes 8 8), records⟩
    | .error _ => none

/-- The first sixteen bytes of the index. Source: `store.rs`, `encode_idx`. -/
def idxHead (slot : Slot) (generation : ℕ) : List UInt8 :=
  idxMagic ++ (leBytes 2 retainVersion ++ ([slot.toU8, 0] ++ leBytes 8 generation))

/-- Source: `store.rs`, `encode_idx`. -/
def encodeIdx (slot : Slot) (generation : ℕ) : List UInt8 :=
  idxHead slot generation ++ (leBytes 4 (crc32 (idxHead slot generation)) ++ List.replicate 44 0)

/-- Source: `store.rs`, `IdxRecord`. -/
structure IdxRecord where
  slot : Slot
  generation : ℕ
  deriving DecidableEq, Repr

/-- Source: `store.rs`, `decode_idx`. -/
def decodeIdx (bytes : List UInt8) : Option IdxRecord :=
  if bytes.length ≠ 64 then none
  else if readAt bytes 0 4 ≠ idxMagic then none
  else if ofLeBytes (readAt bytes 4 2) ≠ retainVersion then none
  else
    match Slot.fromU8 ((bytes[6]?).getD 0) with
    | none => none
    | some slot =>
        if crc32 (readAt bytes 0 16) ≠ ofLeBytes (readAt bytes 16 4) then none
        else some ⟨slot, ofLeBytes (readAt bytes 8 8)⟩

/-! ### Round trips -/

@[simp] theorem slotHeader_length (generation schema count payloadLen crc : ℕ) :
    (slotHeader generation schema count payloadLen crc).length = 32 := by
  simp [slotHeader, slotMagic]

@[simp] theorem idxHead_length (slot : Slot) (generation : ℕ) :
    (idxHead slot generation).length = 16 := by
  simp [idxHead, idxMagic]

@[simp] theorem encodeSlot_length (generation schema count : ℕ) (payload : List UInt8) :
    (encodeSlot generation schema count payload).length = 32 + payload.length := by
  simp [encodeSlot]

@[simp] theorem encodeIdx_length (slot : Slot) (generation : ℕ) :
    (encodeIdx slot generation).length = 64 := by
  simp [encodeIdx]

/-- A slice of a prefix. -/
theorem readAt_cut {α : Type} {xs ys : List α} (h : xs <+: ys) {off n : ℕ}
    (hlen : off + n ≤ xs.length) : readAt xs off n = readAt ys off n := by
  obtain ⟨zs, rfl⟩ := h
  simp only [readAt]
  rw [List.drop_append_of_le_length (by omega), List.take_append_of_le_length (by simp; omega)]

section Header

variable (generation schema count payloadLen crc : ℕ) (payload : List UInt8)

/-- The fields of a slot that a reader looks at. -/
theorem readAt_slotHeader :
    readAt (slotHeader generation schema count payloadLen crc ++ payload) 0 4 = slotMagic ∧
      readAt (slotHeader generation schema count payloadLen crc ++ payload) 4 2 =
        leBytes 2 retainVersion ∧
      readAt (slotHeader generation schema count payloadLen crc ++ payload) 8 8 =
        leBytes 8 generation ∧
      readAt (slotHeader generation schema count payloadLen crc ++ payload) 24 4 =
        leBytes 4 payloadLen ∧
      readAt (slotHeader generation schema count payloadLen crc ++ payload) 28 4 =
        leBytes 4 crc := by
  simp [slotHeader, slotMagic, leBytes, readAt]

/-- The checksum is computed with its own field zero. -/
theorem writeAt_slotHeader :
    writeAt (slotHeader generation schema count payloadLen crc ++ payload) 28 [0, 0, 0, 0] =
      slotHeader generation schema count payloadLen 0 ++ payload := by
  simp [slotHeader, slotMagic, leBytes, writeAt]

end Header

/-- A checksum fits its field. -/
theorem crc32_lt (data : List UInt8) : crc32 data < 2 ^ 32 := BitVec.isLt _

/-- A complete slot whose payload fits its length field is read back. -/
theorem decodeSlot_encodeSlot {generation schema count : ℕ} {payload : List UInt8}
    {records : List RetainRecord} (hgen : generation ≤ u64Max) (hlen : payload.length < 2 ^ 32)
    (h : decodeRecords payload = .ok records) :
    decodeSlot (encodeSlot generation schema count payload) = some ⟨generation, records⟩ := by
  have hfields := readAt_slotHeader generation schema count payload.length
    (crc32 (slotHeader generation schema count payload.length 0 ++ payload)) payload
  obtain ⟨hmagic, hversion, hgeneration, hpayload, hcrc⟩ := hfields
  have hpayloadLen : ofLeBytes (leBytes 4 payload.length) = payload.length := by
    rw [ofLeBytes_leBytes]
    exact Nat.mod_eq_of_lt hlen
  have hcrcVal : ∀ data, ofLeBytes (leBytes 4 (crc32 data)) = crc32 data := by
    intro data
    rw [ofLeBytes_leBytes]
    exact Nat.mod_eq_of_lt (crc32_lt data)
  have hgenVal : ofLeBytes (leBytes 8 generation) = generation := by
    rw [ofLeBytes_leBytes]
    unfold u64Max at hgen
    exact Nat.mod_eq_of_lt (by omega)
  have hdrop : (encodeSlot generation schema count payload).drop 32 = payload := by
    rw [encodeSlot, List.drop_left' (by simp)]
  unfold decodeSlot
  rw [hdrop, if_neg (by simp)]
  unfold encodeSlot
  rw [hmagic, hversion, hgeneration, hpayload, hcrc, writeAt_slotHeader, hpayloadLen, hcrcVal,
    hgenVal, h]
  simp [ofLeBytes_leBytes, retainVersion]

/-- A complete slot whose payload does not fit its length field is not read back. -/
theorem decodeSlot_encodeSlot_long {generation schema count : ℕ} {payload : List UInt8}
    (hlen : 2 ^ 32 ≤ payload.length) :
    decodeSlot (encodeSlot generation schema count payload) = none := by
  have hpayload := (readAt_slotHeader generation schema count payload.length
    (crc32 (slotHeader generation schema count payload.length 0 ++ payload)) payload).2.2.2.1
  have hne : 32 + payload.length ≠ 32 + payload.length % 2 ^ 32 := by
    have := Nat.mod_lt payload.length (show 2 ^ 32 > 0 by decide)
    omega
  unfold decodeSlot
  split_ifs with h₁ h₂ h₃ h₄
  · rfl
  · rfl
  · rfl
  · rfl
  · rfl
  · exfalso
    rw [not_not, encodeSlot_length] at h₄
    unfold encodeSlot at h₄
    rw [hpayload, ofLeBytes_leBytes] at h₄
    exact hne h₄

/-- A slot that was cut short is not read back. -/
theorem decodeSlot_cut {generation schema count : ℕ} {payload bytes : List UInt8}
    (hlen : payload.length < 2 ^ 32)
    (h : bytes <+: encodeSlot generation schema count payload)
    (hne : bytes ≠ encodeSlot generation schema count payload) : decodeSlot bytes = none := by
  have hlt : bytes.length < 32 + payload.length := by
    rw [← encodeSlot_length generation schema count payload]
    exact lt_of_le_of_ne h.length_le fun heq => hne (h.eq_of_length heq)
  by_cases hshort : bytes.length < 32
  · unfold decodeSlot
    rw [if_pos hshort]
  · have hpayload : ofLeBytes (readAt bytes 24 4) = payload.length := by
      rw [readAt_cut h (by omega), encodeSlot, (readAt_slotHeader _ _ _ _ _ _).2.2.2.1,
        ofLeBytes_leBytes]
      exact Nat.mod_eq_of_lt hlen
    unfold decodeSlot
    rw [if_neg hshort]
    split_ifs with h₂ h₃ h₄
    · rfl
    · rfl
    · rfl
    · rfl
    · rw [not_not, hpayload] at h₄
      omega

/-- A complete index is read back. -/
theorem decodeIdx_encodeIdx {slot : Slot} {generation : ℕ} (hgen : generation ≤ u64Max) :
    decodeIdx (encodeIdx slot generation) = some ⟨slot, generation⟩ := by
  have hhead : readAt (encodeIdx slot generation) 0 16 = idxHead slot generation := by
    rw [encodeIdx, readAt, List.drop_zero, List.take_left' (by simp)]
  have hcrc : readAt (encodeIdx slot generation) 16 4 =
      leBytes 4 (crc32 (idxHead slot generation)) := by
    rw [encodeIdx, readAt, List.drop_left' (by simp), List.take_left' (by simp)]
  have hfields : readAt (encodeIdx slot generation) 0 4 = idxMagic ∧
      readAt (encodeIdx slot generation) 4 2 = leBytes 2 retainVersion ∧
      readAt (encodeIdx slot generation) 8 8 = leBytes 8 generation ∧
      (encodeIdx slot generation)[6]? = some slot.toU8 := by
    simp [encodeIdx, idxHead, idxMagic, leBytes, readAt]
  obtain ⟨hmagic, hversion, hgeneration, hslot⟩ := hfields
  have hgenVal : generation % 256 ^ 8 = generation := by
    unfold u64Max at hgen
    exact Nat.mod_eq_of_lt (by omega)
  unfold decodeIdx
  rw [hhead, hcrc, hmagic, hversion, hgeneration, hslot, if_neg (by simp)]
  simp only [ofLeBytes_leBytes, hgenVal, Option.getD_some, Slot.fromU8_toU8]
  rw [if_neg (by simp), if_neg (by simp [retainVersion]), if_neg]
  rw [not_not]
  exact (Nat.mod_eq_of_lt (crc32_lt _)).symm

/-- An index that was cut short is not read back. -/
theorem decodeIdx_cut {slot : Slot} {generation : ℕ} {bytes : List UInt8}
    (h : bytes <+: encodeIdx slot generation) (hne : bytes ≠ encodeIdx slot generation) :
    decodeIdx bytes = none := by
  have hlt : bytes.length ≠ 64 := by
    rw [← encodeIdx_length slot generation]
    exact fun heq => hne (h.eq_of_length heq)
  unfold decodeIdx
  rw [if_pos hlt]

/-! ## The store -/

/-- Accept a single path segment. Source: `store.rs`, `validate_program_id`. -/
def validateProgramId (id : String) : Except RetainError Unit :=
  if id = "" ∨ id = "." ∨ id = ".." ∨
      !id.toList.all (fun c => c.isAlphanum || c == '.' || c == '_' || c == '-') then
    .error (.invalidProgramId id)
  else .ok ()

/-- The files of one program id; no two ids share one. Source: `store.rs`,
`RetainStore::slot_path` and `RetainStore::idx_path`. -/
structure Files where
  /-- `<id>.ret.0` and `<id>.ret.1`. -/
  slot : Slot → Option (List UInt8)
  /-- `<id>.ret.idx`. -/
  idx : Option (List UInt8)

/-- One of the files. -/
inductive FileName where
  | slot (s : Slot)
  | idx
  deriving DecidableEq, Repr

/-- Replace a file. Source: `store.rs`, `write_all_sync`. -/
def Files.write (fs : Files) (name : FileName) (bytes : List UInt8) : Files :=
  match name with
  | .slot s => { fs with slot := fun t => if t = s then some bytes else fs.slot t }
  | .idx => { fs with idx := some bytes }

/-- Source: `store.rs`, `RetainStore::read_idx`. -/
def Files.readIdx (fs : Files) : Option IdxRecord := fs.idx.bind decodeIdx

/-- A slot that decodes. Source: `store.rs`, `RetainStore::read_slot(..).ok()`. -/
def Files.readSlot (fs : Files) (s : Slot) : Option DecodedSlot := (fs.slot s).bind decodeSlot

/-- The slot of the higher generation, the first on a tie. Source: `store.rs`, the `match` of
`RetainStore::committed` and of `choose_slot`. -/
def newerSlot (slot0 slot1 : Option DecodedSlot) : Option (Slot × DecodedSlot) :=
  match slot0, slot1 with
  | some a, some b => if a.generation ≥ b.generation then some (.zero, a) else some (.one, b)
  | some a, none => some (.zero, a)
  | none, some b => some (.one, b)
  | none, none => none

/-- Source: `store.rs`, `RetainStore::committed`. -/
def Files.committed (fs : Files) : Slot × ℕ :=
  match fs.readIdx with
  | some idx => (idx.slot, idx.generation)
  | none =>
      match newerSlot (fs.readSlot .zero) (fs.readSlot .one) with
      | some (s, d) => (s, d.generation)
      | none => (.one, 0)

/-- Source: `store.rs`, `choose_slot`. -/
def chooseSlot (idx : Option IdxRecord) (slots : Slot → Option DecodedSlot) :
    Option (Slot × DecodedSlot) :=
  match idx with
  | some idx =>
      match slots idx.slot with
      | some d =>
          if d.generation = idx.generation then some (idx.slot, d)
          else (slots idx.slot.other).map fun d => (idx.slot.other, d)
      | none => (slots idx.slot.other).map fun d => (idx.slot.other, d)
  | none => newerSlot (slots .zero) (slots .one)

/-- Source: `store.rs`, `FlushReport`. -/
structure FlushReport where
  generation : ℕ
  slot : Slot
  bytesWritten : ℕ
  deriving DecidableEq, Repr

/-- The next generation. Source: `store.rs`, `gen.saturating_add(1).max(1)`. -/
def nextGeneration (generation : ℕ) : ℕ := max (min (generation + 1) u64Max) 1

/-- The files that a flush writes, in order, and its report. Source: `store.rs`,
`RetainStore::flush`. -/
def flushWrites (fs : Files) (programId : String) (layout : RetainLayout) (image : List UInt8) :
    Except RetainError (FlushReport × List (FileName × List UInt8)) := do
  validateProgramId programId
  let payload ← encodeRecords layout image
  let slot := fs.committed.1.other
  let generation := nextGeneration fs.committed.2
  let bytes := encodeSlot generation (schemaHash layout) layout.symbols.length payload
  .ok (⟨generation, slot, bytes.length⟩,
    [(.slot slot, bytes), (.idx, encodeIdx slot generation)])

/-- Perform writes one after the other. -/
def Files.writeAll (fs : Files) : List (FileName × List UInt8) → Files
  | [] => fs
  | (name, bytes) :: rest => (fs.write name bytes).writeAll rest

/-- Source: `store.rs`, `RetainStore::flush`. -/
def flush (fs : Files) (programId : String) (layout : RetainLayout) (image : List UInt8) :
    Except RetainError (FlushReport × Files) := do
  let (report, writes) ← flushWrites fs programId layout image
  .ok (report, fs.writeAll writes)

/-- Source: `store.rs`, `LoadSource`. -/
inductive LoadSource where
  | cold
  | slot (s : Slot)
  deriving DecidableEq, Repr

/-- Source: `store.rs`, `LoadReport`. -/
structure LoadReport where
  source : LoadSource
  generation : ℕ
  kept : ℕ
  coldDefaults : ℕ
  dropped : ℕ
  incompat : List String
  corrupt : Bool
  missing : Bool
  deriving DecidableEq, Repr

/-- A file that is there but does not decode. -/
def isCorrupt {α : Type} (file : Option (List UInt8)) (decoded : Option α) : Bool :=
  file.isSome && decoded.isNone

/-- Load into a destination of a length: the new contents and the report. Source: `store.rs`,
`RetainStore::load`. -/
def load (fs : Files) (programId : String) (layout : RetainLayout) (dstLen : ℕ) :
    Except RetainError (List UInt8 × LoadReport) := do
  validateProgramId programId
  if dstLen ≠ layout.retainSize then .error (.imageSize layout.retainSize dstLen)
  else do
    let anyFile := (fs.slot .zero).isSome || (fs.slot .one).isSome || fs.idx.isSome
    let chosen := chooseSlot fs.readIdx fs.readSlot
    let corrupt := isCorrupt fs.idx fs.readIdx || isCorrupt (fs.slot .zero) (fs.readSlot .zero) ||
      isCorrupt (fs.slot .one) (fs.readSlot .one) || (fs.readIdx.isSome && chosen.isNone)
    match chosen with
    | none =>
        .ok (List.replicate dstLen 0,
          ⟨.cold, 0, 0, layout.symbols.length, 0, [], corrupt, !anyFile⟩)
    | some (slot, decoded) => do
        let mapped ← applyRecords decoded.records layout true
        .ok (mapped.image,
          ⟨.slot slot, decoded.generation, mapped.report.kept, mapped.report.coldDefaults,
            mapped.report.dropped, mapped.report.zeroedIncompat, corrupt, false⟩)

end SoftPlc.Retain
