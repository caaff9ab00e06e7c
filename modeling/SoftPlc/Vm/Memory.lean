import SoftPlc.Vm.Value

/-!
# Byte segments and slot images

`ByteSegment` is the data or retain image: bytes, and a type tag at the start offset of each
stored value. `SlotImage` is the `%I` or `%Q` image. Both carry the lengths of their planes as
fields. The laws of `store` and `load`:

* `store_ok_iff` and `load_ok_iff` say exactly when they succeed,
* `load_store_same` reads a stored value back with its type,
* `load_store_of_disjoint` leaves every value alone whose range the store does not meet.
-/

namespace SoftPlc.Vm

open SoftPlc.Ir SoftPlc.Lib

/-- Type tag byte for unset. Source: `plc-vm/src/memory.rs`, `TAG_UNSET`. -/
def tagUnset : UInt8 := 0xFF

/-- Writable byte segment with a start tag per offset. Source: `memory.rs`, `ByteSegment`. -/
structure ByteSegment where
  /-- The bytes. -/
  bytes : List UInt8
  /-- Tag at the starting offset of each stored value. -/
  tags : List UInt8
  /-- Both planes have one cell per offset. -/
  tags_length : tags.length = bytes.length
  deriving DecidableEq, Repr

namespace ByteSegment

/-- Zero-filled segment. Source: `memory.rs`, `ByteSegment::zeros`. -/
def zeros (size : ℕ) : ByteSegment where
  bytes := List.replicate size 0
  tags := List.replicate size tagUnset
  tags_length := by simp

/-- Length in bytes. Source: `memory.rs`, `ByteSegment::len`. -/
def len (s : ByteSegment) : ℕ := s.bytes.length

/-- The type that a load at an offset uses: the tag there, BOOL when unset. Source: `memory.rs`,
the `match` of `ByteSegment::load`. -/
def tagAt (s : ByteSegment) (offset : ℕ) : IrType :=
  let t := s.tags[offset]?.getD tagUnset
  if t = tagUnset then .bool else (IrType.fromU8 t).getD .bool

/-- The tags written for a value: its type at the start, unset behind it. Source: `memory.rs`,
the tail of `ByteSegment::store`. -/
def tagPayload (value : VmValue) : List UInt8 :=
  value.irType.toU8 :: List.replicate (value.byteWidth - 1) tagUnset

/-- The tags written for a value cover its width. -/
@[simp] theorem tagPayload_length (v : VmValue) : (tagPayload v).length = v.byteWidth := by
  have h := v.irType.byteWidth_pos
  simp only [tagPayload, List.length_cons, List.length_replicate, VmValue.byteWidth_eq]
  omega

/-- Store a typed value. Source: `memory.rs`, `ByteSegment::store`. -/
def store (s : ByteSegment) (offset : ℕ) (value : VmValue) (pc : ℕ) :
    Except VmError ByteSegment :=
  if h : offset + value.byteWidth > s.len then
    .error (.bounds pc ("store offset " ++ toString offset ++ "+" ++ toString value.byteWidth ++
      " exceeds segment " ++ toString s.len))
  else
    .ok
      { bytes := writeAt s.bytes offset value.payload
        tags := writeAt s.tags offset (tagPayload value)
        tags_length := by
          have hlen : offset + value.byteWidth ≤ s.bytes.length := Nat.le_of_not_gt h
          rw [writeAt_length (by simpa [s.tags_length] using hlen),
            writeAt_length (by simpa using hlen), s.tags_length] }

/-- Load a value at a type. Source: `memory.rs`, `ByteSegment::load_as`. -/
def loadAs (s : ByteSegment) (offset : ℕ) (ty : IrType) (pc : ℕ) : Except VmError VmValue :=
  if offset + ty.byteWidth > s.len then
    .error (.bounds pc ("load " ++ ty.debugName ++ " at " ++ toString offset ++ " OOB"))
  else .ok (.ofPayload ty (readAt s.bytes offset ty.byteWidth))

/-- Load a typed value by its tag. Source: `memory.rs`, `ByteSegment::load`. -/
def load (s : ByteSegment) (offset : ℕ) (pc : ℕ) : Except VmError VmValue :=
  if offset ≥ s.len then
    .error (.bounds pc
      ("load offset " ++ toString offset ++ " exceeds segment " ++ toString s.len))
  else s.loadAs offset (s.tagAt offset) pc

/-! ## Laws -/

/-- A zero-filled segment has the size asked for. -/
@[simp] theorem len_zeros (size : ℕ) : (zeros size).len = size := by
  simp [zeros, len]

/-- Exactly when a store succeeds. -/
theorem store_ok_iff {s : ByteSegment} {offset : ℕ} {v : VmValue} {pc : ℕ} :
    (∃ s', s.store offset v pc = .ok s') ↔ offset + v.byteWidth ≤ s.len := by
  unfold store
  by_cases h : offset + v.byteWidth > s.len
  · rw [dif_pos h]
    refine ⟨?_, fun h' => absurd h' (Nat.not_le_of_gt h)⟩
    rintro ⟨s', h'⟩
    cases h'
  · rw [dif_neg h]
    exact ⟨fun _ => Nat.le_of_not_gt h, fun _ => ⟨_, rfl⟩⟩

/-- What a successful store writes. -/
theorem store_eq_ok {s s' : ByteSegment} {offset : ℕ} {v : VmValue} {pc : ℕ}
    (h : s.store offset v pc = .ok s') :
    offset + v.byteWidth ≤ s.len ∧ s'.bytes = writeAt s.bytes offset v.payload ∧
      s'.tags = writeAt s.tags offset (tagPayload v) := by
  have hle := store_ok_iff.mp ⟨s', h⟩
  unfold store at h
  rw [dif_neg (by omega)] at h
  cases h
  exact ⟨hle, rfl, rfl⟩

/-- A store that fails reports a bounds error. -/
theorem store_error {s : ByteSegment} {offset : ℕ} {v : VmValue} {pc : ℕ} {e : VmError}
    (h : s.store offset v pc = .error e) :
    s.len < offset + v.byteWidth ∧ ∃ detail, e = .bounds pc detail := by
  unfold store at h
  by_cases hb : offset + v.byteWidth > s.len
  · rw [dif_pos hb] at h
    cases h
    exact ⟨hb, _, rfl⟩
  · rw [dif_neg hb] at h
    cases h

/-- A store keeps the segment's length. -/
theorem len_store {s s' : ByteSegment} {offset : ℕ} {v : VmValue} {pc : ℕ}
    (h : s.store offset v pc = .ok s') : s'.len = s.len := by
  obtain ⟨hle, hb, -⟩ := store_eq_ok h
  simp only [len, hb]
  exact writeAt_length (by simpa [len] using hle)

/-- Exactly when a load succeeds, and with what. -/
theorem load_ok_iff {s : ByteSegment} {offset : ℕ} {v : VmValue} {pc : ℕ} :
    s.load offset pc = .ok v ↔
      offset + (s.tagAt offset).byteWidth ≤ s.len ∧
        v = .ofPayload (s.tagAt offset) (readAt s.bytes offset (s.tagAt offset).byteWidth) := by
  have hpos := (s.tagAt offset).byteWidth_pos
  unfold load loadAs
  by_cases h : offset + (s.tagAt offset).byteWidth ≤ s.len
  · rw [if_neg (by omega), if_neg (by omega)]
    simp only [Except.ok.injEq, h, true_and]
    exact eq_comm
  · rw [if_pos (show offset + (s.tagAt offset).byteWidth > s.len by omega)]
    split_ifs <;> simp [h]

/-- A load that fails reports a bounds error. -/
theorem load_error {s : ByteSegment} {offset : ℕ} {pc : ℕ} {e : VmError}
    (h : s.load offset pc = .error e) :
    s.len < offset + (s.tagAt offset).byteWidth ∧ ∃ detail, e = .bounds pc detail := by
  have hpos := (s.tagAt offset).byteWidth_pos
  unfold load loadAs at h
  split_ifs at h with h₁ h₂ <;> cases h
  · exact ⟨by omega, _, rfl⟩
  · exact ⟨by omega, _, rfl⟩

/-- A loaded value has the type of the tag. -/
theorem irType_load {s : ByteSegment} {offset : ℕ} {v : VmValue} {pc : ℕ}
    (h : s.load offset pc = .ok v) : v.irType = s.tagAt offset := by
  obtain ⟨-, rfl⟩ := load_ok_iff.mp h
  simp

/-- The tag after a store, at its start offset. -/
theorem tagAt_store_same {s s' : ByteSegment} {offset : ℕ} {v : VmValue} {pc : ℕ}
    (h : s.store offset v pc = .ok s') : s'.tagAt offset = v.irType := by
  obtain ⟨hle, -, ht⟩ := store_eq_ok h
  have hpos := v.irType.byteWidth_pos
  have hlen : offset + (tagPayload v).length ≤ s.tags.length := by
    simpa [s.tags_length, len] using hle
  have hget : s'.tags[offset]?.getD tagUnset = v.irType.toU8 := by
    rw [ht, getElem?_writeAt hlen, if_pos]
    · simp [tagPayload]
    · rw [tagPayload_length, VmValue.byteWidth_eq]
      omega
  have hne : v.irType.toU8 ≠ tagUnset := v.irType.toU8_ne_unset
  simp only [tagAt, hget]
  rw [if_neg hne, IrType.fromU8_toU8]
  rfl

/-- The tag after a store, outside the stored range. -/
theorem tagAt_store_of_disjoint {s s' : ByteSegment} {offset offset' : ℕ} {v : VmValue} {pc : ℕ}
    (h : s.store offset v pc = .ok s') (hd : offset' < offset ∨ offset + v.byteWidth ≤ offset') :
    s'.tagAt offset' = s.tagAt offset' := by
  obtain ⟨hle, -, ht⟩ := store_eq_ok h
  have hlen : offset + (tagPayload v).length ≤ s.tags.length := by
    simpa [s.tags_length, len] using hle
  have hget : s'.tags[offset']?.getD tagUnset = s.tags[offset']?.getD tagUnset := by
    rw [ht, getElem?_writeAt hlen, if_neg (by rw [tagPayload_length]; omega)]
  simp only [tagAt, hget]

/-- The tag inside the stored range, behind its start, is unset and reads as BOOL. -/
theorem tagAt_store_inside {s s' : ByteSegment} {offset offset' : ℕ} {v : VmValue} {pc : ℕ}
    (h : s.store offset v pc = .ok s') (h₁ : offset < offset')
    (h₂ : offset' < offset + v.byteWidth) : s'.tagAt offset' = .bool := by
  obtain ⟨hle, -, ht⟩ := store_eq_ok h
  have hlen : offset + (tagPayload v).length ≤ s.tags.length := by
    simpa [s.tags_length, len] using hle
  have hget : s'.tags[offset']?.getD tagUnset = tagUnset := by
    obtain ⟨k, rfl⟩ := Nat.exists_eq_add_of_lt h₁
    rw [ht, getElem?_writeAt hlen, if_pos (by rw [tagPayload_length]; omega)]
    have hk : offset + k + 1 - offset = k + 1 := by omega
    rw [hk, tagPayload, List.getElem?_cons_succ, List.getElem?_replicate]
    split <;> rfl
  simp [tagAt, hget]

/-- **A stored value is read back**, with its type. -/
theorem load_store_same {s s' : ByteSegment} {offset : ℕ} {v : VmValue} {pc : ℕ} (pc' : ℕ)
    (h : s.store offset v pc = .ok s') : s'.load offset pc' = .ok v := by
  obtain ⟨hle, hb, -⟩ := store_eq_ok h
  have hlen : offset + v.payload.length ≤ s.bytes.length := by simpa [len] using hle
  rw [load_ok_iff, tagAt_store_same h, len_store h, hb, ← v.byteWidth_eq]
  refine ⟨hle, ?_⟩
  rw [← v.payload_length, readAt_writeAt_same hlen, v.ofPayload_payload]

/-- **A store leaves every other value alone**: a load whose range the store does not meet gives
what it gave before. -/
theorem load_store_of_disjoint {s s' : ByteSegment} {offset offset' : ℕ} {v : VmValue} {pc : ℕ}
    (pc' : ℕ) (h : s.store offset v pc = .ok s')
    (hd : offset' + (s.tagAt offset').byteWidth ≤ offset ∨ offset + v.byteWidth ≤ offset') :
    s'.load offset' pc' = s.load offset' pc' := by
  obtain ⟨hle, hb, -⟩ := store_eq_ok h
  have hpos := (s.tagAt offset').byteWidth_pos
  have htag : s'.tagAt offset' = s.tagAt offset' :=
    tagAt_store_of_disjoint h (by omega)
  have hlen : offset + v.payload.length ≤ s.bytes.length := by simpa [len] using hle
  simp only [load, loadAs, len_store h, htag, hb]
  rw [readAt_writeAt_of_disjoint hlen (by simpa using hd)]

/-! ### Tags that fit -/

/-- Every value that a load would read lies inside the segment. -/
def TagsFit (s : ByteSegment) : Prop :=
  ∀ offset, offset < s.len → offset + (s.tagAt offset).byteWidth ≤ s.len

/-- Cold segments have fitting tags. -/
theorem tagsFit_zeros (size : ℕ) : (zeros size).TagsFit := by
  intro offset h
  rw [len_zeros] at h
  have htag : (zeros size).tagAt offset = .bool := by
    simp [tagAt, zeros, h]
  rw [htag, len_zeros]
  exact h

/-- A store keeps the tags fitting. -/
theorem TagsFit.store {s s' : ByteSegment} {offset : ℕ} {v : VmValue} {pc : ℕ} (hs : s.TagsFit)
    (h : s.store offset v pc = .ok s') : s'.TagsFit := by
  have hle := (store_eq_ok h).1
  intro offset' hlt
  rw [len_store h] at hlt ⊢
  by_cases hsame : offset' = offset
  · subst hsame
    rw [tagAt_store_same h, ← v.byteWidth_eq]
    exact hle
  · by_cases hin : offset < offset' ∧ offset' < offset + v.byteWidth
    · rw [tagAt_store_inside h hin.1 hin.2]
      exact hlt
    · rw [tagAt_store_of_disjoint h (by omega)]
      exact hs offset' hlt

end ByteSegment

/-! ## Slot images -/

/-- Typed process image slots. Source: `memory.rs`, `SlotImage`. -/
structure SlotImage where
  /-- Slot values. -/
  values : List VmValue
  /-- Quality plane. -/
  qualityGood : List Bool
  /-- Slots written since the mask was cleared. -/
  written : List Bool
  /-- One quality per slot. -/
  quality_length : qualityGood.length = values.length
  /-- One mask bit per slot. -/
  written_length : written.length = values.length
  deriving DecidableEq, Repr

namespace SlotImage

/-- `n` slots, BOOL false and Good. Source: `memory.rs`, `SlotImage::bools`. -/
def bools (n : ℕ) : SlotImage where
  values := List.replicate n (.bool false)
  qualityGood := List.replicate n true
  written := List.replicate n false
  quality_length := by simp
  written_length := by simp

/-- Slot count. Source: `memory.rs`, `SlotImage::len`. -/
def len (s : SlotImage) : ℕ := s.values.length

/-- Read a slot. Source: `memory.rs`, `SlotImage::get`. -/
def get (s : SlotImage) (idx : ℕ) (pc : ℕ) : Except VmError VmValue :=
  match s.values[idx]? with
  | some v => .ok v
  | none => .error (.bounds pc s!"slot {idx}")

/-- Write a slot and mark it written. Source: `memory.rs`, `SlotImage::set`. -/
def set (s : SlotImage) (idx : ℕ) (value : VmValue) (pc : ℕ) : Except VmError SlotImage :=
  if idx < s.values.length then
    .ok
      { values := s.values.set idx value
        qualityGood := s.qualityGood
        written := s.written.set idx true
        quality_length := by simp [s.quality_length]
        written_length := by simp [s.written_length] }
  else .error (.bounds pc s!"slot {idx}")

/-- Clear the written mask. Source: `memory.rs`, `SlotImage::clear_written`. -/
def clearWritten (s : SlotImage) : SlotImage where
  values := s.values
  qualityGood := s.qualityGood
  written := List.replicate s.written.length false
  quality_length := s.quality_length
  written_length := by simp [s.written_length]

/-- Quality of an input slot. Source: `memory.rs`, `SlotImage::quality_good`. -/
def qualityAt (s : SlotImage) (idx : ℕ) (pc : ℕ) : Except VmError Bool :=
  match s.qualityGood[idx]? with
  | some g => .ok g
  | none => .error (.bounds pc s!"quality slot {idx}")

/-- `bools n` has `n` slots. -/
@[simp] theorem len_bools (n : ℕ) : (bools n).len = n := by
  simp [bools, len]

/-- Clearing the mask keeps the slots. -/
@[simp] theorem len_clearWritten (s : SlotImage) : s.clearWritten.len = s.len := rfl

/-- Reading an existing slot. -/
theorem get_of_lt {s : SlotImage} {idx : ℕ} (h : idx < s.len) (pc : ℕ) :
    ∃ v, s.values[idx]? = some v ∧ s.get idx pc = .ok v := by
  have hget : s.values[idx]? = some (s.values.get ⟨idx, h⟩) := List.getElem?_eq_getElem h
  exact ⟨_, hget, by rw [get, hget]⟩

/-- The quality of an existing slot. -/
theorem qualityAt_of_lt {s : SlotImage} {idx : ℕ} (h : idx < s.len) (pc : ℕ) :
    ∃ g, s.qualityAt idx pc = .ok g := by
  have h' : idx < s.qualityGood.length := by rw [s.quality_length]; exact h
  exact ⟨s.qualityGood.get ⟨idx, h'⟩, by simp [qualityAt, List.getElem?_eq_getElem h']⟩

/-- Writing an existing slot. -/
theorem set_of_lt {s : SlotImage} {idx : ℕ} (h : idx < s.len) (v : VmValue) (pc : ℕ) :
    ∃ s', s.set idx v pc = .ok s' ∧ s'.values = s.values.set idx v ∧
      s'.qualityGood = s.qualityGood := by
  unfold set
  rw [if_pos (show idx < s.values.length from h)]
  exact ⟨_, rfl, rfl, rfl⟩

/-- A write keeps the slots. -/
theorem len_set {s s' : SlotImage} {idx : ℕ} {v : VmValue} {pc : ℕ}
    (h : s.set idx v pc = .ok s') : s'.len = s.len := by
  unfold set at h
  split_ifs at h
  cases h
  simp [len]

end SlotImage

end SoftPlc.Vm
