import SoftPlc.Telemetry.Wire
import Mathlib.Data.BitVec

/-!
# Payloads there and back

The decoders of `plc-telemetry/src/protobuf.rs` as folds over fields, what the encoders write as
sequences of fields, and the two results about them: a payload comes back from its bytes
(`decode_encode`), and fields that a decoder does not know can stand anywhere between others, at every
level (`decode_inserted`).
-/

namespace SoftPlc.Telemetry

open SoftPlc.Lib

/-! ## The decoders as folds -/

/-- The fields of a property value. -/
def applyPropertyValue : Apply (BitVec 32 × MetricValue)
  | s, 1, .varint v => .ok (v.setWidth 32, s.2)
  | s, 3, .varint v => .ok (s.1, .int (v.setWidth 32))
  | s, 4, .varint v => .ok (s.1, .long v)
  | s, 5, .fixed32 v => .ok (s.1, .float ⟨v⟩)
  | s, 7, .varint v => .ok (s.1, .bool (v != 0))
  | s, 8, .bytes bs => (textOf bs).map fun t => (s.1, .string t)
  | s, _, _ => .ok s

/-- A property value. -/
def takePropertyValue (bytes : List UInt8) : Except TelemetryError (BitVec 32 × MetricValue) :=
  takeFields applyPropertyValue (0, .bool false) bytes

/-- The fields of a property set. -/
def applyPropertySet : Apply (List String × List (BitVec 32 × MetricValue))
  | s, 1, .bytes bs => (textOf bs).map fun t => (s.1 ++ [t], s.2)
  | s, 2, .bytes bs => (takePropertyValue bs).map fun v => (s.1, s.2 ++ [v])
  | s, _, _ => .ok s

/-- A property set. -/
def takePropertySet (bytes : List UInt8) : Except TelemetryError (List Property) :=
  (takeFields applyPropertySet ([], []) bytes).map fun s => pairProperties s.1 s.2

/-- The fields of a metric. -/
def applyMetric : Apply Metric
  | m, 1, .bytes bs => (textOf bs).map fun t => { m with name := some t }
  | m, 2, .varint v => .ok { m with aliasId := some v }
  | m, 3, .varint v => .ok { m with timestamp := some v }
  | m, 4, .varint v => .ok { m with datatype := v.setWidth 32 }
  | m, 9, .bytes bs => (takePropertySet bs).map fun ps => { m with properties := ps }
  | m, 10, .varint v => .ok { m with value := some (.int (v.setWidth 32)) }
  | m, 11, .varint v => .ok { m with value := some (.long v) }
  | m, 12, .fixed32 v => .ok { m with value := some (.float ⟨v⟩) }
  | m, 14, .varint v => .ok { m with value := some (.bool (v != 0)) }
  | m, 15, .bytes bs => (textOf bs).map fun t => { m with value := some (.string t) }
  | m, _, _ => .ok m

/-- A metric. -/
def takeMetric (bytes : List UInt8) : Except TelemetryError Metric :=
  takeFields applyMetric (.new 0) bytes

/-- The fields of a payload. -/
def applyPayload : Apply Payload
  | p, 1, .varint v => .ok { p with timestamp := some v }
  | p, 2, .bytes bs => (takeMetric bs).map fun m => { p with metrics := p.metrics ++ [m] }
  | p, 3, .varint v => .ok { p with seq := some v }
  | p, _, _ => .ok p

/-- A payload. -/
def takePayload (bytes : List UInt8) : Except TelemetryError Payload :=
  takeFields applyPayload ⟨none, [], none⟩ bytes

theorem propertyValueArm_applies (s : BitVec 32 × MetricValue) (field wire : ℕ) :
    Applies (propertyValueArm s field wire) wire (applyPropertyValue s field) := by
  unfold propertyValueArm
  split
  · exact applies_number fun _ => rfl
  · exact applies_number fun _ => rfl
  · exact applies_number fun _ => rfl
  · exact applies_fixed32 fun _ => rfl
  · exact applies_number fun _ => rfl
  · exact applies_string fun _ => rfl
  · apply applies_skip
    rintro v rfl
    unfold applyPropertyValue
    split
    all_goals first
      | rfl
      | simp_all [WireValue.wire]

theorem decodePropertyValue_eq (bytes : List UInt8) :
    decodePropertyValue bytes = (takePropertyValue bytes).mapError .err :=
  decodeWith_refines propertyValueArm_applies _ bytes

theorem propertySetArm_applies (s : List String × List (BitVec 32 × MetricValue))
    (field wire : ℕ) : Applies (propertySetArm s field wire) wire (applyPropertySet s field) := by
  unfold propertySetArm
  split
  · exact applies_string fun _ => rfl
  · exact applies_message decodePropertyValue_eq fun _ => rfl
  · apply applies_skip
    rintro v rfl
    unfold applyPropertySet
    split
    all_goals first
      | rfl
      | simp_all [WireValue.wire]

theorem decodePropertySet_eq (bytes : List UInt8) :
    decodePropertySet bytes = (takePropertySet bytes).mapError .err := by
  unfold decodePropertySet takePropertySet
  rw [decodeWith_refines propertySetArm_applies]
  rcases takeFields applyPropertySet ([], []) bytes with e | s
  · rfl
  · rfl

theorem metricArm_applies (m : Metric) (field wire : ℕ) :
    Applies (metricArm m field wire) wire (applyMetric m field) := by
  unfold metricArm
  split
  · exact applies_string fun _ => rfl
  · exact applies_number fun _ => rfl
  · exact applies_number fun _ => rfl
  · exact applies_number fun _ => rfl
  · exact applies_message decodePropertySet_eq fun _ => rfl
  · exact applies_number fun _ => rfl
  · exact applies_number fun _ => rfl
  · exact applies_fixed32 fun _ => rfl
  · exact applies_number fun _ => rfl
  · exact applies_string fun _ => rfl
  · apply applies_skip
    rintro v rfl
    unfold applyMetric
    split
    all_goals first
      | rfl
      | simp_all [WireValue.wire]

theorem decodeMetric_eq (bytes : List UInt8) :
    decodeMetric bytes = (takeMetric bytes).mapError .err :=
  decodeWith_refines metricArm_applies _ bytes

theorem payloadArm_applies (p : Payload) (field wire : ℕ) :
    Applies (payloadArm p field wire) wire (applyPayload p field) := by
  unfold payloadArm
  split
  · exact applies_number fun _ => rfl
  · exact applies_message decodeMetric_eq fun _ => rfl
  · exact applies_number fun _ => rfl
  · apply applies_skip
    rintro v rfl
    unfold applyPayload
    split
    all_goals first
      | rfl
      | simp_all [WireValue.wire]

/-- **Decoding ends with a payload or an error**: what the fold gives. -/
theorem decode_eq (bytes : List UInt8) :
    Payload.decode bytes = (takePayload bytes).mapError .err :=
  decodeWith_refines payloadArm_applies _ bytes

/-! ## Well-formed fields -/

/-- Bytes that spell a number of at most ten groups. -/
structure IsNumber (bs : List UInt8) (v : BitVec 64) : Prop where
  form : IsVarint bs
  short : bs.length ≤ 10
  value : v = BitVec.ofNat 64 (varintValue bs)

/-- The bytes of some contents. -/
inductive IsContents : WireValue → List UInt8 → Prop
  | varint {bs : List UInt8} {v : BitVec 64} (h : IsNumber bs v) : IsContents (.varint v) bs
  | fixed64 {bs : List UInt8} (h : bs.length = 8) : IsContents .fixed64 bs
  | bytes {bs len : List UInt8} {n : BitVec 64} (h : IsNumber len n) (hn : n.toNat = bs.length) :
      IsContents (.bytes bs) (len ++ bs)
  | fixed32 {bs : List UInt8} (h : bs.length = 4) :
      IsContents (.fixed32 (BitVec.ofNat 32 (ofLeBytes bs))) bs

/-- A field number, its contents, and the bytes of the two. -/
inductive IsField (field : ℕ) (v : WireValue) : List UInt8 → Prop
  | mk {key contents : List UInt8} {k : BitVec 64} (hkey : IsNumber key k)
      (hfield : k.toNat / 8 % 2 ^ 32 = field) (hwire : k.toNat % 8 = v.wire)
      (hcontents : IsContents v contents) : IsField field v (key ++ contents)

theorem and_low (b : UInt8) : (b &&& 0x7f).toNat = b.toNat % 128 := by
  rw [UInt8.toNat_and]
  exact Nat.and_two_pow_sub_one_eq_mod b.toNat 7

theorem and_high_eq_zero (b : UInt8) : b &&& 0x80 = 0 ↔ b.toNat < 128 := by
  have hbit : ∀ i : Fin 256, i.val &&& 128 = 0 ↔ i.val < 128 := by decide +kernel
  rw [← UInt8.toNat_inj, UInt8.toNat_and]
  exact hbit ⟨b.toNat, b.toNat_lt⟩

/-- One group more. -/
theorem or_group {result : BitVec 64} {b : UInt8} {shift : ℕ} (h : result.toNat < 128 ^ shift) :
    result ||| ((b &&& 0x7f).toBitVec.setWidth 64 <<< (shift * 7)) =
      BitVec.ofNat 64 (result.toNat + b.toNat % 128 * 128 ^ shift) := by
  have hpow : 128 ^ shift = 2 ^ (shift * 7) := by
    rw [Nat.mul_comm, pow_mul]
    norm_num
  have hbits : ((b &&& 0x7f).toBitVec.setWidth 64).toNat = b.toNat % 128 := by
    rw [BitVec.toNat_setWidth, UInt8.toNat_toBitVec, and_low]
    omega
  rw [hpow] at h ⊢
  apply BitVec.eq_of_toNat_eq
  rw [BitVec.toNat_or, BitVec.toNat_shiftLeft, hbits, BitVec.toNat_ofNat]
  -- The group lies above every bit so far.
  have hsum : result.toNat + b.toNat % 128 * 2 ^ (shift * 7) =
      result.toNat ||| (b.toNat % 128) <<< (shift * 7) := by
    rw [Nat.or_comm, ← Nat.shiftLeft_add_eq_or_of_lt h, Nat.shiftLeft_eq, Nat.add_comm]
  rw [hsum, Nat.or_mod_two_pow, Nat.mod_eq_of_lt result.isLt]

theorem takeGroups_number {bs : List UInt8} (h : IsVarint bs) (n shift : ℕ) (result : BitVec 64)
    (hn : bs.length ≤ n) (hshift : shift + n = 10) (hresult : result.toNat < 128 ^ shift)
    (rest : List UInt8) : takeGroups n shift result (bs ++ rest) =
      .ok (BitVec.ofNat 64 (result.toNat + 128 ^ shift * varintValue bs), rest) := by
  induction h generalizing n shift result with
  | @last b hb =>
      rcases n with _ | n
      · cases hn
      · show (if b &&& 0x80 = 0 then _ else _ : Take (BitVec 64)) rest = _
        rw [if_pos ((and_high_eq_zero b).mpr hb), or_group hresult]
        rw [varintValue, varintValue, Nat.mul_zero, Nat.add_zero, Nat.mul_comm]
        rfl
  | @more b bs hb hbs ih =>
      rcases n with _ | n
      · cases hn
      · rw [List.length_cons] at hn
        have hpos := List.length_pos_of_ne_nil hbs.ne_nil
        have hsmall : shift + 1 ≤ 9 := by omega
        have hpow : 128 ^ (shift + 1) ≤ 128 ^ 9 := Nat.pow_le_pow_right (by decide) hsmall
        have hstep : result.toNat + b.toNat % 128 * 128 ^ shift < 128 ^ (shift + 1) := by
          have hgroup : b.toNat % 128 + 1 ≤ 128 := Nat.mod_lt _ (by decide)
          have hmul := Nat.mul_le_mul_right (128 ^ shift) hgroup
          rw [pow_succ]
          rw [Nat.add_mul, Nat.one_mul] at hmul
          omega
        show (if b &&& 0x80 = 0 then _ else _ : Take (BitVec 64)) (bs ++ rest) = _
        rw [if_neg (by rw [and_high_eq_zero]; omega), or_group hresult]
        have hvalue : (BitVec.ofNat 64 (result.toNat + b.toNat % 128 * 128 ^ shift)).toNat =
            result.toNat + b.toNat % 128 * 128 ^ shift := by
          rw [BitVec.toNat_ofNat]
          exact Nat.mod_eq_of_lt (by omega)
        rw [ih n (shift + 1) _ (by omega) (by omega) (by rw [hvalue]; exact hstep), hvalue, varintValue]
        congr 3
        ring

theorem takeVarint_number {bs : List UInt8} {v : BitVec 64} (h : IsNumber bs v)
    (rest : List UInt8) : takeVarint (bs ++ rest) = .ok (v, rest) := by
  have htake := takeGroups_number h.form 10 0 0 h.short rfl (by decide) rest
  rw [h.value]
  simp only [BitVec.ofNat_eq_ofNat, BitVec.toNat_ofNat, Nat.zero_mod, pow_zero, one_mul,
    Nat.zero_add] at htake
  exact htake

theorem takeBytes_append {bs : List UInt8} {n : ℕ} (hn : n = bs.length) (message : String)
    (rest : List UInt8) : takeBytes n message (bs ++ rest) = .ok (bs, rest) := by
  subst hn
  unfold takeBytes
  rw [if_neg (by rw [List.length_append]; omega), List.take_left, List.drop_left]

theorem takeContents_contents {v : WireValue} {bs : List UInt8} (h : IsContents v bs)
    (rest : List UInt8) : takeContents v.wire (bs ++ rest) = .ok (v, rest) := by
  cases h with
  | varint h =>
      show (takeVarint _ >>= fun p => .ok (WireValue.varint p.1, p.2)) = _
      rw [takeVarint_number h]
      rfl
  | fixed64 h =>
      show (takeBytes 8 _ _ >>= fun p => .ok (WireValue.fixed64, p.2)) = _
      rw [takeBytes_append h.symm]
      rfl
  | @bytes bs len n h hn =>
      show ((takeVarint _ >>= fun p => takeBytes p.1.toNat _ p.2) >>= fun p =>
        .ok (WireValue.bytes p.1, p.2)) = _
      rw [List.append_assoc, takeVarint_number h]
      show (takeBytes n.toNat _ _ >>= _) = _
      rw [takeBytes_append hn]
      rfl
  | fixed32 h =>
      show ((takeBytes 4 _ _ >>= fun p => .ok (BitVec.ofNat 32 (ofLeBytes p.1), p.2)) >>= fun p =>
        .ok (WireValue.fixed32 p.1, p.2)) = _
      rw [takeBytes_append h.symm]
      rfl

theorem takeField_field {field : ℕ} {v : WireValue} {bs : List UInt8} (h : IsField field v bs)
    (rest : List UInt8) : takeField (bs ++ rest) = .ok ((field, v), rest) := by
  obtain ⟨hkey, rfl, hwire, hcontents⟩ := h
  rename_i key contents k
  have hnumber : ((k >>> 3).setWidth 32).toNat = k.toNat / 8 % 2 ^ 32 := by
    rw [BitVec.toNat_setWidth, BitVec.toNat_ushiftRight, Nat.shiftRight_eq_div_pow]
  have htype : ((k &&& 7).setWidth 32).toNat = v.wire := by
    rw [BitVec.toNat_setWidth, BitVec.toNat_and, ← hwire]
    have hlow : k.toNat &&& BitVec.toNat (7 : BitVec 64) = k.toNat % 8 := Nat.and_two_pow_sub_one_eq_mod k.toNat 3
    rw [hlow]
    omega
  show ((takeVarint _ >>= fun p => .ok ((((p.1 >>> 3).setWidth 32).toNat,
    ((p.1 &&& 7).setWidth 32).toNat), p.2)) >>= fun p => takeContents p.1.2 p.2 >>= fun q =>
      .ok ((p.1.1, q.1), q.2)) = _
  rw [List.append_assoc, takeVarint_number hkey]
  show (takeContents ((k &&& 7).setWidth 32).toNat _ >>= fun q =>
    .ok ((((k >>> 3).setWidth 32).toNat, q.1), q.2)) = _
  rw [htype, takeContents_contents hcontents, hnumber]
  rfl

/-- **A field at the front is applied first.** -/
theorem takeFields_field {σ : Type} {apply : Apply σ} {field : ℕ} {v : WireValue}
    {bs : List UInt8} (h : IsField field v bs) (s : σ) (rest : List UInt8) :
    takeFields apply s (bs ++ rest) =
      apply s field v >>= fun s' => takeFields apply s' rest := by
  have hne : bs ++ rest ≠ [] := by
    obtain ⟨hkey, -, -, -⟩ := h
    rw [List.append_assoc]
    exact List.append_ne_nil_of_left_ne_nil hkey.form.ne_nil _
  exact takeFields_ok hne (takeField_field h rest)

/-! ## Unknown fields -/

/-- The levels of a payload. -/
inductive Level where
  | payload
  | metric
  | propertySet
  | propertyValue
  deriving DecidableEq, Repr

namespace Level

/-- The field numbers and wire types that a decoder looks at. -/
def known : Level → List (ℕ × ℕ)
  | .payload => [(1, 0), (2, 2), (3, 0)]
  | .metric => [(1, 2), (2, 0), (3, 0), (4, 0), (9, 2), (10, 0), (11, 0), (12, 5), (14, 0), (15, 2)]
  | .propertySet => [(1, 2), (2, 2)]
  | .propertyValue => [(1, 0), (3, 0), (4, 0), (5, 5), (7, 0), (8, 2)]

/-- The level of the messages in a field. -/
def message : Level → ℕ → Option Level
  | .payload, 2 => some .metric
  | .metric, 9 => some .propertySet
  | .propertySet, 2 => some .propertyValue
  | _, _ => none

/-- What a decoder of the level builds. -/
abbrev State : Level → Type
  | .payload => Payload
  | .metric => Metric
  | .propertySet => List String × List (BitVec 32 × MetricValue)
  | .propertyValue => BitVec 32 × MetricValue

/-- The fields of the level. -/
def apply : (l : Level) → Apply l.State
  | .payload => applyPayload
  | .metric => applyMetric
  | .propertySet => applyPropertySet
  | .propertyValue => applyPropertyValue

end Level

/-- `Inserted l a b`: message `b` is `a` with fields that level `l` does not know between its fields,
and the like in the messages inside of it. -/
inductive Inserted : Level → List UInt8 → List UInt8 → Prop
  /-- The rest of a message, well formed or not. -/
  | same (l : Level) (a : List UInt8) : Inserted l a a
  /-- A field that the level does not know. -/
  | unknown {l : Level} {field : ℕ} {v : WireValue} {u a b : List UInt8} (hu : IsField field v u)
      (hunknown : (field, v.wire) ∉ l.known) (h : Inserted l a b) : Inserted l a (u ++ b)
  /-- A field that stays. -/
  | field {l : Level} {field : ℕ} {v : WireValue} {f a b : List UInt8} (hf : IsField field v f)
      (h : Inserted l a b) : Inserted l (f ++ a) (f ++ b)
  /-- A message with insertions. -/
  | message {l l' : Level} {field : ℕ} {c c' f f' a b : List UInt8}
      (hl : l.message field = some l') (hc : Inserted l' c c') (hf : IsField field (.bytes c) f)
      (hf' : IsField field (.bytes c') f') (h : Inserted l a b) : Inserted l (f ++ a) (f' ++ b)

/-- A field that a level does not know changes nothing. -/
theorem apply_unknown {l : Level} {field : ℕ} {v : WireValue} (h : (field, v.wire) ∉ l.known)
    (s : l.State) : l.apply s field v = .ok s := by
  cases l with
  | payload =>
      show applyPayload s field v = _
      unfold applyPayload
      split
      all_goals first
        | rfl
        | exact (h (by simp [Level.known, WireValue.wire])).elim
  | metric =>
      show applyMetric s field v = _
      unfold applyMetric
      split
      all_goals first
        | rfl
        | exact (h (by simp [Level.known, WireValue.wire])).elim
  | propertySet =>
      show applyPropertySet s field v = _
      unfold applyPropertySet
      split
      all_goals first
        | rfl
        | exact (h (by simp [Level.known, WireValue.wire])).elim
  | propertyValue =>
      show applyPropertyValue s field v = _
      unfold applyPropertyValue
      split
      all_goals first
        | rfl
        | exact (h (by simp [Level.known, WireValue.wire])).elim

/-- Messages that decode alike are applied alike. -/
theorem apply_message {l l' : Level} {field : ℕ} {c c' : List UInt8}
    (hl : l.message field = some l')
    (h : ∀ s, takeFields l'.apply s c' = takeFields l'.apply s c) (s : l.State) :
    l.apply s field (.bytes c') = l.apply s field (.bytes c) := by
  unfold Level.message at hl
  split at hl
  · cases hl
    show (takeMetric c').map _ = (takeMetric c).map _
    rw [show takeMetric c' = takeMetric c from h _]
  · cases hl
    have hset : takePropertySet c' = takePropertySet c := by
      unfold takePropertySet
      rw [show takeFields applyPropertySet ([], []) c' = takeFields applyPropertySet ([], []) c from
        h _]
    show (takePropertySet c').map _ = (takePropertySet c).map _
    rw [hset]
  · cases hl
    show (takePropertyValue c').map _ = (takePropertyValue c).map _
    rw [show takePropertyValue c' = takePropertyValue c from h _]
  · cases hl

/-- **Fields that a level does not know change nothing**, wherever they stand. -/
theorem Inserted.takeFields {l : Level} {a b : List UInt8} (h : Inserted l a b) (s : l.State) :
    takeFields l.apply s b = takeFields l.apply s a := by
  induction h with
  | same l a => rfl
  | unknown hu hunknown _ ih =>
      rw [takeFields_field hu, apply_unknown hunknown]
      exact ih s
  | field hf _ ih =>
      rw [takeFields_field hf, takeFields_field hf]
      exact except_bind_congr fun s' _ => ih s'
  | message hl _ hf hf' _ ihc ih =>
      rw [takeFields_field hf', takeFields_field hf, apply_message hl ihc]
      exact except_bind_congr fun s' _ => ih s'

theorem decode_inserted {a b : List UInt8} (h : Inserted .payload a b) :
    Payload.decode b = Payload.decode a := by
  rw [decode_eq, decode_eq]
  have hsame : takePayload b = takePayload a := h.takeFields ⟨none, [], none⟩
  rw [hsame]

/-! ## What the encoders write -/

theorem low_group (v : BitVec 64) :
    (UInt8.ofBitVec ((v &&& 0x7f).setWidth 8)).toNat = v.toNat % 128 := by
  have hlow : v.toNat &&& BitVec.toNat (0x7f : BitVec 64) = v.toNat % 128 :=
    Nat.and_two_pow_sub_one_eq_mod v.toNat 7
  show ((v &&& 0x7f).setWidth 8).toNat = _
  rw [BitVec.toNat_setWidth, BitVec.toNat_and, hlow]
  omega

theorem or_high {b : UInt8} (h : b.toNat < 128) : (b ||| 0x80).toNat = b.toNat + 128 := by
  have hbit : ∀ i : Fin 128, i.val ||| 128 = i.val + 128 := by decide +kernel
  rw [UInt8.toNat_or]
  exact hbit ⟨b.toNat, h⟩

/-- The writer gives the shortest spelling. -/
theorem writeVarint_eq (v : BitVec 64) : writeVarint v = toVarint v.toNat := by
  induction v using writeVarint.induct with
  | case1 v h ih =>
      have hdiv : (v >>> 7).toNat = v.toNat / 128 := by
        rw [BitVec.toNat_ushiftRight, Nat.shiftRight_eq_div_pow]
      have hne : v.toNat / 128 ≠ 0 := fun hzero =>
        h (BitVec.eq_of_toNat_eq (by rw [hdiv, hzero]; rfl))
      have hgroup : (UInt8.ofBitVec ((v &&& 0x7f).setWidth 8) ||| 0x80).toNat = v.toNat % 128 + 128 := by
        rw [or_high (by rw [low_group]; omega), low_group]
      rw [writeVarint, dif_pos h, ih, hdiv, toVarint_large hne]
      congr 1
      apply UInt8.toNat_inj.mp
      rw [hgroup, UInt8.toNat_ofNat']
      omega
  | case2 v h =>
      have hdiv : v.toNat / 128 = 0 := by
        have hzero : v >>> 7 = 0 := by simpa using h
        have hnat := congrArg BitVec.toNat hzero
        rw [BitVec.toNat_ushiftRight, Nat.shiftRight_eq_div_pow] at hnat
        exact hnat
      rw [writeVarint, dif_neg h, toVarint_small hdiv]
      congr 1
      apply UInt8.toNat_inj.mp
      rw [low_group, UInt8.toNat_ofNat']
      omega

theorem writeVarint_number (v : BitVec 64) : IsNumber (writeVarint v) v where
  form := writeVarint_eq v ▸ toVarint_isVarint v.toNat
  short := by
    rw [writeVarint_eq]
    apply toVarint_length
    have hlt := v.isLt
    omega
  value := by
    rw [writeVarint_eq, varintValue_toVarint, BitVec.ofNat_toNat, BitVec.setWidth_eq]

/-- The key of a field whose number leaves room for the wire type. -/
theorem writeKey_number {field : BitVec 32} (wire : BitVec 32) (hfield : field.toNat < 2 ^ 29)
    (hwire : wire.toNat < 8) :
    ∃ k, IsNumber (writeKey field wire) k ∧ k.toNat / 8 % 2 ^ 32 = field.toNat ∧
      k.toNat % 8 = wire.toNat := by
  have hkey : ((field <<< 3 ||| wire).setWidth 64).toNat = field.toNat * 8 + wire.toNat := by
    have hshift : (field <<< 3).toNat = field.toNat <<< 3 := by
      rw [BitVec.toNat_shiftLeft, Nat.shiftLeft_eq]
      omega
    have hor : field.toNat <<< 3 ||| wire.toNat = field.toNat * 8 + wire.toNat := by
      rw [← Nat.shiftLeft_add_eq_or_of_lt hwire, Nat.shiftLeft_eq]
    rw [BitVec.toNat_setWidth, BitVec.toNat_or, hshift, hor]
    omega
  refine ⟨_, writeVarint_number _, ?_, ?_⟩
  · rw [hkey]
    omega
  · rw [hkey]
    omega

theorem writeNumber_field {field : BitVec 32} (hfield : field.toNat < 2 ^ 29) (v : BitVec 64) :
    IsField field.toNat (.varint v) (writeNumber field v) := by
  obtain ⟨k, hk, hnumber, hwire⟩ := writeKey_number wireVarint hfield (by decide)
  exact .mk hk hnumber hwire (.varint (writeVarint_number v))

theorem writeBytes_field {field : BitVec 32} {bs : List UInt8} (hfield : field.toNat < 2 ^ 29)
    (hlen : bs.length < 2 ^ 64) : IsField field.toNat (.bytes bs) (writeBytes field bs) := by
  obtain ⟨k, hk, hnumber, hwire⟩ := writeKey_number wireLen hfield (by decide)
  refine .mk hk hnumber hwire (.bytes (writeVarint_number _) ?_)
  rw [BitVec.toNat_ofNat]
  exact Nat.mod_eq_of_lt hlen

theorem writeFixed32_field {field : BitVec 32} (hfield : field.toNat < 2 ^ 29) (v : F32) :
    IsField field.toNat (.fixed32 v.bits) (writeFixed32 field v) := by
  obtain ⟨k, hk, hnumber, hwire⟩ := writeKey_number wire32 hfield (by decide)
  have hcontents := IsContents.fixed32 (leBytes_length 4 v.bits.toNat)
  rw [ofNat_ofLeBytes_leBytes (by decide)] at hcontents
  exact .mk hk hnumber hwire hcontents

/-! ## Round trip -/

section RoundTrip

variable {α σ : Type} {apply : Apply σ} {s : σ} {rest : List UInt8}

theorem takeFields_number {field : BitVec 32} {v : BitVec 64} (s' : σ)
    (hfield : field.toNat < 2 ^ 29) (h : apply s field.toNat (.varint v) = .ok s') :
    takeFields apply s (writeNumber field v ++ rest) = takeFields apply s' rest := by
  rw [takeFields_field (writeNumber_field hfield v), h]
  rfl

theorem takeFields_fixed32 {field : BitVec 32} {v : F32} {s' : σ}
    (hfield : field.toNat < 2 ^ 29) (h : apply s field.toNat (.fixed32 v.bits) = .ok s') :
    takeFields apply s (writeFixed32 field v ++ rest) = takeFields apply s' rest := by
  rw [takeFields_field (writeFixed32_field hfield v), h]
  rfl

theorem takeFields_bytes {field : BitVec 32} {bs : List UInt8} {s' : σ}
    (hfield : field.toNat < 2 ^ 29) (hlen : bs.length < 2 ^ 64)
    (h : apply s field.toNat (.bytes bs) = .ok s') :
    takeFields apply s (writeBytes field bs ++ rest) = takeFields apply s' rest := by
  rw [takeFields_field (writeBytes_field hfield hlen), h]
  rfl

theorem textOf_utf8 (t : String) : textOf (utf8 t) = .ok t := by
  unfold textOf
  rw [ofUtf8_utf8]

/-- Fields written one after another. -/
theorem takeFields_flatMap {write : α → List UInt8} {f : σ → α → σ} {xs : List α}
    (h : ∀ a ∈ xs, ∀ s rest, takeFields apply s (write a ++ rest) = takeFields apply (f s a) rest) :
    takeFields apply s (xs.flatMap write ++ rest) = takeFields apply (xs.foldl f s) rest := by
  induction xs generalizing s with
  | nil => rfl
  | cons a xs ih =>
      rw [List.flatMap_cons, List.append_assoc, h a List.mem_cons_self]
      exact ih fun b hb => h b (List.mem_cons_of_mem _ hb)

theorem length_le_flatMap {f : α → List UInt8} {xs : List α} {a : α} (h : a ∈ xs) :
    (f a).length ≤ (xs.flatMap f).length :=
  (List.sublist_flatten_of_mem (List.mem_map_of_mem h)).length_le

theorem length_le_writeBytes (field : BitVec 32) (bs : List UInt8) :
    bs.length ≤ (writeBytes field bs).length := by
  unfold writeBytes
  simp only [List.length_append]
  omega

/-- A value under its field number. -/
theorem takeFields_value {int long float bool string : BitVec 32} {v : MetricValue}
    (set : MetricValue → σ)
    (hfit : (writeValue int long float bool string v).length < 2 ^ 64)
    (hfields : int.toNat < 2 ^ 29 ∧ long.toNat < 2 ^ 29 ∧ float.toNat < 2 ^ 29 ∧
      bool.toNat < 2 ^ 29 ∧ string.toNat < 2 ^ 29)
    (hint : ∀ w, apply s int.toNat (.varint w) = .ok (set (.int (w.setWidth 32))))
    (hlong : ∀ w, apply s long.toNat (.varint w) = .ok (set (.long w)))
    (hfloat : ∀ w, apply s float.toNat (.fixed32 w) = .ok (set (.float ⟨w⟩)))
    (hbool : ∀ w, apply s bool.toNat (.varint w) = .ok (set (.bool (w != 0))))
    (hstring : ∀ bs, apply s string.toNat (.bytes bs) = (textOf bs).map fun t => set (.string t)) :
    takeFields apply s (writeValue int long float bool string v ++ rest) =
      takeFields apply (set v) rest := by
  cases v with
  | int v =>
      apply takeFields_number _ hfields.1
      rw [hint, BitVec.setWidth_setWidth_of_le _ (by decide), BitVec.setWidth_eq]
  | long v => exact takeFields_number _ hfields.2.1 (hlong v)
  | float v => exact takeFields_fixed32 hfields.2.2.1 (hfloat v.bits)
  | bool b =>
      apply takeFields_number _ hfields.2.2.2.1
      rw [hbool]
      cases b <;> rfl
  | string t =>
      refine takeFields_bytes hfields.2.2.2.2 ?_ ?_
      · exact (length_le_writeBytes _ _).trans_lt hfit
      · rw [hstring, textOf_utf8]
        rfl

end RoundTrip

theorem takePropertyValue_encode {p : Property} (hfit : (encodePropertyValue p).length < 2 ^ 64) :
    takePropertyValue (encodePropertyValue p) = .ok (p.datatype, p.value) := by
  unfold encodePropertyValue at hfit ⊢
  rw [List.length_append] at hfit
  unfold takePropertyValue
  rw [takeFields_number (p.datatype, .bool false) (by decide),
    ← List.append_nil (writeValue _ _ _ _ _ _)]
  · rw [takeFields_value (fun v => (p.datatype, v)) (by omega) (by decide) (fun _ => rfl)
      (fun _ => rfl) (fun _ => rfl) (fun _ => rfl) (fun _ => rfl), takeFields_nil]
  · show Except.ok _ = _
    rw [BitVec.setWidth_setWidth_of_le _ (by decide), BitVec.setWidth_eq]

theorem pairProperties_map (props : List Property) :
    pairProperties (props.map Property.key) (props.map fun p => (p.datatype, p.value)) = props := by
  induction props with
  | nil => rfl
  | cons p props ih =>
      rw [List.map_cons, List.map_cons, pairProperties, ih]

theorem foldl_keys (props : List Property) (s : List String × List (BitVec 32 × MetricValue)) :
    props.foldl (fun s p => (s.1 ++ [p.key], s.2)) s = (s.1 ++ props.map Property.key, s.2) := by
  induction props generalizing s with
  | nil => rw [List.foldl_nil, List.map_nil, List.append_nil]
  | cons p props ih => rw [List.foldl_cons, ih, List.map_cons, List.append_assoc, List.singleton_append]

theorem foldl_values (props : List Property) (s : List String × List (BitVec 32 × MetricValue)) :
    props.foldl (fun s p => (s.1, s.2 ++ [(p.datatype, p.value)])) s =
      (s.1, s.2 ++ props.map fun p => (p.datatype, p.value)) := by
  induction props generalizing s with
  | nil => rw [List.foldl_nil, List.map_nil, List.append_nil]
  | cons p props ih => rw [List.foldl_cons, ih, List.map_cons, List.append_assoc, List.singleton_append]

theorem takePropertySet_encode {props : List Property}
    (hfit : (encodePropertySet props).length < 2 ^ 64) :
    takePropertySet (encodePropertySet props) = .ok props := by
  unfold encodePropertySet at hfit
  rw [List.length_append] at hfit
  unfold takePropertySet encodePropertySet
  rw [takeFields_flatMap (f := fun s p => (s.1 ++ [p.key], s.2)), foldl_keys,
    ← List.append_nil (props.flatMap _),
    takeFields_flatMap (f := fun s p => (s.1, s.2 ++ [(p.datatype, p.value)])), foldl_values,
    takeFields_nil]
  · show Except.ok (pairProperties ([] ++ props.map Property.key) ([] ++ _)) = _
    rw [List.nil_append, List.nil_append, pairProperties_map]
  · intro p hp s rest
    have hlen := (length_le_writeBytes 2 (encodePropertyValue p)).trans
      (length_le_flatMap (f := fun p => writeBytes 2 (encodePropertyValue p)) hp)
    refine takeFields_bytes (by decide) (by omega) ?_
    show (takePropertyValue _).map _ = _
    rw [takePropertyValue_encode (by omega)]
    rfl
  · intro p hp s rest
    have hlen := (length_le_writeBytes 1 (utf8 p.key)).trans
      (length_le_flatMap (f := fun p => writeString 1 p.key) hp)
    refine takeFields_bytes (by decide) (by omega) ?_
    show (textOf _).map _ = _
    rw [textOf_utf8]
    rfl

/-- An optional field. -/
theorem takeFields_option {α σ : Type} {apply : Apply σ} {write : α → List UInt8} {o : Option α}
    {s : σ} {rest : List UInt8} (set : Option α → σ) (hnone : set none = s)
    (hsome : ∀ a, o = some a →
      takeFields apply s (write a ++ rest) = takeFields apply (set (some a)) rest) :
    takeFields apply s (writeOption write o ++ rest) = takeFields apply (set o) rest := by
  cases o with
  | none =>
      rw [hnone]
      rfl
  | some a => exact hsome a rfl

theorem takeMetric_encode {m : Metric} (hfit : (encodeMetric m).length < 2 ^ 64) :
    takeMetric (encodeMetric m) = .ok m := by
  rcases m with ⟨name, aliasId, timestamp, datatype, properties, value⟩
  unfold encodeMetric at hfit
  simp only [List.length_append] at hfit
  unfold takeMetric encodeMetric
  have hname : ∀ rest, takeFields applyMetric (.new 0) (writeOption (writeString 1) name ++ rest) =
      takeFields applyMetric ⟨name, none, none, 0, [], none⟩ rest := by
    intro rest
    refine takeFields_option (fun name => Metric.mk name none none 0 [] none) rfl ?_
    rintro t rfl
    have hlen := length_le_writeBytes 1 (utf8 t)
    change (writeBytes 1 (utf8 t)).length + _ < _ at hfit
    refine takeFields_bytes (by decide) (by omega) ?_
    show (textOf _).map _ = _
    rw [textOf_utf8]
    rfl
  have halias : ∀ rest, takeFields applyMetric ⟨name, none, none, 0, [], none⟩
      (writeOption (writeNumber 2) aliasId ++ rest) =
      takeFields applyMetric ⟨name, aliasId, none, 0, [], none⟩ rest := fun rest =>
    takeFields_option (fun aliasId => Metric.mk name aliasId none 0 [] none) rfl fun _ _ =>
      takeFields_number _ (by decide) rfl
  have htimestamp : ∀ rest, takeFields applyMetric ⟨name, aliasId, none, 0, [], none⟩
      (writeOption (writeNumber 3) timestamp ++ rest) =
      takeFields applyMetric ⟨name, aliasId, timestamp, 0, [], none⟩ rest := fun rest =>
    takeFields_option (fun timestamp => Metric.mk name aliasId timestamp 0 [] none) rfl fun _ _ =>
      takeFields_number _ (by decide) rfl
  have hdatatype : ∀ rest, takeFields applyMetric ⟨name, aliasId, timestamp, 0, [], none⟩
      (writeNumber 4 (datatype.setWidth 64) ++ rest) =
      takeFields applyMetric ⟨name, aliasId, timestamp, datatype, [], none⟩ rest := by
    intro rest
    apply takeFields_number _ (by decide)
    show Except.ok _ = _
    rw [BitVec.setWidth_setWidth_of_le _ (by decide), BitVec.setWidth_eq]
  have hproperties : ∀ rest, takeFields applyMetric ⟨name, aliasId, timestamp, datatype, [], none⟩
      ((if properties.isEmpty then [] else writeBytes 9 (encodePropertySet properties)) ++ rest) =
      takeFields applyMetric ⟨name, aliasId, timestamp, datatype, properties, none⟩ rest := by
    intro rest
    rcases properties with _ | ⟨p, properties⟩
    · rfl
    · have hlen := length_le_writeBytes 9 (encodePropertySet (p :: properties))
      simp only [List.isEmpty_cons, Bool.false_eq_true, if_false] at hfit
      refine takeFields_bytes (by decide) (by omega) ?_
      show (takePropertySet _).map _ = _
      rw [takePropertySet_encode (by omega)]
      rfl
  have hvalue : takeFields applyMetric ⟨name, aliasId, timestamp, datatype, properties, none⟩
      (writeOption writeMetricValue value ++ []) =
      takeFields applyMetric ⟨name, aliasId, timestamp, datatype, properties, value⟩ [] := by
    refine takeFields_option (fun v => Metric.mk name aliasId timestamp datatype properties v) rfl ?_
    rintro v rfl
    show takeFields applyMetric _ (writeValue 10 11 12 14 15 v ++ []) = _
    refine takeFields_value
      (fun v => Metric.mk name aliasId timestamp datatype properties (some v)) ?_ (by decide)
      (fun _ => rfl) (fun _ => rfl) (fun _ => rfl) (fun _ => rfl) (fun _ => rfl)
    change _ + (_ + (_ + (_ + (_ + (writeValue 10 11 12 14 15 v).length)))) < _ at hfit
    omega
  rw [← List.append_nil (writeOption writeMetricValue value), hname, halias, htimestamp, hdatatype,
    hproperties, hvalue, takeFields_nil]

theorem foldl_metrics (metrics : List Metric) (p : Payload) :
    metrics.foldl (fun p m => { p with metrics := p.metrics ++ [m] }) p =
      { p with metrics := p.metrics ++ metrics } := by
  induction metrics generalizing p with
  | nil => rw [List.foldl_nil, List.append_nil]
  | cons m metrics ih => rw [List.foldl_cons, ih, List.append_assoc, List.singleton_append]

/-- **A payload comes back from its bytes.** The length of an encoding is a `usize`. -/
theorem decode_encode {p : Payload} (hfit : p.encode.length < 2 ^ 64) :
    Payload.decode p.encode = .ok p := by
  rw [decode_eq]
  rcases p with ⟨timestamp, metrics, seq⟩
  unfold Payload.encode at hfit ⊢
  simp only [List.length_append] at hfit
  have hmetrics : ∀ m ∈ metrics, ∀ p rest, takeFields applyPayload p
      (writeBytes 2 (encodeMetric m) ++ rest) =
      takeFields applyPayload { p with metrics := p.metrics ++ [m] } rest := by
    intro m hm p rest
    have hlen := (length_le_writeBytes 2 (encodeMetric m)).trans
      (length_le_flatMap (f := fun m => writeBytes 2 (encodeMetric m)) hm)
    refine takeFields_bytes (by decide) (by omega) ?_
    show (takeMetric _).map _ = _
    rw [takeMetric_encode (by omega)]
    rfl
  have htimestamp : ∀ rest, takeFields applyPayload ⟨none, [], none⟩
      (writeOption (writeNumber 1) timestamp ++ rest) =
      takeFields applyPayload ⟨timestamp, [], none⟩ rest := fun rest =>
    takeFields_option (fun timestamp => Payload.mk timestamp [] none) rfl fun _ _ =>
      takeFields_number _ (by decide) rfl
  have hseq : takeFields applyPayload ⟨timestamp, metrics, none⟩
      (writeOption (writeNumber 3) seq ++ []) =
      takeFields applyPayload ⟨timestamp, metrics, seq⟩ [] :=
    takeFields_option (fun seq => Payload.mk timestamp metrics seq) rfl fun _ _ =>
      takeFields_number _ (by decide) rfl
  unfold takePayload
  rw [← List.append_nil (writeOption (writeNumber 3) seq), htimestamp, takeFields_flatMap hmetrics,
    foldl_metrics, List.nil_append, hseq, takeFields_nil]
  rfl

/-- **Sparkplug payloads round-trip.** A payload comes back from its bytes; every byte string decodes
to a payload or an error; and fields that a decoder does not know change nothing wherever they
stand. -/
theorem payload_round_trip :
    (∀ p : Payload, p.encode.length < 2 ^ 64 → Payload.decode p.encode = .ok p) ∧
      (∀ bytes, (∃ p, Payload.decode bytes = .ok p) ∨
        ∃ e, Payload.decode bytes = .error (.err e)) ∧
      ∀ a b, Inserted .payload a b → Payload.decode b = Payload.decode a := by
  refine ⟨fun p hfit => decode_encode hfit, ?_, fun a b h => decode_inserted h⟩
  intro bytes
  rw [decode_eq]
  rcases takePayload bytes with e | p
  · exact .inr ⟨e, rfl⟩
  · exact .inl ⟨p, rfl⟩

/-- A rebirth command with a property. -/
def rebirthPayload : Payload where
  timestamp := some 1
  metrics :=
    [⟨some "Node Control/Rebirth", some 300, none, 11, [⟨"Quality", 3, .int 192⟩], some (.bool true)⟩]
  seq := some 0

/-- It comes back, also with a field in front that no decoder knows. -/
theorem rebirth_round_trip : Payload.decode rebirthPayload.encode = .ok rebirthPayload ∧
    Payload.decode (writeNumber 9 (2 ^ 63) ++ rebirthPayload.encode) = .ok rebirthPayload := by
  obtain ⟨htrip, -, hinserted⟩ := payload_round_trip
  have hback := htrip rebirthPayload (by decide +kernel)
  refine ⟨hback, ?_⟩
  rw [hinserted _ _ (.unknown (writeNumber_field (by decide) _) (by decide) (.same _ _))]
  exact hback

end SoftPlc.Telemetry
