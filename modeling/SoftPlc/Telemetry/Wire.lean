import SoftPlc.Telemetry.Protobuf
import SoftPlc.Lib.Varint
import SoftPlc.Lib.Bind

/-!
# The fields of a message

A message is a sequence of fields, and a decoder is a fold over them. `takeFields` is that fold, over
the bytes that are left and without a cursor. `Refines` connects it to `plc-telemetry/src/protobuf.rs`:
a decoder over a cursor gives what the fold gives, so that no slice is out of range and no loop runs
out of rounds (`decodeWith_refines`).
-/

namespace SoftPlc.Telemetry

open SoftPlc.Lib

/-! ## Programs over the bytes that are left -/

/-- Programs over the bytes that are left. -/
abbrev Take (α : Type) := StateT (List UInt8) (Except TelemetryError) α

/-- The contents of a field, by wire type. -/
inductive WireValue where
  /-- Wire type 0. -/
  | varint (v : BitVec 64)
  /-- Wire type 1. -/
  | fixed64
  /-- Wire type 2. -/
  | bytes (bs : List UInt8)
  /-- Wire type 5. -/
  | fixed32 (v : BitVec 32)
  deriving DecidableEq, Repr

/-- An error of the decoder. -/
def refuse {α : Type} (message : String) : Take α := throw (.protobuf message)

/-- One byte. -/
def takeByte : Take UInt8
  | [] => .error (.protobuf "truncated protobuf")
  | b :: rest => .ok (b, rest)

/-- `n` bytes. -/
def takeBytes (n : ℕ) (message : String) : Take (List UInt8) := fun rest =>
  if rest.length < n then .error (.protobuf message) else .ok (rest.take n, rest.drop n)

/-- The groups of a number from `shift` on, at most `n` of them. -/
def takeGroups : ℕ → ℕ → BitVec 64 → Take (BitVec 64)
  | 0, _, _ => refuse "varint overflow"
  | n + 1, shift, result => do
      let b ← takeByte
      let result := result ||| ((b &&& 0x7f).toBitVec.setWidth 64 <<< (shift * 7))
      if b &&& 0x80 = 0 then return result
      else takeGroups n (shift + 1) result

/-- A number. -/
def takeVarint : Take (BitVec 64) := takeGroups 10 0 0

/-- Bytes after their length. -/
def takeLenBytes : Take (List UInt8) := do
  let len ← takeVarint
  takeBytes len.toNat "truncated length-delimited"

/-- Four bytes as a number. -/
def takeFixed32 : Take (BitVec 32) := do
  let b ← takeBytes 4 "truncated fixed32"
  return BitVec.ofNat 32 (ofLeBytes b)

/-- Field number and wire type. -/
def takeKey : Take (ℕ × ℕ) := do
  let tag ← takeVarint
  return (((tag >>> 3).setWidth 32).toNat, ((tag &&& 7).setWidth 32).toNat)

/-- The contents of a field of a wire type. -/
def takeContents : ℕ → Take WireValue
  | 0 => do return .varint (← takeVarint)
  | 1 => do
      let _ ← takeBytes 8 "truncated fixed64"
      return .fixed64
  | 2 => do return .bytes (← takeLenBytes)
  | 5 => do return .fixed32 (← takeFixed32)
  | other => refuse ("unsupported wire type " ++ toString other)

theorem takeContents_varint :
    takeContents 0 = takeVarint >>= fun v => pure (WireValue.varint v) := rfl

theorem takeContents_fixed64 : takeContents 1 =
    takeBytes 8 "truncated fixed64" >>= fun _ => pure WireValue.fixed64 := rfl

theorem takeContents_bytes :
    takeContents 2 = takeLenBytes >>= fun bs => pure (WireValue.bytes bs) := rfl

theorem takeContents_fixed32 :
    takeContents 5 = takeFixed32 >>= fun v => pure (WireValue.fixed32 v) := rfl

/-! ## The two kinds of programs -/

/-- The bytes after a cursor. -/
structure Tracks (cur : Cursor) (rest : List UInt8) : Prop where
  inside : cur.pos ≤ cur.buf.length
  rest : cur.buf.drop cur.pos = rest

/-- A program over a cursor does what one over the bytes that are left does. -/
def Refines {α : Type} (c : Read α) (t : Take α) : Prop :=
  ∀ cur rest, Tracks cur rest → match t rest with
    | .ok (a, rest') => ∃ cur', c cur = .ok (a, cur') ∧ Tracks cur' rest'
    | .error e => c cur = .error (.err e)

theorem Tracks.length {cur : Cursor} {rest : List UInt8} (h : Tracks cur rest) :
    cur.remaining = rest.length := by
  rw [← h.rest, List.length_drop]
  rfl

namespace Refines

variable {α β : Type}

theorem pure (a : α) : Refines (Pure.pure a) (Pure.pure a) := fun cur _ h => ⟨cur, rfl, h⟩

theorem fail (message : String) : Refines (α := α) (Cursor.fail message) (refuse message) :=
  fun _ _ _ => rfl

theorem bind {c : Read α} {t : Take α} {f : α → Read β} {g : α → Take β} (h : Refines c t)
    (hf : ∀ a, Refines (f a) (g a)) : Refines (c >>= f) (t >>= g) := by
  intro cur rest htracks
  have hfirst := h cur rest htracks
  show match (t rest >>= fun p => g p.1 p.2) with | .ok (b, rest') => _ | .error e => _
  rcases ht : t rest with e | ⟨a, rest'⟩
  · rw [ht] at hfirst
    show (c cur >>= fun p => f p.1 p.2) = _
    rw [hfirst]
    rfl
  · rw [ht] at hfirst
    obtain ⟨cur', hc, htracks'⟩ := hfirst
    have hrun : (c >>= f) cur = f a cur' := by
      show (c cur >>= fun p => f p.1 p.2) = _
      rw [hc]
      rfl
    rw [hrun]
    exact hf a cur' rest' htracks'

/-- A result from elsewhere. -/
theorem lift {x : Except DecodeFault α} {y : Except TelemetryError α}
    (h : x = y.mapError .err) : Refines (StateT.lift x) (StateT.lift y) := by
  intro cur rest htracks
  rw [h]
  rcases y with e | a
  · rfl
  · exact ⟨cur, rfl, htracks⟩

end Refines

/-- A reader that starts with a look at the cursor. -/
theorem read_get_bind {α : Type} (f : Cursor → Read α) (cur : Cursor) :
    (get >>= f) cur = f cur cur := rfl

theorem slice_tracks {cur : Cursor} {rest : List UInt8} {n : ℕ} (h : Tracks cur rest)
    (hn : n ≤ rest.length) : ∃ cur', Cursor.slice n cur = .ok (rest.take n, cur') ∧
      Tracks cur' (rest.drop n) := by
  have hroom : cur.pos + n ≤ cur.buf.length := by
    have hlen := h.length
    have hin := h.inside
    unfold Cursor.remaining at hlen
    omega
  refine ⟨{ cur with pos := cur.pos + n }, ?_, hroom, ?_⟩
  · have hslice := slice?_add hroom
    rw [← h.rest]
    unfold Cursor.slice
    rw [read_get_bind, hslice]
    rfl
  · rw [← List.drop_drop, h.rest]

theorem readByte_refines : Refines Cursor.readByte takeByte := by
  intro cur rest h
  have hbyte : cur.buf[cur.pos]? = rest.head? := by
    rw [← h.rest, List.head?_drop]
  rcases rest with _ | ⟨b, rest⟩
  · unfold Cursor.readByte
    rw [read_get_bind, hbyte]
    rfl
  · refine ⟨{ cur with pos := cur.pos + 1 }, ?_, ?_, ?_⟩
    · unfold Cursor.readByte
      rw [read_get_bind, hbyte]
      rfl
    · have hlen := h.length
      unfold Cursor.remaining at hlen
      rw [List.length_cons] at hlen
      show cur.pos + 1 ≤ cur.buf.length
      omega
    · show cur.buf.drop (cur.pos + 1) = rest
      rw [← List.drop_drop, h.rest]
      rfl

theorem readGroups_refines (n shift : ℕ) (result : BitVec 64) :
    Refines (Cursor.readGroups n shift result) (takeGroups n shift result) := by
  induction n generalizing shift result with
  | zero => exact .fail _
  | succ n ih =>
      apply readByte_refines.bind
      intro b
      dsimp only
      split_ifs
      · exact .pure _
      · exact ih _ _

theorem readVarint_refines : Refines Cursor.readVarint takeVarint := readGroups_refines 10 0 0

theorem readKey_refines : Refines Cursor.readKey takeKey :=
  readVarint_refines.bind fun _ => .pure _

/-- A slice after its test. -/
theorem slice_refines (n : ℕ) (message : String) :
    Refines (do
      let cur ← get
      if cur.remaining < n then Cursor.fail message else Cursor.slice n) (takeBytes n message) := by
  intro cur rest h
  have hrun : (do
      let cur ← get
      if cur.remaining < n then Cursor.fail message else Cursor.slice n : Read (List UInt8)) cur =
      (if rest.length < n then Cursor.fail message else Cursor.slice n : Read (List UInt8)) cur := by
    rw [← h.length]
    rfl
  rw [hrun]
  unfold takeBytes
  by_cases hshort : rest.length < n
  · rw [if_pos hshort, if_pos hshort]
    rfl
  · rw [if_neg hshort, if_neg hshort]
    exact slice_tracks h (Nat.le_of_not_lt hshort)

theorem readLenBytes_refines : Refines Cursor.readLenBytes takeLenBytes :=
  readVarint_refines.bind fun len => slice_refines len.toNat _

theorem readFixed32_refines : Refines Cursor.readFixed32 takeFixed32 := by
  have hsame : Cursor.readFixed32 = (do
      let b ← (do
        let cur ← get
        if cur.remaining < 4 then Cursor.fail "truncated fixed32" else Cursor.slice 4)
      return BitVec.ofNat 32 (ofLeBytes b)) := by
    funext cur
    show (if cur.remaining < 4 then _ else _ : Read (BitVec 32)) cur = _
    by_cases hshort : cur.remaining < 4
    · rw [if_pos hshort]
      show _ = ((if cur.remaining < 4 then _ else _ : Read (List UInt8)) cur >>= _)
      rw [if_pos hshort]
      rfl
    · rw [if_neg hshort]
      show _ = ((if cur.remaining < 4 then _ else _ : Read (List UInt8)) cur >>= _)
      rw [if_neg hshort]
      rfl
  rw [hsame]
  exact (slice_refines 4 _).bind fun _ => .pure _

/-- The text of bytes. -/
def textOf (bytes : List UInt8) : Except TelemetryError String :=
  match ofUtf8 bytes with
  | some s => .ok s
  | none => .error (.protobuf "metric name is not utf-8")

theorem readString_refines :
    Refines Cursor.readString (takeLenBytes >>= fun bytes => StateT.lift (textOf bytes)) := by
  apply readLenBytes_refines.bind
  intro bytes
  unfold textOf
  rcases ofUtf8 bytes with _ | s
  · exact .fail _
  · exact .pure s

/-- A step over bytes after its test. -/
theorem advance_refines (n : ℕ) (message : String) :
    Refines (do
      let cur ← get
      if cur.remaining < n then Cursor.fail message
      else set { cur with pos := cur.pos + n }) (takeBytes n message >>= fun _ => pure ()) := by
  intro cur rest h
  have hrun : (do
      let cur ← get
      if cur.remaining < n then Cursor.fail message
      else set { cur with pos := cur.pos + n } : Read Unit) cur =
      (if rest.length < n then Cursor.fail message
        else set { cur with pos := cur.pos + n } : Read Unit) cur := by
    rw [← h.length]
    rfl
  have htake : (takeBytes n message >>= fun _ => (pure () : Take Unit)) rest =
      if rest.length < n then .error (.protobuf message) else .ok ((), rest.drop n) := by
    show (takeBytes n message rest >>= fun p => (pure () : Take Unit) p.2) = _
    unfold takeBytes
    split_ifs <;> rfl
  rw [hrun, htake]
  by_cases hshort : rest.length < n
  · rw [if_pos hshort, if_pos hshort]
    rfl
  · obtain ⟨cur', -, -⟩ := slice_tracks h (Nat.le_of_not_lt hshort)
    rw [if_neg hshort, if_neg hshort]
    refine ⟨{ cur with pos := cur.pos + n }, rfl, ?_, ?_⟩
    · have hlen := h.length
      have hin := h.inside
      unfold Cursor.remaining at hlen
      show cur.pos + n ≤ cur.buf.length
      omega
    · show cur.buf.drop (cur.pos + n) = _
      rw [← List.drop_drop, h.rest]

theorem skip_refines : (wire : ℕ) →
    Refines (Cursor.skip wire) (takeContents wire >>= fun _ => pure ())
  | 0 => by
      rw [takeContents_varint, bind_assoc]
      exact readVarint_refines.bind fun _ => .pure _
  | 1 => by
      rw [takeContents_fixed64, bind_assoc]
      exact advance_refines 8 _
  | 2 => by
      rw [takeContents_bytes, bind_assoc]
      exact readLenBytes_refines.bind fun _ => .pure _
  | 3 => Refines.bind (.fail _) fun _ => .pure _
  | 4 => Refines.bind (.fail _) fun _ => .pure _
  | 5 => by
      rw [takeContents_fixed32, bind_assoc]
      exact readFixed32_refines.bind fun _ => .pure _
  | _ + 6 => Refines.bind (.fail _) fun _ => .pure _

/-! ## Arms of the decoders -/

/-- The wire type of contents. -/
def WireValue.wire : WireValue → ℕ
  | .varint _ => 0
  | .fixed64 => 1
  | .bytes _ => 2
  | .fixed32 _ => 5

theorem takeContents_wire : {wire : ℕ} → {rest rest' : List UInt8} → {v : WireValue} →
    takeContents wire rest = .ok (v, rest') → v.wire = wire
  | 0, rest, _, _, h => by
      obtain ⟨p, -, hp⟩ := except_bind_ok.mp
        (show (takeVarint rest >>= fun p => .ok (WireValue.varint p.1, p.2)) = _ from h)
      cases hp
      rfl
  | 1, rest, _, _, h => by
      obtain ⟨p, -, hp⟩ := except_bind_ok.mp
        (show (takeBytes 8 _ rest >>= fun p => .ok (WireValue.fixed64, p.2)) = _ from h)
      cases hp
      rfl
  | 2, rest, _, _, h => by
      obtain ⟨p, -, hp⟩ := except_bind_ok.mp
        (show (takeLenBytes rest >>= fun p => .ok (WireValue.bytes p.1, p.2)) = _ from h)
      cases hp
      rfl
  | 3, _, _, _, h => by cases h
  | 4, _, _, _, h => by cases h
  | 5, rest, _, _, h => by
      obtain ⟨p, -, hp⟩ := except_bind_ok.mp
        (show (takeFixed32 rest >>= fun p => .ok (WireValue.fixed32 p.1, p.2)) = _ from h)
      cases hp
      rfl
  | _ + 6, _, _, _, h => by cases h

/-- What an arm does with the contents of its field. -/
abbrev Apply (σ : Type) := σ → ℕ → WireValue → Except TelemetryError σ

/-- An arm that reads the contents of its field and applies them. -/
abbrev Applies {σ : Type} (arm : Read σ) (wire : ℕ) (g : WireValue → Except TelemetryError σ) : Prop :=
  Refines arm (takeContents wire >>= fun v => StateT.lift (g v))

section Arms

variable {σ : Type} {s : σ} {g : WireValue → Except TelemetryError σ}

theorem applies_number {f : BitVec 64 → σ} (h : ∀ v, g (.varint v) = .ok (f v)) :
    Applies (do return f (← Cursor.readVarint)) 0 g := by
  rw [Applies, takeContents_varint, bind_assoc]
  apply readVarint_refines.bind
  intro v
  rw [pure_bind, h]
  exact .pure _

theorem applies_fixed32 {f : BitVec 32 → σ} (h : ∀ v, g (.fixed32 v) = .ok (f v)) :
    Applies (do return f (← Cursor.readFixed32)) 5 g := by
  rw [Applies, takeContents_fixed32, bind_assoc]
  apply readFixed32_refines.bind
  intro v
  rw [pure_bind, h]
  exact .pure _

theorem applies_string {f : String → σ}
    (h : ∀ bytes, g (.bytes bytes) = (textOf bytes).map f) :
    Applies (do return f (← Cursor.readString)) 2 g := by
  rw [Applies, takeContents_bytes, bind_assoc]
  have hstring := readString_refines.bind (f := fun t => pure (f t)) (g := fun t => pure (f t))
    fun _ => .pure _
  rw [bind_assoc] at hstring
  convert hstring using 3 with bytes
  rw [pure_bind, h]
  rcases textOf bytes with e | t
  · rfl
  · rfl

theorem applies_message {α : Type} {decode : List UInt8 → Except DecodeFault α}
    {take : List UInt8 → Except TelemetryError α} {f : α → σ}
    (hdecode : ∀ bytes, decode bytes = (take bytes).mapError .err)
    (h : ∀ bytes, g (.bytes bytes) = (take bytes).map f) :
    Applies (do
      let inner ← Cursor.readLenBytes
      let a ← decode inner
      return f a) 2 g := by
  rw [Applies, takeContents_bytes, bind_assoc]
  apply readLenBytes_refines.bind
  intro bytes
  rw [pure_bind, h]
  have hmap : (StateT.lift ((take bytes).map f) : Take σ) =
      StateT.lift (take bytes) >>= fun a => pure (f a) := by
    rcases take bytes with e | a
    · rfl
    · rfl
  rw [hmap]
  exact (Refines.lift (hdecode bytes)).bind fun a => .pure (f a)

/-- An arm that skips its field. -/
theorem applies_skip {wire : ℕ} (h : ∀ v : WireValue, v.wire = wire → g v = .ok s) :
    Applies (do
      Cursor.skip wire
      return s) wire g := by
  intro cur rest htracks
  have hskip := (skip_refines wire).bind (f := fun _ => pure s) (g := fun _ => pure s) fun _ =>
    .pure s
  rw [bind_assoc] at hskip
  have hrun := hskip cur rest htracks
  show match (takeContents wire rest >>= fun p => (StateT.lift (g p.1) : Take σ) p.2) with
    | .ok (b, rest') => _
    | .error e => _
  have hsame : (takeContents wire rest >>= fun p => (StateT.lift (g p.1) : Take σ) p.2) =
      takeContents wire rest >>= fun p => .ok (s, p.2) := by
    apply except_bind_congr
    rintro ⟨v, rest'⟩ hv
    show (g v).bind _ = _
    rw [h v (takeContents_wire hv)]
    rfl
  rw [hsame]
  exact hrun

end Arms

/-! ## Decoders -/

/-- A field. -/
def takeField : Take (ℕ × WireValue) := do
  let (field, wire) ← takeKey
  let v ← takeContents wire
  return (field, v)

theorem takeByte_rest {rest rest' : List UInt8} {b : UInt8} (h : takeByte rest = .ok (b, rest')) :
    rest'.length + 1 = rest.length := by
  rcases rest with _ | ⟨b', rest⟩
  · cases h
  · cases h
    rfl

theorem takeBytes_rest {n : ℕ} {message : String} {rest rest' bs : List UInt8}
    (h : takeBytes n message rest = .ok (bs, rest')) : rest'.length ≤ rest.length := by
  unfold takeBytes at h
  split_ifs at h
  cases h
  rw [List.length_drop]
  exact Nat.sub_le _ _

theorem takeGroups_rest {n shift : ℕ} {result v : BitVec 64} {rest rest' : List UInt8}
    (h : takeGroups n shift result rest = .ok (v, rest')) : rest'.length < rest.length := by
  induction n generalizing shift result rest with
  | zero => cases h
  | succ n ih =>
      obtain ⟨⟨b, rest₁⟩, hb, h⟩ := except_bind_ok.mp (show (takeByte rest >>= _) = _ from h)
      have hlen := takeByte_rest hb
      dsimp only at h
      split_ifs at h
      · cases h
        omega
      · have hrest := ih h
        omega

theorem takeContents_rest : {wire : ℕ} → {rest rest' : List UInt8} → {v : WireValue} →
    takeContents wire rest = .ok (v, rest') → rest'.length ≤ rest.length
  | 0, rest, _, _, h => by
      obtain ⟨p, hp, heq⟩ := except_bind_ok.mp (show (takeVarint rest >>= _) = _ from h)
      cases heq
      exact (takeGroups_rest hp).le
  | 1, rest, _, _, h => by
      obtain ⟨p, hp, heq⟩ := except_bind_ok.mp (show (takeBytes 8 _ rest >>= _) = _ from h)
      cases heq
      exact takeBytes_rest hp
  | 2, rest, _, _, h => by
      obtain ⟨p, hp, heq⟩ := except_bind_ok.mp (show (takeLenBytes rest >>= _) = _ from h)
      obtain ⟨q, hq, hbytes⟩ := except_bind_ok.mp (show (takeVarint rest >>= _) = _ from hp)
      cases heq
      exact (takeBytes_rest hbytes).trans (takeGroups_rest hq).le
  | 3, _, _, _, h => by cases h
  | 4, _, _, _, h => by cases h
  | 5, rest, _, _, h => by
      obtain ⟨p, hp, heq⟩ := except_bind_ok.mp (show (takeFixed32 rest >>= _) = _ from h)
      obtain ⟨q, hq, hword⟩ := except_bind_ok.mp (show (takeBytes 4 _ rest >>= _) = _ from hp)
      cases heq
      cases hword
      exact takeBytes_rest hq
  | _ + 6, _, _, _, h => by cases h

/-- **Every field takes bytes.** -/
theorem takeField_rest {rest rest' : List UInt8} {f : ℕ × WireValue}
    (h : takeField rest = .ok (f, rest')) : rest'.length < rest.length := by
  obtain ⟨⟨key, rest₁⟩, hkey, h⟩ := except_bind_ok.mp (show (takeKey rest >>= _) = _ from h)
  obtain ⟨⟨tag, rest₂⟩, htag, hpair⟩ := except_bind_ok.mp (show (takeVarint rest >>= _) = _ from hkey)
  obtain ⟨⟨v, rest₃⟩, hv, heq⟩ := except_bind_ok.mp (show (takeContents key.2 rest₁ >>= _) = _ from h)
  cases heq
  cases hpair
  exact (takeContents_rest hv).trans_lt (takeGroups_rest htag)

variable {σ : Type}

/-- A message as a fold over its fields. -/
def takeFields (apply : Apply σ) (s : σ) (rest : List UInt8) : Except TelemetryError σ :=
  if rest = [] then .ok s
  else
    match _h : takeField rest with
    | .error e => .error e
    | .ok (f, rest') =>
        match apply s f.1 f.2 with
        | .error e => .error e
        | .ok s' => takeFields apply s' rest'
termination_by rest.length
decreasing_by exact takeField_rest _h

theorem takeFields_nil (apply : Apply σ) (s : σ) : takeFields apply s [] = .ok s := by
  rw [takeFields, if_pos rfl]

theorem takeFields_ok {apply : Apply σ} {s : σ} {rest rest' : List UInt8} {f : ℕ × WireValue}
    (hne : rest ≠ []) (h : takeField rest = .ok (f, rest')) :
    takeFields apply s rest = apply s f.1 f.2 >>= fun s' => takeFields apply s' rest' := by
  rw [takeFields, if_neg hne]
  split
  · rename_i e he
    rw [h] at he
    cases he
  · rename_i f' rest'' he
    rw [h] at he
    cases he
    rcases apply s f.1 f.2 with e | s'
    · rfl
    · rfl

theorem takeFields_error {apply : Apply σ} {s : σ} {rest : List UInt8} {e : TelemetryError}
    (hne : rest ≠ []) (h : takeField rest = .error e) : takeFields apply s rest = .error e := by
  rw [takeFields, if_neg hne]
  split
  · rename_i e' he
    rw [h] at he
    cases he
    rfl
  · rename_i f' rest'' he
    rw [h] at he
    cases he

/-- One round takes a field and applies it. -/
theorem round_refines {arm : σ → ℕ → ℕ → Read σ} {apply : Apply σ}
    (harm : ∀ s field wire, Applies (arm s field wire) wire (apply s field)) (s : σ) :
    Refines (Cursor.readKey >>= fun key => arm s key.1 key.2)
      (takeField >>= fun f => StateT.lift (apply s f.1 f.2)) := by
  have hround := readKey_refines.bind (f := fun key => arm s key.1 key.2)
    fun key => harm s key.1 key.2
  unfold takeField
  simp only [bind_assoc, pure_bind]
  exact hround

/-- A loop whose arms apply the contents of their fields gives what the fold gives. -/
theorem decodeFields_refines {arm : σ → ℕ → ℕ → Read σ} {apply : Apply σ}
    (harm : ∀ s field wire, Applies (arm s field wire) wire (apply s field)) {n : ℕ} {s : σ}
    {cur : Cursor} {rest : List UInt8} (htracks : Tracks cur rest) (hn : rest.length < n) :
    match takeFields apply s rest with
    | .ok s' => ∃ cur', decodeFields arm n s cur = .ok (s', cur')
    | .error e => decodeFields arm n s cur = .error (.err e) := by
  induction n generalizing s cur rest with
  | zero => cases hn
  | succ n ih =>
      have hif : decodeFields arm (n + 1) s cur = (if rest.length > 0 then
          Cursor.readKey >>= fun key => arm s key.1 key.2 >>= decodeFields arm n
          else pure s : Read σ) cur := by
        rw [← htracks.length]
        rfl
      by_cases hne : rest = []
      · rw [hif, hne, takeFields_nil]
        exact ⟨cur, rfl⟩
      · have hrun : decodeFields arm (n + 1) s cur =
            ((Cursor.readKey >>= fun key => arm s key.1 key.2) cur >>= fun p =>
              decodeFields arm n p.1 p.2) := by
          rw [hif, if_pos (List.length_pos_of_ne_nil hne), ← bind_assoc]
          rfl
        rw [hrun]
        have hround := round_refines harm s cur rest htracks
        have htaken : (takeField >>= fun f => (StateT.lift (apply s f.1 f.2) : Take σ)) rest =
            takeField rest >>= fun p => (apply s p.1.1 p.1.2 >>= fun s' => .ok (s', p.2)) := rfl
        rw [htaken] at hround
        generalize (Cursor.readKey >>= fun key => arm s key.1 key.2) cur = out at hround ⊢
        rcases htake : takeField rest with e | ⟨f, rest'⟩
        · rw [htake] at hround
          rw [takeFields_error hne htake, show _ = _ from hround]
          rfl
        · have hshort := takeField_rest htake
          rw [htake] at hround
          dsimp only [Bind.bind, Except.bind] at hround
          rw [takeFields_ok hne htake]
          rcases happly : apply s f.1 f.2 with e | s'
          · rw [happly] at hround
            rw [show _ = _ from hround]
            rfl
          · rw [happly] at hround
            obtain ⟨cur', hcur, htracks'⟩ := hround
            rw [hcur]
            exact ih htracks' (by omega)

/-- **A decoder over a cursor gives what the fold gives**: no slice is out of range, and no loop runs
out of rounds. -/
theorem decodeWith_refines {arm : σ → ℕ → ℕ → Read σ} {apply : Apply σ}
    (harm : ∀ s field wire, Applies (arm s field wire) wire (apply s field)) (s : σ)
    (bytes : List UInt8) :
    decodeWith arm s bytes = (takeFields apply s bytes).mapError .err := by
  have htracks : Tracks (Cursor.new bytes) bytes := ⟨Nat.zero_le _, rfl⟩
  have hloop := decodeFields_refines harm (s := s) htracks (Nat.lt_succ_self bytes.length)
  have hrun : decodeWith arm s bytes =
      (decodeFields arm (bytes.length + 1) s (Cursor.new bytes)).map Prod.fst := by
    show Prod.fst <$> _ = _
    rfl
  rw [hrun]
  rcases htake : takeFields apply s bytes with e | s'
  · rw [htake] at hloop
    dsimp only at hloop
    rw [hloop]
    rfl
  · rw [htake] at hloop
    obtain ⟨cur', hcur⟩ := hloop
    rw [hcur]
    rfl

end SoftPlc.Telemetry
