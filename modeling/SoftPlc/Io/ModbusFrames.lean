import SoftPlc.Io.ModbusCodec

/-!
# What a request takes from the stream

Each operation of a session takes a piece of the stream of its connection, and the piece is known from
its result: a whole frame, with the id that was asked for or with another one, or at most a part of one.
-/

namespace SoftPlc.Io.Modbus

open SoftPlc.Lib

/-! ## Pieces of the stream -/

/-- A frame of the wire. -/
structure Adu where
  tid : BitVec 16
  proto : BitVec 16
  len : BitVec 16
  unit : Byte
  pdu : List Byte

namespace Adu

/-- The frame as it is sent. -/
def bytes (a : Adu) : List Byte := be16 a.tid ++ be16 a.proto ++ be16 a.len ++ a.unit :: a.pdu

/-- Protocol id and length are those of Modbus. -/
structure Framed (a : Adu) : Prop where
  proto : a.proto = 0
  len : a.len.toNat = a.pdu.length + 1
  size : 1 ≤ a.pdu.length ∧ a.pdu.length ≤ 253

end Adu

/-- No more than one frame: a head that is cut off, or no more than the head announces. -/
def AtMostOne (bytes : List Byte) : Prop :=
  bytes.length ≤ 6 ∨ ∃ tid proto len rest, bytes = be16 tid ++ be16 proto ++ be16 len ++ rest ∧
    rest.length ≤ len.toNat

/-- An event of a connection that is not a failure. -/
def WireEvent.Of (conn : ℕ) : WireEvent → Prop
  | .sent c _ | .received c _ => c = conn
  | .failed _ => False

/-- The bytes that an event took from the stream. -/
def WireEvent.taken : WireEvent → List Byte
  | .received _ bytes => bytes
  | .sent _ _ | .failed _ => []

/-- From one link to another the bytes were taken, and nothing else. -/
structure Link.Took (s t : Link) (bytes : List Byte) : Prop where
  conn : t.conn.id = s.conn.id
  stream : bytesOf s.conn.incoming = bytes ++ bytesOf t.conn.incoming
  log : ∃ new, t.log = s.log ++ new ∧ (∀ e ∈ new, e.Of s.conn.id) ∧ new.flatMap WireEvent.taken = bytes

theorem Link.Took.refl (s : Link) : s.Took s [] := ⟨rfl, rfl, [], (List.append_nil _).symm, by simp, rfl⟩

theorem Link.Took.trans {s t u : Link} {bytes bytes' : List Byte} (h : s.Took t bytes)
    (h' : t.Took u bytes') : s.Took u (bytes ++ bytes') := by
  obtain ⟨new, hlog, hof, htaken⟩ := h.log
  obtain ⟨new', hlog', hof', htaken'⟩ := h'.log
  refine ⟨h'.conn.trans h.conn, ?_, new ++ new', ?_, ?_, ?_⟩
  · rw [h.stream, h'.stream, List.append_assoc]
  · rw [hlog', hlog, List.append_assoc]
  · intro e he
    rcases List.mem_append.mp he with he | he
    · exact hof e he
    · rw [← h.conn]
      exact hof' e he
  · rw [List.flatMap_append, htaken, htaken']

/-! ## The socket -/

/-- A read takes what it returns, and all of it if it does not fail. -/
theorem readExact_spec (n : ℕ) (segments : List Segment) :
    bytesOf segments = (readExact n segments).1.1 ++ bytesOf (readExact n segments).2 ∧
      (readExact n segments).1.1.length ≤ n ∧
      ((readExact n segments).1.2 = none → (readExact n segments).1.1.length = n) := by
  induction n, segments using readExact.induct with
  | case1 segments => simp [readExact]
  | case2 n => simp [readExact, bytesOf]
  | case3 n e segments => simp [readExact, bytesOf]
  | case4 n segments => simp [readExact, bytesOf]
  | case5 n b bytes segments hlt =>
      simp only [readExact, if_pos hlt, bytesOf, ← List.append_assoc, List.take_append_drop,
        List.length_take, List.length_cons, true_and]
      omega
  | case6 n b bytes segments hlt more e rest hrec ih =>
      obtain ⟨hstream, hle, hfull⟩ := ih
      simp only [hrec] at hstream hle hfull
      simp only [readExact, if_neg hlt, hrec, bytesOf, List.length_append, List.length_cons]
      refine ⟨by rw [hstream, List.append_assoc], by omega, fun hnone => ?_⟩
      have hlen := hfull hnone
      omega

theorem recvExact_cases (n : ℕ) (s : Link) :
    (∃ bytes t, recvExact n s = .ok bytes t ∧ t.tid = s.tid ∧ s.Took t bytes ∧ bytes.length = n) ∨
      ∃ text bytes t, recvExact n s = .error (.fail (.other text)) t ∧ t.tid = s.tid ∧
        s.Took t bytes ∧ bytes.length ≤ n := by
  obtain ⟨hstream, hle, hfull⟩ := readExact_spec n s.conn.incoming
  unfold recvExact
  rcases hread : readExact n s.conn.incoming with ⟨⟨bytes, e⟩, incoming⟩
  rw [hread] at hstream hle hfull
  have htook : s.Took ⟨{ s.conn with incoming }, s.tid, s.log ++ [.received s.conn.id bytes]⟩ bytes :=
    ⟨rfl, hstream, _, rfl, by simp [WireEvent.Of], by simp [WireEvent.taken]⟩
  cases e with
  | none => exact .inl ⟨bytes, _, rfl, rfl, htook, hfull rfl⟩
  | some e => exact .inr ⟨e, bytes, _, rfl, rfl, htook, hle⟩

theorem send_cases (unit : Byte) (tid : BitVec 16) (pdu : List Byte) (s : Link) :
    (∃ t, send unit tid pdu s = .ok () t ∧ t.tid = s.tid ∧ s.Took t []) ∨
      ∃ text t, send unit tid pdu s = .error (.fail (.other text)) t ∧ t.tid = s.tid ∧ s.Took t [] := by
  have htook : ∀ new, (∀ e ∈ new, WireEvent.Of s.conn.id e) → new.flatMap WireEvent.taken = [] →
      s.Took ⟨{ s.conn with sends := s.conn.sends.tail }, s.tid, s.log ++ new⟩ [] :=
    fun new hof htaken => ⟨rfl, rfl, new, rfl, hof, htaken⟩
  unfold send sendAll
  dsimp only
  split
  · refine .inr ⟨_, _, rfl, rfl, ?_⟩
    simpa using htook [] (by simp) rfl
  · exact .inl ⟨_, rfl, rfl, htook _ (by simp [WireEvent.Of]) rfl⟩

/-! ## Frames -/

theorem getLsbD_ofBe16 (hi lo : Byte) (i : ℕ) :
    (ofBe16 hi lo).getLsbD i = if i < 8 then lo.getLsbD i else hi.getLsbD (i - 8) :=
  BitVec.getLsbD_append

theorem ofBe16_inj {hi lo : Byte} {x : BitVec 16} (h : ofBe16 hi lo = x) : be16 x = [hi, lo] := by
  subst h
  have hupper : (ofBe16 hi lo).extractLsb' 8 8 = hi := by
    apply BitVec.eq_of_getLsbD_eq
    intro i hlt
    rw [BitVec.getLsbD_extractLsb', getLsbD_ofBe16]
    simp [hlt]
  have hlower : (ofBe16 hi lo).setWidth 8 = lo := by
    apply BitVec.eq_of_getLsbD_eq
    intro i hlt
    rw [BitVec.getLsbD_setWidth, getLsbD_ofBe16]
    simp [hlt]
  rw [be16, hupper, hlower]

theorem byteAt_of_lt {bytes : List Byte} {i : ℕ} (h : i < bytes.length) (s : Link) :
    byteAt bytes i s = .ok bytes[i] s := by
  unfold byteAt
  rw [List.getElem?_eq_getElem h]
  rfl

theorem slice_of_le {bytes : List Byte} {i j : ℕ} (h : i ≤ j ∧ j ≤ bytes.length) (s : Link) :
    slice bytes i j s = .ok ((bytes.drop i).take (j - i)) s := by
  unfold slice
  rw [if_pos h]
  rfl

/-- A list of six. -/
theorem exists_six {bytes : List Byte} (h : bytes.length = 6) :
    ∃ t₁ t₀ p₁ p₀ l₁ l₀, bytes = [t₁, t₀, p₁, p₀, l₁, l₀] := by
  match bytes, h with
  | [t₁, t₀, p₁, p₀, l₁, l₀], _ => exact ⟨_, _, _, _, _, _, rfl⟩

/-- **What the receipt of a frame does.** -/
theorem recvTid_cases (unit : Byte) (expect : BitVec 16) (s : Link) :
    (∃ (a : Adu) (t : Link), recvTid unit expect s = .ok a.pdu t ∧ t.tid = s.tid ∧ s.Took t a.bytes ∧ a.Framed ∧
        a.tid = expect ∧ a.unit = unit) ∨
    (∃ (a : Adu) (t : Link), recvTid unit expect s = .error (.fail .mismatch) t ∧ t.tid = s.tid ∧
        s.Took t a.bytes ∧ a.Framed ∧ a.tid ≠ expect) ∨
      ∃ text bytes t, recvTid unit expect s = .error (.fail (.other text)) t ∧ t.tid = s.tid ∧
        s.Took t bytes ∧ AtMostOne bytes := by
  unfold recvTid
  rcases recvExact_cases 6 s with ⟨head, t, hhead, htid, htook, hlen⟩ | ⟨text, bytes, t, hhead, htid, htook, hle⟩
  · rw [estate_bind_of_ok hhead]
    obtain ⟨t₁, t₀, p₁, p₀, l₁, l₀, rfl⟩ := exists_six hlen
    have hsplit : [t₁, t₀, p₁, p₀, l₁, l₀] =
        be16 (ofBe16 t₁ t₀) ++ be16 (ofBe16 p₁ p₀) ++ be16 (ofBe16 l₁ l₀) := by
      rw [ofBe16_inj rfl, ofBe16_inj rfl, ofBe16_inj rfl]
      rfl
    dsimp only
    by_cases hproto : ofBe16 p₁ p₀ = 0
    · rw [if_neg (not_not.mpr hproto)]
      by_cases hsize : 2 ≤ (ofBe16 l₁ l₀).toNat ∧ (ofBe16 l₁ l₀).toNat ≤ 254
      · rw [if_neg (not_not.mpr hsize)]
        rcases recvExact_cases (ofBe16 l₁ l₀).toNat t with
          ⟨rest, u, hrest, htid', htook', hlen'⟩ | ⟨text, bytes, u, hrest, htid', htook', hle⟩
        · rw [estate_bind_of_ok hrest]
          obtain ⟨b, pdu, rfl⟩ := List.exists_cons_of_length_pos (l := rest) (by omega)
          rw [List.length_cons] at hlen'
          have hall := htook.trans htook'
          rw [hsplit] at hall
          have hframed : Adu.Framed ⟨ofBe16 t₁ t₀, ofBe16 p₁ p₀, ofBe16 l₁ l₀, b, pdu⟩ :=
            ⟨hproto, hlen'.symm, by dsimp only; omega⟩
          by_cases hid : ofBe16 t₁ t₀ = expect
          · rw [if_neg (not_not.mpr hid), estate_bind_of_ok (byteAt_of_lt (Nat.succ_pos _) u)]
            dsimp only [List.getElem_cons_zero]
            by_cases hunit : b = unit
            · rw [if_neg (not_not.mpr hunit)]
              refine .inl ⟨⟨ofBe16 t₁ t₀, ofBe16 p₁ p₀, ofBe16 l₁ l₀, b, pdu⟩, u, ?_,
                htid'.trans htid, hall, hframed, hid, hunit⟩
              rw [slice_of_le ⟨by simp, le_refl _⟩]
              simp
            · rw [if_pos hunit]
              refine .inr (.inr ⟨_, _, u, rfl, htid'.trans htid, hall, .inr ⟨_, _, _, _, rfl, ?_⟩⟩)
              rw [List.length_cons, hlen']
          · rw [if_pos hid]
            exact .inr (.inl ⟨⟨_, _, _, b, pdu⟩, u, rfl, htid'.trans htid, hall, hframed, hid⟩)
        · rw [estate_bind_of_error hrest]
          have hall := htook.trans htook'
          rw [hsplit] at hall
          exact .inr (.inr ⟨text, _, u, rfl, htid'.trans htid, hall, .inr ⟨_, _, _, _, rfl, hle⟩⟩)
      · rw [if_pos hsize]
        exact .inr (.inr ⟨_, _, t, rfl, htid, htook, .inl hlen.le⟩)
    · rw [if_pos hproto]
      exact .inr (.inr ⟨_, _, t, rfl, htid, htook, .inl hlen.le⟩)
  · rw [estate_bind_of_error hhead]
    exact .inr (.inr ⟨text, bytes, t, rfl, htid, htook, .inl hle⟩)

/-- What a request may pass over: nothing, or one frame with another id. -/
def Skipped (tid : BitVec 16) (bytes : List Byte) : Prop :=
  bytes = [] ∨ ∃ a : Adu, bytes = a.bytes ∧ a.Framed ∧ a.tid ≠ tid

/-- A whole frame is no more than one. -/
theorem Adu.Framed.atMostOne {a : Adu} (h : a.Framed) : AtMostOne a.bytes :=
  .inr ⟨a.tid, a.proto, a.len, a.unit :: a.pdu, rfl, by rw [List.length_cons, h.len]⟩

theorem recvRetry_cases (unit : Byte) (tid : BitVec 16) (s : Link) :
    (∃ (a : Adu) (skipped : List Byte) (t : Link), recvRetry unit tid s = .ok a.pdu t ∧ t.tid = s.tid ∧
        s.Took t (skipped ++ a.bytes) ∧ Skipped tid skipped ∧ a.Framed ∧ a.tid = tid ∧
        a.unit = unit) ∨
      ∃ f skipped last t, recvRetry unit tid s = .error (.fail f) t ∧ t.tid = s.tid ∧
        s.Took t (skipped ++ last) ∧ Skipped tid skipped ∧ AtMostOne last := by
  unfold recvRetry
  rcases recvTid_cases unit tid s with
    ⟨a, t, h, htid, htook, hframed, hid, hunit⟩ | ⟨a, t, h, htid, htook, hframed, hid⟩ |
      ⟨text, bytes, t, h, htid, htook, hone⟩
  · rw [h]
    exact .inl ⟨a, [], t, rfl, htid, htook, .inl rfl, hframed, hid, hunit⟩
  · rw [h]
    have hskipped : Skipped tid a.bytes := .inr ⟨a, rfl, hframed, hid⟩
    rcases recvTid_cases unit tid t with
      ⟨b, u, h', htid', htook', hframed', hid', hunit'⟩ | ⟨b, u, h', htid', htook', hframed', hid'⟩ |
        ⟨text, bytes, u, h', htid', htook', hone⟩
    · exact .inl ⟨b, a.bytes, u, h', htid'.trans htid, htook.trans htook', hskipped, hframed', hid',
        hunit'⟩
    · exact .inr ⟨.mismatch, a.bytes, b.bytes, u, h', htid'.trans htid, htook.trans htook', hskipped,
        hframed'.atMostOne⟩
    · exact .inr ⟨.other text, a.bytes, bytes, u, h', htid'.trans htid, htook.trans htook', hskipped,
        hone⟩
  · rw [h]
    exact .inr ⟨.other text, [], bytes, t, rfl, htid, htook, .inl rfl, hone⟩

/-! ## Requests -/

/-- The next id is taken before anything is sent. -/
theorem took_nextTid (s : Link) : s.Took { s with tid := s.tid + 1 } [] :=
  ⟨rfl, rfl, [], (List.append_nil _).symm, by simp, rfl⟩

/-- **What a transaction does.** -/
theorem transact_cases (unit : Byte) (request : List Byte) (s : Link) :
    (∃ (a : Adu) (skipped : List Byte) (t : Link), transact unit request s = .ok a.pdu t ∧
        t.tid = s.tid + 1 ∧ s.Took t (skipped ++ a.bytes) ∧ Skipped s.tid skipped ∧ a.Framed ∧
        a.tid = s.tid ∧ a.unit = unit ∧ a.pdu.head? = some (request.headD 0)) ∨
      ∃ f skipped last t, transact unit request s = .error (.fail f) t ∧ t.tid = s.tid + 1 ∧
        s.Took t (skipped ++ last) ∧ Skipped s.tid skipped ∧ AtMostOne last := by
  unfold transact
  have hnext : nextTid s = .ok s.tid { s with tid := s.tid + 1 } := rfl
  rw [estate_bind_of_ok hnext]
  have hnone : AtMostOne [] := .inl (Nat.zero_le _)
  rcases send_cases unit s.tid request { s with tid := s.tid + 1 } with
    ⟨t, hsend, htid, htook⟩ | ⟨text, t, hsend, htid, htook⟩
  · rw [estate_bind_of_ok hsend]
    have hsent := (took_nextTid s).trans htook
    rcases recvRetry_cases unit s.tid t with
      ⟨a, skipped, u, hrecv, htid', htook', hskipped, hframed, hid, hunit⟩ |
        ⟨f, skipped, last, u, hrecv, htid', htook', hskipped, hone⟩
    · rw [estate_bind_of_ok hrecv]
      have hall := hsent.trans htook'
      have hid' : u.tid = s.tid + 1 := htid'.trans htid
      cases hhead : a.pdu.head? with
      | none =>
          exact .inr ⟨_, skipped, a.bytes, u, rfl, hid', hall, hskipped, hframed.atMostOne⟩
      | some got =>
          dsimp only
          split_ifs with hexception hfc
          · exact .inr ⟨_, skipped, a.bytes, u, rfl, hid', hall, hskipped, hframed.atMostOne⟩
          · rw [← hfc]
            exact .inl ⟨a, skipped, u, rfl, hid', hall, hskipped, hframed, hid, hunit, hhead⟩
          · exact .inr ⟨_, skipped, a.bytes, u, rfl, hid', hall, hskipped, hframed.atMostOne⟩
    · rw [estate_bind_of_error hrecv]
      exact .inr ⟨f, skipped, last, u, rfl, htid'.trans htid, hsent.trans htook', hskipped, hone⟩
  · rw [estate_bind_of_error hsend]
    exact .inr ⟨_, [], [], t, rfl, htid, (took_nextTid s).trans htook, .inl rfl, hnone⟩

/-- A frame that answers a request: everything that tells requests apart is that of the request. -/
structure Adu.Answers (a : Adu) (unit : Byte) (tid : BitVec 16) (r : Request) : Prop where
  framed : a.Framed
  tid : a.tid = tid
  unit : a.unit = unit
  fc : a.pdu.head? = some r.fc

/-- What is returned is the content of a frame. -/
def Answer.From (r : Request) (pdu : List Byte) : Answer → Prop
  | .bits bytes => ∃ fc start qty, r = .readBits fc start qty ∧
      bytes.length = (qty.toNat + 7) / 8 ∧ ∃ count tail, pdu = fc :: count :: (bytes ++ tail)
  | .regs words => ∃ fc start qty, r = .readRegs fc start qty ∧ words.length = qty.toNat ∧
      ∃ count tail, pdu = fc :: count :: (words.flatMap be16 ++ tail)
  | .done => True

/-- What a request may do. -/
def Request.Checked (unit : Byte) (r : Request) (s : Link) (result : EStateM.Result Halt Link Answer) :
    Prop :=
  (∃ answer a skipped t, result = .ok answer t ∧ t.tid = s.tid + 1 ∧
      s.Took t (skipped ++ Adu.bytes a) ∧ Skipped s.tid skipped ∧ a.Answers unit s.tid r ∧
      answer.From r a.pdu) ∨
    ∃ f skipped last t, result = .error (.fail f) t ∧ t.tid = s.tid + 1 ∧
      s.Took t (skipped ++ last) ∧ Skipped s.tid skipped ∧ AtMostOne last

theorem map_of_ok {α β : Type} {f : α → β} {x : SessionM α} {s t : Link} {a : α} (h : x s = .ok a t) :
    (f <$> x) s = .ok (f a) t := by
  show EStateM.map f x s = _
  unfold EStateM.map
  rw [h]

theorem map_of_error {α β : Type} {f : α → β} {x : SessionM α} {s t : Link} {e : Halt}
    (h : x s = .error e t) : (f <$> x) s = .error e t := by
  show EStateM.map f x s = _
  unfold EStateM.map
  rw [h]

/-- The content of an answer after its two leading bytes. -/
theorem exists_count {pdu : List Byte} {fc : Byte} (hhead : pdu.head? = some fc)
    (hlen : 2 ≤ pdu.length) : ∃ count, pdu = fc :: count :: pdu.drop 2 := by
  match pdu, hlen with
  | b :: count :: rest, _ =>
      obtain rfl : b = fc := Option.some.inj hhead
      exact ⟨count, rfl⟩

theorem readBits_checked (unit fc : Byte) (start qty : BitVec 16) (s : Link) :
    Request.Checked unit (.readBits fc start qty) s ((Request.readBits fc start qty).run unit s) := by
  unfold Request.run
  rcases transact_cases unit (Session.readPdu fc start qty) s with
    ⟨a, skipped, t, h, htid, htook, hskipped, hframed, hid, hunit, hfc⟩ |
      ⟨f, skipped, last, t, h, htid, htook, hskipped, hone⟩
  · have hanswers : a.Answers unit s.tid (.readBits fc start qty) := ⟨hframed, hid, hunit, hfc⟩
    by_cases hshort : ((a.pdu[1]?).getD 0).toNat ≠ (qty.toNat + 7) / 8 ∨
        a.pdu.length < 2 + ((a.pdu[1]?).getD 0).toNat
    · refine .inr ⟨.other "short bit response", skipped, a.bytes, t, map_of_error ?_, htid, htook,
        hskipped, hframed.atMostOne⟩
      unfold Session.readBits
      rw [estate_bind_of_ok h, if_pos hshort]
      rfl
    · have hread : Session.readBits unit fc start qty s = slice a.pdu 2 (2 + ((a.pdu[1]?).getD 0).toNat) t := by
        unfold Session.readBits
        rw [estate_bind_of_ok h, if_neg hshort]
      rw [not_or, not_not, not_lt] at hshort
      obtain ⟨hcount, hlen⟩ := hshort
      rw [slice_of_le ⟨Nat.le_add_right _ _, hlen⟩, Nat.add_sub_cancel_left] at hread
      refine .inl ⟨_, a, skipped, t, map_of_ok hread, htid, htook, hskipped, hanswers, fc, start, qty,
        rfl, ?_, ?_⟩
      · rw [List.length_take, List.length_drop, ← hcount]
        omega
      · obtain ⟨count, hpdu⟩ := exists_count hfc (by omega)
        refine ⟨count, (a.pdu.drop 2).drop ((a.pdu[1]?).getD 0).toNat, ?_⟩
        rw [List.take_append_drop]
        exact hpdu
  · refine .inr ⟨f, skipped, last, t, map_of_error ?_, htid, htook, hskipped, hone⟩
    unfold Session.readBits
    rw [estate_bind_of_error h]

/-- The registers of a response that is long enough. -/
theorem regsFrom_ok {pdu : List Byte} {i n : ℕ} (h : 2 + (i + n) * 2 ≤ pdu.length) (s : Link) :
    ∃ regs, Session.regsFrom pdu i n s = .ok regs s ∧ regs.length = n ∧
      regs.flatMap be16 = (pdu.drop (2 + i * 2)).take (n * 2) := by
  induction n generalizing i with
  | zero => exact ⟨[], rfl, rfl, by simp⟩
  | succ n ih =>
      obtain ⟨rest, hrest, hlen, hbytes⟩ := @ih (i + 1) (by omega)
      have hhi : 2 + i * 2 < pdu.length := by omega
      have hlo : 2 + i * 2 + 1 < pdu.length := by omega
      refine ⟨ofBe16 pdu[2 + i * 2] pdu[2 + i * 2 + 1] :: rest, ?_, by rw [List.length_cons, hlen], ?_⟩
      · unfold Session.regsFrom
        rw [estate_bind_of_ok (byteAt_of_lt hhi s), estate_bind_of_ok (byteAt_of_lt hlo s),
          estate_bind_of_ok hrest]
        rfl
      · rw [List.flatMap_cons, ofBe16_inj rfl, hbytes, List.drop_eq_getElem_cons hhi,
          List.drop_eq_getElem_cons hlo, show (n + 1) * 2 = n * 2 + 1 + 1 by omega, List.take_succ_cons,
          List.take_succ_cons, show 2 + (i + 1) * 2 = 2 + i * 2 + 1 + 1 by omega]
        rfl

theorem readRegs_checked (unit fc : Byte) (start qty : BitVec 16) (s : Link) :
    Request.Checked unit (.readRegs fc start qty) s ((Request.readRegs fc start qty).run unit s) := by
  unfold Request.run
  rcases transact_cases unit (Session.readPdu fc start qty) s with
    ⟨a, skipped, t, h, htid, htook, hskipped, hframed, hid, hunit, hfc⟩ |
      ⟨f, skipped, last, t, h, htid, htook, hskipped, hone⟩
  · have hanswers : a.Answers unit s.tid (.readRegs fc start qty) := ⟨hframed, hid, hunit, hfc⟩
    by_cases hshort : ((a.pdu[1]?).getD 0).toNat ≠ qty.toNat * 2 ∨
        a.pdu.length < 2 + ((a.pdu[1]?).getD 0).toNat
    · refine .inr ⟨.other "short register response", skipped, a.bytes, t, map_of_error ?_, htid, htook,
        hskipped, hframed.atMostOne⟩
      unfold Session.readRegs
      rw [estate_bind_of_ok h, if_pos hshort]
      rfl
    · have hread : Session.readRegs unit fc start qty s = Session.regsFrom a.pdu 0 qty.toNat t := by
        unfold Session.readRegs
        rw [estate_bind_of_ok h, if_neg hshort]
      rw [not_or, not_not, not_lt] at hshort
      obtain ⟨hcount, hlen⟩ := hshort
      obtain ⟨regs, hregs, hn, hbytes⟩ := @regsFrom_ok a.pdu 0 qty.toNat (by omega) t
      rw [hregs] at hread
      refine .inl ⟨_, a, skipped, t, map_of_ok hread, htid, htook, hskipped, hanswers, fc, start, qty,
        rfl, hn, ?_⟩
      obtain ⟨count, hpdu⟩ := exists_count hfc (by omega)
      refine ⟨count, (a.pdu.drop 2).drop (qty.toNat * 2), ?_⟩
      rw [hbytes, List.take_append_drop]
      exact hpdu
  · refine .inr ⟨f, skipped, last, t, map_of_error ?_, htid, htook, hskipped, hone⟩
    unfold Session.readRegs
    rw [estate_bind_of_error h]

/-- A write is one transaction. -/
theorem write_checked {unit : Byte} {r : Request} (request : List Byte) {s : Link}
    (hfc : request.headD 0 = r.fc)
    (h : r.run unit s = ((fun _ => Answer.done) <$> (transact unit request >>= fun _ => pure ())) s) :
    Request.Checked unit r s (r.run unit s) := by
  rw [h]
  rcases transact_cases unit request s with
    ⟨a, skipped, t, h, htid, htook, hskipped, hframed, hid, hunit, hhead⟩ |
      ⟨f, skipped, last, t, h, htid, htook, hskipped, hone⟩
  · rw [hfc] at hhead
    exact .inl ⟨.done, a, skipped, t, map_of_ok (estate_bind_of_ok h), htid, htook, hskipped,
      ⟨hframed, hid, hunit, hhead⟩, trivial⟩
  · exact .inr ⟨f, skipped, last, t, map_of_error (estate_bind_of_error h), htid, htook, hskipped,
      hone⟩

/-- The bytes for the bits are there. -/
theorem packFrom_ok {bits : List Bool} {i : ℕ} {data : List Byte} (h : i + bits.length ≤ 8 * data.length)
    (s : Link) : ∃ packed, Session.packFrom i bits data s = .ok packed s := by
  induction bits generalizing i data with
  | nil => exact ⟨data, rfl⟩
  | cons on bits ih =>
      rw [List.length_cons] at h
      unfold Session.packFrom
      split_ifs
      · have hi : i / 8 < data.length := by omega
        rw [estate_bind_of_ok (byteAt_of_lt hi s)]
        apply ih
        rw [List.length_set]
        omega
      · exact ih (by omega)

/-- **What a request does**, whatever the peer sends. -/
theorem request_checked (unit : Byte) (r : Request) (s : Link) :
    Request.Checked unit r s (r.run unit s) := by
  cases r with
  | readBits fc start qty => exact readBits_checked unit fc start qty s
  | readRegs fc start qty => exact readRegs_checked unit fc start qty s
  | writeCoil addr on => exact write_checked (5 :: _) rfl rfl
  | writeReg addr value => exact write_checked (6 :: _) rfl rfl
  | writeCoils addr bits =>
      have hroom : 0 + bits.length ≤ 8 * (List.replicate ((bits.length + 7) / 8) (0 : Byte)).length := by
        rw [List.length_replicate]
        omega
      obtain ⟨data, hdata⟩ := packFrom_ok hroom s
      refine write_checked (15 :: (be16 addr ++ be16 (u16OrZero bits.length) ++
        u8OrMax ((bits.length + 7) / 8) :: data)) rfl ?_
      have hwrite : Session.writeCoils unit addr bits s = (transact unit (15 :: (be16 addr ++
          be16 (u16OrZero bits.length) ++ u8OrMax ((bits.length + 7) / 8) :: data)) >>=
            fun _ => pure ()) s := by
        unfold Session.writeCoils
        rw [estate_bind_of_ok hdata]
      show EStateM.map _ _ s = EStateM.map _ _ s
      unfold EStateM.map
      rw [hwrite]
  | writeRegs addr regs => exact write_checked (16 :: _) rfl rfl

end SoftPlc.Io.Modbus
