import Mathlib.Tactic

/-!
# Texts as bytes

* `utf8 s` are the bytes of a string and `ofUtf8` reads them back (`ofUtf8_utf8`,
  `utf8_of_ofUtf8`). The encoding of a character ends where it ends, whatever follows
  (`utf8EncodeChar_append`).
* `Unmixed f g` says the same of two encodings at once: a text that starts with the `f`-encoding of
  one item and the `g`-encoding of another starts with the same item, and goes on in the same way. It
  carries over to sequences that a terminator closes (`Unmixed.run`).
* `decimal n` is the decimal spelling of an integer; it ends at the first byte that is no digit
  (`decimal_append`).
-/

namespace SoftPlc.Lib

/-! ## UTF-8 -/

/-- The bytes of a string. -/
def utf8 (s : String) : List UInt8 := s.toByteArray.data.toList

/-- The string that some bytes spell, if they do. -/
def ofUtf8 (bytes : List UInt8) : Option String := String.fromUTF8? bytes.toByteArray

theorem utf8_toByteArray (s : String) : (utf8 s).toByteArray = s.toByteArray := by
  apply ByteArray.ext
  simp [utf8]

theorem utf8_injective : Function.Injective utf8 := by
  intro s t h
  apply String.toByteArray_inj.mp
  rw [← utf8_toByteArray, ← utf8_toByteArray, h]

@[simp] theorem ofUtf8_utf8 (s : String) : ofUtf8 (utf8 s) = some s := by
  unfold ofUtf8 String.fromUTF8?
  rw [utf8_toByteArray, dif_pos s.isValidUTF8]
  rfl

theorem utf8_of_ofUtf8 {bytes : List UInt8} {s : String} (h : ofUtf8 bytes = some s) :
    utf8 s = bytes := by
  unfold ofUtf8 String.fromUTF8? at h
  split_ifs at h with hvalid
  cases h
  simp [utf8, String.fromUTF8]

theorem utf8_append (s t : String) : utf8 (s ++ t) = utf8 s ++ utf8 t := by
  simp [utf8, String.toByteArray_append]

/-- The bytes of a string, character by character. -/
theorem utf8_eq_flatMap (s : String) : utf8 s = s.toList.flatMap String.utf8EncodeChar := by
  have h : s.toByteArray = s.toList.utf8Encode := by
    rw [← String.toByteArray_ofList, String.ofList_toList]
  simp [utf8, h, List.utf8Encode]

/-- The encoding of a character ends where it ends. -/
theorem utf8EncodeChar_append {c d : Char} {x y : List UInt8}
    (h : String.utf8EncodeChar c ++ x = String.utf8EncodeChar d ++ y) : c = d ∧ x = y := by
  have hdecode : ∀ (c : Char) (x : List UInt8),
      ByteArray.utf8DecodeChar? (String.utf8EncodeChar c ++ x).toByteArray 0 = some c := by
    intro c x
    rw [List.toByteArray_append]
    exact ByteArray.utf8DecodeChar?_utf8EncodeChar_append
  have hc : c = d := by
    have hsame := hdecode c x
    rw [h, hdecode d y] at hsame
    exact (Option.some.inj hsame).symm
  subst hc
  exact ⟨rfl, List.append_cancel_left h⟩

/-- A character whose bytes are ASCII is one byte. -/
theorem utf8EncodeChar_of_ascii {c : Char} (h : ∀ b ∈ String.utf8EncodeChar c, b.toNat < 128) :
    String.utf8EncodeChar c = [UInt8.ofNat c.toNat] ∧ c.toNat < 128 := by
  unfold String.utf8EncodeChar at h ⊢
  dsimp only at h ⊢
  split at h
  · rename_i hle
    refine ⟨?_, Nat.lt_succ_of_le hle⟩
    rw [if_pos hle]
    rfl
  -- the first byte of a longer encoding is at least `0xC0`
  all_goals
    exfalso
    split_ifs at h
    all_goals
      have hfirst := h _ List.mem_cons_self
      rw [UInt8.toNat_ofNat'] at hfirst
      omega

/-! ## Encodings that cannot be confused -/

section Unmixed

variable {α β : Type*} {f g : α → List β}

/-- A text that starts with two encodings of items starts with the same item. -/
def Unmixed (f g : α → List β) : Prop :=
  ∀ {a b x y}, f a ++ x = g b ++ y → a = b ∧ x = y

theorem Unmixed.same (h : Unmixed f g) {a b : α} {x y : List β} (he : f a ++ x = g b ++ y) :
    f a = g a := by
  obtain ⟨rfl, rfl⟩ := h he
  exact List.append_cancel_right he

/-- No encoding starts with an element. -/
def Avoids (f : α → List β) (t : β) : Prop := ∀ a x y, f a ++ x ≠ t :: y

/-- A sequence of encodings that a terminator closes. -/
theorem Unmixed.run (h : Unmixed f g) {t : β} (hf : Avoids f t) (hg : Avoids g t) {as bs : List α}
    {x y : List β} (he : as.flatMap f ++ t :: x = bs.flatMap g ++ t :: y) :
    as = bs ∧ x = y ∧ ∀ a ∈ as, f a = g a := by
  induction as generalizing bs with
  | nil =>
      cases bs with
      | nil => exact ⟨rfl, (List.cons.inj he).2, by simp⟩
      | cons b bs =>
          rw [List.flatMap_cons, List.append_assoc] at he
          exact absurd he.symm (hg _ _ _)
  | cons a as ih =>
      rw [List.flatMap_cons, List.append_assoc] at he
      cases bs with
      | nil => exact absurd he (hf _ _ _)
      | cons b bs =>
          rw [List.flatMap_cons, List.append_assoc] at he
          have hsame := h.same he
          obtain ⟨rfl, hrest⟩ := h he
          obtain ⟨rfl, hxy, hall⟩ := ih hrest
          refine ⟨rfl, hxy, ?_⟩
          intro a' ha'
          rcases List.mem_cons.mp ha' with rfl | ha'
          · exact hsame
          · exact hall a' ha'

end Unmixed

/-- What stands before the first of a separator. -/
theorem append_cons_inj {β : Type*} {t : β} {a b x y : List β} (ha : t ∉ a) (hb : t ∉ b)
    (h : a ++ t :: x = b ++ t :: y) : a = b ∧ x = y := by
  induction a generalizing b with
  | nil =>
      cases b with
      | nil => exact ⟨rfl, (List.cons.inj h).2⟩
      | cons c b =>
          obtain ⟨rfl, -⟩ := List.cons.inj h
          exact absurd List.mem_cons_self hb
  | cons c a ih =>
      cases b with
      | nil =>
          obtain ⟨rfl, -⟩ := List.cons.inj h
          exact absurd List.mem_cons_self ha
      | cons d b =>
          obtain ⟨rfl, htail⟩ := List.cons.inj h
          obtain ⟨rfl, hxy⟩ := ih (fun hmem => ha (List.mem_cons_of_mem _ hmem))
            (fun hmem => hb (List.mem_cons_of_mem _ hmem)) htail
          exact ⟨rfl, hxy⟩

/-- The lines of a text, each closed by a terminator. -/
def unlines {β : Type*} (t : β) (lines : List (List β)) : List β := lines.flatMap (· ++ [t])

/-- Lines without the terminator are found again. -/
theorem unlines_inj {β : Type*} {t : β} {as bs : List (List β)} (ha : ∀ a ∈ as, t ∉ a)
    (hb : ∀ b ∈ bs, t ∉ b) (h : unlines t as = unlines t bs) : as = bs := by
  induction as generalizing bs with
  | nil =>
      cases bs with
      | nil => rfl
      | cons b bs => simp [unlines] at h
  | cons a as ih =>
      cases bs with
      | nil => simp [unlines] at h
      | cons b bs =>
          simp only [unlines, List.flatMap_cons, List.append_assoc, List.singleton_append] at h
          obtain ⟨rfl, hrest⟩ :=
            append_cons_inj (ha _ List.mem_cons_self) (hb _ List.mem_cons_self) h
          rw [ih (fun a hmem => ha a (List.mem_cons_of_mem _ hmem))
            (fun b hmem => hb b (List.mem_cons_of_mem _ hmem)) hrest]

/-! ## Numbers -/

/-- The decimal spelling of a natural number. -/
def digits (n : ℕ) : List UInt8 := (Nat.toDigits 10 n).map fun c => UInt8.ofNat c.toNat

/-- The decimal spelling of an integer. -/
def decimal (n : ℤ) : List UInt8 := if n < 0 then 45 :: digits n.natAbs else digits n.natAbs

/-- A digit. -/
def IsDigit (b : UInt8) : Prop := 48 ≤ b.toNat ∧ b.toNat ≤ 57

instance (b : UInt8) : Decidable (IsDigit b) := inferInstanceAs (Decidable (_ ∧ _))

/-- Where the next byte, if there is one, is no digit. -/
def NoDigit (x : List UInt8) : Prop := ∀ b ∈ x.head?, ¬IsDigit b

theorem isDigit_of_mem_digits {n : ℕ} {b : UInt8} (h : b ∈ digits n) : IsDigit b := by
  obtain ⟨c, hc, rfl⟩ := List.mem_map.mp h
  have hdigit := Nat.isDigit_of_mem_toDigits (by decide) (by decide) hc
  simp only [Char.isDigit, Bool.and_eq_true, decide_eq_true_eq] at hdigit
  have hlo : 48 ≤ c.toNat := hdigit.1
  have hhi : c.toNat ≤ 57 := hdigit.2
  unfold IsDigit
  rw [UInt8.toNat_ofNat', Nat.mod_eq_of_lt (by omega)]
  exact ⟨hlo, hhi⟩

/-- A byte that is a digit, as a character. -/
theorem digits_injective : Function.Injective digits := by
  intro m n h
  have hchars : Nat.toDigits 10 m = Nat.toDigits 10 n := by
    have hback : ∀ n, (digits n).map (fun b => Char.ofNat b.toNat) = Nat.toDigits 10 n := by
      intro n
      unfold digits
      rw [List.map_map]
      apply (List.map_congr_left ?_).trans (List.map_id' _)
      intro c hc
      have hdigit := Nat.isDigit_of_mem_toDigits (by decide) (by decide) hc
      simp only [Char.isDigit, Bool.and_eq_true, decide_eq_true_eq] at hdigit
      have hhi : c.toNat ≤ 57 := hdigit.2
      simp only [Function.comp_apply, UInt8.toNat_ofNat']
      rw [Nat.mod_eq_of_lt (by omega), Char.ofNat_toNat]
    rw [← hback m, ← hback n, h]
  rw [← @Nat.ofDigitChars_ten_toDigits m, ← @Nat.ofDigitChars_ten_toDigits n, hchars]

/-- Two stretches of digits before something else. -/
theorem append_eq_of_digits {a b x y : List UInt8} (ha : ∀ d ∈ a, IsDigit d)
    (hb : ∀ d ∈ b, IsDigit d) (hx : NoDigit x) (hy : NoDigit y) (h : a ++ x = b ++ y) :
    a = b ∧ x = y := by
  induction a generalizing b with
  | nil =>
      cases b with
      | nil => exact ⟨rfl, h⟩
      | cons d b =>
          rw [List.nil_append] at h
          exact absurd (hb d List.mem_cons_self) (hx d (by simp [h]))
  | cons d a ih =>
      cases b with
      | nil =>
          rw [List.nil_append] at h
          exact absurd (ha d List.mem_cons_self) (hy d (by simp [← h]))
      | cons e b =>
          obtain ⟨rfl, htail⟩ := List.cons.inj h
          obtain ⟨rfl, hxy⟩ := ih (fun d hd => ha d (List.mem_cons_of_mem _ hd))
            (fun d hd => hb d (List.mem_cons_of_mem _ hd)) htail
          exact ⟨rfl, hxy⟩

/-- The digits of a number end where the digits end. -/
theorem digits_append {m n : ℕ} {x y : List UInt8} (hx : NoDigit x) (hy : NoDigit y)
    (h : digits m ++ x = digits n ++ y) : m = n ∧ x = y := by
  obtain ⟨hdigits, hxy⟩ := append_eq_of_digits (fun _ => isDigit_of_mem_digits)
    (fun _ => isDigit_of_mem_digits) hx hy h
  exact ⟨digits_injective hdigits, hxy⟩

theorem digits_ne_nil (n : ℕ) : digits n ≠ [] := by
  simp [digits]

/-- The first byte of a number. -/
theorem digits_cons (n : ℕ) : ∃ b ds, digits n = b :: ds ∧ IsDigit b := by
  obtain ⟨b, ds, h⟩ := List.exists_cons_of_ne_nil (digits_ne_nil n)
  exact ⟨b, ds, h, isDigit_of_mem_digits (n := n) (by simp [h])⟩

/-- A decimal spelling ends at the first byte that is no digit. -/
theorem decimal_append {m n : ℤ} {x y : List UInt8} (hx : NoDigit x) (hy : NoDigit y)
    (h : decimal m ++ x = decimal n ++ y) : m = n ∧ x = y := by
  have hsign : ∀ n : ℕ, ∀ x y : List UInt8, digits n ++ x ≠ 45 :: y := by
    intro n x y heq
    obtain ⟨b, ds, hb, hdigit⟩ := digits_cons n
    rw [hb] at heq
    rw [(List.cons.inj heq).1] at hdigit
    exact absurd hdigit (by decide)
  unfold decimal at h
  split_ifs at h with hm hn hn
  · obtain ⟨habs, hxy⟩ := digits_append hx hy (List.cons.inj h).2
    exact ⟨by omega, hxy⟩
  · exact absurd h.symm (hsign _ _ _)
  · exact absurd h (hsign _ _ _)
  · obtain ⟨habs, hxy⟩ := digits_append hx hy h
    exact ⟨by omega, hxy⟩

/-- The first byte of a decimal spelling. -/
theorem decimal_cons (n : ℤ) : ∃ b ds, decimal n = b :: ds ∧ (b = 45 ∨ IsDigit b) := by
  unfold decimal
  split_ifs
  · exact ⟨45, _, rfl, .inl rfl⟩
  · obtain ⟨b, ds, h, hb⟩ := digits_cons n.natAbs
    exact ⟨b, ds, h, .inr hb⟩

/-! ## White space -/

/-- Source: `char::is_whitespace`. -/
def isWhitespace (c : Char) : Bool :=
  (0x9 ≤ c.toNat && c.toNat ≤ 0xD) || c.toNat = 0x20 || c.toNat = 0x85 || c.toNat = 0xA0 ||
    c.toNat = 0x1680 || (0x2000 ≤ c.toNat && c.toNat ≤ 0x200A) || c.toNat = 0x2028 ||
    c.toNat = 0x2029 || c.toNat = 0x202F || c.toNat = 0x205F || c.toNat = 0x3000

/-- Source: `str::trim`. -/
def trim (s : String) : List Char :=
  ((s.toList.dropWhile isWhitespace).reverse.dropWhile isWhitespace).reverse

end SoftPlc.Lib
