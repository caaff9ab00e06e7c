import Mathlib.Tactic

/-!
# Byte slices and little-endian words

* `readAt xs off n` and `writeAt xs off ys` are the slice `xs[off..off + n]` and the result of
  copying `ys` over `xs[off..off + ys.length]`. Reading back what was written gives it
  (`readAt_writeAt_same`), and a write leaves every disjoint slice alone
  (`readAt_writeAt_of_disjoint`).
* `leBytes n v` are the `n` low bytes of `v`, lowest first; `ofLeBytes` is the number they spell
  (`ofLeBytes_leBytes`).
-/

namespace SoftPlc.Lib

section slices

variable {α : Type*}

/-- The slice of length at most `n` that starts at `off`. -/
def readAt (xs : List α) (off n : ℕ) : List α := (xs.drop off).take n

/-- Copy `ys` over `xs`, starting at `off`. -/
def writeAt (xs : List α) (off : ℕ) (ys : List α) : List α :=
  xs.take off ++ ys ++ xs.drop (off + ys.length)

/-- A slice inside the list has the length asked for. -/
theorem readAt_length {xs : List α} {off n : ℕ} (h : off + n ≤ xs.length) :
    (readAt xs off n).length = n := by
  simp only [readAt, List.length_take, List.length_drop]
  omega

/-- A write inside the list keeps its length. -/
theorem writeAt_length {xs ys : List α} {off : ℕ} (h : off + ys.length ≤ xs.length) :
    (writeAt xs off ys).length = xs.length := by
  simp only [writeAt, List.length_append, List.length_take, List.length_drop]
  omega

/-- The elements of a slice. -/
theorem getElem?_readAt (xs : List α) (off n i : ℕ) :
    (readAt xs off n)[i]? = if i < n then xs[off + i]? else none := by
  simp only [readAt, List.getElem?_take, List.getElem?_drop]

/-- The elements after a write: the new ones inside the written range, the old ones outside. -/
theorem getElem?_writeAt {xs ys : List α} {off : ℕ} (h : off + ys.length ≤ xs.length) (i : ℕ) :
    (writeAt xs off ys)[i]? =
      if off ≤ i ∧ i < off + ys.length then ys[i - off]? else xs[i]? := by
  have htake : (xs.take off).length = off := by
    rw [List.length_take]
    omega
  unfold writeAt
  by_cases h₁ : i < off
  · rw [if_neg (by omega), List.append_assoc, List.getElem?_append_left (by omega),
      List.getElem?_take, if_pos h₁]
  · by_cases h₂ : i < off + ys.length
    · rw [if_pos (by omega), List.getElem?_append_left (by simp; omega),
        List.getElem?_append_right (by omega), htake]
    · rw [if_neg (by omega), List.getElem?_append_right (by simp; omega), List.getElem?_drop]
      congr 1
      simp only [List.length_append, htake]
      omega

/-- Reading back what was written. -/
theorem readAt_writeAt_same {xs ys : List α} {off : ℕ} (h : off + ys.length ≤ xs.length) :
    readAt (writeAt xs off ys) off ys.length = ys := by
  apply List.ext_getElem?
  intro i
  rw [getElem?_readAt, getElem?_writeAt h]
  by_cases hi : i < ys.length
  · rw [if_pos hi, if_pos (by omega), Nat.add_sub_cancel_left]
  · rw [if_neg hi, List.getElem?_eq_none (by omega)]

/-- A write leaves every slice that does not meet the written range as it was. -/
theorem readAt_writeAt_of_disjoint {xs ys : List α} {off off' n : ℕ}
    (h : off + ys.length ≤ xs.length) (hd : off' + n ≤ off ∨ off + ys.length ≤ off') :
    readAt (writeAt xs off ys) off' n = readAt xs off' n := by
  apply List.ext_getElem?
  intro i
  rw [getElem?_readAt, getElem?_readAt]
  by_cases hi : i < n
  · rw [if_pos hi, if_pos hi, getElem?_writeAt h, if_neg (by omega)]
  · rw [if_neg hi, if_neg hi]

/-- A slice of a middle part, found by the length of what stands before it. -/
theorem readAt_append_middle (xs ys zs : List α) :
    readAt (xs ++ ys ++ zs) xs.length ys.length = ys := by
  simp [readAt]

/-- The slice between two indices, if they are in order and in range. -/
def slice? (xs : List α) (lo hi : ℕ) : Option (List α) :=
  if lo ≤ hi ∧ hi ≤ xs.length then some (readAt xs lo (hi - lo)) else none

theorem slice?_add {xs : List α} {lo n : ℕ} (h : lo + n ≤ xs.length) :
    slice? xs lo (lo + n) = some (readAt xs lo n) := by
  unfold slice?
  rw [if_pos ⟨Nat.le_add_right _ _, h⟩, Nat.add_sub_cancel_left]

/-- What is left after a slice. -/
theorem drop_eq_readAt_append (xs : List α) (off n : ℕ) :
    xs.drop off = readAt xs off n ++ xs.drop (off + n) := by
  rw [readAt, ← List.drop_drop, List.take_append_drop]

/-- Where a text goes on with `ys`, the slice of that length is `ys`. -/
theorem readAt_of_drop {xs ys zs : List α} {off : ℕ} (h : xs.drop off = ys ++ zs) :
    readAt xs off ys.length = ys := by
  rw [readAt, h, List.take_left]

/-- Where a text goes on with `ys`, it goes on after `ys` with the rest. -/
theorem drop_of_drop {xs ys zs : List α} {off : ℕ} (h : xs.drop off = ys ++ zs) :
    xs.drop (off + ys.length) = zs := by
  rw [← List.drop_drop, h, List.drop_left]

/-- Where a text goes on with `ys`, there is room for `ys`. -/
theorem le_length_of_drop {xs ys zs : List α} {off : ℕ} (hoff : off ≤ xs.length)
    (h : xs.drop off = ys ++ zs) : off + ys.length ≤ xs.length := by
  have hlen := congrArg List.length h
  rw [List.length_drop, List.length_append] at hlen
  omega

end slices

section words

/-- The `n` low bytes of `v`, lowest first. -/
def leBytes : ℕ → ℕ → List UInt8
  | 0, _ => []
  | n + 1, v => UInt8.ofNat v :: leBytes n (v / 256)

/-- The number that a list of bytes spells, lowest byte first. -/
def ofLeBytes : List UInt8 → ℕ
  | [] => 0
  | b :: bs => b.toNat + 256 * ofLeBytes bs

/-- `leBytes n` gives `n` bytes. -/
@[simp] theorem leBytes_length (n v : ℕ) : (leBytes n v).length = n := by
  induction n generalizing v with
  | zero => rfl
  | succ n ih => simp [leBytes, ih]

/-- Spelling out the low bytes of `v` gives `v` modulo `256 ^ n`. -/
theorem ofLeBytes_leBytes (n v : ℕ) : ofLeBytes (leBytes n v) = v % 256 ^ n := by
  induction n generalizing v with
  | zero => simp [leBytes, ofLeBytes, Nat.mod_one]
  | succ n ih =>
      have hpow : 256 ^ (n + 1) = 256 * 256 ^ n := by ring
      simp only [leBytes, ofLeBytes, ih, UInt8.toNat_ofNat']
      rw [hpow, Nat.mod_mul]

/-- `leBytes n` looks at `n` bytes only. -/
theorem leBytes_mod (n v : ℕ) : leBytes n (v % 256 ^ n) = leBytes n v := by
  induction n generalizing v with
  | zero => rfl
  | succ n ih =>
      have hlow : UInt8.ofNat (v % 256 ^ (n + 1)) = UInt8.ofNat v := by
        apply UInt8.toNat_inj.mp
        rw [UInt8.toNat_ofNat', UInt8.toNat_ofNat']
        exact Nat.mod_mod_of_dvd v (Dvd.intro_left (256 ^ n) rfl)
      have hhigh : v % 256 ^ (n + 1) / 256 = v / 256 % 256 ^ n := by
        rw [pow_succ, mul_comm, Nat.mod_mul_right_div_self]
      rw [leBytes, leBytes, hlow, hhigh, ih]

/-- The number spelled by `n` bytes is below `256 ^ n`. -/
theorem ofLeBytes_lt (bs : List UInt8) : ofLeBytes bs < 256 ^ bs.length := by
  induction bs with
  | nil => simp [ofLeBytes]
  | cons b bs ih =>
      have hb : b.toNat < 256 := b.toNat_lt
      simp only [ofLeBytes, List.length_cons, pow_succ]
      omega

/-- Bytes are found again from the number that they spell. -/
theorem leBytes_ofLeBytes (bs : List UInt8) : leBytes bs.length (ofLeBytes bs) = bs := by
  induction bs with
  | nil => rfl
  | cons b bs ih =>
      have hb : b.toNat < 256 := b.toNat_lt
      have hdiv : (b.toNat + 256 * ofLeBytes bs) / 256 = ofLeBytes bs := by omega
      have hlow : UInt8.ofNat (b.toNat + 256 * ofLeBytes bs) = b := by
        apply UInt8.toNat_inj.mp
        rw [UInt8.toNat_ofNat']
        omega
      simp only [ofLeBytes, List.length_cons, leBytes, hdiv, hlow, ih]

/-- A word of a text, found by its offset. -/
theorem drop_eq_word {xs : List UInt8} {off n : ℕ} (h : off + n ≤ xs.length) :
    xs.drop off = leBytes n (ofLeBytes (readAt xs off n)) ++ xs.drop (off + n) := by
  have hlen := readAt_length h
  have hword := leBytes_ofLeBytes (readAt xs off n)
  rw [hlen] at hword
  rw [hword]
  exact drop_eq_readAt_append xs off n

/-- A bit vector is read back from its little-endian bytes. -/
theorem ofNat_ofLeBytes_leBytes {w n : ℕ} (h : 256 ^ n = 2 ^ w) (v : BitVec w) :
    BitVec.ofNat w (ofLeBytes (leBytes n v.toNat)) = v := by
  apply BitVec.eq_of_toNat_eq
  rw [BitVec.toNat_ofNat, ofLeBytes_leBytes, h, Nat.mod_mod, Nat.mod_eq_of_lt v.isLt]

end words

end SoftPlc.Lib
