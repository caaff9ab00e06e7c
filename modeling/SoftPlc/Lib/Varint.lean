import Mathlib.Tactic

/-!
# Base-128 numbers

A number in groups of seven bits, the lowest first, with the high bit set on every byte but the last.
`IsVarint bs` says that `bs` is such a number, padded or not, and `varintValue` reads it. `toVarint` is
the shortest spelling of a number.
-/

namespace SoftPlc.Lib

/-- Every byte but the last has its high bit. -/
inductive IsVarint : List UInt8 → Prop
  | last {b : UInt8} (h : b.toNat < 128) : IsVarint [b]
  | more {b : UInt8} {bs : List UInt8} (h : 128 ≤ b.toNat) (rest : IsVarint bs) :
      IsVarint (b :: bs)

/-- The number that the low seven bits of the bytes spell. -/
def varintValue : List UInt8 → ℕ
  | [] => 0
  | b :: bs => b.toNat % 128 + 128 * varintValue bs

/-- The shortest spelling of a number. -/
def toVarint (v : ℕ) : List UInt8 :=
  if h : v / 128 = 0 then [UInt8.ofNat (v % 128)]
  else UInt8.ofNat (v % 128 + 128) :: toVarint (v / 128)
termination_by v
decreasing_by omega

theorem toVarint_small {v : ℕ} (h : v / 128 = 0) : toVarint v = [UInt8.ofNat (v % 128)] := by
  rw [toVarint, dif_pos h]

theorem toVarint_large {v : ℕ} (h : v / 128 ≠ 0) :
    toVarint v = UInt8.ofNat (v % 128 + 128) :: toVarint (v / 128) := by
  rw [toVarint, dif_neg h]

theorem toVarint_isVarint (v : ℕ) : IsVarint (toVarint v) := by
  induction v using toVarint.induct with
  | case1 v h =>
      rw [toVarint_small h]
      apply IsVarint.last
      rw [UInt8.toNat_ofNat']
      omega
  | case2 v h ih =>
      rw [toVarint_large h]
      refine .more ?_ ih
      rw [UInt8.toNat_ofNat']
      omega

theorem varintValue_toVarint (v : ℕ) : varintValue (toVarint v) = v := by
  induction v using toVarint.induct with
  | case1 v h =>
      rw [toVarint_small h, varintValue, varintValue, UInt8.toNat_ofNat']
      omega
  | case2 v h ih =>
      rw [toVarint_large h, varintValue, ih, UInt8.toNat_ofNat']
      omega

/-- A number of `n` groups needs at most `n` bytes. -/
theorem toVarint_length {v n : ℕ} (h : v < 128 ^ (n + 1)) : (toVarint v).length ≤ n + 1 := by
  induction n generalizing v with
  | zero =>
      rw [toVarint_small (by omega), List.length_singleton]
  | succ n ih =>
      by_cases hv : v / 128 = 0
      · rw [toVarint_small hv, List.length_singleton]
        omega
      · rw [toVarint_large hv, List.length_cons]
        apply Nat.succ_le_succ
        apply ih
        rw [pow_succ] at h
        omega

theorem IsVarint.ne_nil {bs : List UInt8} (h : IsVarint bs) : bs ≠ [] := by
  cases h <;> exact List.cons_ne_nil _ _

/-- The value of `n` groups. -/
theorem varintValue_lt (bs : List UInt8) : varintValue bs < 128 ^ bs.length := by
  induction bs with
  | nil => exact Nat.one_pos
  | cons b bs ih =>
      rw [varintValue, List.length_cons, pow_succ]
      omega

end SoftPlc.Lib
