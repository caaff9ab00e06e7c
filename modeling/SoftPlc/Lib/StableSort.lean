import Mathlib.Data.List.Sort
import Mathlib.Tactic

/-!
# Stable sorting by a key

`sortByKey key l` sorts a list by a key and keeps the order of items with equal keys. What it gives is
determined by the items of each key in the order in which they were listed (`sortByKey_eq_iff`).
-/

namespace SoftPlc.Lib

section StableSort

variable {α κ : Type*} [LinearOrder κ] {key : α → κ}

/-- Sort by a key. -/
def sortByKey (key : α → κ) (l : List α) : List α := l.mergeSort fun a b => key a ≤ key b

/-- The items with a key, in the order of the list. -/
def withKey (key : α → κ) (k : κ) (l : List α) : List α := l.filter fun a => key a = k

theorem withKey_cons (key : α → κ) (k : κ) (a : α) (l : List α) :
    withKey key k (a :: l) = if key a = k then a :: withKey key k l else withKey key k l := by
  simp only [withKey, List.filter_cons, decide_eq_true_eq]

theorem sortByKey_perm (key : α → κ) (l : List α) : (sortByKey key l).Perm l :=
  List.mergeSort_perm l _

theorem sortByKey_sorted (key : α → κ) (l : List α) :
    (sortByKey key l).Pairwise fun a b => key a ≤ key b := by
  have hsorted : (sortByKey key l).Pairwise fun a b => decide (key a ≤ key b) = true :=
    List.pairwise_mergeSort
      (fun a b c hab hbc => decide_eq_true ((of_decide_eq_true hab).trans (of_decide_eq_true hbc)))
      (fun a b => by simpa using le_total (key a) (key b)) l
  exact hsorted.imp of_decide_eq_true

/-- Sorting keeps the items of each key in their order. -/
theorem withKey_sortByKey (key : α → κ) (k : κ) (l : List α) :
    withKey key k (sortByKey key l) = withKey key k l := by
  have hkeys : ∀ a ∈ withKey key k l, key a = k :=
    fun a ha => of_decide_eq_true (List.mem_filter.mp ha).2
  have hpair : (withKey key k l).Pairwise fun a b => decide (key a ≤ key b) = true := by
    apply List.pairwise_iff_forall_sublist.mpr
    intro a b hsub
    rw [hkeys a (hsub.subset (by simp)), hkeys b (hsub.subset (by simp))]
    exact decide_eq_true le_rfl
  have hsub : (withKey key k l).Sublist (sortByKey key l) :=
    List.sublist_mergeSort
      (fun a b c hab hbc => decide_eq_true ((of_decide_eq_true hab).trans (of_decide_eq_true hbc)))
      (fun a b => by simpa using le_total (key a) (key b)) hpair List.filter_sublist
  have hsame : withKey key k (withKey key k l) = withKey key k l :=
    List.filter_eq_self.mpr fun a ha => decide_eq_true (hkeys a ha)
  have hsub' : (withKey key k l).Sublist (withKey key k (sortByKey key l)) := by
    rw [← hsame]
    exact hsub.filter _
  exact (hsub'.eq_of_length ((sortByKey_perm key l).filter _).length_eq.symm).symm

/-- A list in key order is determined by the items of each key. -/
theorem eq_of_withKey {l l' : List α} (hl : l.Pairwise fun a b => key a ≤ key b)
    (hl' : l'.Pairwise fun a b => key a ≤ key b)
    (h : ∀ k, withKey key k l = withKey key k l') : l = l' := by
  have hmem : ∀ {xs ys : List α} {a : α}, (∀ k, withKey key k xs = withKey key k ys) → a ∈ xs →
      a ∈ ys := by
    intro xs ys a hsame ha
    have hin : a ∈ withKey key (key a) xs := List.mem_filter.mpr ⟨ha, decide_eq_true rfl⟩
    rw [hsame] at hin
    exact (List.mem_filter.mp hin).1
  induction l generalizing l' with
  | nil =>
      cases l' with
      | nil => rfl
      | cons b l' => exact absurd (hmem (fun k => (h k).symm) List.mem_cons_self) List.not_mem_nil
  | cons a l ih =>
      cases l' with
      | nil => exact absurd (hmem h List.mem_cons_self) List.not_mem_nil
      | cons b l' =>
          obtain ⟨ha, htail⟩ := List.pairwise_cons.mp hl
          obtain ⟨hb, htail'⟩ := List.pairwise_cons.mp hl'
          -- both heads have the least key
          have hba : key b ≤ key a := by
            rcases List.mem_cons.mp (hmem h List.mem_cons_self) with heq | hin
            · exact le_of_eq (congrArg key heq.symm)
            · exact hb a hin
          have hab : key a ≤ key b := by
            rcases List.mem_cons.mp (hmem (fun k => (h k).symm) List.mem_cons_self) with heq | hin
            · exact le_of_eq (congrArg key heq.symm)
            · exact ha b hin
          have hkey := le_antisymm hab hba
          have hhead := h (key a)
          rw [withKey_cons, withKey_cons, if_pos rfl, if_pos hkey.symm] at hhead
          obtain rfl := (List.cons.inj hhead).1
          congr 1
          apply ih htail htail'
          intro k
          have hk := h k
          rw [withKey_cons, withKey_cons] at hk
          by_cases hak : key a = k
          · rw [if_pos hak, if_pos hak] at hk
            exact (List.cons.inj hk).2
          · rw [if_neg hak, if_neg hak] at hk
            exact hk

/-- Two lists are sorted alike exactly when they list the items of each key alike. -/
theorem sortByKey_eq_iff {l l' : List α} :
    sortByKey key l = sortByKey key l' ↔ ∀ k, withKey key k l = withKey key k l' := by
  constructor
  · intro h k
    rw [← withKey_sortByKey, h, withKey_sortByKey]
  · intro h
    apply eq_of_withKey (sortByKey_sorted key l) (sortByKey_sorted key l')
    intro k
    rw [withKey_sortByKey, withKey_sortByKey, h k]

end StableSort

end SoftPlc.Lib
