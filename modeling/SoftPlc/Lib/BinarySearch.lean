import Mathlib.Tactic

/-!
# Binary search

The search of a slice by a comparison (`slice::binary_search_by`). The loop has no early exit: it
halves the window until one element is left and compares that one. On a list whose elements
compare `lt`, then `eq`, then `gt`, it finds an element that compares `eq` exactly when there is
one.
-/

namespace SoftPlc.Lib

variable {α : Type*}

/-- The elements that compare `lt` stand before those that compare `eq`, and these before those
that compare `gt`. -/
def OrderedBy (f : α → Ordering) (xs : List α) : Prop :=
  xs.Pairwise fun a b => (f a = .gt → f b = .gt) ∧ (f b = .lt → f a = .lt)

/-- The loop over the window of `size` elements from `base`. -/
def binarySearchLoop (f : α → Ordering) (xs : List α) (base size : ℕ) : ℕ :=
  if 1 < size then
    let half := size / 2
    let mid := base + half
    binarySearchLoop f xs (if xs[mid]?.map f = some .gt then base else mid) (size - half)
  else base
termination_by size

/-- The index of an element that compares `eq`, or the one at which it could be inserted. -/
def binarySearchBy (f : α → Ordering) (xs : List α) : Except ℕ ℕ :=
  let base := binarySearchLoop f xs 0 xs.length
  match xs[base]?.map f with
  | some .eq => .ok base
  | some .lt => .error (base + 1)
  | _ => .error base

/-- The index that is found is that of an element that compares `eq`. -/
theorem binarySearchBy_sound {f : α → Ordering} {xs : List α} {i : ℕ}
    (h : binarySearchBy f xs = .ok i) : ∃ x, xs[i]? = some x ∧ f x = .eq := by
  simp only [binarySearchBy] at h
  rcases hcmp : xs[binarySearchLoop f xs 0 xs.length]?.map f with _ | _ | _ | _
  · rw [hcmp] at h
    cases h
  · rw [hcmp] at h
    cases h
  · rw [hcmp] at h
    cases h
    exact Option.map_eq_some_iff.mp hcmp
  · rw [hcmp] at h
    cases h

/-- A window that holds an element that compares `eq` is narrowed down to one. -/
theorem binarySearchLoop_eq {f : α → Ordering} {xs : List α} (hxs : OrderedBy f xs)
    {base size : ℕ} (hfit : base + size ≤ xs.length)
    (hin : ∃ j, base ≤ j ∧ j < base + size ∧ xs[j]?.map f = some .eq) :
    xs[binarySearchLoop f xs base size]?.map f = some .eq := by
  fun_induction binarySearchLoop f xs base size with
  | case1 base size hsize half mid ih =>
      obtain ⟨j, hlow, hhigh, hj⟩ := hin
      have hhalf : 0 < half ∧ half < size := by omega
      have hmid : mid < xs.length := by omega
      have hjlen : j < xs.length := by omega
      have hpair := List.pairwise_iff_getElem.mp hxs
      have hcmp : xs[mid]?.map f = some (f xs[mid]) := by
        rw [List.getElem?_eq_getElem hmid, Option.map_some]
      have hjeq : f xs[j] = .eq := by
        rw [List.getElem?_eq_getElem hjlen, Option.map_some] at hj
        exact Option.some.inj hj
      by_cases hgt : xs[mid]?.map f = some .gt
      · have hmidgt : f xs[mid] = .gt := Option.some.inj (hcmp.symm.trans hgt)
        have hlt : j < mid := by
          by_contra hle
          rcases Nat.lt_or_eq_of_le (Nat.not_lt.mp hle) with hlt | heq
          · have hafter := (hpair mid j hmid hjlen hlt).1 hmidgt
            rw [hjeq] at hafter
            cases hafter
          · subst heq
            rw [hjeq] at hmidgt
            cases hmidgt
        simp only [dif_pos hgt, if_pos hgt] at ih ⊢
        apply ih
        · omega
        · exact ⟨j, hlow, by omega, hj⟩
      · simp only [dif_neg hgt, if_neg hgt] at ih ⊢
        apply ih
        · omega
        · by_cases hle : mid ≤ j
          · exact ⟨j, hle, by omega, hj⟩
          · -- The element is below the middle, so the middle one compares `eq` too.
            have hbefore := (hpair j mid hjlen hmid (by omega)).2
            refine ⟨mid, le_refl mid, by omega, ?_⟩
            rw [hcmp] at hgt ⊢
            rcases hmideq : f xs[mid] with _ | _ | _
            · rw [hjeq] at hbefore
              cases hbefore hmideq
            · rfl
            · exact absurd (congrArg some hmideq) hgt
  | case2 base size hsize =>
      obtain ⟨j, hlow, hhigh, hj⟩ := hin
      have heq : j = base := by omega
      rw [← heq]
      exact hj

/-- An element that compares `eq` is found when there is one. -/
theorem binarySearchBy_complete {f : α → Ordering} {xs : List α} (hxs : OrderedBy f xs) {x : α}
    (hx : x ∈ xs) (heq : f x = .eq) : ∃ i, binarySearchBy f xs = .ok i := by
  obtain ⟨j, hj, rfl⟩ := List.getElem_of_mem hx
  have hloop : xs[binarySearchLoop f xs 0 xs.length]?.map f = some .eq := by
    apply binarySearchLoop_eq hxs (Nat.zero_add _).le
    refine ⟨j, Nat.zero_le j, by omega, ?_⟩
    rw [List.getElem?_eq_getElem hj, Option.map_some, heq]
  refine ⟨binarySearchLoop f xs 0 xs.length, ?_⟩
  simp only [binarySearchBy, hloop]

end SoftPlc.Lib
