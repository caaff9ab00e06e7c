import Mathlib.Data.Set.Lattice
import Mathlib.Order.CompletePartialOrder
import Mathlib.Data.List.Pairwise
import Mathlib.Data.List.Perm.Basic

/-!
# Updates with a footprint

A state is seen through its cells, `obs : σ → A → V`. An update is local to a set of cells if it leaves
every other cell, and what it writes depends on its own cells only (`LocalTo`). Updates that are local
to disjoint sets commute, so that a list of them can be done in any order (`LocalTo.foldl_perm`), and
each cell gets what its own update writes (`LocalTo.foldl_obs`).
-/

namespace SoftPlc.Lib

variable {σ A V ι : Type*} {obs : σ → A → V}

variable (obs) in
/-- An update changes only cells of `s`, and reads no others. -/
structure LocalTo (s : Set A) (u : σ → σ) : Prop where
  frame : ∀ m a, a ∉ s → obs (u m) a = obs m a
  reads : ∀ m m', (∀ a ∈ s, obs m a = obs m' a) → ∀ a ∈ s, obs (u m) a = obs (u m') a

namespace LocalTo

variable {s t : Set A} {u v : σ → σ}

/-- **Disjoint updates commute.** -/
theorem comm (hext : ∀ m m', (∀ a, obs m a = obs m' a) → m = m') (hu : LocalTo obs s u)
    (hv : LocalTo obs t v) (hdisjoint : Disjoint s t) (m : σ) : u (v m) = v (u m) := by
  apply hext
  intro a
  by_cases hs : a ∈ s
  · have ht : a ∉ t := Set.disjoint_left.mp hdisjoint hs
    rw [hv.frame (u m) a ht]
    exact hu.reads (v m) m (fun b hb => hv.frame m b (Set.disjoint_left.mp hdisjoint hb)) a hs
  · rw [hu.frame (v m) a hs]
    by_cases ht : a ∈ t
    · exact (hv.reads (u m) m (fun b hb => hu.frame m b (Set.disjoint_right.mp hdisjoint hb)) a ht).symm
    · rw [hv.frame m a ht, hv.frame (u m) a ht, hu.frame m a hs]

variable {fp : ι → Set A} {up : ι → σ → σ} {l l' : List ι}

/-- Cells outside all footprints stay. -/
theorem foldl_frame (h : ∀ i ∈ l, LocalTo obs (fp i) (up i)) {a : A} (ha : ∀ i ∈ l, a ∉ fp i) (m : σ) :
    obs (l.foldl (fun m i => up i m) m) a = obs m a := by
  induction l generalizing m with
  | nil => rfl
  | cons i l ih =>
      rw [List.foldl_cons, ih (fun j hj => h j (List.mem_cons_of_mem _ hj))
        (fun j hj => ha j (List.mem_cons_of_mem _ hj))]
      exact (h i List.mem_cons_self).frame m a (ha i List.mem_cons_self)

/-- **Any order will do.** -/
theorem foldl_perm (hext : ∀ m m', (∀ a, obs m a = obs m' a) → m = m')
    (h : ∀ i ∈ l, LocalTo obs (fp i) (up i)) (hdisjoint : l.Pairwise fun i j => Disjoint (fp i) (fp j))
    (hperm : l.Perm l') (m : σ) :
    l.foldl (fun m i => up i m) m = l'.foldl (fun m i => up i m) m := by
  have hsymm : Std.Symm fun i j => Disjoint (fp i) (fp j) := ⟨fun _ _ h => Disjoint.symm h⟩
  apply hperm.foldl_eq'
  intro i hi j hj m
  by_cases hij : i = j
  · subst hij
    rfl
  · have hd : Disjoint (fp j) (fp i) := (hdisjoint.forall hi hj hij).symm
    exact (h j hj).comm hext (h i hi) hd m

/-- **Each cell gets what its own update writes.** -/
theorem foldl_obs (h : ∀ i ∈ l, LocalTo obs (fp i) (up i))
    (hdisjoint : l.Pairwise fun i j => Disjoint (fp i) (fp j)) {i : ι} (hi : i ∈ l) {a : A}
    (ha : a ∈ fp i) (m : σ) : obs (l.foldl (fun m i => up i m) m) a = obs (up i m) a := by
  induction l generalizing m with
  | nil => cases hi
  | cons j l ih =>
      obtain ⟨hj, hrest⟩ := List.pairwise_cons.mp hdisjoint
      have hlocal : ∀ k ∈ l, LocalTo obs (fp k) (up k) := fun k hk => h k (List.mem_cons_of_mem _ hk)
      rw [List.foldl_cons]
      rcases List.mem_cons.mp hi with rfl | hi
      · exact foldl_frame hlocal (fun k hk => Set.disjoint_left.mp (hj k hk) ha) _
      · rw [ih hlocal hrest hi]
        apply (hlocal i hi).reads _ _ _ a ha
        intro b hb
        exact (h j List.mem_cons_self).frame m b (Set.disjoint_right.mp (hj i hi) hb)

end LocalTo

end SoftPlc.Lib
