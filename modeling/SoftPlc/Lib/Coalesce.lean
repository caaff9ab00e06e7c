import Mathlib.Data.List.Basic
import Mathlib.Algebra.BigOperators.Group.List.Basic
import Mathlib.Algebra.Order.Ring.Nat
import Mathlib.Logic.Function.Basic

/-!
# Adjacent ranges and consecutive cells

`coalesce start len cap l` joins the ranges of a list greedily: a range that starts where the last run ends is
added to it, unless the run would grow beyond `cap`. `coalesce_members` says that no range is lost,
and `coalesce_run` that each run is tiled by its members (`Tiles`). `writeBlock` and `fillAt` write values to consecutive cells of a memory and of a list.
-/

namespace SoftPlc.Lib

variable {α : Type*}

section Tiling

variable (start len : α → ℕ)

/-- Ranges that follow each other from `a` to `b`. -/
def Tiles : ℕ → List α → ℕ → Prop
  | a, [], b => a = b
  | a, x :: xs, b => start x = a ∧ Tiles (a + len x) xs b

variable {start len} {a b : ℕ} {x : α} {l : List α}

theorem Tiles.snoc (h : Tiles start len a l b) (hx : start x = b) :
    Tiles start len a (l ++ [x]) (b + len x) := by
  induction l generalizing a with
  | nil =>
      obtain rfl : a = b := h
      exact ⟨hx, rfl⟩
  | cons y l ih => exact ⟨h.1, ih h.2⟩

/-- The lengths add up. -/
theorem Tiles.sum (h : Tiles start len a l b) : a + (l.map len).sum = b := by
  induction l generalizing a with
  | nil => exact h
  | cons y l ih =>
      rw [List.map_cons, List.sum_cons, ← Nat.add_assoc]
      exact ih h.2

theorem Tiles.le (h : Tiles start len a l b) : a ≤ b := by
  rw [← h.sum]
  exact Nat.le_add_right _ _

/-- Every range lies between the ends. -/
theorem Tiles.bounds (h : Tiles start len a l b) (hx : x ∈ l) : a ≤ start x ∧ start x + len x ≤ b := by
  induction l generalizing a with
  | nil => cases hx
  | cons y l ih =>
      rcases List.mem_cons.mp hx with rfl | hx
      · exact ⟨h.1.ge, h.1 ▸ h.2.le⟩
      · obtain ⟨hlow, hhigh⟩ := ih h.2 hx
        exact ⟨(Nat.le_add_right _ _).trans hlow, hhigh⟩

end Tiling

/-- A run of ranges. -/
structure Run (α : Type*) where
  start : ℕ
  qty : ℕ
  members : List α

section Coalescing

variable (start len : α → ℕ) (cap : ℕ)

/-- A run of one range. -/
def Run.one (x : α) : Run α := ⟨start x, len x, [x]⟩

/-- Add a range at the end. -/
def Run.add (r : Run α) (x : α) : Run α := ⟨r.start, start x + len x - r.start, r.members ++ [x]⟩

/-- A range follows a run, and there is room for it. -/
def Run.Takes (r : Run α) (x : α) : Prop := start x = r.start + r.qty ∧ start x + len x - r.start ≤ cap

instance (r : Run α) (x : α) : Decidable (r.Takes start len cap x) :=
  inferInstanceAs (Decidable (_ ∧ _))

/-- Join ranges, with the run that is open. -/
def coalesceFrom : Option (Run α) → List α → List (Run α)
  | cur, [] => cur.toList
  | none, x :: xs => coalesceFrom (some (.one start len x)) xs
  | some r, x :: xs =>
      if r.Takes start len cap x then coalesceFrom (some (r.add start len x)) xs
      else r :: coalesceFrom (some (.one start len x)) xs

/-- Join ranges. -/
def coalesce (l : List α) : List (Run α) := coalesceFrom start len cap none l

/-- A run that its members tile, and that is not too long. -/
structure Run.Tiled (r : Run α) : Prop where
  nonempty : r.members ≠ []
  tiles : Tiles start len r.start r.members (r.start + r.qty)
  qty_le : r.qty ≤ cap

variable {start len cap} {r : Run α} {x : α} {l : List α}

theorem Run.Tiled.one (hx : len x ≤ cap) : (Run.one start len x).Tiled start len cap :=
  ⟨List.cons_ne_nil _ _, ⟨rfl, rfl⟩, hx⟩

theorem Run.Tiled.add (h : r.Tiled start len cap) (hx : r.Takes start len cap x) :
    (r.add start len x).Tiled start len cap := by
  refine ⟨by simp [Run.add], ?_, hx.2⟩
  have htiles := h.tiles.snoc hx.1
  have hend : r.start + (start x + len x - r.start) = r.start + r.qty + len x := by
    have hstart := hx.1
    omega
  show Tiles start len r.start (r.members ++ [x]) (r.start + (start x + len x - r.start))
  rw [hend]
  exact htiles

/-- The quantity of a tiled run is the sum of the lengths of its members. -/
theorem Run.Tiled.qty_eq (h : r.Tiled start len cap) : r.qty = (r.members.map len).sum :=
  (Nat.add_left_cancel h.tiles.sum).symm

theorem coalesceFrom_run {cur : Option (Run α)} (hcur : ∀ r ∈ cur, r.Tiled start len cap)
    (hlen : ∀ x ∈ l, len x ≤ cap) : ∀ r ∈ coalesceFrom start len cap cur l, r.Tiled start len cap := by
  induction l generalizing cur with
  | nil =>
      intro r hr
      unfold coalesceFrom at hr
      exact hcur r (Option.mem_toList.mp hr)
  | cons x l ih =>
      have hone : ∀ r ∈ some (Run.one start len x), r.Tiled start len cap := by
        rintro _ ⟨⟩
        exact .one (hlen x List.mem_cons_self)
      have hrest : ∀ y ∈ l, len y ≤ cap := fun y hy => hlen y (List.mem_cons_of_mem _ hy)
      cases cur with
      | none => exact ih hone hrest
      | some open_ =>
          have hopen := hcur open_ rfl
          unfold coalesceFrom
          split_ifs with htakes
          · apply ih _ hrest
            rintro _ ⟨⟩
            exact hopen.add htakes
          · intro r hr
            rcases List.mem_cons.mp hr with rfl | hr
            · exact hopen
            · exact ih hone hrest r hr

/-- **Each run is tiled by its members.** -/
theorem coalesce_run (hlen : ∀ x ∈ l, len x ≤ cap) :
    ∀ r ∈ coalesce start len cap l, r.Tiled start len cap :=
  coalesceFrom_run (fun _ h => nomatch h) hlen

theorem coalesceFrom_members (cur : Option (Run α)) : (coalesceFrom start len cap cur l).flatMap
    Run.members = (cur.map Run.members).getD [] ++ l := by
  induction l generalizing cur with
  | nil => cases cur <;> simp [coalesceFrom]
  | cons x l ih =>
      cases cur with
      | none =>
          unfold coalesceFrom
          rw [ih]
          rfl
      | some r =>
          unfold coalesceFrom
          split_ifs
          · rw [ih]
            simp [Run.add]
          · rw [List.flatMap_cons, ih]
            rfl

/-- **No range is lost**, and their order stays. -/
theorem coalesce_members : (coalesce start len cap l).flatMap Run.members = l :=
  coalesceFrom_members none

end Coalescing

/-! ## Consecutive cells -/

section Blocks

variable {β : Type*}

/-- Write values to consecutive cells. -/
def writeBlock (f : ℕ → β) : ℕ → List β → ℕ → β
  | _, [] => f
  | a, v :: vs => writeBlock (Function.update f a v) (a + 1) vs

theorem writeBlock_append (f : ℕ → β) (a : ℕ) (vs ws : List β) :
    writeBlock f a (vs ++ ws) = writeBlock (writeBlock f a vs) (a + vs.length) ws := by
  induction vs generalizing f a with
  | nil => rfl
  | cons v vs ih =>
      rw [List.cons_append, writeBlock, ih, List.length_cons, Nat.add_right_comm, Nat.add_assoc]
      rfl

/-- Other cells stay. -/
theorem writeBlock_frame {f : ℕ → β} {a x : ℕ} {vs : List β} (h : x < a ∨ a + vs.length ≤ x) :
    writeBlock f a vs x = f x := by
  induction vs generalizing f a with
  | nil => rfl
  | cons v vs ih =>
      rw [List.length_cons] at h
      rw [writeBlock, ih (by omega)]
      exact Function.update_of_ne (by omega) _ _

/-- The cells of the block do not depend on what they held. -/
theorem writeBlock_inside {f g : ℕ → β} {a x : ℕ} {vs : List β} (h : a ≤ x ∧ x < a + vs.length) :
    writeBlock f a vs x = writeBlock g a vs x := by
  induction vs generalizing f g a with
  | nil =>
      rw [List.length_nil] at h
      omega
  | cons v vs ih =>
      rw [List.length_cons] at h
      rw [writeBlock, writeBlock]
      by_cases hx : x = a
      · subst hx
        rw [writeBlock_frame (.inl (Nat.lt_succ_self x)), writeBlock_frame (.inl (Nat.lt_succ_self x)),
          Function.update_self, Function.update_self]
      · exact ih (by omega)

/-- Put values at an offset of a list. -/
def fillAt (regs : List β) (off : ℕ) : List β → List β
  | [] => regs
  | v :: vs => fillAt (regs.set off v) (off + 1) vs

/-- After a part that is done, the next values take the places that follow. -/
theorem fillAt_append (done rest vs : List β) (h : vs.length ≤ rest.length) :
    fillAt (done ++ rest) done.length vs = done ++ vs ++ rest.drop vs.length := by
  induction vs generalizing done rest with
  | nil => simp [fillAt]
  | cons v vs ih =>
      cases rest with
      | nil => cases h
      | cons r rest =>
          have hset : (done ++ r :: rest).set done.length v = (done ++ [v]) ++ rest := by
            rw [List.set_append_right _ _ (le_refl _), Nat.sub_self, List.set_cons_zero,
              List.append_assoc]
            rfl
          rw [fillAt, hset]
          have hdone := ih (done ++ [v]) rest (Nat.le_of_succ_le_succ h)
          rw [List.length_append, List.length_singleton] at hdone
          rw [hdone]
          simp

end Blocks

end SoftPlc.Lib
