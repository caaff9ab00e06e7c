import Mathlib.Data.String.Basic
import Mathlib.Tactic

/-!
# Maps in key order

An ordered map is the list of its entries in the order of their keys. `insertSorted` adds an entry
under a new key; it adds one entry (`insertSorted_perm`) and keeps the order
(`SortedKeys.insertSorted`). `sortEntries` builds a map from entries in any order
(`lookup_sortEntries`); entries that are in order already stay as they are
(`sortEntries_of_sorted`). A `SortedMap` carries its order; `get_insert_self`, `get_insert_of_ne`,
`get_erase_self` and `get_erase_of_ne` say what an update does to each key.
-/

namespace SoftPlc.Lib

section SortedMap

variable {κ α : Type*}

/-- Insert into an ordered map. -/
def insertSorted [LT κ] [DecidableLT κ] (key : κ) (value : α) : List (κ × α) → List (κ × α)
  | [] => [(key, value)]
  | (k, v) :: rest =>
      if key < k then (key, value) :: (k, v) :: rest else (k, v) :: insertSorted key value rest

/-- The map with some entries. -/
def sortEntries [LT κ] [DecidableLT κ] (entries : List (κ × α)) : List (κ × α) :=
  entries.foldl (fun m e => insertSorted e.1 e.2 m) []

/-- The keys of a list of entries. -/
def keys (m : List (κ × α)) : List κ := m.map Prod.fst

/-- Keys in order, no two equal. -/
def SortedKeys [LT κ] (m : List (κ × α)) : Prop := (keys m).Pairwise (· < ·)

theorem insertSorted_perm [LT κ] [DecidableLT κ] (key : κ) (value : α) (m : List (κ × α)) :
    (insertSorted key value m).Perm ((key, value) :: m) := by
  induction m with
  | nil => exact .refl _
  | cons e m ih =>
      unfold insertSorted
      split_ifs
      · exact .refl _
      · exact (ih.cons e).trans (.swap _ _ _)

theorem sortEntries_perm [LT κ] [DecidableLT κ] (entries : List (κ × α)) :
    (sortEntries entries).Perm entries := by
  have hfold : ∀ m, (entries.foldl (fun m e => insertSorted e.1 e.2 m) m).Perm (m ++ entries) := by
    induction entries with
    | nil =>
        intro m
        rw [List.append_nil]
        exact .refl _
    | cons e entries ih =>
        intro m
        refine (ih _).trans ?_
        refine ((insertSorted_perm e.1 e.2 m).append_right entries).trans ?_
        exact List.perm_middle.symm
  exact hfold []

variable [LinearOrder κ] {m : List (κ × α)}

theorem SortedKeys.insertSorted {key : κ} {value : α} (h : SortedKeys m) (hkey : key ∉ keys m) :
    SortedKeys (insertSorted key value m) := by
  induction m with
  | nil => exact List.pairwise_singleton _ _
  | cons e m ih =>
      obtain ⟨hhead, htail⟩ := List.pairwise_cons.mp h
      unfold Lib.insertSorted
      split_ifs with hlt
      · apply List.pairwise_cons.mpr ⟨?_, h⟩
        intro k hk
        rcases List.mem_cons.mp hk with rfl | hk
        · exact hlt
        · exact hlt.trans (hhead k hk)
      · have hne : key ≠ e.1 := fun heq => hkey (heq ▸ List.mem_cons_self)
        apply List.pairwise_cons.mpr ⟨?_, ih htail fun hmem => hkey (List.mem_cons_of_mem _ hmem)⟩
        intro k hk
        have hperm : (keys (Lib.insertSorted key value m)).Perm (key :: keys m) :=
          (insertSorted_perm key value m).map Prod.fst
        rcases List.mem_cons.mp (hperm.mem_iff.mp hk) with rfl | hk
        · exact lt_of_le_of_ne (not_lt.mp hlt) hne.symm
        · exact hhead k hk

theorem SortedKeys.nodup (h : SortedKeys m) : (keys m).Nodup := h.imp fun hlt => ne_of_lt hlt

/-- An entry is found under its key. -/
theorem lookup_eq_some_iff [BEq κ] [LawfulBEq κ] (h : (keys m).Nodup) {key : κ} {value : α} :
    m.lookup key = some value ↔ (key, value) ∈ m := by
  induction m with
  | nil => simp
  | cons e m ih =>
      obtain ⟨hnew, hm⟩ := List.nodup_cons.mp h
      rw [List.lookup_cons]
      by_cases hkey : key = e.1
      · subst hkey
        simp only [beq_self_eq_true, Option.some.injEq, List.mem_cons]
        constructor
        · rintro rfl
          exact .inl rfl
        · rintro (heq | hmem)
          · rw [← heq]
          · exact absurd (List.mem_map_of_mem hmem) hnew
      · have hbeq : (key == e.1) = false := beq_eq_false_iff_ne.mpr hkey
        simp only [hbeq, List.mem_cons]
        rw [ih hm]
        constructor
        · exact .inr
        · rintro (heq | hmem)
          · exact absurd (congrArg Prod.fst heq) hkey
          · exact hmem

/-- What is found under a key does not depend on the order of the entries. -/
theorem lookup_perm [BEq κ] [LawfulBEq κ] {m' : List (κ × α)} (h : (keys m).Nodup)
    (hperm : m.Perm m') (key : κ) : m.lookup key = m'.lookup key := by
  have h' : (keys m').Nodup := (hperm.map Prod.fst).nodup_iff.mp h
  apply Option.ext
  intro value
  rw [lookup_eq_some_iff h, lookup_eq_some_iff h', hperm.mem_iff]

theorem sortEntries_sorted (h : (keys m).Nodup) : SortedKeys (sortEntries m) := by
  have hfold : ∀ (es acc : List (κ × α)), (keys (acc ++ es)).Nodup → SortedKeys acc →
      SortedKeys (es.foldl (fun m e => insertSorted e.1 e.2 m) acc) := by
    intro es
    induction es with
    | nil => exact fun _ _ hacc => hacc
    | cons e es ih =>
        intro acc hnodup hacc
        have hperm : (keys (acc ++ e :: es)).Perm (keys (insertSorted e.1 e.2 acc ++ es)) := by
          apply List.Perm.map
          exact List.perm_middle.trans ((insertSorted_perm e.1 e.2 acc).append_right es).symm
        have hnew : e.1 ∉ keys acc := by
          intro hmem
          rw [keys, List.map_append, List.nodup_append] at hnodup
          exact hnodup.2.2 _ hmem _ (List.mem_map_of_mem List.mem_cons_self) rfl
        exact ih _ (hperm.nodup_iff.mp hnodup) (hacc.insertSorted hnew)
  exact hfold m [] h List.Pairwise.nil

/-- Two maps with the same entries are equal. -/
theorem SortedKeys.eq_of_perm {m' : List (κ × α)} (h : SortedKeys m) (h' : SortedKeys m')
    (hperm : m.Perm m') : m = m' := by
  have hlt : ∀ {l : List (κ × α)}, SortedKeys l → l.Pairwise fun a b => a.1 < b.1 :=
    fun hl => List.pairwise_map.mp hl
  refine hperm.eq_of_pairwise ?_ (hlt h) (hlt h')
  intro a b _ _ hab hba
  exact absurd hab (lt_asymm hba)

/-- Two maps that find the same under every key are equal. -/
theorem SortedKeys.ext [BEq κ] [LawfulBEq κ] {m' : List (κ × α)} (h : SortedKeys m)
    (h' : SortedKeys m') (hlookup : ∀ key, m.lookup key = m'.lookup key) : m = m' := by
  apply h.eq_of_perm h'
  rw [List.perm_ext_iff_of_nodup (h.nodup.of_map _) (h'.nodup.of_map _)]
  rintro ⟨key, value⟩
  rw [← lookup_eq_some_iff h.nodup, ← lookup_eq_some_iff h'.nodup, hlookup]

theorem sortEntries_of_sorted (h : SortedKeys m) : sortEntries m = m :=
  (sortEntries_sorted h.nodup).eq_of_perm h (sortEntries_perm m)

/-- An ordered map: entries in key order. -/
def SortedMap (κ α : Type*) [LinearOrder κ] : Type _ := {m : List (κ × α) // SortedKeys m}

namespace SortedMap

instance [DecidableEq α] : DecidableEq (SortedMap κ α) := inferInstanceAs (DecidableEq (Subtype _))

/-- Entries in key order. -/
def entries (m : SortedMap κ α) : List (κ × α) := m.1

def empty : SortedMap κ α := ⟨[], List.Pairwise.nil⟩

/-- Set the value of a key. -/
def insert (m : SortedMap κ α) (key : κ) (value : α) : SortedMap κ α :=
  ⟨insertSorted key value (m.entries.filter fun e => e.1 ≠ key), by
    apply SortedKeys.insertSorted
    · exact List.Pairwise.sublist (List.filter_sublist.map _) m.2
    · intro hmem
      obtain ⟨e, he, rfl⟩ := List.mem_map.mp hmem
      exact of_decide_eq_true (List.mem_filter.mp he).2 rfl⟩

/-- The value of a key. -/
def get [BEq κ] (m : SortedMap κ α) (key : κ) : Option α := m.entries.lookup key

/-- Remove a key. -/
def erase (m : SortedMap κ α) (key : κ) : SortedMap κ α :=
  ⟨m.entries.filter fun e => e.1 ≠ key, List.Pairwise.sublist (List.filter_sublist.map _) m.2⟩

theorem mem_insert {m : SortedMap κ α} {key k : κ} {value v : α} :
    (k, v) ∈ (m.insert key value).entries ↔ (k, v) = (key, value) ∨ (k, v) ∈ m.entries ∧ k ≠ key := by
  refine (insertSorted_perm _ _ _).mem_iff.trans ?_
  rw [List.mem_cons, List.mem_filter, decide_eq_true_eq]

theorem mem_erase {m : SortedMap κ α} {key k : κ} {v : α} :
    (k, v) ∈ (m.erase key).entries ↔ (k, v) ∈ m.entries ∧ k ≠ key := by
  refine List.mem_filter.trans ?_
  rw [decide_eq_true_eq]

section Get

variable [BEq κ] [LawfulBEq κ] {m : SortedMap κ α} {key k : κ} {value v : α}

theorem get_eq_some_iff : m.get key = some value ↔ (key, value) ∈ m.entries :=
  lookup_eq_some_iff m.2.nodup

theorem get_insert_self : (m.insert key value).get key = some value :=
  get_eq_some_iff.mpr (mem_insert.mpr (.inl rfl))

theorem get_insert_of_ne (h : k ≠ key) : (m.insert key value).get k = m.get k := by
  apply Option.ext
  intro v
  rw [get_eq_some_iff, get_eq_some_iff, mem_insert]
  constructor
  · rintro (heq | ⟨hmem, -⟩)
    · exact absurd (congrArg Prod.fst heq) h
    · exact hmem
  · exact fun hmem => .inr ⟨hmem, h⟩

theorem get_erase_self : (m.erase key).get key = none := by
  apply Option.eq_none_iff_forall_not_mem.mpr
  intro v hv
  exact (mem_erase.mp (get_eq_some_iff.mp hv)).2 rfl

theorem get_erase_of_ne (h : k ≠ key) : (m.erase key).get k = m.get k := by
  apply Option.ext
  intro v
  rw [get_eq_some_iff, get_eq_some_iff, mem_erase]
  exact ⟨And.left, fun hmem => ⟨hmem, h⟩⟩

end Get

/-- Setting the values of entries that are in order gives these entries. -/
theorem foldl_insert (m : SortedMap κ α) :
    m.entries.foldl (fun m e => m.insert e.1 e.2) empty = m := by
  have hfold : ∀ (es : List (κ × α)) (acc : SortedMap κ α), (keys (acc.entries ++ es)).Nodup →
      (es.foldl (fun m e => m.insert e.1 e.2) acc).entries =
        es.foldl (fun m e => insertSorted e.1 e.2 m) acc.entries := by
    intro es
    induction es with
    | nil => exact fun _ _ => rfl
    | cons e es ih =>
        intro acc hnodup
        have hnew : e.1 ∉ keys acc.entries := by
          intro hmem
          rw [keys, List.map_append, List.nodup_append] at hnodup
          exact hnodup.2.2 _ hmem _ (List.mem_map_of_mem List.mem_cons_self) rfl
        have hinsert : (acc.insert e.1 e.2).entries = insertSorted e.1 e.2 acc.entries := by
          have hall : acc.entries.filter (fun x => x.1 ≠ e.1) = acc.entries := by
            apply List.filter_eq_self.mpr
            intro x hx
            exact decide_eq_true fun heq => hnew (heq ▸ List.mem_map_of_mem hx)
          exact congrArg (insertSorted e.1 e.2) hall
        have hperm : (keys (acc.entries ++ e :: es)).Perm
            (keys ((acc.insert e.1 e.2).entries ++ es)) := by
          rw [hinsert]
          apply List.Perm.map
          exact List.perm_middle.trans ((insertSorted_perm e.1 e.2 _).append_right es).symm
        rw [List.foldl_cons, List.foldl_cons, ih _ (hperm.nodup_iff.mp hnodup), hinsert]
  apply Subtype.ext
  refine (hfold m.entries empty m.2.nodup).trans ?_
  exact sortEntries_of_sorted m.2

end SortedMap

end SortedMap

end SoftPlc.Lib
