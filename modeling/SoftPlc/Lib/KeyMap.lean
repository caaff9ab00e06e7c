import Mathlib.Data.List.AList
import Mathlib.Tactic

/-!
# Keeping some entries of a map

`retainMap keep m` changes every value of a map and drops the entries for which `keep` gives none,
key by key.
-/

namespace SoftPlc.Lib

variable {α β : Type*}

/-- The entries of a list whose values are kept. -/
def retainEntries (keep : β → Option β) (l : List (Sigma fun _ : α => β)) :
    List (Sigma fun _ : α => β) :=
  l.filterMap fun e => (keep e.2).map (Sigma.mk e.1)

/-- No key is added. -/
theorem retainEntries_keys (keep : β → Option β) (l : List (Sigma fun _ : α => β)) :
    (retainEntries keep l).keys.Sublist l.keys := by
  induction l with
  | nil => exact .slnil
  | cons e l ih =>
      rcases hkeep : keep e.2 with _ | v
      · have hcons : retainEntries keep (e :: l) = retainEntries keep l :=
          List.filterMap_cons_none (by rw [hkeep]; rfl)
        rw [hcons]
        exact ih.cons e.1
      · have hcons : retainEntries keep (e :: l) = ⟨e.1, v⟩ :: retainEntries keep l :=
          List.filterMap_cons_some (by rw [hkeep]; rfl)
        rw [hcons]
        exact ih.cons_cons e.1

/-- Keep the entries for which `keep` gives a value. -/
def retainMap (keep : β → Option β) (m : AList fun _ : α => β) : AList fun _ : α => β :=
  ⟨retainEntries keep m.entries, (retainEntries_keys keep m.entries).nodup m.nodupKeys⟩

/-- A map does not grow. -/
theorem retainMap_keys (keep : β → Option β) (m : AList fun _ : α => β) :
    (retainMap keep m).keys.Sublist m.keys :=
  retainEntries_keys keep m.entries

variable [DecidableEq α]

/-- The value of a key in a list. -/
theorem dlookup_retainEntries (keep : β → Option β) {l : List (Sigma fun _ : α => β)}
    (h : l.NodupKeys) (a : α) : (retainEntries keep l).dlookup a = (l.dlookup a).bind keep := by
  induction l with
  | nil => rfl
  | cons e l ih =>
      obtain ⟨k, u⟩ := e
      obtain ⟨hk, hl⟩ := List.nodupKeys_cons.mp h
      rcases hkeep : keep u with _ | v
      · have hcons : retainEntries keep (⟨k, u⟩ :: l) = retainEntries keep l :=
          List.filterMap_cons_none (by simp only [hkeep]; rfl)
        rw [hcons, ih hl]
        by_cases ha : a = k
        · subst ha
          rw [List.dlookup_cons_eq, List.dlookup_eq_none.mpr hk]
          exact hkeep.symm
        · rw [List.dlookup_cons_ne _ _ ha]
      · have hcons : retainEntries keep (⟨k, u⟩ :: l) = ⟨k, v⟩ :: retainEntries keep l :=
          List.filterMap_cons_some (by simp only [hkeep]; rfl)
        rw [hcons]
        by_cases ha : a = k
        · subst ha
          rw [List.dlookup_cons_eq, List.dlookup_cons_eq]
          exact hkeep.symm
        · rw [List.dlookup_cons_ne _ _ ha, List.dlookup_cons_ne _ _ ha]
          exact ih hl

/-- The value of a key. -/
theorem lookup_retainMap (keep : β → Option β) (m : AList fun _ : α => β) (a : α) :
    (retainMap keep m).lookup a = (m.lookup a).bind keep :=
  dlookup_retainEntries keep m.nodupKeys a

/-- A key that is there keeps the map as long as it is, another one makes it longer by one. -/
theorem length_keys_insert (a : α) (b : β) (m : AList fun _ : α => β) :
    (m.insert a b).keys.length = if a ∈ m then m.keys.length else m.keys.length + 1 := by
  rw [AList.keys_insert, List.length_cons]
  split_ifs with h
  · have hpos := List.length_pos_of_mem (AList.mem_keys.mp h)
    rw [List.length_erase_of_mem (AList.mem_keys.mp h)]
    omega
  · rw [List.erase_of_not_mem (fun hin => h (AList.mem_keys.mpr hin))]

end SoftPlc.Lib
