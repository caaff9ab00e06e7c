import SoftPlc.Io.FieldMap

/-!
# Configured safe states

`safe_states_kept_iff`: an integer safe state of a resolved map is the number in the image exactly where
it is in the range of its type, because `parse_safe_state` cuts an `i64` down to the width of the slot.
-/

namespace SoftPlc.Io

open SoftPlc.Lib
open SoftPlc.Api (JsonValue)

/-- The number in a value of an integer type. -/
def PlcValue.asInt : PlcValue → Option ℤ
  | .int v => some v.toInt
  | .dint v | .time v => some v.toInt
  | _ => none

/-- The integer types. -/
def ValueType.Integral : ValueType → Prop
  | .int | .dint | .time => True
  | _ => False

/-- The range of an integer type. -/
def ValueType.Fits : ValueType → ℤ → Prop
  | .int, n => -2 ^ 15 ≤ n ∧ n < 2 ^ 15
  | .dint, n | .time, n => -2 ^ 31 ≤ n ∧ n < 2 ^ 31
  | _, _ => True

/-- An output of an integer type with the integer `n` as its safe state. -/
def FieldBinding.IntegerSafe (b : FieldBinding) (n : ℤ) : Prop :=
  b.image = .q ∧ b.valueType.Integral ∧ b.safeState = some (.int n)

theorem ofInt16_eq_iff (n : ℤ) : (BitVec.ofInt 16 n).toInt = n ↔ -2 ^ 15 ≤ n ∧ n < 2 ^ 15 := by
  rw [BitVec.toInt_ofInt, Int.bmod]
  split <;> omega

theorem ofInt32_eq_iff (n : ℤ) : (BitVec.ofInt 32 n).toInt = n ↔ -2 ^ 31 ≤ n ∧ n < 2 ^ 31 := by
  rw [BitVec.toInt_ofInt, Int.bmod]
  split <;> omega

/-- What the cast to the type of the slot leaves of an integer. -/
theorem parseSafeState_int {num : JsonNumbers} {ty : ValueType} {n : ℤ} {v : PlcValue}
    (hty : ty.Integral) (h : parseSafeState num ty (some (.int n)) = .ok v) :
    v.asInt = some n ↔ ty.Fits n := by
  unfold parseSafeState jsonI64 at h
  cases ty with
  | bool => exact absurd hty id
  | real => exact absurd hty id
  | int =>
      dsimp only at h
      split_ifs at h
      · cases h
        exact Option.some_inj.trans (ofInt16_eq_iff n)
      · cases h
  | dint =>
      dsimp only at h
      split_ifs at h
      · cases h
        exact Option.some_inj.trans (ofInt32_eq_iff n)
      · cases h
  | time =>
      dsimp only at h
      split_ifs at h
      · cases h
        exact Option.some_inj.trans (ofInt32_eq_iff n)
      · cases h

/-- A slot carries the safe state of its binding: an integer as it is, anything else as the source
converts it. -/
structure FieldBinding.Carried (num : JsonNumbers) (b : FieldBinding) (v : PlcValue) : Prop where
  integer : ∀ n, b.IntegerSafe n → v.asInt = some n
  other : (¬∃ n, b.IntegerSafe n) → parseSafeState num b.valueType b.safeState = .ok v

theorem FieldBinding.carried_iff {num : JsonNumbers} {b : FieldBinding} {v : PlcValue}
    (h : parseSafeState num b.valueType b.safeState = .ok v) :
    b.Carried num v ↔ ∀ n, b.IntegerSafe n → b.valueType.Fits n := by
  constructor
  · intro hv n hint
    rw [hint.2.2] at h
    exact (parseSafeState_int hint.2.1 h).mp (hv.integer n hint)
  · intro hfits
    refine ⟨fun n hint => ?_, fun _ => h⟩
    rw [hint.2.2] at h
    exact (parseSafeState_int hint.2.1 h).mpr (hfits n hint)

section Resolved

variable {κ : Type} {num : JsonNumbers} {modules : List (FieldModule κ)} {map : FieldMap}

/-- The `k`-th binding of a map was given the `k`-th place. -/
theorem placed_at (h : resolveMap num modules = .ok map) {k : ℕ} {e : Entry}
    (he : (entriesFrom 0 modules)[k]? = some e) :
    ∃ slot, (assign ((entriesFrom 0 modules).map Entry.binding))[k]? =
        some (e.binding.image, slot) ∧
      map.bindings[k]? = some (e.placed (e.binding.image, slot)) := by
  obtain ⟨st, hst, hbindings, -⟩ := resolveMap_placed h
  have hlen := length_assign ((entriesFrom 0 modules).map Entry.binding)
  rw [List.length_map] at hlen
  have hk : k < (assign ((entriesFrom 0 modules).map Entry.binding)).length := by
    rw [hlen]
    exact (List.getElem?_eq_some_iff.mp he).1
  obtain ⟨⟨image, slot⟩, hplace⟩ : ∃ p : Place,
      (assign ((entriesFrom 0 modules).map Entry.binding))[k]? = some p :=
    ⟨_, List.getElem?_eq_getElem hk⟩
  have himage : image = e.binding.image := by
    have hfst := congrArg (fun l => l[k]?) (map_fst_assign ((entriesFrom 0 modules).map Entry.binding))
    simpa [List.getElem?_map, hplace, he] using hfst
  subst himage
  refine ⟨slot, hplace, ?_⟩
  rw [hbindings, hst.bindings, List.getElem?_zipWith, he, hplace]

/-- Where a binding is, and what its slot holds. -/
theorem slot_at (h : resolveMap num modules = .ok map) {k : ℕ} {e : Entry} {p : PlacedBinding}
    (he : (entriesFrom 0 modules)[k]? = some e) (hp : map.bindings[k]? = some p) :
    p = e.placed (e.binding.image, p.slot) ∧
      (assign ((entriesFrom 0 modules).map Entry.binding))[k]? = some (e.binding.image, p.slot) ∧
      (map.slotMeta e.binding.image)[p.slot]? =
        some ⟨e.binding.tag, e.binding.valueType, e.binding.unit⟩ ∧
      (e.binding.image = .q → ∃ v,
        parseSafeState num e.binding.valueType e.binding.safeState = .ok v ∧
        map.image.outputSafe[p.slot]? = some v) := by
  obtain ⟨st, hst, -, hmeta, houts⟩ := resolveMap_placed h
  obtain ⟨slot, hplace, hp'⟩ := placed_at h he
  obtain rfl : e.placed (e.binding.image, slot) = p := Option.some.inj (hp'.symm.trans hp)
  have hzip : (e, (e.binding.image, slot)) ∈
      (entriesFrom 0 modules).zip (assign ((entriesFrom 0 modules).map Entry.binding)) :=
    List.mem_of_getElem? (List.getElem?_zip_eq_some.mpr ⟨he, hplace⟩)
  obtain ⟨safe, hparse, hfill⟩ := hst.filled _ hzip
  dsimp only at hparse hfill
  refine ⟨rfl, hplace, ?_, fun hq => ?_⟩
  · rw [hmeta, fillMeta, List.getElem?_mapIdx]
    show Option.map _ (st.plane e.binding.image).slots[slot]? = _
    rw [hfill]
    rfl
  · unfold FieldBinding.safe at hparse
    rw [if_pos hq] at hparse
    rcases hv : parseSafeState num e.binding.valueType e.binding.safeState with _ | v
    · rw [hv] at hparse
      cases hparse
    · rw [hv] at hparse
      cases hparse
      refine ⟨v, rfl, ?_⟩
      rw [hq] at hfill
      rw [houts, List.getElem?_map]
      show Option.map _ (st.plane .q).slots[slot]? = _
      rw [hfill]
      rfl

/-- A resolved map with an integer out of range holds another number in its place. -/
theorem safe_state_wrapped (h : resolveMap num modules = .ok map) {k : ℕ} {e : Entry}
    {p : PlacedBinding} {n : ℤ} (he : (entriesFrom 0 modules)[k]? = some e)
    (hp : map.bindings[k]? = some p) (hint : e.binding.IntegerSafe n) :
    (map.image.outputSafe[p.slot]?).bind PlcValue.asInt = some n ↔ e.binding.valueType.Fits n := by
  obtain ⟨-, -, -, hsafe⟩ := slot_at h he hp
  obtain ⟨v, hparse, hv⟩ := hsafe hint.1
  rw [hint.2.2] at hparse
  rw [hv]
  exact parseSafeState_int hint.2.1 hparse

/-- What a resolved map owes for the integer safe states of its outputs. -/
structure SafeStatesKept (modules : List (FieldModule κ)) (map : FieldMap) : Prop where
  /-- The image holds the integer. -/
  held : ∀ (k : ℕ) (e : Entry) (p : PlacedBinding) (n : ℤ), (entriesFrom 0 modules)[k]? = some e →
    map.bindings[k]? = some p → e.binding.IntegerSafe n →
    (map.image.outputSafe[p.slot]?).bind PlcValue.asInt = some n
  /-- A map with an integer out of range is not resolved. -/
  refused : ¬∃ e ∈ entriesFrom 0 modules, ∃ n, e.binding.IntegerSafe n ∧ ¬e.binding.valueType.Fits n

/-- **Integer safe states are kept exactly where they fit**, and a map is resolved whether they fit or
not. -/
theorem safe_states_kept_iff (h : resolveMap num modules = .ok map) :
    SafeStatesKept modules map ↔
      ∀ e ∈ entriesFrom 0 modules, ∀ n, e.binding.IntegerSafe n → e.binding.valueType.Fits n := by
  constructor
  · intro hkept e he n hint
    obtain ⟨k, hk⟩ := List.mem_iff_getElem?.mp he
    obtain ⟨slot, -, hp⟩ := placed_at h hk
    exact (safe_state_wrapped h hk hp hint).mp (hkept.held k e _ n hk hp hint)
  · intro hfits
    refine ⟨?_, ?_⟩
    · intro k e p n he hp hint
      exact (safe_state_wrapped h he hp hint).mpr (hfits e (List.mem_of_getElem? he) n hint)
    · rintro ⟨e, he, n, hint, hout⟩
      exact hout (hfits e he n hint)

end Resolved

/-- Numbers that nothing reads. -/
def noNumbers : JsonNumbers := ⟨fun _ => "", fun _ => F32.zero, fun _ => F32.zero⟩

/-- A module with one output of type INT. -/
def valveModule (n : ℤ) : FieldModule Unit where
  id := "plant"
  driver := "sim"
  config := ()
  onBadQuality := .forceSafe
  bindings :=
    [{ tag := "Valve", image := .q, valueType := .int, bit := none, scale := ⟨0⟩, offset := ⟨0⟩,
       clamp := none, register := none, registerType := none, rawType := none, slot := none,
       unit := "", safeState := some (.int n) }]

/-- A map whose parts can be read off resolves. -/
theorem exists_map_of_parts {κ β : Type} {num : JsonNumbers} {modules : List (FieldModule κ)}
    {parts : FieldMap → β} {b : β} (h : (resolveMap num modules).toOption.map parts = some b) :
    ∃ map, resolveMap num modules = .ok map ∧ parts map = b := by
  rcases hmap : resolveMap num modules with e | map
  · rw [hmap] at h
    cases h
  · rw [hmap] at h
    exact ⟨map, rfl, Option.some.inj h⟩

/-- A safe state that fits. -/
theorem safe_states_kept_valve : ∃ map, resolveMap noNumbers [valveModule 100] = .ok map ∧
    (SafeStatesKept [valveModule 100] map ↔ ∀ e ∈ entriesFrom 0 [valveModule 100], ∀ n,
      e.binding.IntegerSafe n → e.binding.valueType.Fits n) := by
  obtain ⟨map, hmap, -⟩ := @exists_map_of_parts _ _ noNumbers [valveModule 100]
    (fun m => m.image.outputSafe) [.int 100] (by decide +kernel)
  exact ⟨map, hmap, safe_states_kept_iff hmap⟩

/-- An INT with the safe state 40000 gets the safe state -25536. -/
theorem safe_state_lost : ∃ map, resolveMap noNumbers [valveModule 40000] = .ok map ∧
    map.image.outputSafe = [.int (BitVec.ofInt 16 (-25536))] ∧
    ¬SafeStatesKept [valveModule 40000] map := by
  obtain ⟨map, hmap, hout⟩ := @exists_map_of_parts _ _ noNumbers [valveModule 40000]
    (fun m => m.image.outputSafe) [.int (BitVec.ofInt 16 (-25536))] (by decide +kernel)
  refine ⟨map, hmap, hout, ?_⟩
  intro hkept
  obtain ⟨slot, hplace, hp⟩ := placed_at hmap (show (entriesFrom 0 [valveModule 40000])[0]? = _ from rfl)
  have hheld := hkept.held 0 _ _ 40000 rfl hp ⟨rfl, trivial, rfl⟩
  obtain rfl : 0 = slot := congrArg Prod.snd (Option.some.inj hplace)
  rw [hout] at hheld
  revert hheld
  decide

end SoftPlc.Io
