import SoftPlc.Io.SafeStates
import SoftPlc.Scan.ReadTag

/-!
# Tags and slots

A resolved map gives each binding a slot of its own, and without a program `Runtime::lookup_tag` searches
the names of the image: `%I`, then `%Q`, then `%M`, each from slot 0. Slots that no binding has are
named too, with names that a binding may have. `slots_owned_iff` says when a tag is found at its own
slot.
-/

namespace SoftPlc.Scan

open SoftPlc.Ir SoftPlc.Io SoftPlc.Lib
open SoftPlc.Io.Modbus (ImagePlane)

/-! ## The search -/

/-- Source: `loader.rs`, the kinds that `Runtime::lookup_tag` returns. -/
def kindOf : ImagePlane → TagKind
  | .i => .i
  | .q => .q
  | .m => .m

/-- The order in which the planes are searched. -/
def searchRank : ImagePlane → ℕ
  | .i => 0
  | .q => 1
  | .m => 2

theorem searchRank_inj {a b : ImagePlane} (h : searchRank a = searchRank b) : a = b := by
  cases a <;> cases b <;> first | rfl | cases h

/-- A place is searched before another one. -/
def Before (p q : Place) : Prop := searchRank p.1 < searchRank q.1 ∨ (p.1 = q.1 ∧ p.2 < q.2)

/-- Two places of which none is searched before the other are one. -/
theorem eq_of_not_before {p q : Place} (h : ¬Before p q) (h' : ¬Before q p) : p = q := by
  unfold Before at h h'
  push Not at h h'
  have himage : p.1 = q.1 := searchRank_inj (le_antisymm h'.1 h.1)
  exact Prod.ext himage (le_antisymm (h'.2 himage.symm) (h.2 himage))

/-- Names and types of the image that a map gives. -/
def namesOf (slotMeta : ImagePlane → List FieldMeta) : ImageMeta :=
  let plain := fun image => (slotMeta image).map fun m => ⟨m.tag, m.ty⟩
  ⟨plain .i, plain .q, plain .m⟩

theorem lookupMeta_cases (kind : TagKind) (name : String) (slots : List FieldMeta) (i : ℕ) :
    (lookupMeta kind name (slots.map fun m => ⟨m.tag, m.ty⟩) i = none ∧
      ∀ (j : ℕ) (m : FieldMeta), slots[j]? = some m → m.tag ≠ name) ∨
    ∃ (j : ℕ) (m : FieldMeta), slots[j]? = some m ∧ m.tag = name ∧
      (∀ (j' : ℕ) (m' : FieldMeta), j' < j → slots[j']? = some m' → m'.tag ≠ name) ∧
      lookupMeta kind name (slots.map fun m => ⟨m.tag, m.ty⟩) i =
        some (kind, i + j, valueTypeToIr m.ty) := by
  induction slots generalizing i with
  | nil => exact .inl ⟨rfl, fun j m h => by simp at h⟩
  | cons s slots ih =>
      rw [List.map_cons, lookupMeta]
      by_cases hs : s.tag = name
      · refine .inr ⟨0, s, rfl, hs, fun j' m' hlt => absurd hlt (Nat.not_lt_zero _), ?_⟩
        exact if_pos hs
      · rw [if_neg hs]
        rcases ih (i + 1) with ⟨hnone, hall⟩ | ⟨j, m, hm, htag, hfirst, hsome⟩
        · refine .inl ⟨hnone, fun j m hj => ?_⟩
          cases j with
          | zero =>
              cases hj
              exact hs
          | succ j => exact hall j m hj
        · refine .inr ⟨j + 1, m, hm, htag, ?_, ?_⟩
          · intro j' m' hlt hj'
            cases j' with
            | zero =>
                cases hj'
                exact hs
            | succ j' => exact hfirst j' m' (Nat.lt_of_succ_lt_succ hlt) hj'
          · rw [hsome]
            congr 3
            omega

/-- What a name search finds is the first place that has the name. -/
theorem lookupTag_first {rt : IoRuntime} (hdict : rt.tagDictionary = [])
    {slotMeta : ImagePlane → List FieldMeta} {name : String} {p : Place} {m : FieldMeta}
    (hp : (slotMeta p.1)[p.2]? = some m) (hname : m.tag = name) :
    ∃ q : Place, ∃ found, (slotMeta q.1)[q.2]? = some found ∧ found.tag = name ∧
      rt.lookupTag (namesOf slotMeta) name = .ok (kindOf q.1, q.2, valueTypeToIr found.ty) ∧
      ∀ r : Place, ∀ m', (slotMeta r.1)[r.2]? = some m' → m'.tag = name → ¬Before r q := by
  unfold IoRuntime.lookupTag namesOf
  rw [hdict, List.find?_nil]
  dsimp only
  rcases lookupMeta_cases .i name (slotMeta .i) 0 with
    ⟨hi, hnoi⟩ | ⟨j, f, hf, htag, hfirst, hsome⟩
  · rw [hi]
    rcases lookupMeta_cases .q name (slotMeta .q) 0 with
      ⟨hq, hnoq⟩ | ⟨j, f, hf, htag, hfirst, hsome⟩
    · rw [hq]
      rcases lookupMeta_cases .m name (slotMeta .m) 0 with
        ⟨-, hnom⟩ | ⟨j, f, hf, htag, hfirst, hsome⟩
      · obtain ⟨image, i⟩ := p
        cases image with
        | i => exact absurd hname (hnoi i m hp)
        | q => exact absurd hname (hnoq i m hp)
        | m => exact absurd hname (hnom i m hp)
      · refine ⟨(.m, j), f, hf, htag, by rw [hsome]; simp [kindOf], ?_⟩
        rintro ⟨image, i⟩ m' hm' htag' (hlt | ⟨himage, hlt⟩)
        · cases image with
          | i => exact hnoi i m' hm' htag'
          | q => exact hnoq i m' hm' htag'
          | m => exact lt_irrefl _ hlt
        · dsimp only at himage hlt hm'
          rw [himage] at hm'
          exact hfirst i m' hlt hm' htag'
    · refine ⟨(.q, j), f, hf, htag, by rw [hsome]; simp [kindOf], ?_⟩
      rintro ⟨image, i⟩ m' hm' htag' (hlt | ⟨himage, hlt⟩)
      · cases image with
        | i => exact hnoi i m' hm' htag'
        | q => exact lt_irrefl _ hlt
        | m => exact absurd hlt (by simp [searchRank])
      · dsimp only at himage hlt hm'
        rw [himage] at hm'
        exact hfirst i m' hlt hm' htag'
  · refine ⟨(.i, j), f, hf, htag, by rw [hsome]; simp [kindOf], ?_⟩
    rintro ⟨image, i⟩ m' hm' htag' (hlt | ⟨himage, hlt⟩)
    · exact absurd hlt (Nat.not_lt_zero _)
    · dsimp only at himage hlt hm'
      rw [himage] at hm'
      exact hfirst i m' hlt hm' htag'

/-! ## Every binding has its slot -/

/-- A slot below the largest one of its plane that no binding has. -/
def Gap (places : List Place) (q : Place) : Prop := q ∉ places ∧ q.2 < nextFree places q.1

instance (places : List Place) (q : Place) : Decidable (Gap places q) := by
  unfold Gap
  infer_instance

section Resolved

variable {κ : Type} {num : JsonNumbers} {modules : List (FieldModule κ)} {map : FieldMap}

/-- The places of the bindings of a map. -/
def places (modules : List (FieldModule κ)) : List Place :=
  assign ((entriesFrom 0 modules).map Entry.binding)

/-- No binding has the name that fills a gap searched before its own slot. -/
def NoShadow (modules : List (FieldModule κ)) : Prop :=
  ∀ (k : ℕ) (e : Entry) (p q : Place), (entriesFrom 0 modules)[k]? = some e →
    (places modules)[k]? = some p → Gap (places modules) q →
    placeholder q.1 q.2 = e.binding.tag → ¬Before q p

/-- Every integer safe state of an output is in the range of its type. -/
def SafeStatesFit (modules : List (FieldModule κ)) : Prop :=
  ∀ e ∈ entriesFrom 0 modules, ∀ n, e.binding.IntegerSafe n → e.binding.valueType.Fits n

/-- What the image of a map owes to its bindings. -/
structure SlotsOwned (num : JsonNumbers) (modules : List (FieldModule κ)) (map : FieldMap)
    (rt : IoRuntime) : Prop where
  /-- No two bindings share a slot of a plane. -/
  apart : ∀ (k k' : ℕ) (p p' : PlacedBinding), map.bindings[k]? = some p →
    map.bindings[k']? = some p' → p.image = p'.image → p.slot = p'.slot → k = k'
  /-- The slot of a binding carries what the binding says. -/
  carried : ∀ (k : ℕ) (e : Entry), (entriesFrom 0 modules)[k]? = some e →
    ∃ p, map.bindings[k]? = some p ∧ p = e.placed (e.binding.image, p.slot) ∧
      (map.slotMeta p.image)[p.slot]? =
        some ⟨e.binding.tag, e.binding.valueType, e.binding.unit⟩ ∧
      (e.binding.image = .q → ∃ v, map.image.outputSafe[p.slot]? = some v ∧
        e.binding.Carried num v)
  /-- A tag is found at the slot of its binding. -/
  found : ∀ (k : ℕ) (e : Entry) (p : PlacedBinding), (entriesFrom 0 modules)[k]? = some e →
    map.bindings[k]? = some p →
    rt.lookupTag (namesOf map.slotMeta) e.binding.tag =
      .ok (kindOf p.image, p.slot, valueTypeToIr e.binding.valueType)

/-- A place with a name is a gap with its placeholder or the slot of a binding with its tag. -/
theorem name_cases (h : resolveMap num modules = .ok map) {q : Place} {m : FieldMeta}
    (hq : (map.slotMeta q.1)[q.2]? = some m) :
    (Gap (places modules) q ∧ m = ⟨placeholder q.1 q.2, .bool, ""⟩) ∨
      ∃ (k : ℕ) (e : Entry), (entriesFrom 0 modules)[k]? = some e ∧
        (places modules)[k]? = some q ∧ m.tag = e.binding.tag := by
  obtain ⟨st, hst, -, hmeta, -⟩ := resolveMap_placed h
  have hlen : q.2 < (st.plane q.1).slots.length := by
    have hlt := (List.getElem?_eq_some_iff.mp hq).1
    rw [hmeta, fillMeta, List.length_mapIdx] at hlt
    exact hlt
  by_cases hmem : q ∈ places modules
  · right
    obtain ⟨k, hk⟩ := List.mem_iff_getElem?.mp hmem
    have hkey : k < (entriesFrom 0 modules).length := by
      have hlt := (List.getElem?_eq_some_iff.mp hk).1
      unfold places at hlt
      rwa [length_assign, List.length_map] at hlt
    have he := List.getElem?_eq_getElem hkey
    obtain ⟨slot, hplace, hp⟩ := placed_at h he
    obtain ⟨-, -, hslot, -⟩ := slot_at h he hp
    obtain rfl : _ = q := Option.some.inj (hplace.symm.trans hk)
    refine ⟨k, _, he, hk, ?_⟩
    have hsame : _ = m := Option.some.inj (hslot.symm.trans hq)
    rw [← hsame]
  · left
    refine ⟨⟨hmem, (hst.length q.1) ▸ hlen⟩, ?_⟩
    rw [hmeta, fillMeta, List.getElem?_mapIdx, hst.free q.1 q.2 hmem hlen] at hq
    exact (Option.some.inj hq).symm

/-- The name of a gap. -/
theorem name_of_gap (h : resolveMap num modules = .ok map) {q : Place}
    (hq : Gap (places modules) q) :
    (map.slotMeta q.1)[q.2]? = some ⟨placeholder q.1 q.2, .bool, ""⟩ := by
  obtain ⟨st, hst, -, hmeta, -⟩ := resolveMap_placed h
  have hlen : q.2 < (st.plane q.1).slots.length := (hst.length q.1).symm ▸ hq.2
  rw [hmeta, fillMeta, List.getElem?_mapIdx, hst.free q.1 q.2 hq.1 hlen]
  rfl

/-- Bindings with one tag are one. -/
theorem entry_eq_of_tag (h : resolveMap num modules = .ok map) {k k' : ℕ} {e e' : Entry}
    (he : (entriesFrom 0 modules)[k]? = some e) (he' : (entriesFrom 0 modules)[k']? = some e')
    (htag : e.binding.tag = e'.binding.tag) : k = k' := by
  obtain ⟨st, hst, -⟩ := resolveMap_placed h
  have hlt : k < ((entriesFrom 0 modules).map fun e => e.binding.tag).length := by
    rw [List.length_map]
    exact (List.getElem?_eq_some_iff.mp he).1
  apply (List.getElem?_inj hlt hst.tags).mp
  rw [List.getElem?_map, List.getElem?_map, he, he']
  exact congrArg some htag

/-- A tag is found at the slot of its binding, unless a gap before it has that name. -/
theorem lookup_iff (h : resolveMap num modules = .ok map) {rt : IoRuntime}
    (hdict : rt.tagDictionary = []) {k : ℕ} {e : Entry} {p : PlacedBinding}
    (he : (entriesFrom 0 modules)[k]? = some e) (hp : map.bindings[k]? = some p) :
    rt.lookupTag (namesOf map.slotMeta) e.binding.tag =
        .ok (kindOf p.image, p.slot, valueTypeToIr e.binding.valueType) ↔
      ∀ q, Gap (places modules) q → placeholder q.1 q.2 = e.binding.tag →
        ¬Before q (e.binding.image, p.slot) := by
  obtain ⟨hplaced, hplace, hslot, -⟩ := slot_at h he hp
  have himage : p.image = e.binding.image := by
    rw [hplaced]
    rfl
  obtain ⟨r, found, hfound, htag, hlookup, hfirst⟩ :=
    lookupTag_first hdict (p := (e.binding.image, p.slot)) hslot rfl
  rw [hlookup, himage]
  constructor
  · intro heq q hgap hname
    have hr : r = (e.binding.image, p.slot) := by
      have hpair := Except.ok.inj heq
      refine Prod.ext ?_ (congrArg (fun x => x.2.1) hpair)
      have hkind : kindOf r.1 = kindOf e.binding.image := congrArg Prod.fst hpair
      revert hkind
      cases r.1 <;> cases e.binding.image <;> simp [kindOf]
    rw [← hr]
    exact hfirst q _ (name_of_gap h hgap) hname
  · intro hfree
    have hr : r = (e.binding.image, p.slot) := by
      rcases name_cases h hfound with ⟨hgap, rfl⟩ | ⟨k', e', he', hr, htag'⟩
      · -- a gap with this name comes after the slot, but the slot is not searched before it
        exact eq_of_not_before (hfree r hgap htag) (hfirst (e.binding.image, p.slot) _ hslot rfl)
      · obtain rfl := entry_eq_of_tag h he he' (htag.symm.trans htag')
        exact Option.some.inj (hr.symm.trans hplace)
    have hty : found.ty = e.binding.valueType := by
      rw [hr] at hfound
      rw [Option.some.inj (hfound.symm.trans hslot)]
    rw [hr, hty]

/-- **Every binding owns its slot** exactly where no gap takes its name and its safe state fits. -/
theorem slots_owned_iff (h : resolveMap num modules = .ok map) {rt : IoRuntime}
    (hdict : rt.tagDictionary = []) :
    SlotsOwned num modules map rt ↔ NoShadow modules ∧ SafeStatesFit modules := by
  constructor
  · intro howned
    refine ⟨?_, ?_⟩
    · intro k e p q he hplace hgap hname
      obtain ⟨slot, hplace', hp⟩ := placed_at h he
      obtain rfl : _ = p := Option.some.inj (hplace'.symm.trans hplace)
      exact (lookup_iff h hdict he hp).mp (howned.found k e _ he hp) q hgap hname
    · intro e he
      by_cases hq : e.binding.image = .q
      · obtain ⟨k, hk⟩ := List.mem_iff_getElem?.mp he
        obtain ⟨p, hp, -, -, hsafe⟩ := howned.carried k e hk
        obtain ⟨v, hv, hcarried⟩ := hsafe hq
        obtain ⟨v', hparse, hv'⟩ := (slot_at h hk hp).2.2.2 hq
        obtain rfl : v = v' := Option.some.inj (hv.symm.trans hv')
        exact (FieldBinding.carried_iff hparse).mp hcarried
      · exact fun n hint => absurd hint.1 hq
  · rintro ⟨hshadow, hfits⟩
    obtain ⟨st, hst, hbindings, -⟩ := resolveMap_placed h
    refine ⟨?_, ?_, ?_⟩
    · intro k k' p p' hp hp' himage hslot
      have hkey : ∀ {k : ℕ} {p : PlacedBinding}, map.bindings[k]? = some p →
          (places modules)[k]? = some (p.image, p.slot) := by
        intro k p hp
        rw [hbindings, hst.bindings, List.getElem?_zipWith] at hp
        unfold places
        split at hp
        · next he hplace =>
            cases hp
            exact hplace
        · cases hp
      have hk := hkey hp
      have hk' := hkey hp'
      rw [himage, hslot, ← hk'] at hk
      exact (List.getElem?_inj (List.getElem?_eq_some_iff.mp (hkey hp)).1 hst.apart).mp hk
    · intro k e he
      obtain ⟨slot, -, hp⟩ := placed_at h he
      obtain ⟨hplaced, -, hslot, hsafe⟩ := slot_at h he hp
      refine ⟨_, hp, hplaced, hslot, fun hq => ?_⟩
      obtain ⟨v, hparse, hv⟩ := hsafe hq
      exact ⟨v, hv, (FieldBinding.carried_iff hparse).mpr (hfits e (List.mem_of_getElem? he))⟩
    · intro k e p he hp
      obtain ⟨-, hplace, -⟩ := slot_at h he hp
      exact (lookup_iff h hdict he hp).mpr fun q => hshadow k e _ q he hplace

end Resolved

theorem one_lt_slots : 1 < 2 ^ 32 := by decide

/-- A module with one BOOL output at slot 1. -/
def lampModule (tag : String) : FieldModule Unit where
  id := "plant"
  driver := "sim"
  config := ()
  onBadQuality := .forceSafe
  bindings :=
    [{ tag := tag, image := .q, valueType := .bool, bit := none, scale := ⟨0⟩, offset := ⟨0⟩,
       clamp := none, register := none, registerType := none, rawType := none, slot := some ⟨1, one_lt_slots⟩,
       unit := "", safeState := none }]

/-- A runtime without a program. -/
def idleRuntime : IoRuntime := .bare (forcedDevice []).engine

/-- A tag that no gap has. -/
theorem slots_owned_lamp : ∃ map, resolveMap noNumbers [lampModule "Lamp"] = .ok map ∧
    (SlotsOwned noNumbers [lampModule "Lamp"] map idleRuntime ↔
      NoShadow [lampModule "Lamp"] ∧ SafeStatesFit [lampModule "Lamp"]) := by
  obtain ⟨map, hmap, -⟩ := @exists_map_of_parts _ _ noNumbers [lampModule "Lamp"]
    (fun m => m.image.outputSafe) [.bool false, .bool false] (by decide +kernel)
  exact ⟨map, hmap, slots_owned_iff hmap rfl⟩

/-- The output at slot 1 is called Q0, and so is the gap at slot 0: the tag is found at slot 0. -/
theorem lookup_finds_gap : ∃ map, resolveMap noNumbers [lampModule "Q0"] = .ok map ∧
    map.bindings = [⟨0, "plant", "sim", 0, 1, .q⟩] ∧
    idleRuntime.lookupTag (namesOf map.slotMeta) "Q0" = .ok (.q, 0, .bool) ∧
    ¬SlotsOwned noNumbers [lampModule "Q0"] map idleRuntime := by
  obtain ⟨map, hmap, hparts⟩ := @exists_map_of_parts _ _ noNumbers [lampModule "Q0"]
    (fun m => (m.bindings, m.slotMeta .i, m.slotMeta .q, m.slotMeta .m))
    ([⟨0, "plant", "sim", 0, 1, .q⟩], [], [⟨"Q0", .bool, ""⟩, ⟨"Q0", .bool, ""⟩], [])
    (by decide +kernel)
  simp only [Prod.mk.injEq] at hparts
  obtain ⟨hbindings, hi, hq, hm⟩ := hparts
  have hnames : namesOf map.slotMeta = ⟨[], [⟨"Q0", .bool⟩, ⟨"Q0", .bool⟩], []⟩ := by
    simp [namesOf, hi, hq, hm]
  have hlookup : idleRuntime.lookupTag (namesOf map.slotMeta) "Q0" = .ok (.q, 0, .bool) := by
    rw [hnames]
    rfl
  refine ⟨map, hmap, hbindings, hlookup, fun howned => ?_⟩
  have hfound := howned.found 0 _ _ rfl (by rw [hbindings]; rfl)
  have hslot := Except.ok.inj (hlookup.symm.trans hfound)
  simp at hslot

end SoftPlc.Scan
