import SoftPlc.Io.ModbusTransfer

/-!
# Slots of the I/O map

`plc-io/src/map.rs`, `IoMap::resolve`: each binding gets a slot on its plane, the one it asks for or the
next one, and a slot that is taken is refused. `validate_map` of `plc-io-modbus` turns the modules of
the Modbus driver into plans. No two inputs of the plans share a slot (`input_slots_apart`), so that
what the driver stores for one input is not overwritten for another one.
-/

namespace SoftPlc.Io.Modbus

open SoftPlc.Lib

/-! ## The map -/

/-- Source: `map.rs`, `IoBinding`, with the fields that the slots depend on; the JSON of the safe state is
taken decoded. -/
structure MapBinding extends IoBinding where
  slot : Option ℕ
  safeState : Except String PlcValue

/-- Source: `map.rs`, `IoModule`. -/
structure MapModule where
  id : String
  driver : String
  config : Except String ModuleConfig
  onBadQuality : BadQualityPolicy
  bindings : List MapBinding

/-- What the Modbus driver reads of a module. -/
def MapModule.plain (m : MapModule) : IoModule :=
  ⟨m.id, m.config, m.onBadQuality, m.bindings.map MapBinding.toIoBinding⟩

/-- Source: `map.rs`, `SlotBuild`, without the tag and the unit. -/
structure SlotBuild where
  valueType : ValueType
  safe : Option PlcValue

/-- The slots of a plane, and the next one to give away. -/
structure Plane where
  slots : List (Option SlotBuild)
  next : ℕ

/-- What `resolve` has so far. -/
structure Resolving where
  inputs : Plane
  outputs : Plane
  memory : Plane
  names : List String
  bindings : List ResolvedBinding

/-- Source: `map.rs`, `plane_name`. -/
def planeName : ImagePlane → String
  | .i => "%I"
  | .q => "%Q"
  | .m => "%M"

/-- Source: `u32::saturating_add`. -/
def satAdd32 (a b : ℕ) : ℕ := min (a + b) (2 ^ 32 - 1)

namespace Plane

/-- The slot for a request. -/
def slotFor (plane : Plane) (request : Option ℕ) : ℕ := request.getD plane.next

/-- Put a slot in its place; the slots before it that are missing stay empty. Source: `Vec::resize_with`
and the assignment after it. -/
def put (plane : Plane) (request : Option ℕ) (build : SlotBuild) : Plane where
  slots :=
    let slot := plane.slotFor request
    (plane.slots ++ List.replicate (slot + 1 - plane.slots.length) none).set slot (some build)
  next :=
    match request with
    | some slot => max plane.next (satAdd32 slot 1)
    | none => satAdd32 plane.next 1

/-- A slot is taken. -/
def Taken (plane : Plane) (slot : ℕ) : Prop := ∃ build, plane.slots[slot]? = some (some build)

instance (plane : Plane) (slot : ℕ) : Decidable (plane.Taken slot) :=
  decidable_of_iff (((plane.slots[slot]?).getD none).isSome = true) (by
    unfold Taken
    rcases plane.slots[slot]? with _ | _ | build <;> simp)

end Plane

namespace Resolving

/-- Source: `map.rs`, the `match b.image` of `IoMap::resolve`. -/
def plane (r : Resolving) : ImagePlane → Plane
  | .i => r.inputs
  | .q => r.outputs
  | .m => r.memory

/-- Replace a plane. -/
def setPlane (r : Resolving) (image : ImagePlane) (plane : Plane) : Resolving :=
  match image with
  | .i => { r with inputs := plane }
  | .q => { r with outputs := plane }
  | .m => { r with memory := plane }

end Resolving

/-- The safe state of an output. -/
def MapBinding.safe (b : MapBinding) : Except String (Option PlcValue) :=
  if b.image = .q then b.safeState.map some else .ok none

/-- One binding. Source: `map.rs`, the body of the inner `for` of `IoMap::resolve`. -/
def resolveBinding (moduleId : String) (moduleIndex bindingIndex : ℕ) (r : Resolving) (b : MapBinding) :
    Except String Resolving :=
  if trim b.tag = [] then .error ("module '" ++ moduleId ++ "': binding tag must be non-empty")
  else if b.tag ∈ r.names then .error ("duplicate tag '" ++ b.tag ++ "'")
  else
    let slot := (r.plane b.image).slotFor b.slot
    if (r.plane b.image).Taken slot then
      .error ("duplicate " ++ planeName b.image ++ " slot " ++ toString slot ++ " (tag '" ++ b.tag ++ "')")
    else do
      let safe ← b.safe
      let placed := r.setPlane b.image ((r.plane b.image).put b.slot ⟨b.valueType, safe⟩)
      .ok
        { placed with
          names := b.tag :: r.names
          bindings := r.bindings ++ [⟨moduleIndex, bindingIndex, slot⟩] }

/-- The bindings of a module from the `bindingIndex`-th on. -/
def resolveBindings (moduleId : String) (moduleIndex : ℕ) :
    ℕ → List MapBinding → Resolving → Except String Resolving
  | _, [], r => .ok r
  | bindingIndex, b :: bs, r => do
      let r ← resolveBinding moduleId moduleIndex bindingIndex r b
      resolveBindings moduleId moduleIndex (bindingIndex + 1) bs r

/-- The modules from the `moduleIndex`-th on. Source: `map.rs`, the outer `for` of `IoMap::resolve`. -/
def resolveModules : ℕ → List MapModule → Resolving → Except String Resolving
  | _, [], r => .ok r
  | moduleIndex, m :: ms, r =>
      if trim m.id = [] then .error "module.id must be non-empty"
      else if trim m.driver = [] then .error ("module '" ++ m.id ++ "' driver must be non-empty")
      else do
        let r ← resolveBindings m.id moduleIndex 0 m.bindings r
        resolveModules (moduleIndex + 1) ms r

/-- The types of the slots; an empty one is a BOOL. Source: `map.rs`, `fill_slots` and `fill_meta`. -/
def Plane.types (plane : Plane) : List ValueType :=
  plane.slots.map fun s => (s.map SlotBuild.valueType).getD .bool

/-- Source: `map.rs`, `IoMap::resolve`. -/
def resolve (modules : List MapModule) : Except String ResolvedIoMap := do
  let r ← resolveModules 0 modules ⟨⟨[], 0⟩, ⟨[], 0⟩, ⟨[], 0⟩, [], []⟩
  .ok
    { image :=
        { inputs := r.inputs.types.map TypedSlot.zero
          outputs := r.outputs.types.map TypedSlot.zero
          memory := r.memory.types.map TypedSlot.zero
          memoryTypes := r.memory.types
          outputSafe := r.outputs.slots.map fun s => (s.bind SlotBuild.safe).getD (.bool false) }
      bindings := r.bindings }

/-- The modules of the Modbus driver from the `moduleIndex`-th on. -/
def validateModules (resolved : ResolvedIoMap) : ℕ → List MapModule → Except String (List PlannedModule)
  | _, [] => .ok []
  | moduleIndex, m :: ms =>
      if m.driver ≠ "modbus_tcp" then validateModules resolved (moduleIndex + 1) ms
      else do
        let plan ← validateModule moduleIndex m.plain resolved
        let plans ← validateModules resolved (moduleIndex + 1) ms
        .ok (plan :: plans)

/-- Source: `validate.rs`, `validate_map`. -/
def validateMap (modules : List MapModule) (resolved : ResolvedIoMap) : Except String (List PlannedModule) :=
  validateModules resolved 0 modules

/-! ## Slots differ -/

section Slots

variable {modules : List MapModule} {resolved : ResolvedIoMap} {r r' : Resolving}

/-- The plane of a binding of the map. -/
def imageOf (modules : List MapModule) (b : ResolvedBinding) : Option ImagePlane :=
  (modules[b.moduleIndex]?).bind fun m => (m.bindings[b.bindingIndex]?).map fun b => b.image

theorem Plane.taken_put (plane : Plane) (request : Option ℕ) (build : SlotBuild) (slot : ℕ) :
    (plane.put request build).Taken slot ↔ slot = plane.slotFor request ∨ plane.Taken slot := by
  unfold Taken put
  dsimp only
  by_cases hslot : slot = plane.slotFor request
  · subst hslot
    refine iff_of_true ⟨build, List.getElem?_set_self ?_⟩ (.inl rfl)
    rw [List.length_append, List.length_replicate]
    omega
  · rw [List.getElem?_set_ne (Ne.symm hslot)]
    constructor
    · rintro ⟨build', h⟩
      right
      by_cases hlt : slot < plane.slots.length
      · rw [List.getElem?_append_left hlt] at h
        exact ⟨build', h⟩
      · rw [List.getElem?_append_right (not_lt.mp hlt), List.getElem?_replicate] at h
        split_ifs at h
        cases h
    · rintro (h | ⟨build', h⟩)
      · exact absurd h hslot
      · refine ⟨build', ?_⟩
        rw [List.getElem?_append_left (List.getElem?_eq_some_iff.mp h).1, h]

theorem Resolving.plane_setPlane (r : Resolving) (image image' : ImagePlane) (plane : Plane) :
    (r.setPlane image plane).plane image' = if image' = image then plane else r.plane image' := by
  cases image <;> cases image' <;> rfl

/-- The slots given away so far are taken, and differ on each plane. -/
structure Resolving.Sound (modules : List MapModule) (r : Resolving) : Prop where
  taken : ∀ b ∈ r.bindings, ∀ image, imageOf modules b = some image → (r.plane image).Taken b.slot
  apart : r.bindings.Pairwise fun b b' => ∀ image, imageOf modules b = some image →
    imageOf modules b' = some image → b.slot ≠ b'.slot

theorem resolveBinding_sound {moduleId : String} {moduleIndex bindingIndex : ℕ} {m : MapModule}
    {b : MapBinding} (hm : modules[moduleIndex]? = some m) (hb : m.bindings[bindingIndex]? = some b)
    (hr : r.Sound modules) (h : resolveBinding moduleId moduleIndex bindingIndex r b = .ok r') :
    r'.Sound modules := by
  unfold resolveBinding at h
  split at h
  · cases h
  split at h
  · cases h
  dsimp only at h
  split at h
  · cases h
  next hfree =>
  obtain ⟨safe, -, h⟩ := except_bind_ok.mp h
  cases h
  have himage : imageOf modules ⟨moduleIndex, bindingIndex, (r.plane b.image).slotFor b.slot⟩ =
      some b.image := by
    unfold imageOf
    simp only [hm, hb, Option.bind_some, Option.map_some]
  have hplane : ∀ image slot, (r.plane image).Taken slot →
      ((r.setPlane b.image ((r.plane b.image).put b.slot ⟨b.valueType, safe⟩)).plane image).Taken slot := by
    intro image slot htaken
    rw [Resolving.plane_setPlane]
    split_ifs with hsame
    · subst hsame
      exact (Plane.taken_put _ _ _ _).mpr (.inr htaken)
    · exact htaken
  constructor
  · intro b' hb' image himage'
    rcases List.mem_append.mp hb' with hb' | hb'
    · exact hplane image _ (hr.taken b' hb' image himage')
    · obtain rfl := List.mem_singleton.mp hb'
      obtain rfl : b.image = image := Option.some.inj (himage.symm.trans himage')
      show ((r.setPlane _ _).plane _).Taken _
      rw [Resolving.plane_setPlane, if_pos rfl]
      exact (Plane.taken_put _ _ _ _).mpr (.inl rfl)
  · refine List.pairwise_append.mpr ⟨hr.apart, List.pairwise_singleton _ _, ?_⟩
    rintro b' hb' _ hnew image himage' himage'' hslot
    obtain rfl := List.mem_singleton.mp hnew
    obtain rfl : b.image = image := Option.some.inj (himage.symm.trans himage'')
    -- The slot of an earlier binding is taken, and the new one was free.
    have htaken := hr.taken b' hb' _ himage'
    rw [hslot] at htaken
    exact hfree htaken

theorem resolveBindings_sound {moduleId : String} {moduleIndex bindingIndex : ℕ} {m : MapModule}
    {bs : List MapBinding} (hm : modules[moduleIndex]? = some m) (hbs : m.bindings.drop bindingIndex = bs)
    (hr : r.Sound modules) (h : resolveBindings moduleId moduleIndex bindingIndex bs r = .ok r') :
    r'.Sound modules := by
  induction bs generalizing bindingIndex r with
  | nil =>
      cases h
      exact hr
  | cons b bs ih =>
      obtain ⟨next, hnext, h⟩ := except_bind_ok.mp h
      have hb : m.bindings[bindingIndex]? = some b := by
        rw [← List.head?_drop, hbs, List.head?_cons]
      have hrest : m.bindings.drop (bindingIndex + 1) = bs := by
        rw [← List.tail_drop, hbs, List.tail_cons]
      exact ih hrest (resolveBinding_sound hm hb hr hnext) h

theorem resolveModules_sound {moduleIndex : ℕ} {ms : List MapModule} (hms : modules.drop moduleIndex = ms)
    (hr : r.Sound modules) (h : resolveModules moduleIndex ms r = .ok r') : r'.Sound modules := by
  induction ms generalizing moduleIndex r with
  | nil =>
      cases h
      exact hr
  | cons m ms ih =>
      unfold resolveModules at h
      split at h
      · cases h
      split at h
      · cases h
      obtain ⟨next, hnext, h⟩ := except_bind_ok.mp h
      have hm : modules[moduleIndex]? = some m := by
        rw [← List.head?_drop, hms, List.head?_cons]
      have hrest : modules.drop (moduleIndex + 1) = ms := by
        rw [← List.tail_drop, hms, List.tail_cons]
      exact ih hrest (resolveBindings_sound hm List.drop_zero hr hnext) h

/-- **A resolved map gives each slot of a plane once.** -/
theorem resolve_apart (h : resolve modules = .ok resolved) :
    resolved.bindings.Pairwise fun b b' => ∀ image, imageOf modules b = some image →
      imageOf modules b' = some image → b.slot ≠ b'.slot := by
  obtain ⟨r, hr, h⟩ := except_bind_ok.mp h
  cases h
  have start : (Resolving.mk ⟨[], 0⟩ ⟨[], 0⟩ ⟨[], 0⟩ [] []).Sound modules :=
    ⟨(fun b hb => absurd hb List.not_mem_nil), List.Pairwise.nil⟩
  exact (resolveModules_sound rfl start hr).apart

/-- Bindings at different places of the map have different slots. -/
theorem slot_ne (h : resolve modules = .ok resolved) {b b' : ResolvedBinding} (hb : b ∈ resolved.bindings)
    (hb' : b' ∈ resolved.bindings) {image : ImagePlane} (himage : imageOf modules b = some image)
    (himage' : imageOf modules b' = some image)
    (hne : b.moduleIndex ≠ b'.moduleIndex ∨ b.bindingIndex ≠ b'.bindingIndex) : b.slot ≠ b'.slot := by
  have hsymm : Std.Symm fun b b' : ResolvedBinding => ∀ image, imageOf modules b = some image →
      imageOf modules b' = some image → b.slot ≠ b'.slot :=
    ⟨fun b b' h image hb hb' => (h image hb' hb).symm⟩
  have hdiffer : b ≠ b' := by
    rintro rfl
    exact hne.elim (fun h => h rfl) (fun h => h rfl)
  exact (resolve_apart h).forall hb hb' hdiffer image himage himage'

/-! ## Slots of the plans -/

theorem planPoint_slot {moduleIndex bindingIndex inputPos outputPos : ℕ} {b : IoBinding} {p : PlannedPoint}
    (h : planPoint moduleIndex resolved bindingIndex inputPos outputPos b = .ok p) :
    p.direction = b.image.direction ∧ ∃ r ∈ resolved.bindings, r.moduleIndex = moduleIndex ∧
      r.bindingIndex = bindingIndex ∧ p.slot = r.slot := by
  unfold planPoint at h
  split at h
  · cases h
  split at h
  · cases h
  obtain ⟨⟨table, pdu⟩, -, h⟩ := except_bind_ok.mp h
  dsimp only at h
  split at h
  · cases h
  obtain ⟨raw, -, h⟩ := except_bind_ok.mp h
  obtain ⟨bit, -, h⟩ := except_bind_ok.mp h
  split at h
  · cases h
  split at h
  · cases h
  split at h
  · cases h
  split at h
  · cases h
  · next r hr =>
      cases h
      have hplace := List.find?_some hr
      simp only [Bool.and_eq_true, beq_iff_eq] at hplace
      exact ⟨rfl, r, List.mem_of_find?_eq_some hr, hplace.1, hplace.2, rfl⟩

/-- The points are those of the bindings, one after the other. -/
theorem planPoints_slot {moduleIndex bindingIndex inputPos outputPos : ℕ} {bs : List IoBinding}
    {points : List PlannedPoint}
    (h : planPoints moduleIndex resolved bindingIndex inputPos outputPos bs = .ok points) {j : ℕ}
    {p : PlannedPoint} (hp : points[j]? = some p) : ∃ b, bs[j]? = some b ∧
      p.direction = b.image.direction ∧ ∃ r ∈ resolved.bindings, r.moduleIndex = moduleIndex ∧
        r.bindingIndex = bindingIndex + j ∧ p.slot = r.slot := by
  induction bs generalizing bindingIndex inputPos outputPos points j with
  | nil =>
      cases h
      cases hp
  | cons b bs ih =>
      obtain ⟨q, hq, h⟩ := except_bind_ok.mp h
      obtain ⟨rest, hrest, h⟩ := except_bind_ok.mp h
      cases h
      cases j with
      | zero =>
          obtain rfl : q = p := Option.some.inj hp
          exact ⟨b, rfl, planPoint_slot hq⟩
      | succ j =>
          obtain ⟨b', hb', hdirection, r, hr, hmodule, hbinding, hslot⟩ := ih hrest hp
          exact ⟨b', hb', hdirection, r, hr, hmodule, by rw [hbinding]; omega, hslot⟩

theorem validateModule_points {moduleIndex : ℕ} {module : IoModule} {plan : PlannedModule}
    (h : validateModule moduleIndex module resolved = .ok plan) :
    planPoints moduleIndex resolved 0 0 0 module.bindings = .ok plan.points := by
  unfold validateModule at h
  split at h
  · cases h
  dsimp only at h
  split_ifs at h
  split at h
  · cases h
  obtain ⟨points, hpoints, h⟩ := except_bind_ok.mp h
  obtain ⟨⟨⟩, -, h⟩ := except_bind_ok.mp h
  cases h
  exact hpoints

/-- The plans are those of modules of the map, in their order. -/
theorem validateModules_origin {moduleIndex : ℕ} {ms : List MapModule} {plans : List PlannedModule}
    (h : validateModules resolved moduleIndex ms = .ok plans) : ∃ origin : List ℕ,
      origin.length = plans.length ∧ origin.Pairwise (· < ·) ∧ (∀ i ∈ origin, moduleIndex ≤ i) ∧
      ∀ (k i : ℕ) (plan : PlannedModule), origin[k]? = some i → plans[k]? = some plan → ∃ m, ms[i - moduleIndex]? = some m ∧
        validateModule i m.plain resolved = .ok plan := by
  induction ms generalizing moduleIndex plans with
  | nil =>
      cases h
      refine ⟨[], rfl, List.Pairwise.nil, (fun _ h => nomatch h), ?_⟩
      intro k i plan hi
      cases hi
  | cons m ms ih =>
      have hshift : ∀ {i : ℕ} {m' : MapModule}, moduleIndex + 1 ≤ i → ms[i - (moduleIndex + 1)]? = some m' →
          (m :: ms)[i - moduleIndex]? = some m' := by
        intro i m' hi hm'
        rw [show i - moduleIndex = i - (moduleIndex + 1) + 1 by omega]
        exact hm'
      unfold validateModules at h
      split at h
      · obtain ⟨origin, hlen, hsorted, hlow, hplans⟩ := ih h
        refine ⟨origin, hlen, hsorted, fun i hi => (Nat.le_succ _).trans (hlow i hi), ?_⟩
        intro k i plan hi hplan
        obtain ⟨m', hm', hvalid⟩ := hplans k i plan hi hplan
        exact ⟨m', hshift (hlow i (List.mem_of_getElem? hi)) hm', hvalid⟩
      · obtain ⟨plan, hplan, h⟩ := except_bind_ok.mp h
        obtain ⟨rest, hrest, h⟩ := except_bind_ok.mp h
        cases h
        obtain ⟨origin, hlen, hsorted, hlow, hplans⟩ := ih hrest
        refine ⟨moduleIndex :: origin, by rw [List.length_cons, List.length_cons, hlen],
          List.pairwise_cons.mpr ⟨hlow, hsorted⟩, ?_, ?_⟩
        · intro i hi
          rcases List.mem_cons.mp hi with rfl | hi
          · exact le_refl _
          · exact (Nat.le_succ _).trans (hlow i hi)
        · intro k i plan' hi hplan'
          cases k with
          | zero =>
              obtain rfl : moduleIndex = i := Option.some.inj hi
              obtain rfl : plan = plan' := Option.some.inj hplan'
              exact ⟨m, by rw [Nat.sub_self]; rfl, hplan⟩
          | succ k =>
              obtain ⟨m', hm', hvalid⟩ := hplans k i plan' hi hplan'
              exact ⟨m', hshift (hlow i (List.mem_of_getElem? hi)) hm', hvalid⟩

/-- Plans that a driver gets. -/
structure ValidPlans (plans : List PlannedModule) : Prop where
  points : ∀ plan ∈ plans, ValidPoints plan.points
  /-- Inputs at different places have different slots. -/
  slots : ∀ (k k' j j' : ℕ) (plan plan' : PlannedModule) (p p' : PlannedPoint), plans[k]? = some plan →
    plans[k']? = some plan' → plan.points[j]? = some p → plan'.points[j']? = some p' →
    p.direction = .input → p'.direction = .input → (k ≠ k' ∨ j ≠ j') → p.slot ≠ p'.slot

theorem direction_input {image : ImagePlane} (h : image.direction = .input) : image = .i := by
  cases image with
  | i => rfl
  | q => cases h
  | m => cases h

/-- **The plans of a resolved map.** -/
theorem input_slots_apart {plans : List PlannedModule} (h : resolve modules = .ok resolved)
    (hplans : validateMap modules resolved = .ok plans) : ValidPlans plans := by
  obtain ⟨origin, hlen, hsorted, -, hvalid⟩ := validateModules_origin hplans
  -- Each plan comes from a module of the map.
  have horigin : ∀ {k : ℕ} {plan : PlannedModule}, plans[k]? = some plan → ∃ i m, origin[k]? = some i ∧
      modules[i]? = some m ∧ validateModule i m.plain resolved = .ok plan := by
    intro k plan hk
    obtain ⟨hlt, -⟩ := List.getElem?_eq_some_iff.mp hk
    have horiginal : k < origin.length := hlen ▸ hlt
    have hi : origin[k]? = some origin[k] := List.getElem?_eq_getElem horiginal
    obtain ⟨m, hm, hplan⟩ := hvalid k _ plan hi hk
    exact ⟨_, m, hi, hm, hplan⟩
  have hpoint : ∀ {k j : ℕ} {plan : PlannedModule} {p : PlannedPoint}, plans[k]? = some plan →
      plan.points[j]? = some p → p.direction = .input → ∃ i, origin[k]? = some i ∧
        ∃ r ∈ resolved.bindings, r.moduleIndex = i ∧ r.bindingIndex = j ∧ p.slot = r.slot ∧
          imageOf modules r = some .i := by
    intro k j plan p hk hp hin
    obtain ⟨i, m, hi, hm, hplan⟩ := horigin hk
    obtain ⟨b, hb, hdirection, r, hr, hmodule, hbinding, hslot⟩ :=
      planPoints_slot (validateModule_points hplan) hp
    rw [Nat.zero_add] at hbinding
    refine ⟨i, hi, r, hr, hmodule, hbinding, hslot, ?_⟩
    have hplane := direction_input (hdirection.symm.trans hin)
    unfold MapModule.plain at hb
    rw [List.getElem?_map] at hb
    obtain ⟨b', hb', rfl⟩ := Option.map_eq_some_iff.mp hb
    unfold imageOf
    rw [hmodule, hbinding, hm]
    simp only [Option.bind_some, hb', Option.map_some, hplane]
  constructor
  · intro plan hplan
    obtain ⟨k, hk⟩ := List.getElem?_of_mem hplan
    obtain ⟨i, m, -, -, hvalid⟩ := horigin hk
    exact validated hvalid
  · intro k k' j j' plan plan' p p' hk hk' hp hp' hin hin' hne
    obtain ⟨i, hi, r, hr, hmodule, hbinding, hslot, himage⟩ := hpoint hk hp hin
    obtain ⟨i', hi', r', hr', hmodule', hbinding', hslot', himage'⟩ := hpoint hk' hp' hin'
    rw [hslot, hslot']
    apply slot_ne h hr hr' himage himage'
    rcases hne with hne | hne
    · left
      rw [hmodule, hmodule']
      rintro rfl
      obtain ⟨hlt, -⟩ := List.getElem?_eq_some_iff.mp hi
      exact hne ((List.getElem?_inj hlt (hsorted.imp Nat.ne_of_lt)).mp (hi.trans hi'.symm))
    · right
      rw [hbinding, hbinding']
      exact hne

end Slots

end SoftPlc.Io.Modbus
