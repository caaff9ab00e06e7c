import SoftPlc.Io.SafeStates

/-!
# GPIO modules

`plc-io-gpio/src/validate.rs`: the modules with the driver `gpio` and their bindings become lines of a
gpiochip, one bit each. `validateMap_sound` collects what a plan promises: at most 64 lines a module,
each with at most one binding, and no line of a chip twice.
-/

namespace SoftPlc.Io.Gpio

open SoftPlc.Lib
open SoftPlc.Io.Modbus (F64 ImagePlane)

/-! ## Plans -/

/-- Direction of every binding in a module. Source: `validate.rs`, `LineDirection`. -/
inductive LineDirection where
  | input
  | output
  deriving DecidableEq, Repr

/-- The plane of a direction. -/
def LineDirection.image : LineDirection → ImagePlane
  | .input => .i
  | .output => .q

/-- Pin bias. Source: `validate.rs`, `Bias`. -/
inductive Bias where
  | asIs
  | pullUp
  | pullDown
  | disabled
  deriving DecidableEq, Repr

/-- Output drive. Source: `validate.rs`, `Drive`. -/
inductive Drive where
  | openDrain
  | pushPull
  deriving DecidableEq, Repr

/-- Source: `validate.rs`, `ModuleConfig`. -/
structure ModuleConfig where
  chip : String
  lines : List (Fin (2 ^ 32))
  activeLow : Bool
  bias : Bias
  drive : Option Drive

/-- A module of the map, with what its config decodes to as the config of a GPIO module. -/
abbrev IoModule := FieldModule (Except String ModuleConfig)

/-- One BOOL line binding. Source: `validate.rs`, `PlannedPoint`. -/
structure PlannedPoint where
  tag : String
  slot : ℕ
  /-- Index into the lines of the module. -/
  bit : ℕ
  offset : Fin (2 ^ 32)
  /-- Safe state of an output; false for inputs. -/
  safe : Bool
  deriving DecidableEq, Repr

/-- One gpiochip request. Source: `validate.rs`, `PlannedModule`. -/
structure PlannedModule where
  id : String
  chip : String
  path : String
  direction : LineDirection
  /-- Lines, in the order of the request. -/
  offsets : List (Fin (2 ^ 32))
  activeLow : Bool
  bias : Bias
  drive : Option Drive
  onBad : BadQualityPolicy
  points : List PlannedPoint
  deriving DecidableEq, Repr

/-! ## Checks -/

/-- Source: `validate.rs`, `normalize_chip`. -/
def normalizeChip (raw : String) : Except String String :=
  let name := ("/dev/".toList.isPrefixOf? raw.toList).getD raw.toList
  let refused := "chip '" ++ raw ++ "' must be gpiochipN or /dev/gpiochipN"
  match "gpiochip".toList.isPrefixOf? name with
  | none => .error refused
  | some num =>
      if num.isEmpty || !num.all Char.isDigit then .error refused else .ok (String.ofList name)

/-- Source: `validate.rs`, `check_binding`; 1.0 has one encoding. -/
def checkBinding (b : FieldBinding) : Except String LineDirection :=
  let refused := fun what => Except.error ("binding '" ++ b.tag ++ "': gpio " ++ what)
  if b.image = .m then refused "does not back %M"
  else if b.valueType ≠ .bool then refused "lines are BOOL"
  else if b.register.isSome || b.registerType.isSome || b.rawType.isSome then
    refused "does not use registers"
  else if b.scale.bits ≠ 0x3FF0000000000000#64 || !b.offset.isZero || b.clamp.isSome then
    refused "does not scale"
  else .ok (if b.image = .i then .input else .output)

/-- Source: `validate.rs`, `output_safe`. -/
def outputSafe (resolved : FieldMap) (direction : LineDirection) (slot : ℕ) (tag : String) :
    Except String Bool :=
  if direction ≠ .output then .ok false
  else
    match resolved.image.outputSafe[slot]? with
    | some (.bool value) => .ok value
    | some _ => .error ("binding '" ++ tag ++ "': safe_state is not BOOL")
    | none => .ok false

/-- The locals of the loop over the bindings in `validate_module`. -/
structure Planning where
  direction : Option LineDirection
  used : List Bool
  next : ℕ
  points : List PlannedPoint

/-- The next bit that is not used. Source: `validate.rs`, the `while` in `validate_module`. -/
def Planning.skipUsed (st : Planning) : ℕ :=
  st.next + ((st.used.drop st.next).takeWhile id).length

/-- The bit of a binding, and where the search for the next one starts. Source: `validate.rs`, the
`let bit` in `validate_module`. -/
def Planning.bitFor (st : Planning) : Option ℕ → ℕ × ℕ
  | some bit => (bit, st.next)
  | none => (st.skipUsed, st.skipUsed + 1)

/-- The entry of a binding. -/
def isEntry (moduleIndex bindingIndex : ℕ) (r : PlacedBinding) : Bool :=
  r.moduleIndex == moduleIndex && r.bindingIndex == bindingIndex

/-- One binding. Source: `validate.rs`, the body of the loop in `validate_module`. -/
def planBinding (moduleIndex : ℕ) (moduleId : String) (lines : List (Fin (2 ^ 32)))
    (resolved : FieldMap) (st : Planning) (bindingIndex : ℕ) (b : FieldBinding) :
    Except String Planning := do
  let refused := fun what => Except.error ("binding '" ++ b.tag ++ "': " ++ what)
  let direction ← checkBinding b
  if st.direction.any (· ≠ direction) then
    .error ("module '" ++ moduleId ++ "': gpio module must be all inputs or all outputs")
  else
    let (bit, next) := st.bitFor b.bit
    match lines[bit]? with
    | none => refused ("bit " ++ toString bit ++ " is outside lines")
    | some offset =>
        if st.used[bit]? = some true then refused ("duplicate bit " ++ toString bit)
        else
          match resolved.bindings.find? (isEntry moduleIndex bindingIndex) with
          | none => refused "missing resolved slot"
          | some r => do
              let safe ← outputSafe resolved direction r.slot b.tag
              if 255 < bit then refused ("bit " ++ toString bit ++ " is outside lines")
              else
                .ok
                  { direction := some direction
                    used := st.used.set bit true
                    next
                    points := st.points ++ [⟨b.tag, r.slot, bit, offset, safe⟩] }

/-- The bindings from the `bindingIndex`-th on. -/
def planBindings (moduleIndex : ℕ) (moduleId : String) (lines : List (Fin (2 ^ 32)))
    (resolved : FieldMap) : ℕ → List FieldBinding → Planning → Except String Planning
  | _, [], st => .ok st
  | bindingIndex, b :: bs, st => do
      let st ← planBinding moduleIndex moduleId lines resolved st bindingIndex b
      planBindings moduleIndex moduleId lines resolved (bindingIndex + 1) bs st

/-- A line that has been seen. Source: `validate.rs`, the loop over `cfg.lines`. -/
def firstRepeat : List (Fin (2 ^ 32)) → List (Fin (2 ^ 32)) → Option (Fin (2 ^ 32))
  | [], _ => none
  | line :: lines, seen => if line ∈ seen then some line else firstRepeat lines (line :: seen)

/-- Source: `validate.rs`, `validate_module`. -/
def validateModule (moduleIndex : ℕ) (module : IoModule) (resolved : FieldMap) :
    Except String PlannedModule := do
  let refused := fun what => Except.error ("module '" ++ module.id ++ "': " ++ what)
  match module.config with
  | .error e => refused ("gpio config: " ++ e)
  | .ok cfg =>
      match normalizeChip cfg.chip with
      | .error e => refused e
      | .ok chip =>
          if cfg.lines.isEmpty then refused "lines must be non-empty"
          else if 64 < cfg.lines.length then refused "lines exceed 64"
          else
            match firstRepeat cfg.lines [] with
            | some line => refused ("duplicate line offset " ++ toString line.val)
            | none =>
                if module.bindings.isEmpty then refused "gpio module needs at least one binding"
                else do
                  let st ← planBindings moduleIndex module.id cfg.lines resolved 0 module.bindings
                    ⟨none, List.replicate cfg.lines.length false, 0, []⟩
                  match st.direction with
                  | none => refused "gpio module needs at least one binding"
                  | some direction =>
                      if direction = .input ∧ cfg.drive.isSome then
                        refused "drive is only valid on outputs"
                      else
                        .ok
                          { id := module.id
                            chip
                            path := "/dev/" ++ chip
                            direction
                            offsets := cfg.lines
                            activeLow := cfg.activeLow
                            bias := cfg.bias
                            drive :=
                              match direction with
                              | .input => none
                              | .output => some (cfg.drive.getD .openDrain)
                            onBad := module.onBadQuality
                            points := st.points }

/-- The lines taken so far, with the module that has each. -/
abbrev Claimed := List ((String × Fin (2 ^ 32)) × String)

/-- The lines of one more module. Source: `validate.rs`, the inner loop of `validate_map`. -/
def claimLines (chip id : String) : List (Fin (2 ^ 32)) → Claimed → Except String Claimed
  | [], claimed => .ok claimed
  | offset :: offsets, claimed =>
      match claimed.lookup (chip, offset) with
      | some prev =>
          .error (chip ++ " line " ++ toString offset.val ++ " is claimed by module '" ++ prev ++
            "' and '" ++ id ++ "'")
      | none => claimLines chip id offsets (((chip, offset), id) :: claimed)

/-- The modules from the `moduleIndex`-th on. Source: `validate.rs`, the loop of `validate_map`. -/
def validateModules (resolved : FieldMap) :
    ℕ → List IoModule → List String → Claimed → Except String (List PlannedModule)
  | _, [], _, _ => .ok []
  | moduleIndex, module :: modules, ids, claimed =>
      if module.driver ≠ "gpio" then
        validateModules resolved (moduleIndex + 1) modules ids claimed
      else if module.id ∈ ids then .error ("duplicate gpio module id '" ++ module.id ++ "'")
      else do
        let planned ← validateModule moduleIndex module resolved
        let claimed ← claimLines planned.chip planned.id planned.offsets claimed
        let rest ← validateModules resolved (moduleIndex + 1) modules (module.id :: ids) claimed
        .ok (planned :: rest)

/-- Source: `validate.rs`, `validate_map`. -/
def validateMap (modules : List IoModule) (resolved : FieldMap) : Except String (List PlannedModule) :=
  validateModules resolved 0 modules [] []

/-! ## Bindings and slots -/

section Resolved

variable {num : JsonNumbers} {modules : List IoModule} {map : FieldMap}

theorem mem_entriesFrom {κ : Type} {ms : List (FieldModule κ)} {i : ℕ} {e : Entry}
    (he : e ∈ entriesFrom i ms) :
    ∃ m, i ≤ e.moduleIndex ∧ ms[e.moduleIndex - i]? = some m ∧
      m.bindings[e.bindingIndex]? = some e.binding := by
  induction ms generalizing i with
  | nil => simp [entriesFrom] at he
  | cons m ms ih =>
      rw [entriesFrom, List.mem_append] at he
      rcases he with he | he
      · obtain ⟨j, hj, rfl⟩ := List.mem_mapIdx.mp he
        refine ⟨m, le_refl _, ?_, List.getElem?_eq_getElem hj⟩
        simp
      · obtain ⟨m', hle, hm', hb⟩ := ih he
        refine ⟨m', by omega, ?_, hb⟩
        rw [show e.moduleIndex - i = (e.moduleIndex - (i + 1)) + 1 by omega, List.getElem?_cons_succ]
        exact hm'

/-- What a resolved map holds for a binding. -/
theorem binding_resolved (h : resolveMap num modules = .ok map) {r : PlacedBinding}
    (hr : r ∈ map.bindings) {m : IoModule} {b : FieldBinding}
    (hm : modules[r.moduleIndex]? = some m) (hb : m.bindings[r.bindingIndex]? = some b) :
    r.image = b.image ∧ (b.image = .q → ∃ v, parseSafeState num b.valueType b.safeState = .ok v ∧
      map.image.outputSafe[r.slot]? = some v) := by
  obtain ⟨k, hk⟩ := List.mem_iff_getElem?.mp hr
  obtain ⟨st, hst, hbindings, -⟩ := resolveMap_placed h
  obtain ⟨e, he⟩ : ∃ e, (entriesFrom 0 modules)[k]? = some e := by
    have hzip := hk
    rw [hbindings, hst.bindings, List.getElem?_zipWith] at hzip
    rcases he : (entriesFrom 0 modules)[k]? with _ | e
    · rw [he] at hzip
      cases hzip
    · exact ⟨e, rfl⟩
  obtain ⟨hplaced, -, -, hsafe⟩ := slot_at h he hk
  obtain ⟨m', -, hm', hb'⟩ := mem_entriesFrom (List.mem_of_getElem? he)
  have hmodule : r.moduleIndex = e.moduleIndex := congrArg PlacedBinding.moduleIndex hplaced
  have hbinding : r.bindingIndex = e.bindingIndex := congrArg PlacedBinding.bindingIndex hplaced
  rw [hmodule] at hm
  rw [Nat.sub_zero, hm] at hm'
  obtain rfl := Option.some.inj hm'
  rw [hbinding, hb'] at hb
  obtain rfl := Option.some.inj hb
  exact ⟨congrArg PlacedBinding.image hplaced, hsafe⟩

/-! ## Points -/

/-- A point carries out the binding at a place of the map. -/
structure PointOf (num : JsonNumbers) (map : FieldMap) (moduleIndex : ℕ) (direction : LineDirection)
    (b : FieldBinding × ℕ) (p : PlannedPoint) : Prop where
  tag : p.tag = b.1.tag
  image : b.1.image = direction.image
  bit : ∀ bit, b.1.bit = some bit → p.bit = bit
  slot : ∃ r ∈ map.bindings, r.moduleIndex = moduleIndex ∧ r.bindingIndex = b.2 ∧
    r.image = b.1.image ∧ r.slot = p.slot
  safe : direction = .output → parseSafeState num .bool b.1.safeState = .ok (.bool p.safe)
  inputSafe : direction = .input → p.safe = false

/-- What the loop over the bindings keeps. -/
structure Planned (lines : List (Fin (2 ^ 32))) (st : Planning) : Prop where
  length : st.used.length = lines.length
  used : ∀ p ∈ st.points, st.used[p.bit]? = some true
  bits : ∀ p ∈ st.points, lines[p.bit]? = some p.offset
  apart : (st.points.map PlannedPoint.bit).Nodup

theorem checkBinding_ok {b : FieldBinding} {direction : LineDirection}
    (h : checkBinding b = .ok direction) :
    b.valueType = .bool ∧ b.image = direction.image := by
  unfold checkBinding at h
  dsimp only at h
  split_ifs at h with hm hty _ _ hi
  · cases h
    exact ⟨not_not.mp hty, hi⟩
  · cases h
    refine ⟨not_not.mp hty, ?_⟩
    rcases hb : b.image with _ | _ | _
    · exact absurd hb hi
    · rfl
    · exact absurd hb hm

/-- What one binding adds. -/
theorem planBinding_cases {moduleIndex bindingIndex : ℕ} {moduleId : String}
    {lines : List (Fin (2 ^ 32))} {st st' : Planning} {b : FieldBinding}
    (h : planBinding moduleIndex moduleId lines map st bindingIndex b = .ok st') :
    ∃ direction bit next offset r safe, checkBinding b = .ok direction ∧
      (∀ d, st.direction = some d → d = direction) ∧ st.bitFor b.bit = (bit, next) ∧
      lines[bit]? = some offset ∧ st.used[bit]? ≠ some true ∧
      map.bindings.find? (isEntry moduleIndex bindingIndex) = some r ∧
      outputSafe map direction r.slot b.tag = .ok safe ∧
      st' = ⟨some direction, st.used.set bit true, next,
        st.points ++ [⟨b.tag, r.slot, bit, offset, safe⟩]⟩ := by
  obtain ⟨direction, hdir, h⟩ := except_bind_ok.mp h
  split_ifs at h with hmixed
  rcases hbit : st.bitFor b.bit with ⟨bit, next⟩
  simp only [hbit] at h
  split at h
  · cases h
  · rename_i offset hoffset
    split at h
    · cases h
    · rename_i hused
      split at h
      · cases h
      · rename_i r hr
        obtain ⟨safe, hsafe, h⟩ := except_bind_ok.mp h
        split_ifs at h
        cases h
        refine ⟨direction, bit, next, offset, r, safe, hdir, ?_, rfl, hoffset, hused, hr, hsafe, rfl⟩
        intro d hd
        simpa [hd] using hmixed

variable {moduleIndex : ℕ} {module : IoModule}

theorem planBinding_sound (hmap : resolveMap num modules = .ok map)
    (hmodule : modules[moduleIndex]? = some module) {bindingIndex : ℕ} {moduleId : String}
    {lines : List (Fin (2 ^ 32))} {st st' : Planning} {b : FieldBinding}
    (hb : module.bindings[bindingIndex]? = some b) (hst : Planned lines st)
    (h : planBinding moduleIndex moduleId lines map st bindingIndex b = .ok st') :
    Planned lines st' ∧ ∃ direction p, st'.direction = some direction ∧
      (∀ d, st.direction = some d → d = direction) ∧ st'.points = st.points ++ [p] ∧
      PointOf num map moduleIndex direction (b, bindingIndex) p := by
  obtain ⟨direction, bit, next, offset, r, safe, hdir, hsame, hbit, hoffset, hused, hr, hsafe, rfl⟩ :=
    planBinding_cases h
  have hfresh : ∀ p ∈ st.points, p.bit ≠ bit := by
    rintro p hp rfl
    exact hused (hst.used p hp)
  have hlt : bit < st.used.length := by
    rw [hst.length]
    exact (List.getElem?_eq_some_iff.mp hoffset).1
  obtain ⟨hty, himage⟩ := checkBinding_ok hdir
  have hentry := List.find?_some hr
  simp only [isEntry, Bool.and_eq_true, beq_iff_eq] at hentry
  obtain ⟨hi, hj⟩ := hentry
  have hmem := List.mem_of_find?_eq_some hr
  obtain ⟨hplane, hstored⟩ := binding_resolved hmap hmem (hi ▸ hmodule) (hj ▸ hb)
  refine ⟨⟨?_, ?_, ?_, ?_⟩, direction, _, rfl, hsame, rfl, ?_⟩
  · simpa using hst.length
  · intro p hp
    rcases List.mem_append.mp hp with hp | hp
    · rw [List.getElem?_set_ne (hfresh p hp).symm]
      exact hst.used p hp
    · rw [List.mem_singleton.mp hp]
      exact List.getElem?_set_self hlt
  · intro p hp
    rcases List.mem_append.mp hp with hp | hp
    · exact hst.bits p hp
    · rw [List.mem_singleton.mp hp]
      exact hoffset
  · rw [List.map_append]
    refine List.nodup_append.mpr ⟨hst.apart, List.nodup_singleton _, ?_⟩
    rintro x hx y hy rfl
    obtain ⟨p, hp, hpx⟩ := List.mem_map.mp hx
    exact hfresh p hp (hpx.trans (List.mem_singleton.mp hy))
  · refine ⟨rfl, himage, ?_, ⟨r, hmem, hi, hj, hplane, rfl⟩, ?_, ?_⟩
    · intro bit' hb'
      rw [hb'] at hbit
      exact (congrArg Prod.fst hbit).symm
    · rintro rfl
      obtain ⟨v, hparse, hv⟩ := hstored himage
      unfold outputSafe at hsafe
      rw [if_neg (by simp), hv] at hsafe
      cases v with
      | bool value =>
          cases hsafe
          rwa [hty] at hparse
      | int _ | dint _ | real _ | time _ => cases hsafe
    · rintro rfl
      unfold outputSafe at hsafe
      rw [if_pos (by simp)] at hsafe
      cases hsafe
      rfl

theorem planBindings_sound (hmap : resolveMap num modules = .ok map)
    (hmodule : modules[moduleIndex]? = some module) {bindingIndex : ℕ} {moduleId : String}
    {lines : List (Fin (2 ^ 32))} {bs : List FieldBinding} {st st' : Planning}
    (hbs : module.bindings.drop bindingIndex = bs) (hst : Planned lines st)
    (h : planBindings moduleIndex moduleId lines map bindingIndex bs st = .ok st') :
    Planned lines st' ∧ (∀ d, st.direction = some d → st'.direction = some d) ∧
      ∃ new, st'.points = st.points ++ new ∧ ∀ d, st'.direction = some d →
        List.Forall₂ (PointOf num map moduleIndex d) (bs.zipIdx bindingIndex) new := by
  induction bs generalizing bindingIndex st with
  | nil =>
      cases h
      exact ⟨hst, fun _ hd => hd, [], (List.append_nil _).symm, fun _ _ => .nil⟩
  | cons b bs ih =>
      obtain ⟨st₁, h₁, h₂⟩ := except_bind_ok.mp h
      have hb : module.bindings[bindingIndex]? = some b := by
        rw [← List.head?_drop, hbs, List.head?_cons]
      have hrest : module.bindings.drop (bindingIndex + 1) = bs := by
        rw [← List.tail_drop, hbs, List.tail_cons]
      obtain ⟨hst₁, direction, p, hdir, hsame, hpoints, hp⟩ :=
        planBinding_sound hmap hmodule hb hst h₁
      obtain ⟨hst', hkeep, new, hnew, hall⟩ := ih hrest hst₁ h₂
      refine ⟨hst', ?_, p :: new, ?_, ?_⟩
      · intro d hd
        rw [hsame d hd]
        exact hkeep _ hdir
      · rw [hnew, hpoints, List.append_assoc, List.singleton_append]
      · intro d hd
        obtain rfl : direction = d := Option.some.inj ((hkeep _ hdir).symm.trans hd)
        rw [List.zipIdx_cons]
        exact .cons hp (hall _ hd)

/-! ## Modules -/

/-- What the plan of a module promises. -/
structure PlannedModule.Sound (m : PlannedModule) : Prop where
  lines : 0 < m.offsets.length ∧ m.offsets.length ≤ 64
  distinct : m.offsets.Nodup
  bits : ∀ p ∈ m.points, m.offsets[p.bit]? = some p.offset
  apart : (m.points.map PlannedPoint.bit).Nodup
  drive : m.drive = none ↔ m.direction = .input
  inputSafe : m.direction = .input → ∀ p ∈ m.points, p.safe = false
  path : m.path = "/dev/" ++ m.chip

theorem nodup_of_firstRepeat {lines seen : List (Fin (2 ^ 32))} (h : firstRepeat lines seen = none) :
    lines.Nodup ∧ ∀ line ∈ lines, line ∉ seen := by
  induction lines generalizing seen with
  | nil => exact ⟨List.nodup_nil, by simp⟩
  | cons line lines ih =>
      unfold firstRepeat at h
      split_ifs at h with hseen
      obtain ⟨hnodup, hnew⟩ := ih h
      refine ⟨List.nodup_cons.mpr ⟨?_, hnodup⟩, ?_⟩
      · intro hline
        exact hnew line hline List.mem_cons_self
      · intro x hx
        rcases List.mem_cons.mp hx with rfl | hx
        · exact hseen
        · exact fun hold => hnew x hx (List.mem_cons_of_mem _ hold)

theorem validateModule_sound (hmap : resolveMap num modules = .ok map)
    (hmodule : modules[moduleIndex]? = some module) {m : PlannedModule}
    (h : validateModule moduleIndex module map = .ok m) :
    m.Sound ∧ List.Forall₂ (PointOf num map moduleIndex m.direction) module.bindings.zipIdx m.points := by
  unfold validateModule at h
  dsimp only at h
  split at h
  · cases h
  rename_i cfg _
  split at h
  · cases h
  rename_i chip _
  split at h
  · cases h
  rename_i hempty
  split at h
  · cases h
  rename_i hmany
  split at h
  · cases h
  rename_i hrepeat
  split at h
  · cases h
  obtain ⟨st, hst, h⟩ := except_bind_ok.mp h
  split at h
  · cases h
  rename_i direction hdirection
  split_ifs at h with hdrive
  cases h
  have hstart : Planned cfg.lines ⟨none, List.replicate cfg.lines.length false, 0, []⟩ :=
    ⟨List.length_replicate, by simp, by simp, List.nodup_nil⟩
  obtain ⟨hplanned, -, new, hnew, hall⟩ := planBindings_sound hmap hmodule rfl hstart hst
  rw [List.nil_append] at hnew
  have hpoints := hall _ hdirection
  rw [← hnew] at hpoints
  refine ⟨⟨⟨?_, not_lt.mp hmany⟩, (nodup_of_firstRepeat hrepeat).1, hplanned.bits, hplanned.apart, ?_,
    ?_, rfl⟩, hpoints⟩
  · rw [List.length_pos_iff]
    rintro hnil
    exact hempty (List.isEmpty_iff.mpr hnil)
  · cases direction <;> simp
  · intro hinput p hp
    obtain ⟨b, -, hb⟩ := exists_of_forall₂_right hpoints hp
    exact hb.inputSafe hinput

/-! ## Lines of all modules -/

/-- The lines of a module, each with its chip. -/
def PlannedModule.lines (m : PlannedModule) : List (String × Fin (2 ^ 32)) :=
  m.offsets.map fun offset => (m.chip, offset)

theorem not_mem_of_lookup {claimed : Claimed} {line : String × Fin (2 ^ 32)}
    (h : claimed.lookup line = none) : line ∉ claimed.map Prod.fst := by
  intro hmem
  obtain ⟨x, hx, rfl⟩ := List.mem_map.mp hmem
  have hne := List.lookup_eq_none_iff.mp h x hx
  simp at hne

theorem claimLines_sound {chip id : String} {offsets : List (Fin (2 ^ 32))} {claimed claimed' : Claimed}
    (h : claimLines chip id offsets claimed = .ok claimed') :
    ∀ line, line ∉ claimed'.map Prod.fst → line ∉ claimed.map Prod.fst ∧
      line ∉ offsets.map fun offset => (chip, offset) := by
  induction offsets generalizing claimed with
  | nil =>
      cases h
      exact fun line hline => ⟨hline, by simp⟩
  | cons offset offsets ih =>
      unfold claimLines at h
      split at h
      · cases h
      · intro line hline
        obtain ⟨hnew, hrest⟩ := ih h line hline
        rw [List.map_cons, List.mem_cons, not_or] at hnew
        exact ⟨hnew.2, by simpa [hnew.1] using hrest⟩

theorem claimLines_free {chip id : String} {offsets : List (Fin (2 ^ 32))} {claimed claimed' : Claimed}
    (h : claimLines chip id offsets claimed = .ok claimed') :
    ∀ offset ∈ offsets, (chip, offset) ∉ claimed.map Prod.fst := by
  induction offsets generalizing claimed with
  | nil => simp
  | cons offset offsets ih =>
      unfold claimLines at h
      split at h
      · cases h
      · rename_i hfree
        intro x hx
        rcases List.mem_cons.mp hx with rfl | hx
        · exact not_mem_of_lookup hfree
        · have hnew := ih h x hx
          rw [List.map_cons, List.mem_cons, not_or] at hnew
          exact hnew.2

theorem validateModules_sound (hmap : resolveMap num modules = .ok map) {ms : List IoModule} {i : ℕ}
    (hms : modules.drop i = ms) {ids : List String} {claimed : Claimed} {plan : List PlannedModule}
    (h : validateModules map i ms ids claimed = .ok plan) :
    (∀ m ∈ plan, ∃ j module, modules[j]? = some module ∧ module.driver = "gpio" ∧
      validateModule j module map = .ok m) ∧
    (plan.flatMap PlannedModule.lines).Nodup ∧
    ∀ line ∈ plan.flatMap PlannedModule.lines, line ∉ claimed.map Prod.fst := by
  induction ms generalizing i ids claimed plan with
  | nil =>
      cases h
      exact ⟨by simp, List.nodup_nil, by simp⟩
  | cons module ms ih =>
      have hmodule : modules[i]? = some module := by
        rw [← List.head?_drop, hms, List.head?_cons]
      have hrest : modules.drop (i + 1) = ms := by
        rw [← List.tail_drop, hms, List.tail_cons]
      unfold validateModules at h
      split_ifs at h with hdriver hid
      · exact ih hrest h
      · obtain ⟨planned, hplanned, h₁⟩ := except_bind_ok.mp h
        obtain ⟨claimed', hclaimed, h₂⟩ := except_bind_ok.mp h₁
        obtain ⟨rest, hplan, h₃⟩ := except_bind_ok.mp h₂
        cases h₃
        obtain ⟨hmodules, hnodup, hfree⟩ := ih hrest hplan
        have hapart := fun line hline => claimLines_sound hclaimed line (hfree line hline)
        refine ⟨?_, ?_, ?_⟩
        · intro m hm
          rcases List.mem_cons.mp hm with rfl | hm
          · exact ⟨i, module, hmodule, not_not.mp hdriver, hplanned⟩
          · exact hmodules m hm
        · rw [List.flatMap_cons]
          refine List.nodup_append.mpr ⟨?_, hnodup, ?_⟩
          · have hdistinct := (validateModule_sound hmap hmodule hplanned).1.distinct
            exact hdistinct.map fun a b hab => congrArg Prod.snd hab
          · rintro line hown _ hother rfl
            exact (hapart line hother).2 hown
        · intro line hline
          rw [List.flatMap_cons, List.mem_append] at hline
          rcases hline with hown | hother
          · obtain ⟨offset, hoffset, rfl⟩ := List.mem_map.mp hown
            exact claimLines_free hclaimed offset hoffset
          · exact (hapart line hother).1

/-- **What an accepted plan promises.** -/
theorem validateMap_sound (hmap : resolveMap num modules = .ok map) {plan : List PlannedModule}
    (h : validateMap modules map = .ok plan) :
    (∀ m ∈ plan, m.Sound ∧ ∃ i module, modules[i]? = some module ∧ module.driver = "gpio" ∧
      List.Forall₂ (PointOf num map i m.direction) module.bindings.zipIdx m.points) ∧
    (plan.flatMap PlannedModule.lines).Nodup := by
  obtain ⟨hmodules, hnodup, -⟩ := validateModules_sound hmap rfl h
  refine ⟨?_, hnodup⟩
  intro m hm
  obtain ⟨i, module, hmodule, hdriver, hvalid⟩ := hmodules m hm
  obtain ⟨hsound, hpoints⟩ := validateModule_sound hmap hmodule hvalid
  exact ⟨hsound, i, module, hmodule, hdriver, hpoints⟩

end Resolved

end SoftPlc.Io.Gpio
