import SoftPlc.Api.Merge
import SoftPlc.Io.IoMap

/-!
# The whole I/O map

`plc-io/src/map.rs`, `IoMap::resolve`, with the names, units and safe states of the slots. The map puts
its bindings, module by module, at the places that `assign` gives them (`resolveMap_placed`): a slot
that a binding asks for, or else the one after the largest on its plane. A safe state goes from JSON
through `i64` to the type of its slot, and `safe_states_kept_iff` says when it is still the same number.
-/

namespace SoftPlc.Io

open SoftPlc.Lib
open SoftPlc.Api (JsonValue)
open SoftPlc.Io.Modbus (ImagePlane satAdd32 planeName)

/-! ## The map -/

/-- One binding. Source: `map.rs`, `IoBinding`. -/
structure FieldBinding extends Modbus.IoBinding where
  slot : Option (Fin (2 ^ 32))
  unit : String
  safeState : Option JsonValue

/-- One module; the config is opaque to the map. Source: `map.rs`, `IoModule`. -/
structure FieldModule (κ : Type) where
  id : String
  driver : String
  config : κ
  onBadQuality : BadQualityPolicy
  bindings : List FieldBinding

/-- A binding at its place in the map. -/
structure Entry where
  moduleIndex : ℕ
  moduleId : String
  driver : String
  bindingIndex : ℕ
  binding : FieldBinding

/-- The bindings of a module. Source: `map.rs`, `module.bindings.iter().enumerate()`. -/
def FieldModule.entries {κ : Type} (moduleIndex : ℕ) (m : FieldModule κ) : List Entry :=
  m.bindings.mapIdx fun bindingIndex b => ⟨moduleIndex, m.id, m.driver, bindingIndex, b⟩

/-- The bindings of the modules from the `moduleIndex`-th on. -/
def entriesFrom {κ : Type} : ℕ → List (FieldModule κ) → List Entry
  | _, [] => []
  | moduleIndex, m :: ms => m.entries moduleIndex ++ entriesFrom (moduleIndex + 1) ms

/-! ## Safe states -/

/-- What `serde_json` and the casts to `f32` make of a JSON value. -/
structure JsonNumbers where
  display : JsonValue → String
  /-- `as_f64` of an integer, `as f32`. -/
  ofInt : ℤ → F32
  /-- `as f32` of a float. -/
  ofFloat : UInt64 → F32

/-- Source: `map.rs`, `json_i64`. -/
def jsonI64 : JsonValue → Except String ℤ
  | .int n =>
      if -2 ^ 63 ≤ n ∧ n < 2 ^ 63 then .ok n else .error "safe_state integer overflow"
  | .float _ => .error "safe_state integer overflow"
  | .bool b => .ok (if b then 1 else 0)
  | _ => .error "safe_state is not an integer"

/-- Source: `map.rs`, `parse_safe_state`; `as_f64` of a number always succeeds. -/
def parseSafeState (num : JsonNumbers) (ty : ValueType) (raw : Option JsonValue) :
    Except String PlcValue :=
  match raw with
  | none => .ok (.defaultOf ty)
  | some raw =>
      match ty with
      | .bool =>
          match raw with
          | .bool b => .ok (.bool b)
          | other => .error ("safe_state " ++ num.display other ++ " is not a BOOL")
      | .int => (jsonI64 raw).map fun n => .int (BitVec.ofInt 16 n)
      | .dint => (jsonI64 raw).map fun n => .dint (BitVec.ofInt 32 n)
      | .time => (jsonI64 raw).map fun n => .time (BitVec.ofInt 32 n)
      | .real =>
          match raw with
          | .int n => .ok (.real (num.ofInt n))
          | .float x => .ok (.real (num.ofFloat x))
          | _ => .error "safe_state is not a REAL"

/-- The safe state of an output. Source: `map.rs`, the `let safe` of `IoMap::resolve`. -/
def FieldBinding.safe (num : JsonNumbers) (b : FieldBinding) : Except String (Option PlcValue) :=
  if b.image = .q then (parseSafeState num b.valueType b.safeState).map some else .ok none

/-! ## Slots -/

/-- Source: `map.rs`, `SlotBuild`. -/
structure FieldSlot where
  tag : String
  ty : ValueType
  unit : String
  safe : Option PlcValue
  deriving DecidableEq, Repr

/-- One binding after slot assignment. Source: `map.rs`, `ResolvedBinding`. -/
structure PlacedBinding where
  moduleIndex : ℕ
  moduleId : String
  driver : String
  bindingIndex : ℕ
  slot : ℕ
  image : ImagePlane
  deriving DecidableEq, Repr

/-- The slots of a plane, and the next one to give away. -/
structure FieldPlane where
  slots : List (Option FieldSlot)
  next : ℕ

/-- The locals of `resolve`. -/
structure FieldState where
  plane : ImagePlane → FieldPlane
  names : List String
  bindings : List PlacedBinding

/-- The slot that a binding gets, and the next one after it. Source: `map.rs`, the `let slot` of
`IoMap::resolve` and the `if b.slot.is_some()` after it. -/
def FieldPlane.slotFor (plane : FieldPlane) : Option (Fin (2 ^ 32)) → ℕ × ℕ
  | some s => (s.val, max plane.next (satAdd32 s.val 1))
  | none => (plane.next, satAdd32 plane.next 1)

/-- The slots of a plane, long enough for one more. Source: `map.rs`, `plane.resize_with`. -/
def FieldPlane.grown (plane : FieldPlane) (slot : ℕ) : List (Option FieldSlot) :=
  plane.slots ++ List.replicate (slot + 1 - plane.slots.length) none

/-- One binding. Source: `map.rs`, the body of the inner `for` of `IoMap::resolve`. -/
def placeEntry (num : JsonNumbers) (st : FieldState) (e : Entry) : Except String FieldState :=
  let b := e.binding
  if trim b.tag = [] then
    .error ("module '" ++ e.moduleId ++ "': binding tag must be non-empty")
  else if b.tag ∈ st.names then .error ("duplicate tag '" ++ b.tag ++ "'")
  else
    let plane := st.plane b.image
    let (slot, next) := plane.slotFor b.slot
    let slots := plane.grown slot
    match slots[slot]? with
    | some (some _) =>
        .error ("duplicate " ++ planeName b.image ++ " slot " ++ toString slot ++ " (tag '" ++
          b.tag ++ "')")
    | _ => do
        let safe ← b.safe num
        .ok
          { plane :=
              Function.update st.plane b.image
                ⟨slots.set slot (some ⟨b.tag, b.valueType, b.unit, safe⟩), next⟩
            names := b.tag :: st.names
            bindings :=
              st.bindings ++ [⟨e.moduleIndex, e.moduleId, e.driver, e.bindingIndex, slot, b.image⟩] }

/-- The modules from the `moduleIndex`-th on. Source: `map.rs`, the outer `for` of
`IoMap::resolve`. -/
def placeModules {κ : Type} (num : JsonNumbers) :
    ℕ → List (FieldModule κ) → FieldState → Except String FieldState
  | _, [], st => .ok st
  | moduleIndex, m :: ms, st =>
      if trim m.id = [] then .error "module.id must be non-empty"
      else if trim m.driver = [] then .error ("module '" ++ m.id ++ "' driver must be non-empty")
      else do
        let st ← (m.entries moduleIndex).foldlM (placeEntry num) st
        placeModules num (moduleIndex + 1) ms st

/-- Name, type and unit of an image slot. Source: `plc-io/src/image.rs`, `SlotMeta`. -/
structure FieldMeta where
  tag : String
  ty : ValueType
  unit : String
  deriving DecidableEq, Repr

/-- The letter of a plane in placeholder names. Source: `map.rs`, the calls of `fill_meta`. -/
def planePrefix : ImagePlane → String
  | .i => "I"
  | .q => "Q"
  | .m => "M"

/-- The name of a slot that no binding has. Source: `map.rs`, the `None` arm of `fill_meta`. -/
def placeholder (image : ImagePlane) (i : ℕ) : String := planePrefix image ++ toString i

/-- Source: `map.rs`, `fill_slots`. -/
def fillSlots (slots : List (Option FieldSlot)) : List TypedSlot :=
  slots.map fun s => TypedSlot.zero ((s.map FieldSlot.ty).getD .bool)

/-- Source: `map.rs`, `fill_meta`. -/
def fillMeta (image : ImagePlane) (slots : List (Option FieldSlot)) : List FieldMeta :=
  slots.mapIdx fun i s =>
    match s with
    | some b => ⟨b.tag, b.ty, b.unit⟩
    | none => ⟨placeholder image i, .bool, ""⟩

/-- The image with its names, and the slot of every binding. Source: `map.rs`, `ResolvedIoMap`. -/
structure FieldMap where
  image : ProcessImage
  slotMeta : ImagePlane → List FieldMeta
  bindings : List PlacedBinding

/-- Nothing placed yet. -/
def FieldState.start : FieldState := ⟨fun _ => ⟨[], 0⟩, [], []⟩

/-- Source: `map.rs`, `IoMap::resolve`. -/
def resolveMap {κ : Type} (num : JsonNumbers) (modules : List (FieldModule κ)) :
    Except String FieldMap := do
  let st ← placeModules num 0 modules .start
  let slots := fun image => (st.plane image).slots
  .ok
    { image :=
        { inputs := fillSlots (slots .i)
          outputs := fillSlots (slots .q)
          memory := fillSlots (slots .m)
          memoryTypes := (fillMeta .m (slots .m)).map FieldMeta.ty
          outputSafe := (slots .q).map fun s => (s.bind FieldSlot.safe).getD (.bool false) }
      slotMeta := fun image => fillMeta image (slots image)
      bindings := st.bindings }

/-! ## Where the bindings go -/

/-- A place in the image. -/
abbrev Place := ImagePlane × ℕ

/-- One past the largest slot of a plane. -/
def nextFree (places : List Place) (image : ImagePlane) : ℕ :=
  ((places.filter fun p => p.1 = image).map fun p => p.2 + 1).foldr max 0

/-- The slot that a binding asks for, or the one after the largest on its plane. -/
def placeOf (places : List Place) (b : FieldBinding) : Place :=
  (b.image, (b.slot.map Fin.val).getD (nextFree places b.image))

/-- The places of bindings, in their order. -/
def assign (bs : List FieldBinding) : List Place :=
  bs.foldl (fun places b => places ++ [placeOf places b]) []

theorem assign_snoc (bs : List FieldBinding) (b : FieldBinding) :
    assign (bs ++ [b]) = assign bs ++ [placeOf (assign bs) b] := by
  unfold assign
  rw [List.foldl_append, List.foldl_cons, List.foldl_nil]

theorem length_assign (bs : List FieldBinding) : (assign bs).length = bs.length := by
  induction bs using List.reverseRecOn with
  | nil => rfl
  | append_singleton bs b ih =>
      rw [assign_snoc, List.length_append, List.length_append, ih]
      rfl

/-- A binding stays on its plane. -/
theorem map_fst_assign (bs : List FieldBinding) :
    (assign bs).map Prod.fst = bs.map fun b => b.image := by
  induction bs using List.reverseRecOn with
  | nil => rfl
  | append_singleton bs b ih =>
      rw [assign_snoc, List.map_append, List.map_append, ih]
      rfl

theorem nextFree_snoc (places : List Place) (p : Place) (image : ImagePlane) :
    nextFree (places ++ [p]) image =
      if p.1 = image then max (nextFree places image) (p.2 + 1) else nextFree places image := by
  have hfold : ∀ (xs : List ℕ) (a : ℕ), (xs ++ [a]).foldr max 0 = max (xs.foldr max 0) a := by
    intro xs a
    induction xs with
    | nil => simp
    | cons x xs ih =>
        rw [List.cons_append, List.foldr_cons, ih, List.foldr_cons, max_assoc]
  unfold nextFree
  rw [List.filter_append, List.map_append]
  by_cases hp : p.1 = image
  · simp only [hp, List.filter_cons, decide_true, if_true, List.filter_nil, List.map_cons,
      List.map_nil]
    exact hfold _ _
  · simp [hp]

/-- Places are below the next free one of their plane. -/
theorem lt_nextFree {places : List Place} {p : Place} (hp : p ∈ places) :
    p.2 < nextFree places p.1 := by
  induction places using List.reverseRecOn with
  | nil => simp at hp
  | append_singleton places q ih =>
      rw [nextFree_snoc]
      rcases List.mem_append.mp hp with hp | hp
      · have := ih hp
        split_ifs
        · omega
        · exact this
      · obtain rfl := List.mem_singleton.mp hp
        rw [if_pos rfl]
        omega

/-- A place below the next free one has a taken place at or above it. -/
theorem exists_of_lt_nextFree {places : List Place} {image : ImagePlane} {i : ℕ}
    (h : i < nextFree places image) : ∃ s, (image, s) ∈ places ∧ i ≤ s := by
  induction places using List.reverseRecOn with
  | nil => simp [nextFree] at h
  | append_singleton places q ih =>
      rw [nextFree_snoc] at h
      split_ifs at h with hq
      · rcases lt_or_ge i (nextFree places image) with hlt | hge
        · obtain ⟨s, hs, hle⟩ := ih hlt
          exact ⟨s, List.mem_append_left _ hs, hle⟩
        · refine ⟨q.2, List.mem_append_right _ ?_, by omega⟩
          rw [List.mem_singleton, ← hq]
      · obtain ⟨s, hs, hle⟩ := ih h
        exact ⟨s, List.mem_append_left _ hs, hle⟩

/-! ## What the loop keeps -/

/-- The slot that a binding fills. -/
def FieldBinding.build (b : FieldBinding) (safe : Option PlcValue) : FieldSlot :=
  ⟨b.tag, b.valueType, b.unit, safe⟩

/-- A binding at a place, as `resolve` records it. -/
def Entry.placed (e : Entry) (p : Place) : PlacedBinding :=
  ⟨e.moduleIndex, e.moduleId, e.driver, e.bindingIndex, p.2, p.1⟩

/-- The bindings `es` have been placed. -/
structure Placed (num : JsonNumbers) (es : List Entry) (st : FieldState) : Prop where
  bindings : st.bindings = List.zipWith Entry.placed es (assign (es.map Entry.binding))
  names : ∀ name, name ∈ st.names ↔ ∃ e ∈ es, e.binding.tag = name
  tags : (es.map fun e => e.binding.tag).Nodup
  apart : (assign (es.map Entry.binding)).Nodup
  bounded : ∀ p ∈ assign (es.map Entry.binding), p.2 < 2 ^ 32
  next : ∀ image,
    (st.plane image).next = min (nextFree (assign (es.map Entry.binding)) image) (2 ^ 32 - 1)
  length : ∀ image,
    (st.plane image).slots.length = nextFree (assign (es.map Entry.binding)) image
  filled : ∀ x ∈ es.zip (assign (es.map Entry.binding)), ∃ safe, x.1.binding.safe num = .ok safe ∧
    (st.plane x.2.1).slots[x.2.2]? = some (some (x.1.binding.build safe))
  free : ∀ image i, (image, i) ∉ assign (es.map Entry.binding) →
    i < (st.plane image).slots.length → (st.plane image).slots[i]? = some none

theorem placed_start (num : JsonNumbers) : Placed num [] .start where
  bindings := rfl
  names := by simp [FieldState.start]
  tags := List.nodup_nil
  apart := List.nodup_nil
  bounded p hp := by simp [assign] at hp
  next image := by simp [FieldState.start, assign, nextFree]
  length image := by simp [FieldState.start, assign, nextFree]
  filled x hx := by simp [assign] at hx
  free image i _ hi := by simp [FieldState.start] at hi

/-- What one binding does to the state. -/
theorem placeEntry_cases {num : JsonNumbers} {st st' : FieldState} {e : Entry}
    (h : placeEntry num st e = .ok st') :
    ∃ slot next safe, (st.plane e.binding.image).slotFor e.binding.slot = (slot, next) ∧
      e.binding.tag ∉ st.names ∧ e.binding.safe num = .ok safe ∧
      (∀ s, ((st.plane e.binding.image).grown slot)[slot]? ≠ some (some s)) ∧
      st' =
        { plane := Function.update st.plane e.binding.image
            ⟨((st.plane e.binding.image).grown slot).set slot (some (e.binding.build safe)), next⟩
          names := e.binding.tag :: st.names
          bindings := st.bindings ++ [e.placed (e.binding.image, slot)] } := by
  unfold placeEntry at h
  dsimp only at h
  split_ifs at h with _ hname
  rcases hslot : (st.plane e.binding.image).slotFor e.binding.slot with ⟨slot, next⟩
  simp only [hslot] at h
  split at h
  · cases h
  · rename_i hfree
    obtain ⟨safe, hsafe, h⟩ := except_bind_ok.mp h
    cases h
    exact ⟨slot, next, safe, rfl, hname, hsafe, fun s hs => hfree s hs, rfl⟩

/-- Every place is that of a binding. -/
theorem exists_zip_of_mem {α β : Type*} {xs : List α} {ys : List β} (hlen : ys.length = xs.length)
    {y : β} (hy : y ∈ ys) : ∃ x, (x, y) ∈ xs.zip ys := by
  obtain ⟨i, hi, rfl⟩ := List.getElem_of_mem hy
  have hi' : i < xs.length := hlen ▸ hi
  refine ⟨xs[i], List.mem_iff_getElem?.mpr ⟨i, ?_⟩⟩
  exact List.getElem?_zip_eq_some.mpr ⟨List.getElem?_eq_getElem hi', List.getElem?_eq_getElem hi⟩

section Step

variable {num : JsonNumbers} {es : List Entry} {st st' : FieldState} {e : Entry}

/-- A place that is given away was free, and is the one that `assign` says. -/
theorem Placed.slotFor (h : Placed num es st) {slot next : ℕ}
    (hslot : (st.plane e.binding.image).slotFor e.binding.slot = (slot, next))
    (hfree : ∀ s, ((st.plane e.binding.image).grown slot)[slot]? ≠ some (some s)) :
    (e.binding.image, slot) ∉ assign (es.map Entry.binding) ∧
      placeOf (assign (es.map Entry.binding)) e.binding = (e.binding.image, slot) ∧
      slot < 2 ^ 32 ∧
      next = min (nextFree (assign (es.map Entry.binding) ++ [(e.binding.image, slot)])
        e.binding.image) (2 ^ 32 - 1) := by
  have hlen : (assign (es.map Entry.binding)).length = es.length := by
    rw [length_assign, List.length_map]
  have hnew : (e.binding.image, slot) ∉ assign (es.map Entry.binding) := by
    intro hmem
    obtain ⟨x, hx⟩ := exists_zip_of_mem hlen hmem
    obtain ⟨safe, -, hfill⟩ := h.filled _ hx
    apply hfree (x.binding.build safe)
    unfold FieldPlane.grown
    rw [List.getElem?_append_left (List.getElem?_eq_some_iff.mp hfill).1]
    exact hfill
  have hnext := h.next e.binding.image
  rw [nextFree_snoc, if_pos rfl]
  rcases hreq : e.binding.slot with _ | s
  · simp only [FieldPlane.slotFor, hreq, Prod.mk.injEq, satAdd32] at hslot
    -- the counter saturates only when the last slot of all is taken
    have hsmall : nextFree (assign (es.map Entry.binding)) e.binding.image ≤ 2 ^ 32 - 1 := by
      by_contra hbig
      obtain ⟨s, hs, hle⟩ := exists_of_lt_nextFree (not_le.mp hbig)
      have hlt := h.bounded _ hs
      dsimp only at hlt
      obtain rfl : slot = s := by omega
      exact hnew hs
    refine ⟨hnew, ?_, by omega, by omega⟩
    simp only [placeOf, hreq, Option.map_none, Option.getD_none, Prod.mk.injEq, true_and]
    omega
  · simp only [FieldPlane.slotFor, hreq, Prod.mk.injEq, satAdd32] at hslot
    refine ⟨hnew, ?_, hslot.1 ▸ s.isLt, ?_⟩
    · simp only [placeOf, hreq, Option.map_some, Option.getD_some, Prod.mk.injEq, true_and]
      exact hslot.1
    · rw [← hslot.2, ← hslot.1, hnext]
      exact (min_max_distrib_right ..).symm

theorem placeEntry_placed (h : Placed num es st) (hstep : placeEntry num st e = .ok st') :
    Placed num (es ++ [e]) st' := by
  obtain ⟨slot, next, safe, hslot, hname, hsafe, hfree, rfl⟩ := placeEntry_cases hstep
  obtain ⟨hnew, hplace, hbound, hnext⟩ := h.slotFor hslot hfree
  have hassign : assign ((es ++ [e]).map Entry.binding) =
      assign (es.map Entry.binding) ++ [(e.binding.image, slot)] := by
    rw [List.map_append, List.map_singleton, assign_snoc, hplace]
  have hlen : es.length = (assign (es.map Entry.binding)).length := by
    rw [length_assign, List.length_map]
  have hlength := h.length e.binding.image
  have hgrown : slot < ((st.plane e.binding.image).grown slot).length := by
    unfold FieldPlane.grown
    rw [List.length_append, List.length_replicate]
    omega
  constructor
  · rw [hassign, List.zipWith_append hlen, h.bindings]
    rfl
  · intro name
    simp only [List.mem_cons, h.names, List.mem_append, List.not_mem_nil, or_false]
    constructor
    · rintro (rfl | ⟨x, hx, rfl⟩)
      · exact ⟨e, .inr rfl, rfl⟩
      · exact ⟨x, .inl hx, rfl⟩
    · rintro ⟨x, hx | rfl, rfl⟩
      · exact .inr ⟨x, hx, rfl⟩
      · exact .inl rfl
  · rw [List.map_append, List.map_singleton]
    refine List.nodup_append.mpr ⟨h.tags, List.nodup_singleton _, ?_⟩
    rintro tag htag _ hlast rfl
    rw [List.mem_singleton] at hlast
    obtain ⟨x, hx, hxtag⟩ := List.mem_map.mp htag
    exact hname ((h.names _).mpr ⟨x, hx, hxtag.trans hlast⟩)
  · rw [hassign]
    refine List.nodup_append.mpr ⟨h.apart, List.nodup_singleton _, ?_⟩
    rintro p hp _ hlast rfl
    rw [List.mem_singleton.mp hlast] at hp
    exact hnew hp
  · intro p hp
    rw [hassign] at hp
    rcases List.mem_append.mp hp with hp | hp
    · exact h.bounded p hp
    · rw [List.mem_singleton.mp hp]
      exact hbound
  · intro image
    rw [hassign]
    by_cases himage : image = e.binding.image
    · subst himage
      dsimp only
      rw [Function.update_self]
      exact hnext
    · dsimp only
      rw [Function.update_of_ne himage, nextFree_snoc, if_neg (Ne.symm himage)]
      exact h.next image
  · intro image
    rw [hassign, nextFree_snoc]
    by_cases himage : image = e.binding.image
    · subst himage
      dsimp only
      rw [Function.update_self, if_pos rfl]
      simp only [List.length_set, FieldPlane.grown, List.length_append, List.length_replicate]
      omega
    · dsimp only
      rw [Function.update_of_ne himage, if_neg (Ne.symm himage)]
      exact h.length image
  · intro x hx
    rw [hassign, List.zip_append hlen] at hx
    rcases List.mem_append.mp hx with hold | hx
    · obtain ⟨safe', hsafe', hfill⟩ := h.filled x hold
      refine ⟨safe', hsafe', ?_⟩
      dsimp only
      by_cases himage : x.2.1 = e.binding.image
      · have hne : x.2.2 ≠ slot := by
          rintro rfl
          apply hnew
          rw [← himage]
          exact (List.of_mem_zip hold).2
        rw [himage] at hfill ⊢
        rw [Function.update_self, List.getElem?_set_ne hne.symm, FieldPlane.grown,
          List.getElem?_append_left (List.getElem?_eq_some_iff.mp hfill).1]
        exact hfill
      · rw [Function.update_of_ne himage]
        exact hfill
    · obtain rfl : x = (e, (e.binding.image, slot)) := by simpa using hx
      refine ⟨safe, hsafe, ?_⟩
      dsimp only
      rw [Function.update_self]
      exact List.getElem?_set_self hgrown
  · intro image i hi hlt
    rw [hassign, List.mem_append, List.mem_singleton, not_or] at hi
    dsimp only at hlt ⊢
    by_cases himage : image = e.binding.image
    · subst himage
      rw [Function.update_self] at hlt ⊢
      have hne : slot ≠ i := by
        rintro rfl
        exact hi.2 rfl
      dsimp only at hlt ⊢
      rw [List.length_set] at hlt
      rw [List.getElem?_set_ne hne]
      unfold FieldPlane.grown at hlt ⊢
      rcases lt_or_ge i (st.plane e.binding.image).slots.length with hold | hold
      · rw [List.getElem?_append_left hold]
        exact h.free _ i hi.1 hold
      · rw [List.length_append, List.length_replicate] at hlt
        rw [List.getElem?_append_right hold, List.getElem?_replicate, if_pos (by omega)]
    · rw [Function.update_of_ne himage] at hlt ⊢
      exact h.free image i hi.1 hlt

theorem foldlM_placeEntry_placed {es' : List Entry} (h : Placed num es st)
    (hrun : es'.foldlM (placeEntry num) st = .ok st') : Placed num (es ++ es') st' := by
  induction es' generalizing es st with
  | nil =>
      cases hrun
      rwa [List.append_nil]
  | cons e es' ih =>
      rw [List.foldlM_cons] at hrun
      obtain ⟨st₁, h₁, h₂⟩ := except_bind_ok.mp hrun
      rw [List.append_cons]
      exact ih (placeEntry_placed h h₁) h₂

theorem placeModules_placed {κ : Type} {modules : List (FieldModule κ)} {moduleIndex : ℕ}
    (h : Placed num es st) (hrun : placeModules num moduleIndex modules st = .ok st') :
    Placed num (es ++ entriesFrom moduleIndex modules) st' := by
  induction modules generalizing moduleIndex es st with
  | nil =>
      cases hrun
      rwa [entriesFrom, List.append_nil]
  | cons m ms ih =>
      unfold placeModules at hrun
      split_ifs at hrun
      obtain ⟨st₁, h₁, h₂⟩ := except_bind_ok.mp hrun
      rw [entriesFrom, ← List.append_assoc]
      exact ih (foldlM_placeEntry_placed h h₁) h₂

end Step

/-- **Where a map puts its bindings.** -/
theorem resolveMap_placed {κ : Type} {num : JsonNumbers} {modules : List (FieldModule κ)}
    {map : FieldMap} (h : resolveMap num modules = .ok map) :
    ∃ st, Placed num (entriesFrom 0 modules) st ∧ map.bindings = st.bindings ∧
      (∀ image, map.slotMeta image = fillMeta image (st.plane image).slots) ∧
      map.image.outputSafe =
        (st.plane .q).slots.map fun s => (s.bind FieldSlot.safe).getD (.bool false) := by
  obtain ⟨st, hst, h⟩ := except_bind_ok.mp h
  cases h
  exact ⟨st, placeModules_placed (placed_start num) hst, rfl, fun _ => rfl, rfl⟩

end SoftPlc.Io
