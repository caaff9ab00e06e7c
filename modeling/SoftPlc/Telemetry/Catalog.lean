import SoftPlc.Io.Image
import SoftPlc.Lib.Text

/-!
# Metrics and their catalog

The data of a Sparkplug payload (`plc-telemetry/src/protobuf.rs`), how values and qualities are mapped
to it (`types.rs`), and the catalog that gives each tag an alias (`catalog.rs`).
-/

namespace SoftPlc.Telemetry

open SoftPlc.Io SoftPlc.Lib

/-! ## Errors -/

/-- Source: `plc-telemetry/src/error.rs`, `TelemetryError`. -/
inductive TelemetryError where
  | config (message : String)
  | backpressured
  | mqtt (message : String)
  | protobuf (message : String)
  deriving DecidableEq, Repr

/-! ## Payloads -/

/-- Source: `protobuf.rs`, `MetricValue`. -/
inductive MetricValue where
  | int (v : BitVec 32)
  | long (v : BitVec 64)
  | float (v : F32)
  | bool (b : Bool)
  | string (s : String)
  deriving DecidableEq, Repr

/-- Source: `protobuf.rs`, `Property`. -/
structure Property where
  key : String
  datatype : BitVec 32
  value : MetricValue
  deriving DecidableEq, Repr

/-- Source: `protobuf.rs`, `Metric`. -/
structure Metric where
  name : Option String
  /-- The field `alias`. -/
  aliasId : Option (BitVec 64)
  timestamp : Option (BitVec 64)
  datatype : BitVec 32
  properties : List Property
  value : Option MetricValue
  deriving DecidableEq, Repr

/-- Source: `protobuf.rs`, `Payload`. -/
structure Payload where
  timestamp : Option (BitVec 64)
  metrics : List Metric
  seq : Option (BitVec 64)
  deriving DecidableEq, Repr

/-! ## Types -/

/-- Source: `types.rs`, `SP_INT16`. -/
def spInt16 : BitVec 32 := 2

/-- Source: `types.rs`, `SP_INT32`. -/
def spInt32 : BitVec 32 := 3

/-- Source: `types.rs`, `SP_INT64`. -/
def spInt64 : BitVec 32 := 4

/-- Source: `types.rs`, `SP_UINT64`. -/
def spUint64 : BitVec 32 := 8

/-- Source: `types.rs`, `SP_FLOAT`. -/
def spFloat : BitVec 32 := 9

/-- Source: `types.rs`, `SP_BOOLEAN`. -/
def spBoolean : BitVec 32 := 11

/-- Source: `types.rs`, `SP_STRING`. -/
def spString : BitVec 32 := 12

/-- Source: `types.rs`, `MetricType`. -/
inductive MetricType where
  | bool
  | int
  | dint
  | real
  | time
  | lint
  | string
  deriving DecidableEq, Repr

namespace MetricType

/-- Source: `types.rs`, `MetricType::sparkplug_datatype`. -/
def sparkplugDatatype : MetricType → BitVec 32
  | .bool => spBoolean
  | .int => spInt16
  | .dint | .time => spInt32
  | .real => spFloat
  | .lint => spInt64
  | .string => spString

/-- Source: `types.rs`, `MetricType::default_value`. -/
def defaultValue : MetricType → MetricValue
  | .bool => .bool false
  | .int | .dint | .time => .int 0
  | .real => .float F32.zero
  | .lint => .long 0
  | .string => .string ""

end MetricType

/-- Source: `types.rs`, `value_to_sparkplug`. -/
def valueToSparkplug : PlcValue → BitVec 32 × MetricValue
  | .bool b => (spBoolean, .bool b)
  | .int v => (spInt16, .int (v.signExtend 32))
  | .dint v | .time v => (spInt32, .int v)
  | .real v => (spFloat, .float v)

/-- OPC DA codes of the property `Quality`. Source: `types.rs`, `quality_code`. -/
def qualityCode : Quality → BitVec 32
  | .good => 192
  | .uncertain => 64
  | .bad => 0

/-- No metric is good while the clock is not synchronised. Source: `types.rs`, `publish_quality`. -/
def publishQuality (tag : Quality) (clockSynchronized : Bool) : Quality :=
  if tag = .bad then .bad
  else if !clockSynchronized then .uncertain
  else tag

/-! ## The catalog -/

/-- Source: `catalog.rs`, `CatalogTag`. -/
structure CatalogTag where
  name : String
  valueType : MetricType
  isInput : Bool
  slot : ℕ
  unit : String
  deriving DecidableEq, Repr

/-- Source: `catalog.rs`, `CatalogEntry`. -/
structure CatalogEntry where
  /-- The field `alias`. -/
  aliasId : BitVec 32
  tag : CatalogTag
  deriving DecidableEq, Repr

/-- Source: `catalog.rs`, `TagCatalog`. -/
structure TagCatalog where
  entries : List CatalogEntry
  deriving DecidableEq, Repr

namespace TagCatalog

/-- Source: the derived `Default` of `TagCatalog`. -/
def empty : TagCatalog := ⟨[]⟩

/-- Assign aliases to tags from the `i`-th on; `names` and `slots` are those of the tags before.
Source: `catalog.rs`, the `for` of `TagCatalog::from_tags`. -/
def assign (names : List String) (slots : List (Bool × ℕ)) :
    ℕ → List CatalogTag → Except TelemetryError (List CatalogEntry)
  | _, [] => .ok []
  | i, tag :: tags =>
      if trim tag.name = [] then .error (.config "catalog tag name must be non-empty")
      else if tag.name ∈ names then
        .error (.config ("duplicate metric name '" ++ tag.name ++ "'"))
      else if (tag.isInput, tag.slot) ∈ slots then
        .error (.config ("duplicate slot " ++ (if tag.isInput then "I" else "Q") ++ "/" ++
          toString tag.slot))
      else if i + 1 < 2 ^ 32 then do
        let entries ← assign (tag.name :: names) ((tag.isInput, tag.slot) :: slots) (i + 1) tags
        .ok (⟨BitVec.ofNat 32 (i + 1), tag⟩ :: entries)
      else .error (.config "too many catalog tags")

/-- Sort tags by name and assign aliases. Source: `catalog.rs`, `TagCatalog::from_tags`. -/
def fromTags (tags : List CatalogTag) : Except TelemetryError TagCatalog := do
  let entries ← assign [] [] 0 (tags.mergeSort fun a b => a.name ≤ b.name)
  .ok ⟨entries⟩

/-- Source: `catalog.rs`, `TagCatalog::get`. -/
def get (c : TagCatalog) (isInput : Bool) (slot : ℕ) : Option CatalogEntry :=
  c.entries.find? fun e => e.tag.isInput == isInput && e.tag.slot == slot

/-- Source: `catalog.rs`, `TagCatalog::is_empty`. -/
def isEmpty (c : TagCatalog) : Bool := c.entries.isEmpty

theorem get_mem {c : TagCatalog} {isInput : Bool} {slot : ℕ} {e : CatalogEntry}
    (h : c.get isInput slot = some e) : e ∈ c.entries :=
  List.mem_of_find?_eq_some h

end TagCatalog

/-- Aliases are assigned upwards from the first. -/
theorem assign_alias {names : List String} {slots : List (Bool × ℕ)} {i : ℕ} {tags : List CatalogTag}
    {entries : List CatalogEntry} (h : TagCatalog.assign names slots i tags = .ok entries) :
    (∀ e ∈ entries, i < e.aliasId.toNat) ∧ (entries.map CatalogEntry.aliasId).Nodup := by
  induction tags generalizing names slots i entries with
  | nil =>
      cases h
      exact ⟨(fun e he => nomatch he), List.nodup_nil⟩
  | cons tag tags ih =>
      unfold TagCatalog.assign at h
      split_ifs at h with hname hdup hslot hlt
      rcases hrest : TagCatalog.assign (tag.name :: names) ((tag.isInput, tag.slot) :: slots) (i + 1)
        tags with err | rest
      · rw [hrest] at h
        cases h
      · rw [hrest] at h
        cases h
        obtain ⟨habove, hnodup⟩ := ih hrest
        have hhead : (BitVec.ofNat 32 (i + 1)).toNat = i + 1 := by
          rw [BitVec.toNat_ofNat, Nat.mod_eq_of_lt hlt]
        constructor
        · intro e he
          rcases List.mem_cons.mp he with rfl | he
          · rw [hhead]
            exact Nat.lt_succ_self i
          · exact (Nat.lt_succ_self i).trans (habove e he)
        · rw [List.map_cons, List.nodup_cons]
          refine ⟨?_, hnodup⟩
          intro hmem
          obtain ⟨e, he, heq⟩ := List.mem_map.mp hmem
          have := habove e he
          rw [heq, hhead] at this
          exact lt_irrefl _ this

/-- **No two tags of a catalog share an alias.** -/
theorem fromTags_alias {tags : List CatalogTag} {c : TagCatalog} (h : TagCatalog.fromTags tags = .ok c) :
    (c.entries.map CatalogEntry.aliasId).Nodup := by
  unfold TagCatalog.fromTags at h
  rcases hassign : TagCatalog.assign [] [] 0 (tags.mergeSort fun a b => a.name ≤ b.name) with err | es
  · rw [hassign] at h
    cases h
  · rw [hassign] at h
    cases h
    exact (assign_alias hassign).2

end SoftPlc.Telemetry
