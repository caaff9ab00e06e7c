import SoftPlc.Vm.Value

/-!
# The process image

The slots that the scan engine keeps between the field and the machine (`plc-io/src/image.rs`), the
maintenance forces, and the rule by which the value of an output is chosen
(`plc-io/src/force.rs`, `resolve_effective_output`): a global safe request first, then a force, then
a bad module, then what the program wrote, and last the configured safe state.
-/

namespace SoftPlc.Io

open SoftPlc.Vm SoftPlc.Lib

/-! ## Values and quality -/

/-- Scalar types at the I/O boundary. Source: `plc-io/src/map.rs`, `ValueType`. -/
inductive ValueType where
  | bool
  | int
  | dint
  | real
  | time
  deriving DecidableEq, Repr

/-- Tagged process value. Source: `plc-io/src/value.rs`, `PlcValue`. -/
inductive PlcValue where
  | bool (b : Bool)
  | int (v : BitVec 16)
  | dint (v : BitVec 32)
  | real (v : F32)
  | time (v : BitVec 32)
  deriving DecidableEq, Repr

/-- Zero of a type; a TIME slot starts as a DINT. Source: `value.rs`, `PlcValue::default_of`. -/
def PlcValue.defaultOf : ValueType → PlcValue
  | .bool => .bool false
  | .int => .int 0
  | .dint | .time => .dint 0
  | .real => .real F32.zero

/-- Source: `plc-scan/src/convert.rs`, `plc_to_vm`. -/
def plcToVm : PlcValue → VmValue
  | .bool b => .bool b
  | .int v => .int v
  | .dint v => .dint v
  | .real v => .real v
  | .time v => .time v

/-- Source: `convert.rs`, `vm_to_plc`. -/
def vmToPlc : VmValue → PlcValue
  | .bool b => .bool b
  | .int v => .int v
  | .dint v => .dint v
  | .real v => .real v
  | .time v => .time v
  | .lint v => .dint (v.setWidth 32)

/-- Quality of a slot or a module. Source: `plc-types/src/quality.rs`, `Quality`. -/
inductive Quality where
  | good
  | uncertain
  | bad
  deriving DecidableEq, Repr

/-- What a module does when its quality is bad. Source: `map.rs`, `BadQualityPolicy`. -/
inductive BadQualityPolicy where
  | forceSafe
  | holdLast
  deriving DecidableEq, Repr

/-! ## Slots -/

/-- One slot of the image. Source: `image.rs`, `TypedSlot`. -/
structure TypedSlot where
  value : PlcValue
  quality : Quality
  /-- A program or the mapper wrote it. -/
  written : Bool
  deriving DecidableEq, Repr

/-- Source: `image.rs`, `TypedSlot::zero`. -/
def TypedSlot.zero (ty : ValueType) : TypedSlot := ⟨.defaultOf ty, .good, false⟩

/-- The image. Source: `image.rs`, `ProcessImage`; of the metadata only the types of the memory
slots are read. -/
structure ProcessImage where
  inputs : List TypedSlot
  outputs : List TypedSlot
  memory : List TypedSlot
  memoryTypes : List ValueType
  /-- Configured safe state of each output. -/
  outputSafe : List PlcValue
  deriving DecidableEq, Repr

namespace ProcessImage

/-- The safe state of an output; BOOL false when none is configured. Source: `engine.rs`,
`output_safe.get(i).copied().unwrap_or(..)`. -/
def safe (m : ProcessImage) (i : ℕ) : PlcValue := (m.outputSafe[i]?).getD (.bool false)

/-- The worst quality of the inputs. Source: `engine.rs`, `worst` in
`ScanEngine::sample_inputs`. -/
def worst (m : ProcessImage) : Quality :=
  if m.inputs.any fun s => s.quality == .bad then .bad
  else if m.inputs.any fun s => s.quality == .uncertain then .uncertain
  else .good

end ProcessImage

/-! ## Forces -/

/-- Forced outputs by slot, the newest entry first. Source: `force.rs`, `ForceTable`. -/
abbrev ForceTable := List (ℕ × PlcValue)

/-- Source: `force.rs`, `ForceTable::set`. -/
def ForceTable.force (t : ForceTable) (slot : ℕ) (value : PlcValue) : ForceTable :=
  (slot, value) :: t

/-- Source: `force.rs`, `ForceTable::clear`. -/
def ForceTable.unforce (t : ForceTable) (slot : ℕ) : ForceTable := t.filter fun f => f.1 != slot

/-- Quality and policy of the module that owns an output. Source: `plc-io/src/driver.rs`,
`OutputModuleState`. -/
structure OutputModuleState where
  quality : Quality
  onBadQuality : BadQualityPolicy
  deriving DecidableEq, Repr

/-- What is handed to a driver. Source: `driver.rs`, `OutputImage`. -/
structure OutputImage where
  values : List PlcValue
  /-- The driver must drive safe states. -/
  forceSafe : Bool
  deriving DecidableEq, Repr

/-- Why a value was chosen. Source: `force.rs`, `EffectiveSource`. -/
inductive EffectiveSource where
  | globalSafe
  | force
  | moduleSafe
  | program
  | defaultSafe
  deriving DecidableEq, Repr

/-- Source: `force.rs`, `EffectiveOutputInput`. -/
structure EffectiveOutputInput where
  /-- The mode is FAULT. -/
  fault : Bool
  globalForceSafe : Bool
  module : OutputModuleState
  force : Option PlcValue
  programValue : PlcValue
  programWritten : Bool
  safeState : PlcValue

/-- Choose the value of an output. Source: `force.rs`, `resolve_effective_output`. -/
def resolveEffectiveOutput (x : EffectiveOutputInput) : PlcValue × EffectiveSource :=
  if x.globalForceSafe || x.fault then (x.safeState, .globalSafe)
  else
    match x.force with
    | some v => (v, .force)
    | none =>
        if x.module.quality == .bad && x.module.onBadQuality == .forceSafe then
          (x.safeState, .moduleSafe)
        else if x.programWritten then (x.programValue, .program)
        else (x.safeState, .defaultSafe)

/-- A global safe request wins over everything else. -/
theorem resolve_of_globalSafe {x : EffectiveOutputInput} (h : x.globalForceSafe = true) :
    (resolveEffectiveOutput x).1 = x.safeState := by
  simp [resolveEffectiveOutput, h]

/-- Without a safe request, a force and a bad module, the program decides. -/
theorem resolve_of_program {x : EffectiveOutputInput} (hsafe : x.globalForceSafe = false)
    (hfault : x.fault = false) (hforce : x.force = none) (hgood : x.module.quality = .good) :
    (resolveEffectiveOutput x).1 = if x.programWritten then x.programValue else x.safeState := by
  simp only [resolveEffectiveOutput, hsafe, hfault, hforce, hgood]
  cases x.programWritten <;> rfl

end SoftPlc.Io
