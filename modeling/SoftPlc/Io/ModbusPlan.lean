import SoftPlc.Io.Modbus
import SoftPlc.Lib.Bind
import SoftPlc.Lib.Text

/-!
# Modbus modules

`plc-io-modbus/src/validate.rs` and `address.rs`: how the bindings of a `modbus_tcp` module become
points with a table, an address and a number of words. `validated` collects what an accepted module
promises: every point lies in its 5-digit reference range, the positions of the inputs count up, and
no two points of a table overlap. The YAML of the module config is taken decoded.
-/

namespace SoftPlc.Io.Modbus

open SoftPlc.Lib

/-! ## The I/O map -/

/-- A floating point number of 64 bits, by its bits. -/
structure F64 where
  bits : BitVec 64
  deriving DecidableEq, Repr

namespace F64

/-- Source: `f64::is_finite`. -/
def isFinite (x : F64) : Bool := x.bits.extractLsb' 52 11 != 2047#11

/-- The comparison with 0.0, which is true of both zeros. -/
def isZero (x : F64) : Bool := x.bits.extractLsb' 0 63 == 0#63

end F64

/-- Source: `plc-io/src/map.rs`, `ImagePlane`. -/
inductive ImagePlane where
  | i
  | q
  | m
  deriving DecidableEq, Repr

/-- Source: `map.rs`, `BindingDirection`. -/
inductive BindingDirection where
  | input
  | output
  | memory
  deriving DecidableEq, Repr

/-- Source: `map.rs`, `ImagePlane::direction`. -/
def ImagePlane.direction : ImagePlane → BindingDirection
  | .i => .input
  | .q => .output
  | .m => .memory

/-- Source: `map.rs`, `RegisterType`. -/
inductive RegisterType where
  | holding
  | input
  | coil
  | discrete
  deriving DecidableEq, Repr

/-- The discriminant. -/
def RegisterType.toNat : RegisterType → ℕ
  | .holding => 0
  | .input => 1
  | .coil => 2
  | .discrete => 3

/-- Raw encodings. Source: `map.rs`, `RawType`. -/
inductive RawType where
  | bool
  | int
  | dint
  | uint
  | real
  deriving DecidableEq, Repr

/-- One binding. Source: `map.rs`, `IoBinding`, without the unit and the fields that the image builder
reads. -/
structure IoBinding where
  tag : String
  image : ImagePlane
  valueType : ValueType
  bit : Option ℕ
  scale : F64
  offset : F64
  clamp : Option (F64 × F64)
  register : Option ℕ
  registerType : Option RegisterType
  rawType : Option RawType

/-- Source: `validate.rs`, `ModuleConfig`, with its defaults. -/
structure ModuleConfig where
  endpoint : String
  unit : ℕ
  pollMs : ℕ
  staleMs : Option ℕ
  timeoutMs : Option ℕ

/-- One module; the config is what the YAML decodes to. Source: `map.rs`, `IoModule`. -/
structure IoModule where
  id : String
  config : Except String ModuleConfig
  onBadQuality : BadQualityPolicy
  bindings : List IoBinding

/-- The slot of a binding. Source: `map.rs`, `ResolvedBinding`. -/
structure ResolvedBinding where
  moduleIndex : ℕ
  bindingIndex : ℕ
  slot : ℕ

/-- Source: `map.rs`, `ResolvedIoMap`. -/
structure ResolvedIoMap where
  image : ProcessImage
  bindings : List ResolvedBinding

/-! ## Addresses -/

/-- Source: `address.rs`, `table_name`. -/
def tableName : RegisterType → String
  | .coil => "coil"
  | .discrete => "discrete"
  | .holding => "holding"
  | .input => "input"

/-- Source: `address.rs`, `is_bit_table`. -/
def isBitTable : RegisterType → Bool
  | .coil | .discrete => true
  | .holding | .input => false

/-- The table and the address of a 5-digit reference. -/
def reference (register : ℕ) : Option (RegisterType × ℕ) :=
  if 1 ≤ register ∧ register ≤ 9999 then some (.coil, register - 1)
  else if 10001 ≤ register ∧ register ≤ 19999 then some (.discrete, register - 10001)
  else if 30001 ≤ register ∧ register ≤ 39999 then some (.input, register - 30001)
  else if 40001 ≤ register ∧ register ≤ 49999 then some (.holding, register - 40001)
  else none

/-- Source: `address.rs`, `decode`. -/
def decode (register : ℕ) (hint : Option RegisterType) : Except String (RegisterType × ℕ) :=
  match reference register with
  | none => .error ("register " ++ toString register ++ " is not a 5-digit Modicon reference")
  | some (table, pdu) =>
      let decoded := (table, if pdu < 65536 then pdu else 0)
      match hint with
      | none => .ok decoded
      | some hint =>
          if hint = table then .ok decoded
          else .error ("register " ++ toString register ++ " is " ++ tableName table ++ ", not " ++
            tableName hint)

/-! ## Points -/

/-- One decoded binding. Source: `validate.rs`, `PlannedPoint`. -/
structure PlannedPoint where
  tag : String
  slot : ℕ
  direction : BindingDirection
  table : RegisterType
  pdu : ℕ
  words : ℕ
  raw : RawType
  bit : Option ℕ
  valueType : ValueType
  scale : F64
  offset : F64
  clamp : Option (F64 × F64)
  safe : PlcValue
  inputPos : Option ℕ
  outputPos : Option ℕ
  deriving DecidableEq

/-- Source: `validate.rs`, `PlannedModule`. -/
structure PlannedModule where
  id : String
  host : String
  port : ℕ
  unit : ℕ
  pollMs : ℕ
  staleMs : ℕ
  timeoutMs : ℕ
  onBad : BadQualityPolicy
  points : List PlannedPoint

/-- Source: `validate.rs`, `raw_words`. -/
def rawWords : RawType → ℕ
  | .bool | .int | .uint => 1
  | .dint | .real => 2

/-- Source: `validate.rs`, `default_raw`. -/
def defaultRaw : ValueType → Except String RawType
  | .bool => .ok .bool
  | .int => .ok .int
  | .dint => .ok .dint
  | .real => .ok .real
  | .time => .error "TIME is not a modbus raw type"

/-- An error of a binding. -/
def bindingError {α : Type} (tag message : String) : Except String α :=
  .error ("binding '" ++ tag ++ "': " ++ message)

/-- Name the binding in an error. -/
def atBinding {α : Type} (tag : String) : Except String α → Except String α
  | .ok a => .ok a
  | .error message => bindingError tag message

/-- Source: `validate.rs`, `check_bit`. -/
def checkBit (table : RegisterType) (raw : RawType) (bit : Option ℕ) (valueType : ValueType)
    (tag : String) : Except String (Option ℕ) :=
  if isBitTable table then
    if bit.isSome then bindingError tag "bit is not used on coils or discrete inputs"
    else if raw ≠ .bool ∨ valueType ≠ .bool then bindingError tag "coils and discrete inputs are BOOL"
    else .ok none
  else if raw = .bool then
    if valueType ≠ .bool then bindingError tag "BOOL raw values map to BOOL tags"
    else
      match bit with
      | none => bindingError tag "holding/input BOOL requires bit"
      | some bit =>
          if bit > 15 then bindingError tag ("bit " ++ toString bit ++ " is outside 0..=15")
          else .ok (some bit)
  else if bit.isSome then bindingError tag "bit is only valid for BOOL raw values"
  else .ok none

/-- The raw type of a binding. Source: `validate.rs`, `raw` in `validate_module`. -/
def rawOf (b : IoBinding) : Except String RawType :=
  match b.rawType with
  | some raw => .ok raw
  | none => atBinding b.tag (defaultRaw b.valueType)

/-- The point of a binding; the positions are those of the next input and of the next output. Source:
`validate.rs`, the body of the `for` of `validate_module`. -/
def planPoint (moduleIndex : ℕ) (resolved : ResolvedIoMap) (bindingIndex inputPos outputPos : ℕ)
    (b : IoBinding) : Except String PlannedPoint :=
  if b.image = .m then bindingError b.tag "modbus does not back %M"
  else
    match b.register with
    | none => bindingError b.tag "register is required"
    | some register => do
        let (table, pdu) ← atBinding b.tag (decode register b.registerType)
        if b.valueType = .time then bindingError b.tag "TIME is not a modbus raw type"
        else do
          let raw ← rawOf b
          let bit ← checkBit table raw b.bit b.valueType b.tag
          let direction := b.image.direction
          if direction = .output ∧ (table = .input ∨ table = .discrete) then
            bindingError b.tag (tableName table ++ " registers are read-only")
          else if direction = .output ∧ b.scale.isZero then
            bindingError b.tag "output scale must be non-zero"
          else if !b.scale.isFinite || !b.offset.isFinite then
            bindingError b.tag "scale and offset must be finite"
          else
            match resolved.bindings.find? fun r =>
              r.moduleIndex == moduleIndex && r.bindingIndex == bindingIndex with
            | none => bindingError b.tag "missing slot assignment"
            | some r =>
                .ok
                  { tag := b.tag
                    slot := r.slot
                    direction := direction
                    table := table
                    pdu := pdu
                    words := if isBitTable table then 1 else rawWords raw
                    raw := raw
                    bit := bit
                    valueType := b.valueType
                    scale := b.scale
                    offset := b.offset
                    clamp := if direction = .input then b.clamp else none
                    safe := if direction = .output then resolved.image.safe r.slot
                      else .defaultOf b.valueType
                    inputPos := if direction = .input then some inputPos else none
                    outputPos := if direction = .output then some outputPos else none }

/-- The points of the bindings from the `bindingIndex`-th on. Source: `validate.rs`, the `for` of
`validate_module`. -/
def planPoints (moduleIndex : ℕ) (resolved : ResolvedIoMap) :
    ℕ → ℕ → ℕ → List IoBinding → Except String (List PlannedPoint)
  | _, _, _, [] => .ok []
  | bindingIndex, inputPos, outputPos, b :: bs => do
      let p ← planPoint moduleIndex resolved bindingIndex inputPos outputPos b
      let points ← planPoints moduleIndex resolved (bindingIndex + 1)
        (if p.inputPos.isSome then inputPos + 1 else inputPos)
        (if p.outputPos.isSome then outputPos + 1 else outputPos) bs
      .ok (p :: points)

/-- Order by table and start. -/
def spanBefore (p q : PlannedPoint) : Bool :=
  p.table.toNat < q.table.toNat || (p.table.toNat == q.table.toNat && p.pdu ≤ q.pdu)

/-- Points that overlap the one before. Source: `validate.rs`, the `for` of `check_overlaps`. -/
def overlapIn (moduleId : String) : List PlannedPoint → Except String Unit
  | p :: q :: points =>
      if p.table = q.table ∧ q.pdu < p.pdu + p.words then
        .error ("module '" ++ moduleId ++ "': registers overlap (" ++ p.tag ++ " and " ++ q.tag ++ ")")
      else overlapIn moduleId (q :: points)
  | _ => .ok ()

/-- The spans are those of the points. Source: `validate.rs`, `check_overlaps`. -/
def checkOverlaps (moduleId : String) (points : List PlannedPoint) : Except String Unit :=
  overlapIn moduleId (points.mergeSort spanBefore)

/-! ## Modules -/

/-- Split at the last `:`. -/
def rsplitColon (text : List Char) : Option (List Char × List Char) :=
  if ':' ∈ text then
    some ((text.reverse.dropWhile (· != ':')).tail.reverse, (text.reverse.takeWhile (· != ':')).reverse)
  else none

/-- Source: `u16::from_str`. -/
def parseU16 (text : List Char) : Option ℕ :=
  let digits := match text with
    | '+' :: rest => rest
    | _ => text
  if digits = [] ∨ !digits.all Char.isDigit then none
  else
    let n := digits.foldl (fun n c => 10 * n + (c.toNat - 48)) 0
    if n < 65536 then some n else none

/-- Source: `validate.rs`, `parse_endpoint`. -/
def parseEndpoint (raw : String) : Except String (String × ℕ) :=
  let malformed : Except String (String × ℕ) := .error "endpoint must be host:port"
  match rsplitColon (trim raw) with
  | none => malformed
  | some (host, port) =>
      let host := trim (String.ofList host)
      let bracketed := host.head? = some '[' ∧ host.getLast? = some ']' ∧ 2 ≤ host.length
      let inner := if bracketed then host.tail.dropLast else host
      if ¬bracketed ∧ ':' ∈ host then malformed
      else if inner = [] then malformed
      else
        match parseU16 (trim (String.ofList port)) with
        | none => malformed
        | some port => if port = 0 then .error "endpoint port must be non-zero"
            else .ok (String.ofList inner, port)

/-- Source: `validate.rs`, `validate_module`; the texts are those of `IoError::Map`. -/
def validateModule (moduleIndex : ℕ) (module : IoModule) (resolved : ResolvedIoMap) :
    Except String PlannedModule :=
  let failed {α : Type} (message : String) : Except String α :=
    .error ("module '" ++ module.id ++ "': " ++ message)
  match module.config with
  | .error e => failed ("modbus config: " ++ e)
  | .ok cfg =>
      let staleMs := cfg.staleMs.getD (min (cfg.pollMs * 3) (2 ^ 64 - 1))
      let timeoutMs := cfg.timeoutMs.getD cfg.pollMs
      if cfg.pollMs = 0 then failed "poll_ms must be > 0"
      else if ¬(1 ≤ cfg.unit ∧ cfg.unit ≤ 255) then failed "unit must be 1..=255"
      else if staleMs < cfg.pollMs then failed "stale_ms must be >= poll_ms"
      else if timeoutMs = 0 then failed "timeout_ms must be > 0"
      else
        match parseEndpoint cfg.endpoint with
        | .error e => failed e
        | .ok (host, port) => do
            let points ← planPoints moduleIndex resolved 0 0 0 module.bindings
            checkOverlaps module.id points
            .ok
              { id := module.id
                host := host
                port := port
                unit := cfg.unit
                pollMs := cfg.pollMs
                staleMs := staleMs
                timeoutMs := timeoutMs
                onBad := module.onBadQuality
                points := points }

/-! ## What an accepted module promises -/

/-- One point: its words and its place in the table. -/
structure PlannedPoint.Sound (p : PlannedPoint) : Prop where
  words : p.words = if isBitTable p.table then 1 else rawWords p.raw
  top : p.pdu + p.words ≤ 10000
  bit : isBitTable p.table = false → p.raw = .bool → ∃ b, p.bit = some b ∧ b ≤ 15
  input : p.direction = .input → ∃ i, p.inputPos = some i
  output : p.direction = .output →
    p.inputPos = none ∧ (∃ i, p.outputPos = some i) ∧ (p.table = .coil ∨ p.table = .holding)
  backed : p.direction ≠ .memory

/-- Points whose ranges do not meet. -/
def Apart (p q : PlannedPoint) : Prop :=
  p.table = q.table → p.pdu + p.words ≤ q.pdu ∨ q.pdu + q.words ≤ p.pdu

/-- **A valid set of points.** -/
structure ValidPoints (points : List PlannedPoint) : Prop where
  sound : ∀ p ∈ points, p.Sound
  positions : points.filterMap PlannedPoint.inputPos =
    List.range (points.filterMap PlannedPoint.inputPos).length
  apart : points.Pairwise Apart

section Validated

variable {moduleIndex bindingIndex inputPos outputPos : ℕ} {resolved : ResolvedIoMap}

theorem rawWords_bounds (raw : RawType) : 1 ≤ rawWords raw ∧ rawWords raw ≤ 2 := by
  cases raw <;> decide

theorem PlannedPoint.Sound.words_bounds {p : PlannedPoint} (h : p.Sound) : 1 ≤ p.words ∧ p.words ≤ 2 := by
  rw [h.words]
  split_ifs
  · decide
  · exact rawWords_bounds p.raw

/-- Addresses of 5-digit references. -/
theorem decode_bound {register pdu : ℕ} {hint : Option RegisterType} {table : RegisterType}
    (h : decode register hint = .ok (table, pdu)) : pdu ≤ 9998 := by
  unfold decode at h
  split at h
  · cases h
  · next table' pdu' href =>
      have hpdu : pdu' ≤ 9998 := by
        unfold reference at href
        split_ifs at href <;> cases href <;> omega
      have hsmall : (if pdu' < 65536 then pdu' else 0) = pdu' := if_pos (by omega)
      dsimp only at h
      rw [hsmall] at h
      split at h
      · cases h
        exact hpdu
      · split_ifs at h
        cases h
        exact hpdu

theorem atBinding_ok {α : Type} {tag : String} {x : Except String α} {a : α}
    (h : atBinding tag x = .ok a) : x = .ok a := by
  unfold atBinding at h
  split at h
  · cases h
    rfl
  · cases h

theorem checkBit_ok {table : RegisterType} {raw : RawType} {bit result : Option ℕ} {valueType : ValueType}
    {tag : String} (h : checkBit table raw bit valueType tag = .ok result)
    (htable : isBitTable table = false) (hraw : raw = .bool) : ∃ b, result = some b ∧ b ≤ 15 := by
  unfold checkBit at h
  rw [htable, if_neg Bool.false_ne_true, if_pos hraw] at h
  split at h
  · cases h
  split at h
  · cases h
  · next b =>
      split at h
      · cases h
      · next hb =>
          cases h
          exact ⟨b, rfl, not_lt.mp hb⟩

theorem planPoint_sound {b : IoBinding} {p : PlannedPoint}
    (h : planPoint moduleIndex resolved bindingIndex inputPos outputPos b = .ok p) :
    p.Sound ∧ (p.inputPos = none ∨ p.inputPos = some inputPos) := by
  unfold planPoint at h
  split at h
  · cases h
  next himage =>
  split at h
  · cases h
  obtain ⟨⟨table, pdu⟩, hdecode, h⟩ := except_bind_ok.mp h
  have hpdu := decode_bound (atBinding_ok hdecode)
  dsimp only at h
  split at h
  · cases h
  obtain ⟨raw, -, h⟩ := except_bind_ok.mp h
  obtain ⟨bit, hbit, h⟩ := except_bind_ok.mp h
  split at h
  · cases h
  next hreadonly =>
  split at h
  · cases h
  split at h
  · cases h
  split at h
  · cases h
  · cases h
    have hmemory : b.image.direction ≠ .memory := by
      cases hplane : b.image with
      | i => exact (by decide : BindingDirection.input ≠ .memory)
      | q => exact (by decide : BindingDirection.output ≠ .memory)
      | m => exact absurd hplane himage
    refine ⟨⟨rfl, ?_, checkBit_ok hbit, ?_, ?_, hmemory⟩, ?_⟩
    · have hwords := rawWords_bounds raw
      dsimp only
      split_ifs <;> omega
    · intro hin
      exact ⟨inputPos, if_pos hin⟩
    · intro hout
      dsimp only at hout ⊢
      refine ⟨by rw [hout]; rfl, ⟨outputPos, if_pos hout⟩, ?_⟩
      -- Inputs and discretes are refused for outputs.
      have hwritable := not_and.mp hreadonly hout
      cases table with
      | holding => exact .inr rfl
      | input => exact absurd (.inl rfl) hwritable
      | coil => exact .inl rfl
      | discrete => exact absurd (.inr rfl) hwritable
    · dsimp only
      split_ifs
      · exact .inr rfl
      · exact .inl rfl

/-- Positions count up from the one given. -/
theorem planPoints_sound {bs : List IoBinding} {points : List PlannedPoint}
    (h : planPoints moduleIndex resolved bindingIndex inputPos outputPos bs = .ok points) :
    (∀ p ∈ points, p.Sound) ∧ points.filterMap PlannedPoint.inputPos =
      List.range' inputPos (points.filterMap PlannedPoint.inputPos).length := by
  induction bs generalizing bindingIndex inputPos outputPos points with
  | nil =>
      cases h
      exact ⟨fun _ hp => absurd hp List.not_mem_nil, rfl⟩
  | cons b bs ih =>
      obtain ⟨p, hp, h⟩ := except_bind_ok.mp h
      obtain ⟨rest, hrest, h⟩ := except_bind_ok.mp h
      cases h
      obtain ⟨hsound, hpos⟩ := planPoint_sound hp
      obtain ⟨hall, hpositions⟩ := ih hrest
      refine ⟨?_, ?_⟩
      · intro q hq
        rcases List.mem_cons.mp hq with rfl | hq
        · exact hsound
        · exact hall q hq
      · rcases hpos with hnone | hsome
        · rw [hnone, Option.isSome_none, if_neg Bool.false_ne_true] at hpositions
          rw [List.filterMap_cons_none hnone]
          exact hpositions
        · rw [hsome, Option.isSome_some, if_pos rfl] at hpositions
          rw [List.filterMap_cons_some hsome, List.length_cons, List.range'_succ, ← hpositions]

theorem spanBefore_trans (p q r : PlannedPoint) (hpq : spanBefore p q = true)
    (hqr : spanBefore q r = true) : spanBefore p r = true := by
  simp only [spanBefore, Bool.or_eq_true, decide_eq_true_eq, Bool.and_eq_true, beq_iff_eq] at hpq hqr ⊢
  omega

theorem spanBefore_total (p q : PlannedPoint) : (spanBefore p q || spanBefore q p) = true := by
  simp only [spanBefore, Bool.or_eq_true, decide_eq_true_eq, Bool.and_eq_true, beq_iff_eq]
  omega

/-- Points in order of which none overlaps the next one are apart. -/
theorem overlapIn_apart {moduleId : String} {points : List PlannedPoint}
    (h : overlapIn moduleId points = .ok ())
    (hsorted : points.Pairwise fun p q => spanBefore p q = true) :
    points.Pairwise fun p q => p.table = q.table → p.pdu + p.words ≤ q.pdu := by
  induction points with
  | nil => exact List.Pairwise.nil
  | cons p points ih =>
      cases points with
      | nil => exact List.pairwise_singleton _ _
      | cons q points =>
          unfold overlapIn at h
          split_ifs at h with hoverlap
          obtain ⟨hp, hrest⟩ := List.pairwise_cons.mp hsorted
          have hpairs := ih h hrest
          refine List.pairwise_cons.mpr ⟨?_, hpairs⟩
          intro r hr htable
          -- The next point of the table is not before the one that follows `p`.
          have hpr := hp r hr
          rcases List.mem_cons.mp hr with rfl | hr
          · exact not_lt.mp (not_and.mp hoverlap htable)
          · have hpq := hp q List.mem_cons_self
            have hqr := (List.pairwise_cons.mp hrest).1 r hr
            have hapart := (List.pairwise_cons.mp hpairs).1 r hr
            have hsame : p.table = q.table := by
              simp only [spanBefore, Bool.or_eq_true, decide_eq_true_eq, Bool.and_eq_true,
                beq_iff_eq] at hpq hqr hpr
              rw [← htable] at hqr
              have hnat : p.table.toNat = q.table.toNat := by omega
              revert hnat
              cases p.table <;> cases q.table <;> simp [RegisterType.toNat]
            have hnext := not_lt.mp (not_and.mp hoverlap hsame)
            have hlater := hapart (hsame.symm.trans htable)
            omega

/-- **An accepted module is valid.** -/
theorem validated {module : IoModule} {plan : PlannedModule}
    (h : validateModule moduleIndex module resolved = .ok plan) : ValidPoints plan.points := by
  unfold validateModule at h
  split at h
  · cases h
  dsimp only at h
  split_ifs at h
  split at h
  · cases h
  obtain ⟨points, hpoints, h⟩ := except_bind_ok.mp h
  obtain ⟨⟨⟩, hoverlaps, h⟩ := except_bind_ok.mp h
  cases h
  obtain ⟨hsound, hpositions⟩ := planPoints_sound hpoints
  refine ⟨hsound, ?_, ?_⟩
  · rw [hpositions, List.range_eq_range', List.length_range']
  · have hsorted := List.pairwise_mergeSort spanBefore_trans spanBefore_total points
    have hpairs : (points.mergeSort spanBefore).Pairwise Apart :=
      (overlapIn_apart hoverlaps hsorted).imp fun hpq htable => .inl (hpq htable)
    have hsymm : ∀ {p q : PlannedPoint}, Apart p q → Apart q p := by
      intro p q hpq htable
      exact (hpq htable.symm).symm
    exact (List.Perm.pairwise_iff hsymm (List.mergeSort_perm points spanBefore)).mp hpairs

end Validated

end SoftPlc.Io.Modbus
