import SoftPlc.Io.Gpio
import SoftPlc.Io.ModbusInputs

/-!
# The GPIO driver

`plc-io-gpio/src/driver.rs` and the requests of `linux.rs`. The driver has one word for each module; bit
`i` of it is the `i`-th line. Words go to the kernel when the lines are claimed, in every cycle and when
they are released. `gpio_driven_as_mapped`: on each of these ways, a line with a binding gets the value
of its slot or its safe state, a line without one the inactive level, both inverted for an open drain.
-/

namespace SoftPlc.Io.Gpio

open SoftPlc.Lib
open SoftPlc.Scan (OperatingMode)

/-! ## Words -/

/-- The first `n` lines. Source: `linux.rs`, `line_mask`. -/
def lineMask (n : ℕ) : BitVec 64 := if 64 ≤ n then BitVec.allOnes 64 else (1#64 <<< n) - 1#64

/-- Source: `linux.rs`, `config_flags`. -/
def configFlags (isInput activeLow : Bool) (bias : Bias) (drive : Option Drive) : BitVec 64 :=
  (if isInput then 1#64 <<< 2 else 1#64 <<< 3) ||| (if activeLow then 1#64 <<< 1 else 0) |||
    (if drive = some .openDrain then 1#64 <<< 6 else 0) |||
    match bias with
    | .asIs => 0
    | .pullUp => 1#64 <<< 8
    | .pullDown => 1#64 <<< 9
    | .disabled => 1#64 <<< 10

/-- Source: `plc-io/src/value.rs`, `PlcValue::as_bool`. -/
def asBool : PlcValue → Bool
  | .bool b => b
  | _ => false

/-! ## Modules -/

/-- What stays of a module. Source: `driver.rs`, `ModuleRt`. -/
structure Wiring where
  chipPath : String
  offsets : List (Fin (2 ^ 32))
  flags : BitVec 64
  isInput : Bool
  slots : List (Option ℕ)
  safeBits : BitVec 64
  mask : BitVec 64
  openDrain : Bool
  onBad : BadQualityPolicy

/-- Source: `driver.rs`, `ModuleRt`. -/
structure ModuleRt extends Wiring where
  quality : Quality
  lastBits : BitVec 64

/-- The slot of each line. Source: `driver.rs`, `slots` in `ModuleRt::from_planned`. -/
def PlannedModule.slots (m : PlannedModule) : List (Option ℕ) :=
  m.points.foldl (fun slots p => slots.set p.bit (some p.slot)) (List.replicate m.offsets.length none)

/-- Source: `driver.rs`, `safe_bits` in `ModuleRt::from_planned`. -/
def PlannedModule.safeBits (m : PlannedModule) : BitVec 64 :=
  m.points.foldl (fun bits p => if p.safe then bits ||| (1#64 <<< p.bit) else bits) 0#64

/-- The part of `from_planned` that stays. -/
def PlannedModule.wiring (m : PlannedModule) : Wiring where
  flags := configFlags (m.direction = .input) m.activeLow m.bias m.drive
  mask := lineMask m.offsets.length
  chipPath := m.path
  offsets := m.offsets
  isInput := m.direction = .input
  slots := m.slots
  safeBits := m.safeBits
  openDrain := m.drive = some .openDrain
  onBad := m.onBad

/-- Source: `driver.rs`, `ModuleRt::from_planned`. -/
def ModuleRt.fromPlanned (m : PlannedModule) : ModuleRt := ⟨m.wiring, .good, 0⟩

/-- Source: `driver.rs`, `kernel_output_bits`. -/
def kernelOutputBits (module : Wiring) (processBits : BitVec 64) : BitVec 64 :=
  if module.openDrain then processBits ^^^ module.mask else processBits

/-- The value of a slot in the image. -/
def processValue (image : OutputImage) (slot : ℕ) : Bool := (image.values[slot]?).any asBool

/-- The lines from the `bit`-th on. Source: `driver.rs`, the loop of `desired_bits`. -/
def imageBits (image : OutputImage) : ℕ → List (Option ℕ) → BitVec 64 → BitVec 64
  | _, [], bits => bits
  | bit, slot :: slots, bits =>
      imageBits image (bit + 1) slots
        (if slot.any (processValue image) then bits ||| (1#64 <<< bit) else bits)

/-- Source: `driver.rs`, `desired_bits`. -/
def desiredBits (module : Wiring) (image : OutputImage) (simMode : Bool) : BitVec 64 :=
  if simMode || image.forceSafe then module.safeBits else imageBits image 0 module.slots 0#64

/-! ## The kernel -/

/-- A request for the lines of a module. Source: `linux.rs`, `LineClaim`. -/
structure LineClaim where
  chipPath : String
  offsets : List (Fin (2 ^ 32))
  flags : BitVec 64
  initialValues : BitVec 64
  isOutput : Bool
  mask : BitVec 64

/-- Source: `driver.rs`, `ModuleRt::claim`. -/
def Wiring.claim (module : Wiring) : LineClaim where
  chipPath := module.chipPath
  offsets := module.offsets
  flags := module.flags
  initialValues := kernelOutputBits module module.safeBits
  isOutput := !module.isInput
  mask := module.mask

/-- What the kernel is asked; a request has the index of its module. -/
inductive Ioctl where
  /-- `GPIO_V2_GET_LINE`, for outputs with the initial values and their mask. -/
  | getLine (request : ℕ) (chipPath : String) (offsets : List (Fin (2 ^ 32))) (flags : BitVec 64)
      (values : Option (BitVec 64 × BitVec 64))
  | getValues (request : ℕ) (mask : BitVec 64)
  | setValues (request : ℕ) (bits mask : BitVec 64)
  | close (request : ℕ)

/-- How the kernel answers, to each attempt of a request. -/
structure Kernel where
  openChip : String → Except ℤ Unit
  /-- Whether a descriptor came back. -/
  getLine : ℕ → ℕ → Except ℤ Bool
  values : ℕ → ℕ → Except ℤ (BitVec 64)

/-- Errors of a request. Source: `linux.rs`, the errors of `request_one`. -/
inductive LineError where
  | os (chipPath : String) (errno : ℤ)
  | noDescriptor (chipPath : String)

/-- EINTR or EAGAIN. Source: `linux.rs`, `is_transient`. -/
def isTransient (errno : ℤ) : Bool := errno == 4 || errno == 11

/-- Ask until there is an answer. Source: `linux.rs`, the loops of `request_one` and
`ioctl_values`. -/
def attempts {α : Type} (ask : Ioctl) (answer : ℕ → Except ℤ α) :
    List ℕ → ℤ → List Ioctl × Except ℤ α
  | [], last => ([], .error last)
  | n :: ns, _ =>
      match answer n with
      | .ok a => ([ask], .ok a)
      | .error e =>
          if isTransient e then
            let (calls, result) := attempts ask answer ns e
            (ask :: calls, result)
          else ([ask], .error e)

/-- The attempts that are made. Source: `linux.rs`, `IOCTL_ATTEMPTS`. -/
def ioctlAttempts : List ℕ := List.range 4

/-- Source: `linux.rs`, `ioctl_values`; EIO is 5. -/
def ioctlValues (k : Kernel) (request : ℕ) (ask : Ioctl) : List Ioctl × Except ℤ (BitVec 64) :=
  attempts ask (k.values request) ioctlAttempts 5

/-- Source: `linux.rs`, `request_one`; at most 64 lines are passed on. -/
def requestOne (k : Kernel) (request : ℕ) (claim : LineClaim) :
    List Ioctl × Except LineError Unit :=
  match k.openChip claim.chipPath with
  | .error e => ([], .error (.os claim.chipPath e))
  | .ok () =>
      let values := if claim.isOutput then some (claim.initialValues, claim.mask) else none
      let ask := Ioctl.getLine request claim.chipPath (claim.offsets.take 64) claim.flags values
      match attempts ask (k.getLine request) ioctlAttempts 5 with
      | (calls, .ok true) => (calls, .ok ())
      | (calls, .ok false) => (calls, .error (.noDescriptor claim.chipPath))
      | (calls, .error e) => (calls, .error (.os claim.chipPath e))

/-- A granted request. Source: `linux.rs`, `LineReq`. -/
structure LineReq where
  /-- The descriptor is open. -/
  fd : Bool
  isOutput : Bool
  mask : BitVec 64

/-- The request of a claim that was granted. -/
def LineClaim.req (claim : LineClaim) : LineReq := ⟨true, claim.isOutput, claim.mask⟩

/-- What a release asks. Source: `linux.rs`, `release_req`. -/
def releaseReq (k : Kernel) (request : ℕ) (req : LineReq) (safeBits : BitVec 64) : List Ioctl :=
  if req.fd then
    (if req.isOutput then (ioctlValues k request (.setValues request safeBits req.mask)).1 else []) ++
      [.close request]
  else []

/-- Release what has been claimed. Source: `linux.rs`, the loop over `lines.reqs` in
`LinuxLines::claim`. -/
def releaseClaims (k : Kernel) (claims : List LineClaim) : List Ioctl :=
  (claims.mapIdx fun i c =>
    releaseReq k i c.req (if c.isOutput then c.initialValues else 0#64)).flatten

/-- The claims after those that were granted. Source: `linux.rs`, the loop of `LinuxLines::claim`. -/
def claimFrom (k : Kernel) (granted : List LineClaim) :
    List LineClaim → List Ioctl × Except LineError (List LineReq)
  | [] => ([], .ok (granted.map LineClaim.req))
  | claim :: claims =>
      match requestOne k granted.length claim with
      | (calls, .ok ()) =>
          let (more, result) := claimFrom k (granted ++ [claim]) claims
          (calls ++ more, result)
      | (calls, .error e) => (calls ++ releaseClaims k granted, .error e)

/-- Source: `linux.rs`, `LinuxLines::read_bits`; EINVAL is 22 and EBADF is 9. -/
def readBits (k : Kernel) (reqs : List LineReq) (module : ℕ) : List Ioctl × Except ℤ (BitVec 64) :=
  match reqs[module]? with
  | none => ([], .error 22)
  | some req =>
      if req.fd then ioctlValues k module (.getValues module req.mask) else ([], .error 9)

/-- Source: `linux.rs`, `LinuxLines::write_bits`. -/
def writeBits (k : Kernel) (reqs : List LineReq) (module : ℕ) (bits mask : BitVec 64) :
    List Ioctl × Except ℤ (BitVec 64) :=
  match reqs[module]? with
  | none => ([], .error 22)
  | some req =>
      if !req.isOutput then ([], .error 22)
      else if req.fd then ioctlValues k module (.setValues module bits mask)
      else ([], .error 9)

/-! ## The driver -/

/-- Source: `driver.rs`, `GpioDriver`, without the gate. -/
structure GpioDriver where
  modules : List ModuleRt
  backend : Option (List LineReq)
  fails : ℕ
  lastErrno : ℤ
  seq : ℕ
  running : Bool

/-- Source: `driver.rs`, `GpioDriver::new`. -/
def GpioDriver.new (plan : List PlannedModule) : GpioDriver :=
  ⟨plan.map .fromPlanned, none, 0, 0, 0, false⟩

/-- The counters of one pass over the modules. -/
structure Pass where
  fails : ℕ
  /-- A module of the direction of the pass was seen. -/
  saw : Bool
  scanErrno : ℤ

/-- A call failed. -/
def Pass.failed (p : Pass) (errno : ℤ) : Pass := ⟨min (p.fails + 1) (2 ^ 32 - 1), true, errno⟩

/-- The errno after a pass. Source: `driver.rs`, the end of `poll_modules` and of `apply_modules`. -/
def Pass.errno (p : Pass) (last : ℤ) : ℤ :=
  if p.scanErrno ≠ 0 then p.scanErrno else if p.saw then 0 else last

/-- Source: `plc-io/src/driver.rs`, `InputUpdate`. -/
structure InputUpdate extends Modbus.InputUpdate where
  seq : ℕ

/-- The lines from the `bit`-th on. Source: `driver.rs`, `write_inputs`. -/
def writeInputs (bits : BitVec 64) (quality : Quality) :
    ℕ → List (Option ℕ) → InputUpdate → InputUpdate
  | _, [], out => out
  | bit, none :: slots, out => writeInputs bits quality (bit + 1) slots out
  | bit, some slot :: slots, out =>
      writeInputs bits quality (bit + 1) slots
        { out with
          values := out.values.set slot (.bool (bits.getLsbD bit))
          quality := out.quality.set slot quality }

/-- The modules from the `index`-th on. Source: `driver.rs`, the loop of `poll_modules`. -/
def pollModules (k : Kernel) (reqs : List LineReq) :
    ℕ → List ModuleRt → Pass → InputUpdate → List ModuleRt × Pass × InputUpdate × List Ioctl
  | _, [], p, out => ([], p, out, [])
  | index, module :: modules, p, out =>
      if !module.isInput then
        let (rest, p, out, calls) := pollModules k reqs (index + 1) modules p out
        (module :: rest, p, out, calls)
      else
        let (reads, result) := readBits k reqs index
        match result with
        | .ok bits =>
            let (rest, p, out, calls) := pollModules k reqs (index + 1) modules { p with saw := true }
              (writeInputs bits .good 0 module.slots out)
            ({ module with quality := .good, lastBits := bits } :: rest, p, out, reads ++ calls)
        | .error errno =>
            let (rest, p, out, calls) := pollModules k reqs (index + 1) modules (p.failed errno)
              (writeInputs module.lastBits .bad 0 module.slots out)
            ({ module with quality := .bad } :: rest, p, out, reads ++ calls)

/-- The modules from the `index`-th on. Source: `driver.rs`, the loop of `apply_modules`. -/
def applyModules (k : Kernel) (reqs : List LineReq) (simMode : Bool) (image : OutputImage) :
    ℕ → List ModuleRt → Pass → List ModuleRt × Pass × List Ioctl
  | _, [], p => ([], p, [])
  | index, module :: modules, p =>
      if module.isInput then
        let (rest, p, calls) := applyModules k reqs simMode image (index + 1) modules p
        (module :: rest, p, calls)
      else
        let bits := kernelOutputBits module.toWiring (desiredBits module.toWiring image simMode)
        let (writes, result) := writeBits k reqs index bits module.mask
        match result with
        | .ok _ =>
            let (rest, p, calls) := applyModules k reqs simMode image (index + 1) modules
              { p with saw := true }
            ({ module with quality := .good } :: rest, p, writes ++ calls)
        | .error errno =>
            let (rest, p, calls) := applyModules k reqs simMode image (index + 1) modules
              (p.failed errno)
            ({ module with quality := .bad } :: rest, p, writes ++ calls)

namespace GpioDriver

/-- Source: `driver.rs`, `GpioDriver::start`. -/
def start (d : GpioDriver) (k : Kernel) : GpioDriver × List Ioctl × Except LineError Unit :=
  if d.running then (d, [], .ok ())
  else
    match claimFrom k [] (d.modules.map fun m => m.claim) with
    | (calls, .ok reqs) => ({ d with backend := some reqs, running := true }, calls, .ok ())
    | (calls, .error e) => (d, calls, .error e)

/-- Source: `driver.rs`, `GpioDriver::stop`. -/
def stop (d : GpioDriver) (k : Kernel) : GpioDriver × List Ioctl :=
  match d.backend with
  | none => ({ d with running := false }, [])
  | some reqs =>
      ({ d with backend := none, running := false },
        (d.modules.mapIdx fun i m =>
          match reqs[i]? with
          | none => []
          | some req =>
              releaseReq k i req
                (if m.isInput then 0#64 else kernelOutputBits m.toWiring m.safeBits)).flatten)

/-- Source: `driver.rs`, `GpioDriver::poll_inputs`; `none` is `NotReady`. -/
def pollInputs (d : GpioDriver) (k : Kernel) (mode : OperatingMode) (out : InputUpdate) :
    GpioDriver × List Ioctl × Option InputUpdate :=
  if !d.running then (d, [], none)
  else if mode = .sim then (d, [], some out)
  else
    match d.backend with
    | none => (d, [], none)
    | some reqs =>
        let seq := (d.seq + 1) % 2 ^ 64
        let (modules, p, out, calls) :=
          pollModules k reqs 0 d.modules ⟨d.fails, false, 0⟩ { out with seq }
        ({ d with modules, fails := p.fails, lastErrno := p.errno d.lastErrno, seq }, calls, some out)

/-- Source: `driver.rs`, `GpioDriver::apply_outputs`; `none` is `NotReady`. -/
def applyOutputs (d : GpioDriver) (k : Kernel) (mode : OperatingMode) (image : OutputImage) :
    GpioDriver × List Ioctl × Option Unit :=
  if !d.running then (d, [], none)
  else
    match d.backend with
    | none => (d, [], none)
    | some reqs =>
        let (modules, p, calls) :=
          applyModules k reqs (mode = .sim) image 0 d.modules ⟨d.fails, false, 0⟩
        ({ d with modules, fails := p.fails, lastErrno := p.errno d.lastErrno }, calls, some ())

/-- The states that a driver of a plan can reach, whatever the kernel answers. -/
inductive Reach (plan : List PlannedModule) : GpioDriver → Prop
  | new : Reach plan (.new plan)
  | start {d : GpioDriver} (h : Reach plan d) (k : Kernel) : Reach plan (d.start k).1
  | stop {d : GpioDriver} (h : Reach plan d) (k : Kernel) : Reach plan (d.stop k).1
  | poll {d : GpioDriver} (h : Reach plan d) (k : Kernel) (mode : OperatingMode) (out : InputUpdate) :
      Reach plan (d.pollInputs k mode out).1
  | apply {d : GpioDriver} (h : Reach plan d) (k : Kernel) (mode : OperatingMode)
      (image : OutputImage) : Reach plan (d.applyOutputs k mode image).1

end GpioDriver

end SoftPlc.Io.Gpio
