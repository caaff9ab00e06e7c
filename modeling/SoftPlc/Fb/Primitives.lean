import SoftPlc.Ir.Basic
import SoftPlc.Lib.F32

/-!
# Native function-block primitives

The primitives of `plc-fb-primitives` (timers, counters, latches, edge detectors, PID) and
`callPrimitive`, the dispatcher over a store of instance pools that the interpreter calls. Each
`eval` returns the new instance and its outputs. An `i32` is a `BitVec 32` read as signed, and
`now_ms : u64` is a natural number, only ever subtracted with saturation.
-/

namespace SoftPlc.Fb

open SoftPlc.Ir SoftPlc.Lib

/-- Signed maximum. Source: `i32::max`. -/
def maxI32 (a b : BitVec 32) : BitVec 32 := if a.slt b then b else a

/-- Signed minimum. Source: `i32::min`. -/
def minI32 (a b : BitVec 32) : BitVec 32 := if b.slt a then b else a

/-! ## Timers -/

/-- Elapsed time, clamped to the TIME range and to `pt`. Source:
`plc-fb-primitives/src/timer.rs`, `et_from_delta`. -/
def etFromDelta (startMs nowMs : ℕ) (pt : BitVec 32) : BitVec 32 :=
  let pt := maxI32 pt 0
  let et := BitVec.ofNat 32 (min (nowMs - startMs) (2 ^ 31 - 1))
  minI32 et pt

/-- On-delay timer. Source: `timer.rs`, `Ton`. -/
structure Ton where
  q : Bool
  et : BitVec 32
  startMs : ℕ
  running : Bool
  deriving DecidableEq, Repr

/-- Cold instance. Source: `timer.rs`, `Ton::new`. -/
def Ton.new : Ton := ⟨false, 0, 0, false⟩

/-- One sample of the on-delay timer. Source: `timer.rs`, `Ton::eval`. -/
def Ton.eval (t : Ton) (input : Bool) (pt : BitVec 32) (nowMs : ℕ) : Ton × Bool × BitVec 32 :=
  let pt := maxI32 pt 0
  let t' : Ton :=
    if input then
      if !t.running then ⟨pt == 0, 0, nowMs, true⟩
      else
        let et := etFromDelta t.startMs nowMs pt
        { t with et := et, q := pt.sle et }
    else ⟨false, 0, 0, false⟩
  (t', t'.q, t'.et)

/-- Off-delay timer. Source: `timer.rs`, `Tof`. -/
structure Tof where
  q : Bool
  et : BitVec 32
  fallMs : ℕ
  delaying : Bool
  deriving DecidableEq, Repr

/-- Cold instance. Source: `timer.rs`, `Tof::new`. -/
def Tof.new : Tof := ⟨false, 0, 0, false⟩

/-- One sample of the off-delay timer. Source: `timer.rs`, `Tof::eval`. -/
def Tof.eval (t : Tof) (input : Bool) (pt : BitVec 32) (nowMs : ℕ) : Tof × Bool × BitVec 32 :=
  let pt := maxI32 pt 0
  let t' : Tof :=
    if input then ⟨true, 0, 0, false⟩
    else if t.q || t.delaying then
      let fallMs := if t.delaying then t.fallMs else nowMs
      let et := etFromDelta fallMs nowMs pt
      if pt.sle et then ⟨false, pt, fallMs, false⟩ else ⟨true, et, fallMs, true⟩
    else { t with q := false, et := 0 }
  (t', t'.q, t'.et)

/-- Pulse timer. Source: `timer.rs`, `Tp`. -/
structure Tp where
  q : Bool
  et : BitVec 32
  startMs : ℕ
  running : Bool
  prevIn : Bool
  deriving DecidableEq, Repr

/-- Cold instance. Source: `timer.rs`, `Tp::new`. -/
def Tp.new : Tp := ⟨false, 0, 0, false, false⟩

/-- The part of `Tp::eval` after the start of a pulse: advance or end a running pulse.
Source: `timer.rs`, the second `if self.running` of `Tp::eval`. -/
def Tp.advance (t : Tp) (pt : BitVec 32) (nowMs : ℕ) : Tp :=
  if t.running then
    let et := etFromDelta t.startMs nowMs pt
    if pt.sle et then { t with q := false, running := false, et := pt }
    else { t with q := true, et := et }
  else { t with q := false, et := 0 }

/-- One sample of the pulse timer. Source: `timer.rs`, `Tp::eval`. -/
def Tp.eval (t : Tp) (input : Bool) (pt : BitVec 32) (nowMs : ℕ) : Tp × Bool × BitVec 32 :=
  let pt := maxI32 pt 0
  let rising := input && !t.prevIn
  let t : Tp := { t with prevIn := input }
  let t' : Tp :=
    if !t.running && rising then
      if pt == 0 then { t with startMs := nowMs, q := true, running := false, et := 0 }
      else Tp.advance { t with running := true, startMs := nowMs, et := 0, q := true } pt nowMs
    else Tp.advance t pt nowMs
  (t', t'.q, t'.et)

/-! ## Counters -/

/-- Count up. Source: `counter.rs`, `Ctu`. -/
structure Ctu where
  q : Bool
  cv : BitVec 32
  prevCu : Bool
  deriving DecidableEq, Repr

/-- Cold instance. Source: `counter.rs`, `Ctu::new`. -/
def Ctu.new : Ctu := ⟨false, 0, false⟩

/-- One sample of the up counter. Source: `counter.rs`, `Ctu::eval`. -/
def Ctu.eval (c : Ctu) (cu r : Bool) (pv : BitVec 32) : Ctu × Bool × BitVec 32 :=
  let cv :=
    if r then 0
    else if (cu && !c.prevCu) && c.cv.slt (BitVec.intMax 32) then c.cv + 1
    else c.cv
  let q := pv.sle cv
  (⟨q, cv, cu⟩, q, cv)

/-- Count down. Source: `counter.rs`, `Ctd`. -/
structure Ctd where
  q : Bool
  cv : BitVec 32
  prevCd : Bool
  prevLd : Bool
  deriving DecidableEq, Repr

/-- Cold instance. Source: `counter.rs`, `Ctd::new`. -/
def Ctd.new : Ctd := ⟨false, 0, false, false⟩

/-- One sample of the down counter. Source: `counter.rs`, `Ctd::eval`. -/
def Ctd.eval (c : Ctd) (cd ld : Bool) (pv : BitVec 32) : Ctd × Bool × BitVec 32 :=
  let loadEdge := ld && !c.prevLd
  let countEdge := cd && !c.prevCd
  let cv :=
    if loadEdge then pv
    else if countEdge && (BitVec.intMin 32).slt c.cv then c.cv - 1
    else c.cv
  let q := cv.sle 0
  (⟨q, cv, cd, ld⟩, q, cv)

/-! ## Latches and edges -/

/-- Reset-dominant latch. Source: `latch.rs`, `Rs`. -/
structure Rs where
  q : Bool
  deriving DecidableEq, Repr

/-- Cold instance. Source: `latch.rs`, `Rs::new`. -/
def Rs.new : Rs := ⟨false⟩

/-- One sample. Source: `latch.rs`, `Rs::eval`. -/
def Rs.eval (l : Rs) (s r : Bool) : Rs × Bool :=
  let q := (s || l.q) && !r
  (⟨q⟩, q)

/-- Set-dominant latch. Source: `latch.rs`, `Sr`. -/
structure Sr where
  q : Bool
  deriving DecidableEq, Repr

/-- Cold instance. Source: `latch.rs`, `Sr::new`. -/
def Sr.new : Sr := ⟨false⟩

/-- One sample. Source: `latch.rs`, `Sr::eval`. -/
def Sr.eval (l : Sr) (s r : Bool) : Sr × Bool :=
  let q := s || (l.q && !r)
  (⟨q⟩, q)

/-- Rising-edge detector. Source: `edge.rs`, `RTrig`. -/
structure RTrig where
  q : Bool
  prev : Bool
  deriving DecidableEq, Repr

/-- Cold instance. Source: `edge.rs`, `RTrig::new`. -/
def RTrig.new : RTrig := ⟨false, false⟩

/-- One sample. Source: `edge.rs`, `RTrig::eval`. -/
def RTrig.eval (e : RTrig) (clk : Bool) : RTrig × Bool :=
  let q := clk && !e.prev
  (⟨q, clk⟩, q)

/-- Falling-edge detector. Source: `edge.rs`, `FTrig`. -/
structure FTrig where
  q : Bool
  prev : Bool
  deriving DecidableEq, Repr

/-- Cold instance. Source: `edge.rs`, `FTrig::new`. -/
def FTrig.new : FTrig := ⟨false, false⟩

/-- One sample. Source: `edge.rs`, `FTrig::eval`. -/
def FTrig.eval (e : FTrig) (clk : Bool) : FTrig × Bool :=
  let q := !clk && e.prev
  (⟨q, clk⟩, q)

/-! ## PID -/

/-- PID controller instance. Source: `pid.rs`, `Pid`. -/
structure Pid where
  kp : F32
  ki : F32
  kd : F32
  outMin : F32
  outMax : F32
  out : F32
  integral : F32
  lastErr : F32
  lastNowMs : ℕ
  initialized : Bool
  deriving DecidableEq, Repr

/-- Instance with the default gains `1, 0, 0` and limits `-100, 100`. Source: `pid.rs`,
`Pid::default`. -/
def Pid.default : Pid where
  kp := F32.one
  ki := F32.zero
  kd := F32.zero
  outMin := ⟨0xC2C80000#32⟩
  outMax := ⟨0x42C80000#32⟩
  out := F32.zero
  integral := F32.zero
  lastErr := F32.zero
  lastNowMs := 0
  initialized := false

/-- Divisor of the anti-windup clamp. Source: `pid.rs`, `Pid::ki_or_one`. -/
def Pid.kiOrOne (p : Pid) : F32 :=
  if p.ki.abs.lt ⟨0x34000000#32⟩ then F32.one else p.ki.abs

/-- One sample; `none` where `f32::clamp` panics on limits out of order. Source: `pid.rs`,
`Pid::eval`. -/
def Pid.eval (p : Pid) (pv sp : F32) (enable : Bool) (nowMs : ℕ) : Option (Pid × F32) :=
  if !enable then some (p, p.out)
  else do
    let err := sp.sub pv
    let dtS :=
      if p.initialized then (F32.ofU64 (nowMs - p.lastNowMs)).div ⟨0x447A0000#32⟩ else F32.zero
    let (out, integral) ←
      if p.initialized && F32.zero.lt dtS then do
        let integral ← (p.integral.add (err.mul dtS)).clamp
          (p.outMin.div p.kiOrOne) (p.outMax.div p.kiOrOne)
        let iTerm := p.ki.mul integral
        let dTerm := (p.kd.mul (err.sub p.lastErr)).div dtS
        let pTerm := p.kp.mul err
        let out ← ((pTerm.add iTerm).add dTerm).clamp p.outMin p.outMax
        pure (out, integral)
      else do
        let out ← (p.kp.mul err).clamp p.outMin p.outMax
        pure (out, F32.zero)
    pure ({ p with out := out, integral := integral, lastErr := err, lastNowMs := nowMs,
                   initialized := true }, out)

/-! ## Dispatch -/

/-- Errors of a primitive call. Source: `dispatch.rs`, `PrimitiveCallError`. -/
inductive PrimitiveCallError where
  | badInstance
  | arity (expected got : ℕ)
  | typeMismatch
  deriving DecidableEq, Repr

/-- The text that the source's derived `Debug` prints. Source: `dispatch.rs`, `derive(Debug)`. -/
def PrimitiveCallError.debugText : PrimitiveCallError → String
  | badInstance => "BadInstance"
  | arity expected got =>
      "Arity \x7b expected: " ++ toString expected ++ ", got: " ++ toString got ++ " \x7d"
  | typeMismatch => "TypeMismatch"

/-- How a primitive call can fail: an error value, or the panic of `f32::clamp`. -/
inductive PrimitiveFault where
  | call (e : PrimitiveCallError)
  | panic
  deriving DecidableEq, Repr

/-- Scalars passed into and out of a primitive. Source: `dispatch.rs`, `StackValue`. -/
inductive StackValue where
  | bool (b : Bool)
  | dint (v : BitVec 32)
  | real (v : F32)
  deriving DecidableEq, Repr

namespace StackValue

/-- Interpret as BOOL. Source: `dispatch.rs`, `StackValue::as_bool`. -/
def asBool : StackValue → Option Bool
  | bool b => some b
  | _ => none

/-- Interpret as a 32-bit integer. Source: `dispatch.rs`, `StackValue::as_dint`. -/
def asDint : StackValue → Option (BitVec 32)
  | dint v => some v
  | bool b => some (if b then 1 else 0)
  | real _ => none

/-- Interpret as REAL. Source: `dispatch.rs`, `StackValue::as_real`. -/
def asReal : StackValue → Option F32
  | real v => some v
  | dint v => some (F32.ofI32 v)
  | bool b => some (if b then F32.one else F32.zero)

end StackValue

/-- All primitive instances of one program image. Source: `dispatch.rs`, `PrimitiveStore`. -/
structure PrimitiveStore where
  ton : List Ton
  tof : List Tof
  tp : List Tp
  ctu : List Ctu
  ctd : List Ctd
  rs : List Rs
  sr : List Sr
  rTrig : List RTrig
  fTrig : List FTrig
  pid : List Pid
  deriving DecidableEq, Repr

/-- Pools of `n` cold instances each. Source: `dispatch.rs`, `PrimitiveStore::with_capacity`. -/
def PrimitiveStore.withCapacity (n : ℕ) : PrimitiveStore where
  ton := List.replicate n Ton.new
  tof := List.replicate n Tof.new
  tp := List.replicate n Tp.new
  ctu := List.replicate n Ctu.new
  ctd := List.replicate n Ctd.new
  rs := List.replicate n Rs.new
  sr := List.replicate n Sr.new
  rTrig := List.replicate n RTrig.new
  fTrig := List.replicate n FTrig.new
  pid := List.replicate n Pid.default

/-- Read one input through an interpretation. Source: `dispatch.rs`,
`inputs[k].as_…().ok_or(TypeMismatch)`. -/
def argAs {α : Type} (read : StackValue → Option α) (inputs : List StackValue) (k : ℕ) :
    Except PrimitiveFault α :=
  match inputs[k]? with
  | some v =>
      match read v with
      | some a => .ok a
      | none => .error (.call .typeMismatch)
  | none => .error .panic

/-- Run one instance of a pool and put it back. Source: `dispatch.rs`, the
`get_mut(instance).ok_or(BadInstance)` that opens every arm of `call_primitive`. -/
def evalIn {α : Type} (pool : List α) (inst : ℕ)
    (run : α → Except PrimitiveFault (α × List StackValue)) :
    Except PrimitiveFault (List α × List StackValue) :=
  match pool[inst]? with
  | none => .error (.call .badInstance)
  | some x => do
      let (x', out) ← run x
      .ok (pool.set inst x', out)

/-- A timer's arm: `IN` and `PT` in, `Q` and `ET` out. Source: `dispatch.rs`, the `Ton`, `Tof`
and `Tp` arms of `call_primitive`. -/
def runTimer {α : Type} (eval : α → Bool → BitVec 32 → ℕ → α × Bool × BitVec 32)
    (inputs : List StackValue) (nowMs : ℕ) (x : α) : Except PrimitiveFault (α × List StackValue) :=
  do
    let input ← argAs StackValue.asBool inputs 0
    let pt ← argAs StackValue.asDint inputs 1
    let (x', q, et) := eval x input pt nowMs
    .ok (x', [.bool q, .dint et])

/-- A counter's arm: two edges and `PV` in, `Q` and `CV` out. Source: `dispatch.rs`, the `Ctu`
and `Ctd` arms of `call_primitive`. -/
def runCounter {α : Type} (eval : α → Bool → Bool → BitVec 32 → α × Bool × BitVec 32)
    (inputs : List StackValue) (x : α) : Except PrimitiveFault (α × List StackValue) := do
  let a ← argAs StackValue.asBool inputs 0
  let b ← argAs StackValue.asBool inputs 1
  let pv ← argAs StackValue.asDint inputs 2
  let (x', q, cv) := eval x a b pv
  .ok (x', [.bool q, .dint cv])

/-- A latch's arm: `S` and `R` in, `Q` out. Source: `dispatch.rs`, the `Rs` and `Sr` arms of
`call_primitive`. -/
def runLatch {α : Type} (eval : α → Bool → Bool → α × Bool) (inputs : List StackValue) (x : α) :
    Except PrimitiveFault (α × List StackValue) := do
  let s ← argAs StackValue.asBool inputs 0
  let r ← argAs StackValue.asBool inputs 1
  let (x', q) := eval x s r
  .ok (x', [.bool q])

/-- An edge detector's arm: `CLK` in, `Q` out. Source: `dispatch.rs`, the `RTrig` and `FTrig` arms
of `call_primitive`. -/
def runEdge {α : Type} (eval : α → Bool → α × Bool) (inputs : List StackValue) (x : α) :
    Except PrimitiveFault (α × List StackValue) := do
  let clk ← argAs StackValue.asBool inputs 0
  let (x', q) := eval x clk
  .ok (x', [.bool q])

/-- The PID arm: `PV`, `SP` and `enable` in, `OUT` out. Source: `dispatch.rs`, the `Pid` arm of
`call_primitive`. -/
def runPid (inputs : List StackValue) (nowMs : ℕ) (x : Pid) :
    Except PrimitiveFault (Pid × List StackValue) := do
  let pv ← argAs StackValue.asReal inputs 0
  let sp ← argAs StackValue.asReal inputs 1
  let en ← argAs StackValue.asBool inputs 2
  match x.eval pv sp en nowMs with
  | some (x', out) => .ok (x', [.real out])
  | none => .error .panic

/-- Invoke a primitive. The outputs come in declaration order; only the valid ones of the source's
four-element array are listed. Source: `dispatch.rs`, `call_primitive`. -/
def callPrimitive (store : PrimitiveStore) (id : PrimitiveId) (inst : ℕ)
    (inputs : List StackValue) (nowMs : ℕ) :
    Except PrimitiveFault (PrimitiveStore × List StackValue) :=
  if inputs.length ≠ id.inputCount then
    .error (.call (.arity id.inputCount (inputs.length % 256)))
  else
    match id with
    | .ton => do
        let (pool, out) ← evalIn store.ton inst (runTimer Ton.eval inputs nowMs)
        .ok ({ store with ton := pool }, out)
    | .tof => do
        let (pool, out) ← evalIn store.tof inst (runTimer Tof.eval inputs nowMs)
        .ok ({ store with tof := pool }, out)
    | .tp => do
        let (pool, out) ← evalIn store.tp inst (runTimer Tp.eval inputs nowMs)
        .ok ({ store with tp := pool }, out)
    | .ctu => do
        let (pool, out) ← evalIn store.ctu inst (runCounter Ctu.eval inputs)
        .ok ({ store with ctu := pool }, out)
    | .ctd => do
        let (pool, out) ← evalIn store.ctd inst (runCounter Ctd.eval inputs)
        .ok ({ store with ctd := pool }, out)
    | .rs => do
        let (pool, out) ← evalIn store.rs inst (runLatch Rs.eval inputs)
        .ok ({ store with rs := pool }, out)
    | .sr => do
        let (pool, out) ← evalIn store.sr inst (runLatch Sr.eval inputs)
        .ok ({ store with sr := pool }, out)
    | .rTrig => do
        let (pool, out) ← evalIn store.rTrig inst (runEdge RTrig.eval inputs)
        .ok ({ store with rTrig := pool }, out)
    | .fTrig => do
        let (pool, out) ← evalIn store.fTrig inst (runEdge FTrig.eval inputs)
        .ok ({ store with fTrig := pool }, out)
    | .pid => do
        let (pool, out) ← evalIn store.pid inst (runPid inputs nowMs)
        .ok ({ store with pid := pool }, out)

end SoftPlc.Fb
