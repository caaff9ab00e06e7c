import Mathlib.Tactic

/-!
# IEEE 754 binary32 numbers by their bits

A number is its bit pattern. Sign changes, zero tests and bit comparisons work on the bits;
arithmetic, order and conversions go through Lean's `Float32`, whose operations are opaque to
proofs and compute binary32 arithmetic when run.
-/

namespace SoftPlc.Lib

/-- A binary32 number, given by its bit pattern. -/
structure F32 where
  /-- The bit pattern. -/
  bits : BitVec 32
  deriving DecidableEq, Repr

namespace F32

/-- The number as a `Float32`. -/
def toFloat (x : F32) : Float32 := Float32.ofBits (UInt32.ofBitVec x.bits)

/-- The bits of a `Float32`. -/
def ofFloat (x : Float32) : F32 := ⟨x.toBits.toBitVec⟩

/-- `0.0`. -/
def zero : F32 := ⟨0x00000000#32⟩

/-- `1.0`. -/
def one : F32 := ⟨0x3F800000#32⟩

/-- `x + y`. -/
def add (x y : F32) : F32 := ofFloat (x.toFloat + y.toFloat)

/-- `x - y`. -/
def sub (x y : F32) : F32 := ofFloat (x.toFloat - y.toFloat)

/-- `x * y`. -/
def mul (x y : F32) : F32 := ofFloat (x.toFloat * y.toFloat)

/-- `x / y`. -/
def div (x y : F32) : F32 := ofFloat (x.toFloat / y.toFloat)

/-- `-x`: the sign bit flipped. -/
def neg (x : F32) : F32 := ⟨x.bits ^^^ 0x80000000#32⟩

/-- `|x|`: the sign bit cleared. -/
def abs (x : F32) : F32 := ⟨x.bits &&& 0x7FFFFFFF#32⟩

/-- `x == 0.0`: both zeros, no other number. -/
def isZero (x : F32) : Bool := x.bits &&& 0x7FFFFFFF#32 == 0#32

/-- Not a number: all exponent bits set, and some of the fraction. -/
def isNan (x : F32) : Bool := 0x7F800000#32 < x.bits &&& 0x7FFFFFFF#32

/-- `x == y`: the same number, or both zeros. -/
def eq (x y : F32) : Bool := !x.isNan && (x.bits == y.bits || (x.isZero && y.isZero))

/-- `x < y`. -/
def lt (x y : F32) : Bool := decide (x.toFloat < y.toFloat)

/-- `x <= y`. -/
def le (x y : F32) : Bool := decide (x.toFloat ≤ y.toFloat)

/-- Signed 16-bit integer to binary32. -/
def ofI16 (v : BitVec 16) : F32 := ofFloat (Int16.ofBitVec v).toFloat32

/-- Signed 32-bit integer to binary32. -/
def ofI32 (v : BitVec 32) : F32 := ofFloat (Int32.ofBitVec v).toFloat32

/-- Signed 64-bit integer to binary32. -/
def ofI64 (v : BitVec 64) : F32 := ofFloat (Int64.ofBitVec v).toFloat32

/-- Unsigned 64-bit integer to binary32. -/
def ofU64 (v : ℕ) : F32 := ofFloat (UInt64.ofNat v).toFloat32

/-- Truncating, saturating conversion to a signed 16-bit integer; not-a-number gives zero. -/
def toI16 (x : F32) : BitVec 16 := x.toFloat.toInt16.toBitVec

/-- Truncating, saturating conversion to a signed 32-bit integer; not-a-number gives zero. -/
def toI32 (x : F32) : BitVec 32 := x.toFloat.toInt32.toBitVec

/-- Truncating, saturating conversion to a signed 64-bit integer; not-a-number gives zero. -/
def toI64 (x : F32) : BitVec 64 := x.toFloat.toInt64.toBitVec

/-- `x.clamp(lo, hi)`; `none` when the bounds are out of order or not numbers, where the source
language panics. -/
def clamp (x lo hi : F32) : Option F32 :=
  if lo.le hi then
    some (if x.lt lo then lo else if hi.lt x then hi else x)
  else none

end F32

end SoftPlc.Lib
