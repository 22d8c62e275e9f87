/-!
# Double-precision numbers as bit patterns

A floating-point literal is kept as its IEEE 754 pattern. The program never computes with such a
number; it compares, classifies and prints it.

* `Binary64`: the pattern, with its fields `sign`, `exponent` and `fraction`;
* `Binary64.sameValue`: equality of the numbers denoted, where NaN equals nothing;
* `Binary64.significand`, `Binary64.scale`: a finite number is `significand * 2 ^ (scale - 1074)`.
-/

namespace LoopNest

/-- A double-precision number, by its bit pattern. -/
structure Binary64 where
  bits : UInt64
deriving DecidableEq

namespace Binary64

/-- Positive zero. -/
def zero : Binary64 := ⟨0⟩

/-- The number one. -/
def one : Binary64 := ⟨0x3ff0000000000000⟩

/-- The sign bit is set. -/
def sign (x : Binary64) : Bool := x.bits >>> 63 == 1

/-- The exponent field, eleven bits. -/
def exponent (x : Binary64) : Nat := ((x.bits >>> 52) &&& 0x7ff).toNat

/-- The fraction field, fifty-two bits. -/
def fraction (x : Binary64) : Nat := (x.bits &&& 0xfffffffffffff).toNat

/-- Neither a finite number nor an infinity. -/
def isNaN (x : Binary64) : Bool := x.exponent == 0x7ff && x.fraction != 0

/-- One of the two infinities. -/
def isInfinite (x : Binary64) : Bool := x.exponent == 0x7ff && x.fraction == 0

/-- Either zero. -/
def isZero (x : Binary64) : Bool := x.exponent == 0 && x.fraction == 0

/-- Equality of the numbers denoted: NaN equals nothing, and the two zeros are equal. -/
def sameValue (x y : Binary64) : Bool :=
  !x.isNaN && !y.isNaN && (x.bits == y.bits || (x.isZero && y.isZero))

/-- The integer significand: the leading bit is implicit but for the smallest exponent. -/
def significand (x : Binary64) : Nat :=
  if x.exponent = 0 then x.fraction else x.fraction + 1 <<< 52

/-- The power of two by which the significand counts units of the least positive number. -/
def scale (x : Binary64) : Nat := x.exponent - 1

/-- The gap below the number is half of the gap above it: the number is the first of its
exponent. -/
def atBoundary (x : Binary64) : Bool := x.fraction == 0 && 1 < x.exponent

end Binary64

end LoopNest
