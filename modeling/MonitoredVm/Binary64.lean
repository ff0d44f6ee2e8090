/-!
# Binary floating-point numbers by their bits

A `Binary64` is the 64-bit word of a double: sign, eleven exponent bits, fifty-two fraction bits. A finite
number is `± significand * 2 ^ exponent` with a natural significand below `2 ^ 53`. Equality of the
structure is equality of bits; `Binary64.same` is numeric equality, under which a NaN differs from itself
and the two zeros agree.
-/

namespace MonitoredVm

/-- A double-precision number, as its IEEE 754 word. -/
structure Binary64 where
  bits : UInt64
  deriving DecidableEq, Repr, Inhabited

namespace Binary64

/-- The word with the given sign, biased exponent and fraction. -/
def ofFields (negative : Bool) (biased fraction : Nat) : Binary64 :=
  ⟨UInt64.ofNat ((if negative then 1 <<< 63 else 0) + biased <<< 52 + fraction)⟩

def isNegative (x : Binary64) : Bool := decide (1 <<< 63 ≤ x.bits.toNat)

/-- The exponent field, `0` for zeros and subnormals, `2047` for infinities and NaNs. -/
def biased (x : Binary64) : Nat := x.bits.toNat >>> 52 % 2048

def fraction (x : Binary64) : Nat := x.bits.toNat % 1 <<< 52

def isFinite (x : Binary64) : Bool := x.biased != 2047

def isNaN (x : Binary64) : Bool := x.biased == 2047 && x.fraction != 0

def isZero (x : Binary64) : Bool := x.biased == 0 && x.fraction == 0

/-- The natural number that scales the power of two of a finite number. -/
def significand (x : Binary64) : Nat :=
  if x.biased = 0 then x.fraction else 1 <<< 52 + x.fraction

/-- The power of two of a finite number. -/
def exponent (x : Binary64) : Int :=
  if x.biased = 0 then -1074 else (x.biased : Int) - 1075

def neg (x : Binary64) : Binary64 := ⟨x.bits ^^^ 0x8000000000000000⟩

def same (x y : Binary64) : Bool :=
  !x.isNaN && !y.isNaN && (x == y || (x.isZero && y.isZero))

/-- The magnitude of a finite number as a fraction of natural numbers. -/
def ratio (x : Binary64) : Nat × Nat :=
  if x.exponent < 0 then (x.significand, 1 <<< (-x.exponent).toNat)
  else (x.significand <<< x.exponent.toNat, 1)

def isIntegral (x : Binary64) : Bool :=
  x.isFinite && x.ratio.1 % x.ratio.2 == 0

/-- The magnitude of a finite number, rounded toward zero. -/
def truncate (x : Binary64) : Nat := x.ratio.1 / x.ratio.2

end Binary64
end MonitoredVm
