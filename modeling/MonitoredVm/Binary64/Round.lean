import MonitoredVm.Binary64

/-!
# Rounding to the nearest double

`Binary64.ofRatio` rounds an exact fraction to the nearest double, a half going to the even significand.
Conversion of natural numbers, products and quotients of doubles are instances of it.
-/

namespace MonitoredVm.Binary64

/-- The quotient rounded to the nearest natural number, a half to the even one. -/
def divRound (num den : Nat) : Nat :=
  let q := num / den
  let r := num % den
  if 2 * r < den then q
  else if den < 2 * r then q + 1
  else if q % 2 = 0 then q else q + 1

/-- `num / den * 2 ^ (-e)`, rounded. -/
def scaled (num den : Nat) (e : Int) : Nat :=
  if e < 0 then divRound (num <<< (-e).toNat) den else divRound num (den <<< e.toNat)

/-- The exponent that brings `num / den` to a significand of fifty-three bits, no less than that of the
subnormal numbers. -/
def unitExponent (num den : Nat) : Int :=
  let guess : Int := (Nat.log2 num : Int) - Nat.log2 den - 52
  let fits := if guess < 0 then decide (den <<< 52 ≤ num <<< (-guess).toNat)
    else decide (den <<< 52 <<< guess.toNat ≤ num)
  max (-1074) (if fits then guess else guess - 1)

/-- The double with significand `m` at exponent `e`, where `m ≤ 2 ^ 53`; infinity beyond the range. -/
def pack (negative : Bool) (m : Nat) (e : Int) : Binary64 :=
  let (m, e) := if m = 1 <<< 53 then (1 <<< 52, e + 1) else (m, e)
  if m < 1 <<< 52 then ofFields negative 0 m
  else if 971 < e then ofFields negative 2047 0
  else ofFields negative (e + 1075).toNat (m - 1 <<< 52)

/-- The double nearest to `± num / den`. -/
def ofRatio (negative : Bool) (num den : Nat) : Binary64 :=
  if num = 0 then ofFields negative 0 0
  else
    let e := unitExponent num den
    pack negative (scaled num den e) e

def ofNat (n : Nat) : Binary64 := ofRatio false n 1

/-- The product of two finite magnitudes, rounded. -/
def mul (x y : Binary64) : Binary64 :=
  ofRatio (x.isNegative != y.isNegative) (x.ratio.1 * y.ratio.1) (x.ratio.2 * y.ratio.2)

/-- The quotient of two finite magnitudes with a divisor other than zero, rounded. -/
def div (x y : Binary64) : Binary64 :=
  ofRatio (x.isNegative != y.isNegative) (x.ratio.1 * y.ratio.2) (x.ratio.2 * y.ratio.1)

def isInfinite (x : Binary64) : Bool := x.biased == 2047 && x.fraction == 0

end MonitoredVm.Binary64
