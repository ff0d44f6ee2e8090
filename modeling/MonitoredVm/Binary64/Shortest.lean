import MonitoredVm.Binary64

/-!
# The fewest decimal digits that read back

Every real of the rounding interval of a double reads back as that double; the ends belong to it when the
significand is even. For one digit, two digits and so on, the two neighbours of the value on that decimal
grid are tested; the first grid with a hit gives the digits, and of two hits the nearer is taken.
-/

namespace MonitoredVm.Binary64

/-- Which neighbour an exact half goes to. -/
inductive Tie where
  | up
  | even
  deriving DecidableEq, Repr

/-- A decimal `digits * 10 ^ scale`. -/
structure Decimal where
  digits : Nat
  scale : Int
  deriving DecidableEq, Repr

/-- The rounding interval of a double around its value, as natural numbers over one denominator. -/
structure Interval where
  low : Nat
  value : Nat
  high : Nat
  den : Nat
  closed : Bool
  deriving Repr

/-- The reals that round to `x`. Below a power of two the gap to the next smaller double is half as wide. -/
def interval (x : Binary64) : Interval :=
  let m := x.significand
  let below := if x.fraction = 0 ∧ 1 < x.biased then 1 else 2
  let e := x.exponent - 2
  let unit := if e < 0 then 1 else 1 <<< e.toNat
  { low := (4 * m - below) * unit, value := 4 * m * unit, high := (4 * m + 2) * unit
    den := if e < 0 then 1 <<< (-e).toNat else 1, closed := m % 2 == 0 }

/-- `num / den` lies in the interval. -/
def Interval.holds (i : Interval) (num den : Nat) : Bool :=
  let n := num * i.den
  if i.closed then decide (i.low * den ≤ n) && decide (n ≤ i.high * den)
  else decide (i.low * den < n) && decide (n < i.high * den)

/-- The number of decimal digits before the point: `10 ^ (k - 1) ≤ num / den < 10 ^ k`, searched upward
from `k` with the given fuel. -/
def magnitude (num den : Nat) : Nat → Int → Int
  | 0, k => k
  | fuel + 1, k =>
    let below := if k < 0 then decide (num * Nat.pow 10 (-k).toNat < den) else decide (num < den * Nat.pow 10 k.toNat)
    if below then k else magnitude num den fuel (k + 1)

/-- The better of the two neighbours of the value among the multiples of `10 ^ scale`, if one of them lies
in the interval. -/
def Interval.onGrid (tie : Tie) (i : Interval) (scale : Int) : Option Decimal :=
  let (up, down) := if scale < 0 then (1, Nat.pow 10 (-scale).toNat) else (Nat.pow 10 scale.toNat, 1)
  let lo := i.value * down / (i.den * up)
  let twice := 2 * (i.value * down % (i.den * up))
  let hits n := i.holds (n * up) down
  let pick n := some ⟨n, scale⟩
  match hits lo, hits (lo + 1) with
  | true, false => pick lo
  | false, true => pick (lo + 1)
  | false, false => none
  | true, true =>
    if twice < i.den * up then pick lo
    else if i.den * up < twice then pick (lo + 1)
    else match tie with
      | .up => pick (lo + 1)
      | .even => if lo % 2 = 0 then pick lo else pick (lo + 1)

/-- The first grid, from coarse to fine, with a hit. -/
def Interval.firstHit (tie : Tie) (i : Interval) : Nat → Int → Decimal
  | 0, scale => ⟨i.value * Nat.pow 10 (-scale).toNat / i.den, scale⟩
  | fuel + 1, scale => (i.onGrid tie scale).getD (i.firstHit tie fuel (scale - 1))

/-- Moves trailing zeros of the digits into the scale. -/
def Decimal.trim : Nat → Decimal → Decimal
  | 0, d => d
  | fuel + 1, d =>
    if d.digits ≠ 0 ∧ d.digits % 10 = 0 then Decimal.trim fuel ⟨d.digits / 10, d.scale + 1⟩ else d

/-- The shortest decimal of a finite double other than zero. -/
def shortest (tie : Tie) (x : Binary64) : Decimal :=
  let i := x.interval
  let k := magnitude i.value i.den 640 (-330)
  (i.firstHit tie 17 (k - 1)).trim 20

end MonitoredVm.Binary64
