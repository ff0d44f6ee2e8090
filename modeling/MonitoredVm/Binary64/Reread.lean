import MonitoredVm.Binary64.Text

/-!
# Reading interchange text with two roundings

A quick reader of decimal text takes all digits as one whole number and then multiplies or divides it once
by a power of ten. Each step rounds, so the result may miss the nearest double by a little.
-/

namespace MonitoredVm.Binary64

def natOfDigits (digits : List Char) : Nat := digits.foldl (fun n c => 10 * n + (c.toNat - 48)) 0

/-- All digits of unsigned decimal text as one number, and the power of ten that goes with it. -/
def decimalParts (text : List Char) : Nat × Int :=
  let mantissa := text.takeWhile (· != 'e')
  let whole := mantissa.takeWhile (· != '.')
  let frac := (mantissa.dropWhile (· != '.')).drop 1
  let exponent : Int := match (text.dropWhile (· != 'e')).drop 1 with
    | '-' :: digits => -natOfDigits digits
    | digits => natOfDigits digits
  (natOfDigits (whole ++ frac), exponent - frac.length)

def pow10 (n : Nat) : Binary64 := ofNat (Nat.pow 10 n)

/-- Scales by a power of ten, at most `10 ^ 308` at a time. -/
def scale10 : (steps : Nat) → Binary64 → Int → Binary64
  | 0, x, _ => x
  | steps + 1, x, e =>
    if 0 ≤ e then x.mul (pow10 e.toNat)
    else if -308 ≤ e then x.div (pow10 (-e).toNat)
    else scale10 steps (x.div (pow10 308)) (e + 308)

/-- What the quick reader makes of the interchange text of a finite double; nothing if it overflows. -/
def reread? (x : Binary64) : Option Binary64 :=
  let (digits, e) := decimalParts ((if x.isNegative then x.neg else x).interchange)
  let y := scale10 3 (ofNat digits) e
  if y.isInfinite then none else some (if x.isNegative then y.neg else y)

end MonitoredVm.Binary64
