import MonitoredVm.Binary64.Round
import MonitoredVm.Binary64.Shortest

/-!
# Decimal text of doubles

Two written forms share the shortest digits. The plain form is always positional. The interchange form uses
an exponent when the decimal point stands far from the digits. Reading a decimal with a point is rounding of
an exact fraction.
-/

namespace MonitoredVm.Binary64

def digitChars (n : Nat) : List Char := Nat.toDigits 10 n

/-- Digits with the decimal point after the first `point` of them, filled with zeros on either side. -/
def positional (digits : List Char) (point : Int) (whole : List Char) : List Char :=
  if point ≤ 0 then '0' :: '.' :: (List.replicate (-point).toNat '0' ++ digits)
  else if (digits.length : Int) ≤ point then
    digits ++ List.replicate (point.toNat - digits.length) '0' ++ whole
  else digits.take point.toNat ++ '.' :: digits.drop point.toNat

def signChars (x : Binary64) : List Char := if x.isNegative then ['-'] else []

/-- The plain form: no exponent, no point in a whole number, half digits go up. -/
def plain (x : Binary64) : List Char :=
  if x.isNaN then "NaN".toList
  else x.signChars ++
    if !x.isFinite then "inf".toList
    else if x.isZero then ['0']
    else
      let d := x.shortest .up
      let digits := digitChars d.digits
      positional digits (digits.length + d.scale) []

/-- The text of a float value: whole numbers below ten to the sixteenth show one decimal. -/
def display (x : Binary64) : List Char :=
  if x.isIntegral && decide (x.truncate < Nat.pow 10 16) then
    x.signChars ++ digitChars x.truncate ++ ['.', '0']
  else x.plain

def exponentChars (e : Int) : List Char :=
  'e' :: if e < 0 then '-' :: digitChars (-e).toNat else '+' :: digitChars e.toNat

/-- The interchange form of a finite double: positional while the point stands within sixteen places to the
right and five to the left of the first digit, half digits go to even. -/
def interchange (x : Binary64) : List Char :=
  x.signChars ++
    if x.isZero then "0.0".toList
    else
      let d := x.shortest .even
      let digits := digitChars d.digits
      let point := digits.length + d.scale
      if -5 < point ∧ point ≤ 16 then positional digits point ['.', '0']
      else match digits with
        | [c] => c :: exponentChars (point - 1)
        | c :: rest => c :: '.' :: rest ++ exponentChars (point - 1)
        | [] => []

/-- The double nearest to decimal text: digits with at most one point, at least one digit. -/
def ofDecimal? (text : List Char) : Option Binary64 :=
  let whole := text.takeWhile Char.isDigit
  let frac := match text.dropWhile Char.isDigit with
    | '.' :: rest => some rest
    | [] => some []
    | _ => none
  match frac with
  | some frac =>
    if frac.all Char.isDigit && !(whole ++ frac).isEmpty then
      let digits := (whole ++ frac).foldl (fun n c => 10 * n + (c.toNat - 48)) 0
      some (ofRatio false digits (Nat.pow 10 frac.length))
    else none
  | none => none

end MonitoredVm.Binary64
