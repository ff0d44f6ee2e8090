import MonitoredVm.Binary64.Reread

/-!
# Scanning JSON text

JSON is read from its bytes, left to right, and the first problem met decides what is reported: text that
breaks the grammar, text that ends too early, or a well-formed piece of the wrong kind.
-/

namespace MonitoredVm.Json

/-- The kind of the first problem. -/
inductive Problem where
  | malformed
  | mismatch
  | truncated
  deriving DecidableEq, Repr, Inhabited

def isSpace (b : UInt8) : Bool := b == 32 || b == 10 || b == 9 || b == 13

def skipSpace (text : List UInt8) : List UInt8 := text.dropWhile isSpace

def isDigit (b : UInt8) : Bool := 48 ≤ b && b ≤ 57

/-- Reads the rest of a literal name. -/
def ident : (expected : List UInt8) → List UInt8 → Except Problem (List UInt8)
  | [], text => .ok text
  | _ :: _, [] => .error .truncated
  | e :: es, b :: text => if b = e then ident es text else .error .malformed

def nullTail : List UInt8 := "ull".toUTF8.toList

def trueTail : List UInt8 := "rue".toUTF8.toList

def falseTail : List UInt8 := "alse".toUTF8.toList

def hexDigit? (b : UInt8) : Option Nat :=
  if isDigit b then some (b.toNat - 48)
  else if 97 ≤ b && b ≤ 102 then some (b.toNat - 87)
  else if 65 ≤ b && b ≤ 70 then some (b.toNat - 55)
  else none

def hex4 : List UInt8 → Except Problem (Nat × List UInt8)
  | a :: b :: c :: d :: text =>
    match hexDigit? a, hexDigit? b, hexDigit? c, hexDigit? d with
    | some a, some b, some c, some d => .ok (((a * 16 + b) * 16 + c) * 16 + d, text)
    | _, _, _, _ => .error .malformed
  | _ => .error .truncated

def utf8 (codePoint : Nat) : List UInt8 := (String.singleton (Char.ofNat codePoint)).toUTF8.toList

/-- The low half of a surrogate pair, which must follow the high half. -/
def lowSurrogate : List UInt8 → Except Problem (Nat × List UInt8)
  | [] => .error .truncated
  | 92 :: [] => .error .truncated
  | 92 :: 117 :: text => do
    let (n, text) ← hex4 text
    if 0xDC00 ≤ n ∧ n ≤ 0xDFFF then return (n, text) else throw .malformed
  | _ => .error .malformed

/-- A character given by code unit, after the backslash and the `u`. -/
def unicodeEscape (text : List UInt8) : Except Problem (List UInt8 × List UInt8) := do
  let (n, text) ← hex4 text
  if 0xDC00 ≤ n ∧ n ≤ 0xDFFF then throw .malformed
  else if 0xD800 ≤ n ∧ n ≤ 0xDBFF then
    let (low, text) ← lowSurrogate text
    return (utf8 ((n - 0xD800) * 0x400 + (low - 0xDC00) + 0x10000), text)
  else return (utf8 n, text)

/-- The byte that a one-letter escape stands for. -/
def letterEscape? (b : UInt8) : Option UInt8 :=
  if b = 34 ∨ b = 92 ∨ b = 47 then some b
  else if b = 98 then some 8
  else if b = 102 then some 12
  else if b = 110 then some 10
  else if b = 114 then some 13
  else if b = 116 then some 9
  else none

/-- The rest of a string after its opening quote, of at most `count` pieces; `read` holds the bytes read so far, last
first. -/
def stringTail : (count : Nat) → (read : List UInt8) → List UInt8 → Except Problem (List UInt8 × List UInt8)
  | 0, _, _ => .error .truncated
  | _, _, [] => .error .truncated
  | count + 1, read, b :: text =>
    if b = 34 then .ok (read.reverse, text)
    else if b = 92 then
      match text with
      | [] => .error .truncated
      | e :: text =>
        if e = 117 then do
          let (bytes, text) ← unicodeEscape text
          stringTail count (bytes.reverse ++ read) text
        else match letterEscape? e with
          | some byte => stringTail count (byte :: read) text
          | none => .error .malformed
    else if b < 32 then .error .malformed
    else stringTail count (b :: read) text

/-- A string after its opening quote. -/
def string (text : List UInt8) : Except Problem (List UInt8 × List UInt8) := stringTail (text.length + 1) [] text

/-- Skips a string after its opening quote; code units need not make characters. -/
def skipStringTail : (count : Nat) → List UInt8 → Except Problem (List UInt8)
  | 0, _ => .error .truncated
  | _, [] => .error .truncated
  | count + 1, b :: text =>
    if b = 34 then .ok text
    else if b = 92 then
      match text with
      | [] => .error .truncated
      | e :: text =>
        if e = 117 then do
          let (_, text) ← hex4 text
          skipStringTail count text
        else if (letterEscape? e).isSome then skipStringTail count text
        else .error .malformed
    else if b < 32 then .error .malformed
    else skipStringTail count text

def skipString (text : List UInt8) : Except Problem (List UInt8) := skipStringTail (text.length + 1) text

/-- Adds digits to a number while it stays below `bound`; gives the number and how many digits went in. -/
def accumulate (bound : Nat) : Nat → List UInt8 → Nat × Nat
  | n, [] => (n, 0)
  | n, d :: ds =>
    let m := n * 10 + (d.toNat - 48)
    if m < bound then
      let (n, count) := accumulate bound m ds
      (n, count + 1)
    else (n, 0)

/-- A number made of digits and a power of ten is in the range of doubles. -/
def inRange (digits : Nat) (exponent : Int) : Bool :=
  decide (exponent < 0) || digits == 0 ||
    (decide (exponent ≤ 308) && !((Binary64.ofNat digits).mul (Binary64.pow10 exponent.toNat)).isInfinite)

def exponentTail (digits : Nat) (start : Int) (text : List UInt8) : Except Problem (List UInt8) :=
  let (negative, text) := match text with
    | 43 :: text => (false, text)
    | 45 :: text => (true, text)
    | text => (false, text)
  match text with
  | [] => .error .truncated
  | b :: _ =>
    if !isDigit b then .error .malformed
    else
      let all := text.takeWhile isDigit
      let rest := text.dropWhile isDigit
      let (e, count) := accumulate 0x80000000 0 all
      let fits :=
        if count < all.length then digits == 0 || negative
        else inRange digits (start + if negative then -(e : Int) else e)
      if fits then .ok rest else .error .malformed

/-- The end of a number: an exponent, or nothing more. -/
def numberEnd (digits : Nat) (exponent : Int) : List UInt8 → Except Problem (List UInt8)
  | [] => if inRange digits exponent then .ok [] else .error .malformed
  | b :: text =>
    if b = 101 ∨ b = 69 then exponentTail digits exponent text
    else if inRange digits exponent then .ok (b :: text) else .error .malformed

def fractionTail (digits : Nat) (exponent : Int) (text : List UInt8) : Except Problem (List UInt8) :=
  let all := text.takeWhile isDigit
  let rest := text.dropWhile isDigit
  if all.isEmpty then .error (if rest.isEmpty then .truncated else .malformed)
  else
    let (digits, count) := accumulate UInt64.size digits all
    numberEnd digits (exponent - count) rest

/-- A number after its sign. Digits count while they fit in a word of 64 bits; the others only count as places. -/
def number : List UInt8 → Except Problem (List UInt8)
  | [] => .error .truncated
  | b :: text =>
    if !isDigit b then .error .malformed
    else
      let more := text.takeWhile isDigit
      let rest := text.dropWhile isDigit
      if b = 48 ∧ !more.isEmpty then .error .malformed
      else
        let (digits, count) := accumulate UInt64.size 0 (b :: more)
        let exponent : Int := (more.length + 1 : Nat) - count
        match rest with
        | 46 :: rest => fractionTail digits exponent rest
        | rest => if exponent = 0 then
            match rest with
            | c :: tail => if c = 101 ∨ c = 69 then exponentTail digits 0 tail else .ok rest
            | [] => .ok []
          else numberEnd digits exponent rest

def skipExponent (text : List UInt8) : Except Problem (List UInt8) :=
  let text := match text with
    | 43 :: text => text
    | 45 :: text => text
    | text => text
  match text with
  | b :: _ => if isDigit b then .ok (text.dropWhile isDigit) else .error .malformed
  | [] => .error .malformed

def skipNumberEnd : List UInt8 → Except Problem (List UInt8)
  | [] => .ok []
  | b :: text => if b = 101 ∨ b = 69 then skipExponent text else .ok (b :: text)

/-- Skips a number after its sign; its size does not matter. -/
def skipNumber : List UInt8 → Except Problem (List UInt8)
  | [] => .error .malformed
  | b :: text =>
    if !isDigit b then .error .malformed
    else
      let more := text.takeWhile isDigit
      if b = 48 ∧ !more.isEmpty then .error .malformed
      else match text.dropWhile isDigit with
        | 46 :: rest =>
          if (rest.takeWhile isDigit).isEmpty then .error .malformed else skipNumberEnd (rest.dropWhile isDigit)
        | rest => skipNumberEnd rest

/-- A bracket that is open. -/
inductive Bracket where
  | list
  | object
  deriving DecidableEq, Repr, Inhabited

def colon (text : List UInt8) : Except Problem (List UInt8) :=
  match skipSpace text with
  | [] => .error .truncated
  | b :: text => if b = 58 then .ok text else .error .malformed

mutual

/-- Skips a value inside open brackets, then what closes them, in at most `count` moves. -/
def skipItem : (count : Nat) → List Bracket → List UInt8 → Except Problem (List UInt8)
  | 0, _, _ => .error .truncated
  | count + 1, brackets, text =>
    match skipSpace text with
    | [] => .error .truncated
    | b :: text =>
      if b = 110 then do skipAfter count brackets true (← ident nullTail text)
      else if b = 116 then do skipAfter count brackets true (← ident trueTail text)
      else if b = 102 then do skipAfter count brackets true (← ident falseTail text)
      else if b = 45 then do skipAfter count brackets true (← skipNumber text)
      else if isDigit b then do skipAfter count brackets true (← skipNumber (b :: text))
      else if b = 34 then do skipAfter count brackets true (← skipString text)
      else if b = 91 then skipAfter count (.list :: brackets) false text
      else if b = 123 then skipAfter count (.object :: brackets) false text
      else .error .malformed

/-- Skips on after a value, or after an opening bracket if no comma may come. -/
def skipAfter : (count : Nat) → List Bracket → (comma : Bool) → List UInt8 → Except Problem (List UInt8)
  | _, [], _, text => .ok text
  | 0, _, _, _ => .error .truncated
  | count + 1, bracket :: outer, comma, text =>
    match skipSpace text with
    | [] => .error .truncated
    | b :: text =>
      let closing : UInt8 := if bracket = .list then 93 else 125
      if b = 44 ∧ comma then skipEntry count bracket outer text
      else if b = closing then skipAfter count outer true text
      else if comma then .error .malformed
      else skipEntry count bracket outer (b :: text)

/-- Skips the next entry of an open bracket: in an object, a key first. -/
def skipEntry : (count : Nat) → Bracket → List Bracket → List UInt8 → Except Problem (List UInt8)
  | 0, _, _, _ => .error .truncated
  | count + 1, .list, outer, text => skipItem count (.list :: outer) text
  | count + 1, .object, outer, text =>
    match skipSpace text with
    | [] => .error .truncated
    | b :: text =>
      if b = 34 then do
        let text ← skipString text
        skipItem count (.object :: outer) (← colon text)
      else .error .malformed

end

def skipValue (text : List UInt8) : Except Problem (List UInt8) := skipItem (3 * text.length + 3) [] text

/-- The problem with a value of the wrong kind: a scalar is read first, and its own problem wins. -/
def wrongKind : List UInt8 → Problem
  | [] => .malformed
  | b :: text =>
    let after {α : Type} (r : Except Problem α) : Problem :=
      match r with
      | .ok _ => .mismatch
      | .error p => p
    if b = 110 then after (ident nullTail text)
    else if b = 116 then after (ident trueTail text)
    else if b = 102 then after (ident falseTail text)
    else if b = 45 then after (number text)
    else if isDigit b then after (number (b :: text))
    else if b = 34 then after (string text)
    else if b = 91 ∨ b = 123 then .mismatch
    else .malformed

def bool (text : List UInt8) : Except Problem (Bool × List UInt8) :=
  match skipSpace text with
  | [] => .error .truncated
  | b :: text =>
    if b = 116 then do return (true, ← ident trueTail text)
    else if b = 102 then do return (false, ← ident falseTail text)
    else .error (wrongKind (b :: text))

def null (text : List UInt8) : Except Problem (List UInt8) :=
  match skipSpace text with
  | [] => .error .truncated
  | b :: text => if b = 110 then ident nullTail text else .error (wrongKind (b :: text))

/-- The key of an object, which has to be a string. -/
def key (text : List UInt8) : Except Problem (List UInt8 × List UInt8) :=
  match skipSpace text with
  | [] => .error .truncated
  | b :: text => if b = 34 then string text else .error .malformed

/-- One of a few names: as a string, or as the only key of an object with a null. -/
def oneOf {α : Type} (choose : List UInt8 → Option α) (text : List UInt8) : Except Problem (α × List UInt8) := do
  match skipSpace text with
  | [] => throw .truncated
  | b :: text =>
    if b = 34 then
      let (name, text) ← string text
      match choose name with
      | some a => return (a, text)
      | none => throw .mismatch
    else if b = 123 then
      let (name, text) ← key text
      match choose name with
      | none => throw .mismatch
      | some a =>
        let text ← null (← colon text)
        match skipSpace text with
        | [] => throw .truncated
        | b :: text => if b = 125 then return (a, text) else throw .malformed
    else throw .malformed

/-- Reads the bracket, comma or end before the next key of an object; nothing when the object ends. -/
def nextKey (first : Bool) (text : List UInt8) : Except Problem (Option (List UInt8)) :=
  match skipSpace text with
  | [] => .error .truncated
  | b :: text =>
    if b = 125 then .ok none
    else if first then if b = 34 then .ok (some text) else .error .malformed
    else if b = 44 then
      match skipSpace text with
      | [] => .error .truncated
      | b :: text => if b = 34 then .ok (some text) else .error .malformed
    else .error .malformed

/-- Reads the comma or end before the next item of a list; nothing when the list ends. -/
def nextItem (first : Bool) (text : List UInt8) : Except Problem (Option (List UInt8)) :=
  match skipSpace text with
  | [] => .error .truncated
  | b :: text =>
    if b = 93 then .ok none
    else if first then .ok (some (b :: text))
    else if b = 44 then
      match skipSpace text with
      | [] => .error .truncated
      | b :: text => if b = 93 then .error .malformed else .ok (some (b :: text))
    else .error .malformed

def endObject (text : List UInt8) : Except Problem (List UInt8) :=
  match skipSpace text with
  | [] => .error .truncated
  | b :: text => if b = 125 then .ok text else .error .malformed

def endList (text : List UInt8) : Except Problem (List UInt8) :=
  match skipSpace text with
  | [] => .error .truncated
  | b :: text => if b = 93 then .ok text else .error .malformed

/-- Nothing but space is left. -/
def endText (text : List UInt8) : Except Problem Unit :=
  if (skipSpace text).isEmpty then .ok () else .error .malformed

end MonitoredVm.Json
