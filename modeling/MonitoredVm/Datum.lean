import MonitoredVm.Binary64.Reread

/-!
# Structured data and its two encodings

A datum is what a typed value looks like to an encoder: records, sequences, variants and scalars. It has a
binary encoding, compact and without names, and a JSON text. Reading the JSON text back fails where brackets
nest too deeply, where a number that is not finite was written as `null`, and where the reader's arithmetic
overflows; `Datum.readOver` finds the first such place.
-/

namespace MonitoredVm

inductive Datum where
  | bool (b : Bool)
  | int (i : Int64)
  | nat (n : Nat)
  | byte (b : UInt8)
  | float (x : Binary64)
  | str (s : String)
  | absent
  | present (d : Datum)
  /-- Items of one type, any number of them. -/
  | seq (items : List Datum)
  /-- A fixed number of items. -/
  | tuple (items : List Datum)
  | record (fields : List (String × Datum))
  /-- A choice without content. -/
  | choice (index : Nat) (name : String)
  | variant (index : Nat) (name : String) (content : Datum)
  deriving Repr, Inhabited

namespace Datum

/-- Seven bits to a byte, lowest first, the top bit set on all but the last; at most `count` bytes. -/
def varint : (count : Nat) → Nat → List UInt8
  | 0, _ => []
  | count + 1, n => if n < 128 then [UInt8.ofNat n] else UInt8.ofNat (n % 128 + 128) :: varint count (n / 128)

/-- A length, index or other natural number. -/
def natBytes (n : Nat) : List UInt8 := varint 10 n

/-- Folds the sign into the lowest bit. -/
def zigzag (i : Int64) : Nat := if 0 ≤ i.toInt then 2 * i.toInt.toNat else 2 * (-i.toInt).toNat - 1

def floatBytes (x : Binary64) : List UInt8 := (List.range 8).map fun k => UInt8.ofNat (x.bits.toNat >>> (8 * k))

def strBytes (s : String) : List UInt8 := natBytes s.utf8ByteSize ++ s.toUTF8.toList

end Datum

mutual

def Datum.binary : Datum → List UInt8
  | .bool b => [if b then 1 else 0]
  | .int i => Datum.natBytes (Datum.zigzag i)
  | .nat n => Datum.natBytes n
  | .byte b => [b]
  | .float x => Datum.floatBytes x
  | .str s => Datum.strBytes s
  | .absent => [0]
  | .present d => 1 :: d.binary
  | .seq items => Datum.natBytes items.length ++ Datum.binaryAll items
  | .tuple items => Datum.binaryAll items
  | .record fields => Datum.binaryFields fields
  | .choice index _ => Datum.natBytes index
  | .variant index _ content => Datum.natBytes index ++ content.binary

def Datum.binaryAll : List Datum → List UInt8
  | [] => []
  | d :: rest => d.binary ++ Datum.binaryAll rest

def Datum.binaryFields : List (String × Datum) → List UInt8
  | [] => []
  | (_, d) :: rest => d.binary ++ Datum.binaryFields rest

end

namespace Datum

/-- A character inside a JSON string. Control characters are escaped, nothing beyond ASCII is. -/
def jsonChar (c : Char) : List Char :=
  if c = '"' then ['\\', '"']
  else if c = '\\' then ['\\', '\\']
  else if c = '\x08' then ['\\', 'b']
  else if c = '\x0c' then ['\\', 'f']
  else if c = '\n' then ['\\', 'n']
  else if c = '\r' then ['\\', 'r']
  else if c = '\t' then ['\\', 't']
  else if c.toNat < 32 then
    ['\\', 'u', '0', '0', Nat.digitChar (c.toNat / 16), Nat.digitChar (c.toNat % 16)]
  else [c]

def jsonStr (s : String) : List Char := '"' :: s.toList.flatMap jsonChar ++ ['"']

def jsonInt (i : Int) : List Char :=
  if i < 0 then '-' :: Binary64.digitChars (-i).toNat else Binary64.digitChars i.toNat

def jsonFloat (x : Binary64) : List Char := if x.isFinite then x.interchange else "null".toList

end Datum

mutual

def Datum.json : Datum → List Char
  | .bool b => if b then "true".toList else "false".toList
  | .int i => Datum.jsonInt i.toInt
  | .nat n => Binary64.digitChars n
  | .byte b => Binary64.digitChars b.toNat
  | .float x => Datum.jsonFloat x
  | .str s => Datum.jsonStr s
  | .absent => "null".toList
  | .present d => d.json
  | .seq [] => ['[', ']']
  | .seq (d :: rest) => '[' :: d.json ++ Datum.jsonRest rest ++ [']']
  | .tuple [] => ['[', ']']
  | .tuple (d :: rest) => '[' :: d.json ++ Datum.jsonRest rest ++ [']']
  | .record [] => ['\x7b', '\x7d']
  | .record ((name, d) :: rest) =>
    '\x7b' :: Datum.jsonStr name ++ ':' :: d.json ++ Datum.jsonFields rest ++ ['\x7d']
  | .choice _ name => Datum.jsonStr name
  | .variant _ name content => '\x7b' :: Datum.jsonStr name ++ ':' :: content.json ++ ['\x7d']

def Datum.jsonRest : List Datum → List Char
  | [] => []
  | d :: rest => ',' :: d.json ++ Datum.jsonRest rest

def Datum.jsonFields : List (String × Datum) → List Char
  | [] => []
  | (name, d) :: rest => ',' :: Datum.jsonStr name ++ ':' :: d.json ++ Datum.jsonFields rest

end

namespace Datum

def jsonText (d : Datum) : String := String.ofList d.json

def byteSize (text : List Char) : Nat := text.foldl (fun n c => n + c.utf8Size) 0

end Datum

/-- Why a JSON text cannot be read back, and at which byte, counted from one. -/
inductive ReadFault where
  | tooDeep (column : Nat)
  | nullNumber (column : Nat)
  | numberRange (column : Nat)
  deriving DecidableEq, Repr, Inhabited

def ReadFault.message : ReadFault → String
  | .tooDeep column => "recursion limit exceeded at line 1 column " ++ toString column
  | .nullNumber column => "invalid type: null, expected f64 at line 1 column " ++ toString column
  | .numberRange column => "number out of range at line 1 column " ++ toString column

namespace Datum

/-- So many brackets open at once are refused. -/
def maxNesting : Nat := 128

def readNumber (x : Binary64) (read : Nat) : Except ReadFault Nat :=
  if !x.isFinite then .error (.nullNumber (read + 4))
  else
    let read := read + x.interchange.length
    if x.reread?.isSome then .ok read else .error (.numberRange read)

/-- Opens a bracket after `read` bytes, with `depth` brackets open already. -/
def openBracket (read depth : Nat) : Except ReadFault Unit :=
  if depth + 1 < maxNesting then .ok () else .error (.tooDeep (read + 1))

end Datum

mutual

/-- Reads the JSON text of a datum, after `read` bytes and inside `depth` brackets: the bytes read then, or the first
fault. -/
def Datum.readOver (depth : Nat) : Datum → (read : Nat) → Except ReadFault Nat
  | .float x, read => Datum.readNumber x read
  | .present d, read => d.readOver depth read
  | .seq items, read => do
    Datum.openBracket read depth
    let read ← Datum.readOverAll (depth + 1) items read
    return read + (if items.isEmpty then 2 else 1)
  | .tuple items, read => do
    Datum.openBracket read depth
    let read ← Datum.readOverAll (depth + 1) items read
    return read + (if items.isEmpty then 2 else 1)
  | .record fields, read => do
    Datum.openBracket read depth
    let read ← Datum.readOverFields (depth + 1) fields read
    return read + (if fields.isEmpty then 2 else 1)
  | .variant _ name content, read => do
    Datum.openBracket read depth
    let read ← content.readOver (depth + 1) (read + 2 + Datum.byteSize (Datum.jsonStr name))
    return read + 1
  | .bool b, read => .ok (read + (Datum.json (.bool b)).length)
  | .int i, read => .ok (read + (Datum.json (.int i)).length)
  | .nat n, read => .ok (read + (Datum.json (.nat n)).length)
  | .byte b, read => .ok (read + (Datum.json (.byte b)).length)
  | .str s, read => .ok (read + Datum.byteSize (Datum.jsonStr s))
  | .absent, read => .ok (read + 4)
  | .choice _ name, read => .ok (read + Datum.byteSize (Datum.jsonStr name))

/-- Reads items, each after an opening bracket or a comma. -/
def Datum.readOverAll (depth : Nat) : List Datum → (read : Nat) → Except ReadFault Nat
  | [], read => .ok read
  | d :: rest, read => do
    let read ← d.readOver depth (read + 1)
    Datum.readOverAll depth rest read

/-- Reads named items, each after an opening bracket or a comma. -/
def Datum.readOverFields (depth : Nat) : List (String × Datum) → (read : Nat) → Except ReadFault Nat
  | [], read => .ok read
  | (name, d) :: rest, read => do
    let read ← d.readOver depth (read + 2 + Datum.byteSize (Datum.jsonStr name))
    Datum.readOverFields depth rest read

end
end MonitoredVm
