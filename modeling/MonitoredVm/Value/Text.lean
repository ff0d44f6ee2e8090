import MonitoredVm.Binary64.Text
import MonitoredVm.Value

/-!
# Printed values

`Value.repr` writes a value the way the script language spells it where it can: text in single quotes with
the quote, the backslash and the newline escaped, bytes with everything but plain printable ASCII in
hexadecimal, a one-element tuple with a trailing comma.
-/

namespace MonitoredVm

namespace Text

def hexByte (b : UInt8) : List Char := [Nat.digitChar (b.toNat / 16), Nat.digitChar (b.toNat % 16)]

/-- The characters that stand for one character inside single quotes. -/
def quotedChar (c : Char) : List Char :=
  if c = '\'' then ['\\', '\''] else if c = '\\' then ['\\', '\\'] else if c = '\n' then ['\\', 'n'] else [c]

def quoted (s : List Char) : List Char := '\'' :: s.flatMap quotedChar ++ ['\'']

/-- A byte that a bytes literal shows as itself. -/
def showsPlain (b : UInt8) : Bool := 32 ≤ b && b ≤ 126 && b != 39 && b != 92

/-- The characters that stand for one byte in a bytes literal. -/
def quotedByte (b : UInt8) : List Char :=
  if showsPlain b then [Char.ofNat b.toNat] else '\\' :: 'x' :: hexByte b

def quotedBytes (b : List UInt8) : List Char := 'b' :: '\'' :: b.flatMap quotedByte ++ ['\'']

end Text

namespace Value

def intChars (i : Int) : List Char :=
  if i < 0 then '-' :: Nat.toDigits 10 i.natAbs else Nat.toDigits 10 i.natAbs

/-- `Type('message')`, or `Type()` without a message. -/
def exceptionChars (e : Incident) : List Char :=
  e.type.name.toList ++ '(' :: ((e.message.map fun m => Text.quoted m.toList).getD []) ++ [')']

end Value

mutual

def Value.reprChars : Value → List Char
  | .none => "None".toList
  | .bool true => "True".toList
  | .bool false => "False".toList
  | .int i => Value.intChars i.toInt
  | .float x => x.display
  | .str s => Text.quoted s.toList
  | .bytes b => Text.quotedBytes b
  | .tuple [v] => '(' :: v.reprChars ++ [',', ')']
  | .tuple items => '(' :: Value.reprItems items ++ [')']
  | .list items => '[' :: Value.reprItems items ++ [']']
  | .dict items => '\x7b' :: Value.reprPairs items ++ ['\x7d']
  | .buffer b _ => ("<memory of " ++ toString b.length ++ " bytes>").toList
  | .native n => ("<built-in function " ++ n ++ ">").toList
  | .function f => ("<function " ++ f.qualname ++ ">").toList
  | .exception e => Value.exceptionChars e.toIncident
  | .host t _ => ("<" ++ t ++ " object>").toList

def Value.reprItems : List Value → List Char
  | [] => []
  | v :: vs => v.reprChars ++ Value.reprRest vs

/-- The items after the first, each after a comma. -/
def Value.reprRest : List Value → List Char
  | [] => []
  | v :: vs => ',' :: ' ' :: v.reprChars ++ Value.reprRest vs

def Value.reprPairs : List (Value × Value) → List Char
  | [] => []
  | (k, v) :: vs => k.reprChars ++ ':' :: ' ' :: v.reprChars ++ Value.reprPairsRest vs

def Value.reprPairsRest : List (Value × Value) → List Char
  | [] => []
  | (k, v) :: vs => ',' :: ' ' :: k.reprChars ++ ':' :: ' ' :: v.reprChars ++ Value.reprPairsRest vs

end

def Value.repr (v : Value) : String := String.ofList v.reprChars

/-- The description of a buffer or host object that names its hidden parts; other values have none. -/
def Value.inspect? : Value → Option String
  | .buffer b lease =>
    some ("Buffer(SharedBuffer \x7b len: " ++ toString b.length ++ ", owner: " ++
      ((lease.map fun l => "Some(" ++ toString l.owner ++ ")").getD "None") ++ " \x7d)")
  | .host t _ => some ("Opaque(Opaque(" ++ t ++ "))")
  | _ => Option.none

end MonitoredVm
