import MonitoredVm.Script.Eval

/-!
# Builtin functions

The native functions every host offers: length, printed form, buffers and bytes.
-/

namespace MonitoredVm

inductive Builtin where
  | len
  | repr
  | memoryview
  | bytes
  deriving DecidableEq, Repr, Inhabited

namespace Builtin

def all : List Builtin := [.len, .repr, .memoryview, .bytes]

def name : Builtin → String
  | .len => "len"
  | .repr => "repr"
  | .memoryview => "memoryview"
  | .bytes => "bytes"

def ofName? (s : String) : Option Builtin := all.find? fun b => b.name == s

/-- The single argument of a call without keywords. -/
def single (function : String) (args : List Value) (kwargs : Namespace) : Except Exception Value :=
  if !kwargs.isEmpty then .error (.typeError (function ++ "() takes no keyword arguments"))
  else match args with
    | [v] => .ok v
    | _ => .error (.typeError (function ++ "() takes exactly one argument (" ++ toString args.length ++ " given)"))

def length? : Value → Option Nat
  | .str s => some s.length
  | .bytes b => some b.length
  | .tuple items => some items.length
  | .list items => some items.length
  | .dict items => some items.length
  | .buffer b _ => some b.length
  | _ => none

def apply (b : Builtin) (args : List Value) (kwargs : Namespace) : Except Exception Value :=
  match b with
  | .len => do
    let v ← single "len" args kwargs
    match length? v with
    | some n => return .int (Int64.ofNat n)
    | none => throw (.typeError ("object of type '" ++ v.typeName ++ "' has no len()"))
  | .repr => do
    let v ← single "repr" args kwargs
    return .str v.repr
  | .memoryview => do
    match ← single "memoryview" args kwargs with
    | .bytes b => return .buffer b none
    | .buffer b lease => return .buffer b lease
    | v => throw (.typeError ("memoryview: a bytes-like object is required, not '" ++ v.typeName ++ "'"))
  | .bytes =>
    if args.isEmpty && kwargs.isEmpty then return .bytes []
    else do
      match ← single "bytes" args kwargs with
      | .bytes b => return .bytes b
      | .buffer b _ => return .bytes b
      | v => throw (.typeError ("cannot convert '" ++ v.typeName ++ "' object to bytes"))

/-- What a call of a function of the host leads to. -/
def outcome : Except Exception Value → Except Halt Value
  | .ok v => .ok v
  | .error e => .error (.raised e)

/-- The builtins as the native functions of a host without state. -/
def natives : Natives Unit where
  knows _ s := (ofName? s).isSome
  call s args kwargs host :=
    match ofName? s with
    | some b => (outcome (b.apply args kwargs), host)
    | none => (.error (.raised (.nameError ("native function '" ++ s ++ "' is not registered"))), host)
  letGo _ host := host

end Builtin
end MonitoredVm
