import MonitoredVm.Bindings
import MonitoredVm.Script.Tree

/-!
# Values

What a namespace binds names to. Tuples, lists and dicts nest; a dict keeps its pairs in insertion order. A
buffer may stand on a lease, the handle through which one interpreter borrows another's storage. A host
object is known by its type name and its identity only.
-/

namespace MonitoredVm

/-- A handle on storage borrowed from the interpreter `owner`. Copies of a value share the handle. -/
structure Lease where
  id : Nat
  owner : Int
  deriving DecidableEq, Repr, Inhabited

inductive Value where
  | none
  | bool (b : Bool)
  | int (i : Int64)
  | float (x : Binary64)
  | str (s : String)
  | bytes (b : List UInt8)
  | tuple (items : List Value)
  | list (items : List Value)
  | dict (items : List (Value × Value))
  | buffer (bytes : List UInt8) (lease : Option Lease)
  | native (name : String)
  | function (f : FunctionDef)
  | exception (e : Exception)
  | host (typeName : String) (id : Nat)
  deriving Repr, Inhabited

/-- The bindings of an interpreter's main module, or of a call frame. -/
abbrev Namespace := Bindings Value

namespace Value

def typeName : Value → String
  | .none => "NoneType"
  | .bool _ => "bool"
  | .int _ => "int"
  | .float _ => "float"
  | .str _ => "str"
  | .bytes _ => "bytes"
  | .tuple _ => "tuple"
  | .list _ => "list"
  | .dict _ => "dict"
  | .buffer _ _ => "memoryview"
  | .native _ => "builtin_function_or_method"
  | .function _ => "function"
  | .exception e => e.type.name
  | .host t _ => t

/-- Counts as true: numbers other than zero, containers that hold something, every object. -/
def isTruthy : Value → Bool
  | .none => false
  | .bool b => b
  | .int i => i != 0
  | .float x => !x.isZero
  | .str s => !s.isEmpty
  | .bytes b => !b.isEmpty
  | .tuple items => !items.isEmpty
  | .list items => !items.isEmpty
  | .dict items => !items.isEmpty
  | .buffer b _ => !b.isEmpty
  | .native _ | .function _ | .exception _ | .host _ _ => true

def isFunction : Value → Bool
  | .native _ | .function _ => true
  | _ => false

/-- The interpreter a buffer was borrowed from. -/
def owner : Value → Option Int
  | .buffer _ (some l) => some l.owner
  | _ => Option.none

end Value

mutual

/-- Equality as the language sees it: numbers numerically and within one type, containers elementwise and in
order, buffers by content, host objects by identity. -/
def Value.same : Value → Value → Bool
  | .none, .none => true
  | .bool a, .bool b => a == b
  | .int a, .int b => a == b
  | .float a, .float b => a.same b
  | .str a, .str b => a == b
  | .bytes a, .bytes b => a == b
  | .tuple a, .tuple b => Value.sameAll a b
  | .list a, .list b => Value.sameAll a b
  | .dict a, .dict b => Value.samePairs a b
  | .buffer a _, .buffer b _ => a == b
  | .native a, .native b => a == b
  | .function f, .function g => f.same g
  | .exception e, .exception f => e == f
  | .host _ a, .host _ b => a == b
  | _, _ => false

def Value.sameAll : List Value → List Value → Bool
  | [], [] => true
  | x :: xs, y :: ys => x.same y && Value.sameAll xs ys
  | _, _ => false

def Value.samePairs : List (Value × Value) → List (Value × Value) → Bool
  | [], [] => true
  | (a, b) :: xs, (c, d) :: ys => a.same c && b.same d && Value.samePairs xs ys
  | _, _ => false

end

mutual

/-- The leases a value stands on, in order of occurrence. -/
def Value.leases : Value → List Lease
  | .buffer _ (some l) => [l]
  | .tuple items => Value.leasesAll items
  | .list items => Value.leasesAll items
  | .dict items => Value.leasesPairs items
  | _ => []

def Value.leasesAll : List Value → List Lease
  | [] => []
  | v :: vs => v.leases ++ Value.leasesAll vs

def Value.leasesPairs : List (Value × Value) → List Lease
  | [] => []
  | (k, v) :: vs => k.leases ++ v.leases ++ Value.leasesPairs vs

end
end MonitoredVm
