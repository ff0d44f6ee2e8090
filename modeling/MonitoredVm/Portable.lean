import MonitoredVm.Datum
import MonitoredVm.Value

/-!
# Portable values

A portable value refers to nothing in the interpreter it was taken from. Values of the basic types, tuples
of them and functions are portable as they are; lists, dicts and exceptions only when asked for; host
objects and buffers inside other values never.
-/

namespace MonitoredVm

/-- A value free of any interpreter. -/
inductive Portable where
  | none
  | bool (b : Bool)
  | int (i : Int64)
  | float (x : Binary64)
  | str (s : String)
  | bytes (b : List UInt8)
  | tuple (items : List Portable)
  | list (items : List Portable)
  | dict (items : List (Portable × Portable))
  | native (name : String)
  | defined (f : FunctionDef)
  | exception (e : Exception)
  deriving Repr, Inhabited

mutual

/-- The portable form of a value, or the type name of the first part that has none. -/
def Value.portable (full : Bool) : Value → Except String Portable
  | .none => .ok .none
  | .bool b => .ok (.bool b)
  | .int i => .ok (.int i)
  | .float x => .ok (.float x)
  | .str s => .ok (.str s)
  | .bytes b => .ok (.bytes b)
  | .tuple items => return .tuple (← Value.portableAll full items)
  | .list items => if full then return .list (← Value.portableAll full items) else .error "list"
  | .dict items => if full then return .dict (← Value.portablePairs full items) else .error "dict"
  | .exception e => if full then .ok (.exception e) else .error e.type.name
  | .native name => .ok (.native name)
  | .function f => .ok (.defined f)
  | .buffer _ _ => .error "memoryview"
  | .host typeName _ => .error typeName

def Value.portableAll (full : Bool) : List Value → Except String (List Portable)
  | [] => .ok []
  | v :: vs => do
    let p ← v.portable full
    return p :: (← Value.portableAll full vs)

def Value.portablePairs (full : Bool) : List (Value × Value) → Except String (List (Portable × Portable))
  | [] => .ok []
  | (k, v) :: rest => do
    let k ← k.portable full
    let v ← v.portable full
    return (k, v) :: (← Value.portablePairs full rest)

end

/-- Can be passed to another interpreter as it is. -/
def Value.isShareable (v : Value) : Bool :=
  match v with
  | .buffer _ _ => true
  | v => (v.portable false).isOk

mutual

/-- The value a portable form stands for, or the first native function in it that the host does not know. -/
def Portable.toValue (knows : String → Bool) : Portable → Except String Value
  | .none => .ok .none
  | .bool b => .ok (.bool b)
  | .int i => .ok (.int i)
  | .float x => .ok (.float x)
  | .str s => .ok (.str s)
  | .bytes b => .ok (.bytes b)
  | .tuple items => return .tuple (← Portable.toValues knows items)
  | .list items => return .list (← Portable.toValues knows items)
  | .dict items => return .dict (← Portable.toPairs knows items)
  | .native name => if knows name then .ok (.native name) else .error name
  | .defined f => .ok (.function f)
  | .exception e => .ok (.exception e)

def Portable.toValues (knows : String → Bool) : List Portable → Except String (List Value)
  | [] => .ok []
  | p :: ps => do
    let v ← p.toValue knows
    return v :: (← Portable.toValues knows ps)

def Portable.toPairs (knows : String → Bool) : List (Portable × Portable) → Except String (List (Value × Value))
  | [] => .ok []
  | (k, v) :: rest => do
    let k ← k.toValue knows
    let v ← v.toValue knows
    return (k, v) :: (← Portable.toPairs knows rest)

end
end MonitoredVm
