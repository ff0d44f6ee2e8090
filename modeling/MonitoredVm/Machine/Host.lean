import MonitoredVm.Machine.Operation

/-!
# The native functions of the host

Natives may run operations of their own, on a context of their own: running source text in an interpreter
from within code nests. An interpreter runs one session at a time, so it nests at most once per interpreter,
which bounds `nativesAt`.
-/

namespace MonitoredVm

/-- The interpreter id in an argument list: zero if the first argument is no number. -/
def idArgument : List Value → Int
  | .int i :: _ => i.toInt
  | _ => 0

/-- How the failure of an operation ends a native function. -/
def InterpError.halt : InterpError → Halt
  | .exhausted => .exhausted
  | e => .raised e.exception

namespace Work

def onNewContext {α : Type} (work : Nat → Work InterpError α) : Work Halt α := fun m =>
  let c := m.contexts.length
  let (r, m) := convert InterpError.halt (work c) { m with contexts := m.contexts ++ [({} : Context)] }
  (r, { m with contexts := m.contexts.take c })

def interpreterOf (args : List Value) : Work Halt Interpreter := do
  match (← get).get? (idArgument args) with
  | some i => return i
  | none => throw (InterpError.notFound (idArgument args)).halt

/-- Calls a native function, with `inner` for the code it runs. -/
def callHost (inner : Option (Natives Machine)) (f : HostFunction) (args : List Value) (kwargs : Namespace) :
    Work Halt Value :=
  match f with
  | .builtin b => fun m => (Builtin.outcome (b.apply args kwargs), m)
  | .const v => return v
  | .echo => return .tuple [.tuple args, .dict (kwargs.entries.map fun (k, v) => (.str k, v))]
  | .list => return .list args
  | .object typeName => fun m =>
    let (m, v) := m.newObject typeName
    (.ok v, m)
  | .raise e => throw (.raised e)
  | .exception e => return .exception e
  | .run =>
    match args, inner with
    | _ :: .str source :: _, some h => do
      match ← onNewContext fun c => runString h c (idArgument args) source {} false with
      | none => return .none
      | some failure => return .str failure.formatted
    | _ :: .str _ :: _, none => throw .exhausted
    | _, _ => return .none
  | .destroy => do
    onNewContext fun c => destroy c (idArgument args) false
    return .none
  | .names => do return .tuple ((← interpreterOf args).globals.names.map .str)
  | .status => do return .str (← interpreterOf args).status.name

end Work

def Machine.callNative (inner : Option (Natives Machine)) (name : String) (args : List Value) (kwargs : Namespace)
    (m : Machine) : Except Halt Value × Machine :=
  match m.functions.get? name with
  | some f => Work.callHost inner f args kwargs m
  | none => (.error (.raised (.nameError ("native function '" ++ name ++ "' is not registered"))), m)

/-- The native functions, with `inner` for the code they run. -/
def Machine.natives (inner : Option (Natives Machine)) : Natives Machine where
  knows := Machine.knows
  call := Machine.callNative inner
  letGo v m := m.letGo v.leases

/-- The native functions, with code that runs in natives nesting at most `depth` deep. -/
def nativesAt : (depth : Nat) → Natives Machine
  | 0 => Machine.natives none
  | depth + 1 => Machine.natives (some (nativesAt depth))

/-- The native functions, nesting as deep as there are interpreters. -/
def Machine.host (m : Machine) : Natives Machine := nativesAt (m.interpreters.length + 1)

end MonitoredVm
