import MonitoredVm.Log
import MonitoredVm.Machine.Interpreter
import MonitoredVm.Machine.Snapshot
import MonitoredVm.Script.Builtin

/-!
# The machine

All interpreters with the native functions they share, the contexts that run in them and what the host
holds.

Storage crosses between interpreters on leases. A lease is live while some value or snapshot stands on it:
in a namespace, preserved by a session, in a packed call, held by the host or kept by a native function. It
ends when the last of them lets go of it, and then its owner counts one buffer less; an owner that is gone by
that time cannot, which is noted.

While a command is performed one holder after another may let go of a lease, and only at its end is it clear
who was the last. So `Machine.letGo` notes each time that the owner is gone, if it is, and `Machine.settle`
keeps the last such note of every lease that has ended and gives the others back to their owners.
-/

namespace MonitoredVm

/-- A native function of the host. Those that take an interpreter take its id as their first argument. -/
inductive HostFunction where
  | builtin (b : Builtin)
  | const (v : Value)
  | echo
  | list
  | object (typeName : String)
  | raise (e : Exception)
  | exception (e : Exception)
  /-- Runs source text in an interpreter. -/
  | run
  | destroy
  | names
  | status
  deriving Repr, Inhabited

/-- How far a session has come. -/
inductive Stage where
  | idle
  | entered (target previous : Int)
  deriving DecidableEq, Repr, Inhabited

def Stage.name : Stage → String
  | .idle => "Idle"
  | .entered _ _ => "Entered"

/-- A stay of a context in another interpreter. -/
structure Session where
  stage : Stage := .idle
  /-- Snapshots to hand over at the exit. -/
  preserved : Bindings Snapshot := {}
  deriving Repr, Inhabited

/-- A thread of execution: the interpreter it runs in, a pending exception and the session it is engaged in. -/
structure Context where
  current : Int := 0
  pending : Option Exception := none
  session : Option Session := none
  deriving Repr, Inhabited

/-- A counted reference to an interpreter; an owning one ends it when it is the last. -/
structure Handle where
  id : Int
  owning : Bool
  deriving DecidableEq, Repr, Inhabited

/-- What the machine writes to the log. -/
inductive MachineNote where
  | created (id : Int) (whence : Whence)
  | destroyed (id : Int)
  | noReferences (id : Int)
  | neverExported (id : Int)
  | ownerGone (lease : Lease)
  | switching (source target : Int)
  | entered (target source : Int)
  | left (id : Int)
  | droppedPreserved (name : String) (e : CrossError)
  | notPreserved (e : CrossError)
  | reading (file : String)
  | running (file : String) (id : Int)
  deriving Repr, Inhabited

namespace MachineNote

def message : MachineNote → String
  | .created id whence => "created interpreter " ++ toString id ++ " (" ++ whence.name ++ ")"
  | .destroyed id => "destroyed interpreter " ++ toString id
  | .noReferences id => "interpreter " ++ toString id ++ " reached zero references while running"
  | .neverExported id => "interpreter " ++ toString id ++ " released a buffer it never exported"
  | .ownerGone lease => "buffer owner interpreter " ++ toString lease.owner ++ " is gone, release skipped"
  | .switching source target => "thread switching from interpreter " ++ toString source ++ " to " ++ toString target
  | .entered target source => "entered interpreter " ++ toString target ++ " from " ++ toString source
  | .left id => "left interpreter " ++ toString id
  | .droppedPreserved name e => "dropping preserved '" ++ name ++ "' after failure: " ++ e.message
  | .notPreserved e => "exception not preserved: " ++ e.message
  | .reading file => "reading file: " ++ file
  | .running file id => "running " ++ file ++ " in interpreter " ++ toString id

/-- The part of the program a note comes from. -/
def source : MachineNote → String
  | .created _ _ | .destroyed _ | .noReferences _ | .neverExported _ | .switching _ _ => "tyrt::interp::registry"
  | .ownerGone _ => "tyrt::interp::xidata"
  | .entered _ _ | .left _ | .droppedPreserved _ _ => "tyrt::interp::session"
  | .notPreserved _ => "tyrt::interp::api"
  | .reading _ | .running _ _ => "tyrt"

def missesOwnerOf (lease : Lease) : MachineNote → Bool
  | .ownerGone l => l == lease
  | _ => false

/-- Of the notes that the owner of a lease is gone, leaves the last of each lease that is not live. -/
def lastOnly (live : List Lease) : List (Level × MachineNote) → List (Level × MachineNote)
  | [] => []
  | (level, .ownerGone lease) :: rest =>
    if live.contains lease || rest.any fun r => r.2.missesOwnerOf lease then lastOnly live rest
    else (level, .ownerGone lease) :: lastOnly live rest
  | r :: rest => r :: lastOnly live rest

end MachineNote

/-- All interpreters and what the host holds of them. -/
structure Machine where
  /-- Every interpreter ever made, oldest first; those not destroyed are registered. -/
  interpreters : List Interpreter := [{ id := 0, whence := .runtime, config := Config.legacy }]
  nextId : Int := 1
  functions : Bindings HostFunction := Bindings.ofList (Builtin.all.map fun b => (b.name, .builtin b))
  /-- Leases that have not ended, in the order they were taken. -/
  leases : List Lease := []
  nextLease : Nat := 0
  contexts : List Context := [{}]
  held : Bindings Value := {}
  heldInterpreters : Bindings Int := {}
  handles : Bindings Handle := {}
  calls : Bindings PendingCall := {}
  nextObject : Nat := 0
  log : Log MachineNote := {}

/-- An operation that may fail with `ε`; what was done before it fails stays done. -/
abbrev Work (ε : Type) := ExceptT ε (StateM Machine)

namespace Machine

instance : Inhabited Machine := ⟨{}⟩

/-- An interpreter, registered or not. -/
def find? (m : Machine) (id : Int) : Option Interpreter := m.interpreters.find? (·.id == id)

def registered (m : Machine) : List Interpreter := m.interpreters.filter (·.isReady)

def get? (m : Machine) (id : Int) : Option Interpreter := (m.find? id).filter (·.isReady)

def modifyInterpreter (m : Machine) (id : Int) (f : Interpreter → Interpreter) : Machine :=
  { m with interpreters := m.interpreters.map fun i => if i.id == id then f i else i }

def context (m : Machine) (c : Nat) : Context := (m.contexts[c]?).getD {}

def modifyContext (m : Machine) (c : Nat) (f : Context → Context) : Machine :=
  { m with contexts := m.contexts.modify c f }

def note (m : Machine) (level : Level) (n : MachineNote) : Machine := { m with log := m.log.add level n }

def knows (m : Machine) (name : String) : Bool := (m.functions.get? name).isSome

def newObject (m : Machine) (typeName : String) : Machine × Value :=
  ({ m with nextObject := m.nextObject + 1 }, .host typeName m.nextObject)

/-- The leases something still stands on. -/
def liveLeases (m : Machine) : List Lease :=
  m.interpreters.flatMap (fun i => Value.leasesAll i.globals.values) ++
    m.contexts.flatMap (fun c => (c.session.getD {}).preserved.values.flatMap Snapshot.leases) ++
    Value.leasesAll m.held.values ++
    m.calls.values.flatMap PendingCall.leases ++
    Value.leasesAll (m.functions.values.filterMap fun
      | .const v => some v
      | _ => none)

/-- Takes a lease on storage of an interpreter, which counts it if it is registered. -/
def acquire (m : Machine) (owner : Int) : Machine × Lease :=
  let lease : Lease := { id := m.nextLease, owner }
  let m := { m with leases := m.leases ++ [lease], nextLease := m.nextLease + 1 }
  (if (m.get? owner).isSome then m.modifyInterpreter owner fun i => { i with exports := i.exports + 1 } else m, lease)

/-- Someone lets go of leases, one after the other: those whose owner is gone are noted. -/
def letGo (m : Machine) (leases : List Lease) : Machine :=
  leases.foldl (fun m l => if (m.get? l.owner).isNone then m.note .warn (.ownerGone l) else m) m

/-- Gives an ended lease back to its owner, unless that was gone when the lease ended. -/
def release (m : Machine) (lease : Lease) : Machine :=
  if m.log.records.any fun r => r.2.missesOwnerOf lease then m
  else match m.find? lease.owner with
    | none => m
    | some i =>
      if i.exports = 0 then m.note .warn (.neverExported i.id)
      else m.modifyInterpreter i.id fun i => { i with exports := i.exports - 1 }

/-- Ends the leases that nothing stands on any more, those `kept` elsewhere aside. -/
def settle (m : Machine) (kept : List Lease) : Machine :=
  if m.leases.isEmpty then m
  else
    let live := kept ++ m.liveLeases
    let ended := m.leases.filter fun l => !live.contains l
    ended.foldl release { m with
      leases := m.leases.filter live.contains
      log := { m.log with records := MachineNote.lastOnly live m.log.records } }

/-- Registers a new interpreter. A configuration that cannot be used takes no id. -/
def newInterpreter (m : Machine) (config : Config) (whence : Whence) : Except InterpError (Machine × Int) := do
  match config.validate with
  | .error e => throw (.creationFailed e)
  | .ok () =>
    let id := m.nextId
    let new : Interpreter := { id, whence, config }
    let m := { m with interpreters := m.interpreters ++ [new], nextId := id + 1 }
    return (m.note .debug (.created id whence), id)

def globals (m : Machine) (id : Int) : Namespace := ((m.find? id).map (·.globals)).getD {}

/-- Ends an interpreter: it is registered no longer and its namespace is gone. -/
def endInterpreter (m : Machine) (id : Int) : Machine :=
  let leases := Value.leasesAll (m.globals id).values
  let m := m.modifyInterpreter id fun i => { i with status := .destroyed, globals := {} }
  (m.letGo leases).note .debug (.destroyed id)

def addRef (m : Machine) (id : Int) (link : Bool) : Machine :=
  m.modifyInterpreter id fun i => { i with refs := i.refs + 1, requiresRefs := i.requiresRefs || link }

/-- Drops a reference. The last one ends the interpreter if it requires references and `ending` allows it; a running one
is left alone. -/
def dropRef (m : Machine) (id : Int) (ending : Bool) : Machine :=
  let m := m.modifyInterpreter id fun i => { i with refs := i.refs - 1 }
  match m.find? id with
  | none => m
  | some i =>
    if i.refs = 0 ∧ i.requiresRefs ∧ ending then
      if i.isRunning then m.note .warn (.noReferences id)
      else if i.isReady then m.endInterpreter id else m
    else m

/-- A snapshot of a value that lives in `source`. Portable values are kept in binary; what is portable only in full
is kept as JSON when that is asked for. -/
def snapshot (m : Machine) (source : Int) (v : Value) (full : Bool) : Machine × Except CrossError Snapshot :=
  match v with
  | .buffer bytes lease =>
    let (m, lease) := m.acquire ((lease.map Lease.owner).getD source)
    (m, .ok ⟨source, .buffer bytes lease⟩)
  | v =>
    (m, match v.portable false with
      | .ok p => .ok ⟨source, .binary p⟩
      | .error blocker =>
        if full then
          match v.portable true with
          | .ok p => .ok ⟨source, .json p⟩
          | .error _ => .error (.noPortableForm blocker)
        else .error (.noPortableForm blocker))

/-- The state of the registered interpreters at a glance. -/
def overview (m : Machine) : List (Int × Status × Nat × Nat) :=
  m.registered.map fun i => (i.id, i.status, i.exports, i.refs)

def describe (m : Machine) : String :=
  "Runtime \x7b interpreters: [" ++ ", ".intercalate (m.registered.map Interpreter.describe) ++ "] \x7d"

end Machine

namespace Work

def snapshot (source : Int) (v : Value) (full : Bool) : Work CrossError Snapshot := fun m =>
  let (m, r) := m.snapshot source v full
  (r, m)

def rebuild (s : Snapshot) : Work CrossError Value := fun m => (s.toValue m.knows, m)

/-- Runs work whose failures are told in other words. -/
def convert {ε δ α : Type} (f : ε → δ) (w : Work ε α) : Work δ α := fun m =>
  let (r, m) := w m
  (r.mapError f, m)

def change (f : Machine → Machine) {ε : Type} : Work ε Unit := modify f

def letGo (leases : List Lease) {ε : Type} : Work ε Unit := change (·.letGo leases)

end Work
end MonitoredVm
