import MonitoredVm.Failure
import MonitoredVm.Machine.State
import MonitoredVm.Script.Parser

/-!
# Sessions

A session takes a context into another interpreter and back. Entering is all or nothing: the shared values
are packed where the context stands, the target is marked running, and the values are rebuilt there and
bound in its namespace. Leaving hands over what was preserved and the report of a failure.
-/

namespace MonitoredVm

namespace Machine

/-- Has a context run in another interpreter. -/
def switch (m : Machine) (c : Nat) (id : Int) : Machine :=
  (m.note .trace (.switching (m.context c).current id)).modifyContext c fun ctx => { ctx with current := id }

/-- Marks an interpreter as running; it must be ready. -/
def setRunning (m : Machine) (id : Int) : Except CrossError Machine :=
  match (m.find? id).map Interpreter.status with
  | some .ready => .ok (m.modifyInterpreter id fun i => { i with status := .running })
  | some .running => .error { code := .alreadyRunning }
  | _ => .error (.other ("interpreter " ++ toString id ++ " is not ready"))

def setIdle (m : Machine) (id : Int) : Machine :=
  m.modifyInterpreter id fun i => if i.isRunning then { i with status := .ready } else i

/-- The session a context is engaged in, or a new one. -/
def session (m : Machine) (c : Nat) : Session := (m.context c).session.getD {}

def setSession (m : Machine) (c : Nat) (s : Option Session) : Machine :=
  m.modifyContext c fun ctx => { ctx with session := s }

/-- Binds a name in the namespace of an interpreter, letting go of what it was bound to. -/
def bind (m : Machine) (id : Int) (name : String) (v : Value) : Machine :=
  let old := ((m.globals id).get? name).elim [] Value.leases
  (m.modifyInterpreter id fun i => { i with globals := i.globals.insert name v }).letGo old

def bindAll (m : Machine) (id : Int) (bindings : List (String × Value)) : Machine :=
  bindings.foldl (fun m (name, v) => m.bind id name v) m

end Machine

namespace Work

/-- Packs named values that live in `source`, after those already packed. What was packed before a failure is let
go. -/
def packAll (source : Int) (packed : List (String × Snapshot)) :
    List (String × Value) → Work CrossError (List (String × Snapshot))
  | [] => return packed
  | (name, v) :: rest => do
    match ← liftM (snapshot source v false).run with
    | .ok s => packAll source (packed ++ [(name, s)]) rest
    | .error e =>
      letGo (Snapshot.leasesAll packed)
      throw e

/-- Rebuilds named values, after those already built. A failure comes with the leases of what is left over: first
of the snapshots not yet reached, then of the values built. -/
def rebuildAll (knows : String → Bool) (built : List (String × Value)) :
    List (String × Snapshot) → Except (CrossError × List Lease) (List (String × Value))
  | [] => .ok built
  | (name, s) :: rest =>
    match s.toValue knows with
    | .ok v => rebuildAll knows (built ++ [(name, v)]) rest
    | .error e => .error (e, Snapshot.leasesAll rest ++ Value.leasesAll (built.map (·.2)))

def enter (c : Nat) (target : Int) (shared : Namespace) : Work CrossError Unit := do
  let session := (← get).session c
  if session.stage ≠ .idle then throw (.other "session already entered")
  let source := ((← get).context c).current
  let packed ← packAll source [] shared.entries
  match (← get).setRunning target with
  | .error e =>
    letGo (Snapshot.leasesAll packed)
    throw e
  | .ok m => set m
  change (·.switch c target)
  match rebuildAll (← get).knows [] packed with
  | .error (e, left) =>
    change fun m => ((m.switch c source).setIdle target).letGo left
    throw { code := .applyNamespace, cause := some e.exception }
  | .ok bindings =>
    change fun m => m.bindAll target bindings
    change (·.note .debug (.entered target source))
    change (·.setSession c (some { session with stage := .entered target source }))

def target (c : Nat) : Work CrossError Int := do
  match ((← get).session c).stage with
  | .entered target _ => return target
  | _ => throw { code := .mainNamespace }

/-- Runs with the namespace of an interpreter taken out of it; it is put back at the end. -/
def withGlobals {α : Type} (id : Int) (run : Namespace → Machine → α × Namespace × Machine) : StateM Machine α :=
  fun m =>
  let (a, globals, m) := run (m.globals id) (m.modifyInterpreter id fun i => { i with globals := {} })
  (a, m.modifyInterpreter id fun i => { i with globals })

def exec (h : Natives Machine) (c : Nat) (script : Script) : Work Halt Unit := do
  let id ← convert (fun e => .raised e.exception) (target c)
  match ← liftM (withGlobals id fun globals m => script.exec h globals m) with
  | .ok () => return
  | .error halt => throw halt

/-- Calls a value with the namespace of the interpreter a session is in as globals. -/
def call (h : Natives Machine) (c : Nat) (callee : Value) (args : List Value) (kwargs : Namespace) :
    Work Halt Value := do
  let id ← convert (fun e => .raised e.exception) (target c)
  let result ← liftM (withGlobals id fun globals m =>
    let (r, m) := applyValue h callee args kwargs globals m
    (r, globals, m))
  match result with
  | .ok v => return v
  | .error halt => throw halt

/-- Unpacks a call and makes it. Gives what is left of the packed call, also on failure. -/
def callPending (h : Natives Machine) (c : Nat) (pending : PendingCall) :
    StateM Machine (PendingCall × Except Halt Value) := do
  let (pending, unpacked) := pending.unpack (← get).knows
  match unpacked with
  | .error e => return (pending, .error (.raised e.exception))
  | .ok (callee, args, kwargs) => return (pending, ← (call h c callee args kwargs).run)

/-- Snapshots a value for the exit. -/
def preserve (c : Nat) (name : String) (v : Value) : Work CrossError Unit := do
  let id ← target c
  let s ← convert (fun e => if e.code = .notShareable then e else { code := .preserve, cause := some e.exception })
    (snapshot id v true)
  let old := (((← get).session c).preserved.get? name).elim [] Snapshot.leases
  change fun m => m.setSession c (some { m.session c with preserved := (m.session c).preserved.insert name s })
  letGo old

/-- Ends the session of a context and gives it back; one that was entered takes the context back to where it came
from. -/
def leave (c : Nat) : StateM Machine Session := do
  let session := (← get).session c
  match session.stage with
  | .entered target previous => modify fun m => ((m.switch c previous).setIdle target).note .debug (.left target)
  | .idle => pure ()
  modify (·.setSession c none)
  return session

/-- Ends the session of a context without handing over what was preserved. -/
def abandon (c : Nat) : StateM Machine Unit := do
  let session ← leave c
  modify (·.letGo (Snapshot.leasesAll session.preserved.entries))

/-- Rebuilds what was preserved. After a failure, what cannot be rebuilt is left out with a warning. -/
def handOver (failed : Bool) : List (String × Snapshot) → Namespace → Work CrossError Namespace
  | [], ns => return ns
  | (name, s) :: rest, ns => do
    match ← liftM (rebuild s).run with
    | .ok v => handOver failed rest (ns.insert name v)
    | .error e =>
      if failed then
        change (·.note .warn (.droppedPreserved name e))
        handOver failed rest ns
      else
        letGo (Snapshot.leasesAll rest ++ Value.leasesAll ns.values)
        throw { code := .preserve, cause := some e.exception }

/-- Ends a session: what was preserved, and the report of the failure that ended it. -/
def exit (c : Nat) (failure : Option Exception) : Work CrossError (Namespace × Option Failure) := do
  let session ← leave c
  match session.stage with
  | .idle => throw (.other "session not entered")
  | .entered _ _ =>
    let preserved ← handOver failure.isSome session.preserved.entries {}
    return (preserved, failure.map Failure.capture)

end Work
end MonitoredVm
