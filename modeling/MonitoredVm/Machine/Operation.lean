import MonitoredVm.Machine.Session

/-!
# Operations on interpreters

What a context can do: create and end interpreters, count references, and run code or make calls in another
interpreter. Code that fails there does not fail the operation; its failure is reported.
-/

namespace MonitoredVm

/-- Code to run in another interpreter. -/
inductive Runnable where
  | source (text : String)
  | script (s : Script)
  /-- A function without parameters, whose body is run. -/
  | function (f : Value)
  deriving Repr, Inhabited

/-- Code as it crosses: text is compiled on the other side. -/
inductive Cargo where
  | source (text : String)
  | script (s : Script)
  deriving Repr, Inhabited

/-- Code made ready to cross. -/
def Runnable.load (operation : String) : Runnable → Except Exception Cargo
  | .source text => .ok (.source text)
  | .script s => .ok (.script s)
  | .function (.function f) =>
    match FunctionOf.bodyScript? f with
    | some s => .ok (.script s)
    | none => .error (.new .notShareableError
        ("function '" ++ f.qualname ++ "' takes arguments and cannot be run as a script"))
  | .function other =>
    .error (.typeError (operation ++ "() argument 2 must be a function, not " ++ other.typeName))

def Cargo.unload : Cargo → Except Halt Script
  | .source text => (Script.compile text "<string>").mapError fun e => .raised (.new .syntaxError e.summary)
  | .script s => .ok s

namespace Work

/-- The interpreter an operation is for: registered, ready if need be, and made by this library if `restrict`.
Without an id it is the current one. -/
def resolve (c : Nat) (id : Option Int) (restrict ready : Bool) (operation : String) :
    Work InterpError Interpreter := do
  let m ← get
  let found := match id with
    | none => some ((m.find? (m.context c).current).getD default)
    | some id => m.get? id
  match found with
  | none => throw (.notFound (id.getD 0))
  | some i =>
    if ready && !i.isReady then throw (.notReady operation id)
    else if restrict && i.whence != .stdlib then throw (.unrecognized operation id)
    else return i

def newInterpreter (config : Option Config) (whence : Whence) : Work InterpError Int := do
  match (← get).newInterpreter (config.getD Config.isolated) whence with
  | .error e => throw e
  | .ok (m, id) =>
    set m
    return id

/-- Creates an interpreter; with `requiresRefs` it ends with its last reference. -/
def create (config : Option Config) (requiresRefs : Bool) : Work InterpError Int := do
  let id ← newInterpreter config .stdlib
  if requiresRefs then change (·.modifyInterpreter id fun i => { i with requiresRefs := true })
  return id

/-- Creates an interpreter with an owning reference. -/
def createOwned (config : Option Config) : Work InterpError Handle := do
  let id ← newInterpreter config .stdlib
  change (·.addRef id true)
  return { id, owning := true }

/-- A reference that never ends the interpreter. -/
def reference (id : Int) : Work InterpError Handle := do
  if ((← get).get? id).isNone then throw (.notFound id)
  change (·.addRef id false)
  return { id, owning := false }

/-- Ends an interpreter that is neither current nor running. -/
def destroy (c : Nat) (id : Int) (restrict : Bool) : Work InterpError Unit := do
  let i ← resolve c (some id) restrict false "destroy"
  if i.id = ((← get).context c).current then throw .destroyCurrent
  else if i.isRunning then throw .running
  else change (·.endInterpreter id)

/-- Enters an interpreter in a new session, which is over if that fails. -/
def engage (c : Nat) (target : Int) (shared : Namespace) : Work InterpError Unit := do
  change (·.setSession c (some {}))
  match ← liftM (enter c target shared).run with
  | .ok () => return
  | .error e =>
    abandon c
    throw (.cross e)

/-- Ends a session after code has run in it, reporting the exception it raised. -/
def disengage (c : Nat) (outcome : Except Halt Unit) : Work InterpError (Namespace × Option Failure) :=
  match outcome with
  | .ok () => convert .cross (exit c none)
  | .error (.raised e) => convert .cross (exit c (some e))
  | .error .exhausted => do
    abandon c
    throw .exhausted

/-- Binds values in the namespace of an interpreter. -/
def setGlobals (c : Nat) (id : Int) (updates : Namespace) (restrict : Bool) : Work InterpError Unit := do
  let i ← resolve c (some id) restrict true "update __main__ for"
  if updates.isEmpty then throw (.raised (.new .valueError "arg 2 must be a non-empty dict"))
  engage c i.id updates
  let _ ← disengage c (.ok ())

/-- Runs code in an interpreter and reports its failure. -/
def runCargo (h : Natives Machine) (c : Nat) (id : Int) (cargo : Cargo) (shared : Namespace) :
    Work InterpError (Option Failure) := do
  engage c id shared
  let outcome : Except Halt Unit ← match cargo.unload with
    | .error halt => pure (.error halt)
    | .ok script => liftM (exec h c script).run
  return (← disengage c outcome).2

def execIn (h : Natives Machine) (c : Nat) (id : Int) (code : Runnable) (shared : Namespace) (restrict : Bool) :
    Work InterpError (Option Failure) := do
  let i ← resolve c (some id) restrict true "exec code for"
  match code.load "exec" with
  | .error e => throw (.raised e)
  | .ok cargo => runCargo h c i.id cargo shared

/-- Compiles and runs source text in an interpreter. -/
def runString (h : Natives Machine) (c : Nat) (id : Int) (source : String) (shared : Namespace) (restrict : Bool) :
    Work InterpError (Option Failure) := do
  let i ← resolve c (some id) restrict true "run a string in"
  runCargo h c i.id (.source source) shared

def runFunction (h : Natives Machine) (c : Nat) (id : Int) (f : Value) (shared : Namespace) (restrict : Bool) :
    Work InterpError (Option Failure) := do
  let i ← resolve c (some id) restrict true "run a function in"
  match (Runnable.function f).load "run_func" with
  | .error e => throw (.raised e)
  | .ok cargo => runCargo h c i.id cargo shared

def part (source : Int) (v : Value) : Work Exception Snapshot := convert CrossError.exception (snapshot source v true)

/-- Packs a call that is made from `source`. -/
def pack (source : Int) (callee : Value) (args : List Value) (kwargs : Namespace) : Work Exception PendingCall := do
  if !callee.isFunction then throw (.typeError ("expected a callable, got " ++ callee.repr))
  let func ← part source callee
  let args ← if args.isEmpty then pure none else some <$> part source (.tuple args)
  let named := kwargs.entries.map fun (k, v) => (Value.str k, v)
  let kwargs ← if named.isEmpty then pure none else some <$> part source (.dict named)
  return { func := some func, args, kwargs }

/-- Makes a call in an interpreter: its value, or nothing and the report of its failure. With `preserveExc` the report
carries the exception. -/
def callIn (h : Natives Machine) (c : Nat) (id : Int) (callee : Value) (args : List Value) (kwargs : Namespace)
    (preserveExc restrict : Bool) : Work InterpError (Value × Option Failure) := do
  let i ← resolve c (some id) restrict true "make a call in"
  let pending ← convert .raised (pack ((← get).context c).current callee args kwargs)
  engage c i.id {}
  let (_, result) ← liftM (callPending h c pending)
  let outcome : Except Halt Unit ← match result with
    | .ok v => do
      match ← liftM (preserve c "result" v).run with
      | .ok () => pure (.ok ())
      | .error e => pure (.error (.raised e.exception))
    | .error (.raised e) => do
      if preserveExc then
        match ← liftM (preserve c "exc" (.exception e)).run with
        | .ok () => pure ()
        | .error e => change (·.note .debug (.notPreserved e))
      pure (.error (.raised e))
    | .error .exhausted => pure (.error .exhausted)
  let (preserved, failure) ← disengage c outcome
  let exception := match preserved.get? "exc" with
    | some (.exception e) => some e
    | _ => none
  return ((preserved.get? "result").getD .none, failure.map fun f => { f with exception })

/-- Adds a reference to an interpreter; with `link` the last one to go ends it. -/
def incref (c : Nat) (id : Int) (link restrict : Bool) : Work InterpError Unit := do
  let i ← resolve c (some id) restrict true "incref"
  change (·.addRef i.id link)

def decref (c : Nat) (id : Int) (restrict : Bool) : Work InterpError Unit := do
  let i ← resolve c (some id) restrict true "decref"
  change (·.dropRef i.id true)

end Work
end MonitoredVm
