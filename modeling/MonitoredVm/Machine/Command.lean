import MonitoredVm.Machine.Host

/-!
# Commands

Everything that can be asked of a machine, as data. The values in the answer and those the command was given
are let go when it is done, and then the leases nothing stands on any more end. The values a command is given
may come from scripts run beforehand (`Machine.define`); what these let go of is settled first.
-/

namespace MonitoredVm

/-- An interpreter: a registered one by id, one the host holds, or one found before, registered still or not. -/
inductive Target where
  | id (n : Int)
  | held (name : String)
  | found (n : Int)
  deriving DecidableEq, Repr, Inhabited

/-- What to do with a snapshot. -/
inductive Purpose where
  | value
  | script
  | release
  deriving DecidableEq, Repr, Inhabited

/-- A request to the machine; `c` is the context it is made on. -/
inductive Command where
  | newContext
  | create (config : Option ConfigSource) (requiresRefs : Bool)
  | newInterpreter (config : Option ConfigSource) (whence : Whence)
  | createOwned (config : Option ConfigSource) (name : String)
  | reference (id : Int) (name : String)
  | dropHandle (name : String)
  | destroy (c : Nat) (id : Int) (restrict : Bool)
  | listAll (readyOnly : Bool)
  | current (c : Nat)
  | main
  | setGlobals (c : Nat) (id : Int) (updates : Namespace) (restrict : Bool)
  | runString (c : Nat) (id : Int) (source : String) (shared : Namespace) (restrict : Bool)
  | runFunction (c : Nat) (id : Int) (f : Value) (shared : Namespace) (restrict : Bool)
  | exec (c : Nat) (id : Int) (code : Runnable) (shared : Namespace) (restrict : Bool)
  | execScript (c : Nat) (id : Int) (source filename : String) (shared : Namespace) (restrict : Bool)
  | call (c : Nat) (id : Int) (callee : Value) (args : List Value) (kwargs : Namespace) (preserveExc restrict : Bool)
      (keep : Option String)
  | isRunning (c : Nat) (id : Int) (restrict : Bool)
  | getConfig (c : Nat) (id : Option Int) (restrict : Bool)
  | whence (id : Int)
  | incref (c : Nat) (id : Int) (link restrict : Bool)
  | decref (c : Nat) (id : Int) (restrict : Bool)
  | setPending (c : Nat) (e : Exception)
  | capture (c : Nat) (e : Option Exception)
  | inspect (target : Target)
  | repr (target : Target) (name : String)
  | hold (v : Value) (name : Option String)
  | dropHeld (name : String)
  | holdInterpreter (id : Int) (name : String)
  | useTool (target : Target) (name : String)
  | describe
  | registerFunction (name : String) (f : HostFunction)
  | snapshot (target : Target) (v : Value) (full : Bool) (purpose : Purpose) (keep : Option String)
  | snapshotScript (target : Target) (source filename : String) (purpose : Purpose)
  | pack (target : Target) (callee : Value) (args : List Value) (kwargs : Namespace) (name : String)
  | clearCall (name : String)
  | beginSession (c : Nat)
  | endSession (c : Nat)
  | enter (c : Nat) (target : Target) (shared : Namespace)
  | sessionTarget (c : Nat)
  | sessionExec (c : Nat) (source filename : String)
  | sessionCall (c : Nat) (callee : Value) (args : List Value) (kwargs : Namespace) (keep : Option String)
  | callPending (c : Nat) (name : String)
  | getGlobal (c : Nat) (name : String)
  | setGlobal (c : Nat) (name : String) (v : Value)
  | sessionGlobals (c : Nat)
  | preserve (c : Nat) (name : String) (v : Value)
  | exit (c : Nat) (failure : Option Exception)

/-- Why a command failed. -/
inductive Trouble where
  | interp (e : InterpError)
  | cross (e : CrossError)
  | raised (e : Exception)
  | script (e : CompileError)
  | config (e : ConfigFault)
  | monitoring (e : MonitoringError)
  deriving Inhabited

/-- How code that stopped is reported inside a session. -/
def Trouble.ofHalt : Halt → Trouble
  | .raised e => .raised e
  | .exhausted => .interp .exhausted

inductive SnapshotResult where
  | value (r : Except CrossError Value)
  | script (r : Except CrossError Script)
  | released

inductive Response where
  | done
  | failed (e : Trouble)
  | number (n : Int)
  | flag (b : Bool)
  | text (s : Option String)
  | handle (id : Int) (refs : Nat)
  | origin (id : Int) (whence : Whence)
  | origins (list : List (Int × Whence))
  | whence (w : Whence)
  | failure (f : Option Failure)
  | called (v : Value) (f : Option Failure)
  | config (c : Config)
  | interpreter (i : Interpreter)
  | value (v : Value)
  | snapshot (s : Snapshot) (exports : Nat) (result : SnapshotResult)
  | packed (c : PendingCall)
  | target (id : Option Int)
  | pendingResult (r : Response) (packed : Bool)
  | binding (v : Option Value)
  | replaced (v : Option Value)
  | globals (ns : Namespace)
  | exited (preserved : Namespace) (f : Option Failure)
  deriving Inhabited

def Response.leases : Response → List Lease
  | .called v _ => v.leases
  | .interpreter i => Value.leasesAll i.globals.values
  | .value v => v.leases
  | .snapshot s _ _ => s.leases
  | .packed c => c.leases
  | .pendingResult r _ => r.leases
  | .binding v => v.elim [] Value.leases
  | .replaced v => v.elim [] Value.leases
  | .globals ns => Value.leasesAll ns.values
  | .exited preserved _ => Value.leasesAll preserved.values
  | _ => []

namespace Command

/-- The values a command is given, in the order they are let go of in the end. -/
def values : Command → List Value
  | .create config _ | .newInterpreter config _ | .createOwned config _ => config.elim [] ConfigSource.values
  | .setGlobals _ _ updates _ => updates.values
  | .runString _ _ _ shared _ => shared.values
  | .runFunction _ _ f shared _ => f :: shared.values
  | .exec _ _ (.function f) shared _ => f :: shared.values
  | .exec _ _ _ shared _ => shared.values
  | .execScript _ _ _ _ shared _ => shared.values
  | .call _ _ callee args kwargs _ _ _ => kwargs.values ++ args ++ [callee]
  | .hold v _ => [v]
  | .registerFunction _ (.const v) => [v]
  | .snapshot _ v _ _ _ => [v]
  | .pack _ callee args kwargs _ => kwargs.values ++ args ++ [callee]
  | .enter _ _ shared => shared.values
  | .sessionCall _ callee args kwargs _ => kwargs.values ++ args ++ [callee]
  | .setGlobal _ _ v => [v]
  | .preserve _ _ v => [v]
  | _ => []

end Command

namespace Machine

def heldValue (m : Machine) (name : String) : Value := (m.held.get? name).getD .none

def globalValue (m : Machine) (id : Int) (name : String) : Value :=
  ((m.get? id).bind fun i => i.globals.get? name).getD .none

/-- Runs a script outside any interpreter, in a namespace of its own, and takes the value it binds to a name. -/
def define (m : Machine) (s : Script) (name : String) : Machine × Value :=
  let (_, ns, m) := s.exec m.host {} m
  (m.letGo (Value.leasesAll ns.values), (ns.get? name).getD .none)

/-- Holds a value, if it is to be kept; one held under the same name is let go then. -/
def keep (m : Machine) (name : Option String) (v : Value) : Machine :=
  match name with
  | some name => { m with held := m.held.insert name v }.letGo ((m.held.get? name).elim [] Value.leases)
  | none => m

def dropHeld (m : Machine) (name : String) : Machine :=
  { m with held := m.held.erase name }.letGo ((m.held.get? name).elim [] Value.leases)

/-- Makes a native function known; the value that one of the same name kept is let go. -/
def register (m : Machine) (name : String) (f : HostFunction) : Machine :=
  { m with functions := m.functions.insert name f }.letGo (match m.functions.get? name with
    | some (.const v) => v.leases
    | _ => [])

def dropHandle (m : Machine) (h : Handle) : Machine := m.dropRef h.id h.owning

/-- Keeps a handle; one kept under the same name is dropped then. -/
def keepHandle (m : Machine) (name : String) (h : Handle) : Machine :=
  let old := m.handles.get? name
  let m := { m with handles := m.handles.insert name h }
  match old with
  | some old => m.dropHandle old
  | none => m

def targetOf (m : Machine) : Target → Except InterpError Interpreter
  | .id id => (m.get? id).elim (.error (.notFound id)) .ok
  | .held name =>
    match (m.heldInterpreters.get? name).bind m.find? with
    | some i => .ok i
    | none => .error (.notFound 0)
  | .found id => (m.find? id).elim (.error (.notFound id)) .ok

/-- Runs work and words its answer. -/
def answer {ε α : Type} (m : Machine) (work : Work ε α) (fail : ε → Trouble) (reply : α → Response) :
    Machine × Response :=
  match work m with
  | (.ok a, m) => (m, reply a)
  | (.error e, m) => (m, .failed (fail e))

/-- Runs work that fails like an operation on interpreters. -/
def operate {α : Type} (m : Machine) (work : Work InterpError α) (reply : α → Response) : Machine × Response :=
  m.answer work .interp reply

/-- Builds the configuration of a command and goes on with it. -/
def withConfig (m : Machine) (source : Option ConfigSource) (k : Option Config → Machine × Response) :
    Machine × Response :=
  match source with
  | none => k none
  | some source =>
    match source.build with
    | .ok config => k (some config)
    | .error e => (m, .failed (.config e))

def withTarget (m : Machine) (target : Target) (k : Interpreter → Machine × Response) : Machine × Response :=
  match m.targetOf target with
  | .ok i => k i
  | .error e => (m, .failed (.interp e))

def withScript (m : Machine) (source filename : String) (k : Script → Machine × Response) : Machine × Response :=
  match Script.compile source filename with
  | .ok s => k s
  | .error e => (m, .failed (.script e))

/-- Carries out what a snapshot was taken for. -/
def useSnapshot (m : Machine) (i : Interpreter) (s : Snapshot) (purpose : Purpose) (name : Option String) :
    Machine × Response :=
  let exports := ((m.find? i.id).map (·.exports)).getD 0
  match purpose with
  | .release => (m, .snapshot s exports .released)
  | .script => (m, .snapshot s exports (.script s.toScript))
  | .value =>
    let r := s.toValue m.knows
    let m := match r with
      | .ok v => m.keep name v
      | .error _ => m
    (m, .snapshot s exports (.value r))

/-- Performs a command, leases aside. -/
def act (m : Machine) : Command → Machine × Response
  | .newContext => ({ m with contexts := m.contexts ++ [({} : Context)] }, .number m.contexts.length)
  | .create config requiresRefs =>
    m.withConfig config fun config => m.operate (Work.create config requiresRefs) .number
  | .newInterpreter config whence =>
    m.withConfig config fun config => m.operate (Work.newInterpreter config whence) .number
  | .createOwned config name =>
    m.withConfig config fun config =>
      match Work.createOwned config m with
      | (.ok h, m) => (m.keepHandle name h, .handle h.id (((m.find? h.id).map (·.refs)).getD 0))
      | (.error e, m) => (m, .failed (.interp e))
  | .reference id name =>
    match Work.reference id m with
    | (.ok h, m) => (m.keepHandle name h, .handle h.id (((m.find? h.id).map (·.refs)).getD 0))
    | (.error e, m) => (m, .failed (.interp e))
  | .dropHandle name =>
    match m.handles.get? name with
    | some h => ({ m with handles := m.handles.erase name }.dropHandle h, .number h.id)
    | none => (m, .done)
  | .destroy c id restrict => m.operate (Work.destroy c id restrict) fun _ => .done
  | .listAll readyOnly =>
    (m, .origins ((m.registered.filter fun i => !readyOnly || i.isReady).map fun i => (i.id, i.whence)))
  | .current c =>
    let i := (m.find? (m.context c).current).getD default
    (m, .origin i.id i.whence)
  | .main =>
    let i := (m.get? 0).getD default
    (m, .origin i.id i.whence)
  | .setGlobals c id updates restrict => m.operate (Work.setGlobals c id updates restrict) fun _ => .done
  | .runString c id source shared restrict => m.operate (Work.runString m.host c id source shared restrict) .failure
  | .runFunction c id f shared restrict => m.operate (Work.runFunction m.host c id f shared restrict) .failure
  | .exec c id code shared restrict => m.operate (Work.execIn m.host c id code shared restrict) .failure
  | .execScript c id source filename shared restrict =>
    m.withScript source filename fun s => m.operate (Work.execIn m.host c id (.script s) shared restrict) .failure
  | .call c id callee args kwargs preserveExc restrict name =>
    match Work.callIn m.host c id callee args kwargs preserveExc restrict m with
    | (.ok (v, f), m) => (m.keep name v, .called v f)
    | (.error e, m) => (m, .failed (.interp e))
  | .isRunning c id restrict =>
    m.operate (Work.resolve c (some id) restrict true "check if running for") fun i => .flag i.isRunning
  | .getConfig c id restrict =>
    m.operate (Work.resolve c id restrict false "get the config of") fun i => .config i.config
  | .whence id => m.withTarget (.id id) fun i => (m, .whence i.whence)
  | .incref c id link restrict => m.operate (Work.incref c id link restrict) fun _ => .done
  | .decref c id restrict => m.operate (Work.decref c id restrict) fun _ => .done
  | .setPending c e => (m.modifyContext c fun ctx => { ctx with pending := some e }, .done)
  | .capture _ (some e) => (m, .failure (some (Failure.capture e)))
  | .capture c none =>
    (m.modifyContext c fun ctx => { ctx with pending := none }, .failure ((m.context c).pending.map Failure.capture))
  | .inspect target => m.withTarget target fun i => (m, .interpreter i)
  | .repr target name => m.withTarget target fun i => (m, .text ((i.globals.get? name).map Value.repr))
  | .hold v name => (m.keep name v, .value v)
  | .dropHeld name => (m.dropHeld name, .done)
  | .holdInterpreter id name =>
    m.withTarget (.id id) fun i => ({ m with heldInterpreters := m.heldInterpreters.insert name i.id }, .done)
  | .useTool target name =>
    m.withTarget target fun i =>
      match i.engine.useTool 0 name with
      | .ok engine => (m.modifyInterpreter i.id fun i => { i with engine }, .done)
      | .error e => (m, .failed (.monitoring e))
  | .describe => (m, .text (some m.describe))
  | .registerFunction name f => (m.register name f, .done)
  | .snapshot target v full purpose name =>
    m.withTarget target fun i =>
      match m.snapshot i.id v full with
      | (m, .ok s) => m.useSnapshot i s purpose name
      | (m, .error e) => (m, .failed (.cross e))
  | .snapshotScript target source filename purpose =>
    m.withTarget target fun i =>
      m.withScript source filename fun s => m.useSnapshot i ⟨i.id, .script s⟩ purpose none
  | .pack target callee args kwargs name =>
    m.withTarget target fun i =>
      match Work.pack i.id callee args kwargs m with
      | (.ok call, m) => ({ m with calls := m.calls.insert name call }, .packed call)
      | (.error e, m) => (m, .failed (.raised e))
  | .clearCall name => ({ m with calls := m.calls.insert name {} }, .flag false)
  | .beginSession c => (m.setSession c (some {}), .done)
  | .endSession c => ((Work.abandon c m).2, .done)
  | .enter c target shared => m.withTarget target fun i => m.answer (Work.enter c i.id shared) .cross fun _ => .done
  | .sessionTarget c =>
    (m, .target (match (m.session c).stage with
      | .entered target _ => some target
      | .idle => none))
  | .sessionExec c source filename =>
    m.withScript source filename fun s => m.answer (Work.exec m.host c s) Trouble.ofHalt fun _ => .done
  | .sessionCall c callee args kwargs name =>
    match Work.call m.host c callee args kwargs m with
    | (.ok v, m) => (m.keep name v, .value v)
    | (.error halt, m) => (m, .failed (Trouble.ofHalt halt))
  | .callPending c name =>
    let pending := (m.calls.get? name).getD {}
    let ((pending, r), m) := Work.callPending m.host c pending { m with calls := m.calls.erase name }
    ({ m with calls := m.calls.insert name pending }, .pendingResult (match r with
      | .ok v => .value v
      | .error halt => .failed (Trouble.ofHalt halt)) pending.isPacked)
  | .getGlobal c name =>
    m.answer (Work.target c) .cross fun id => .binding ((m.globals id).get? name)
  | .setGlobal c name v =>
    match Work.target c m with
    | (.ok id, m) => (m.bind id name v, .replaced ((m.globals id).get? name))
    | (.error e, m) => (m, .failed (.cross e))
  | .sessionGlobals c => m.answer (Work.target c) .cross fun id => .globals (m.globals id)
  | .preserve c name v => m.answer (Work.preserve c name v) .cross fun _ => .done
  | .exit c failure => m.answer (Work.exit c failure) .cross fun (preserved, f) => .exited preserved f

/-- Performs a command and ends the leases that nothing stands on before and afterwards. -/
def perform (m : Machine) (command : Command) : Machine × Response :=
  let given := Value.leasesAll command.values
  let (m, response) := (m.settle given).act command
  ((m.letGo (response.leases ++ given)).settle [], response)

end Machine
end MonitoredVm
