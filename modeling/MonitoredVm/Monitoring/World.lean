import MonitoredVm.Bytecode.Assembler
import MonitoredVm.Log
import MonitoredVm.Monitoring.Engine
import MonitoredVm.Monitoring.Tools

/-!
# The monitored world

An engine with the code objects it may instrument, the callbacks that can be registered and the threads that
run. This module holds the control operations: they change tools, events and code objects and deliver
nothing, so callbacks may use them freely.
-/

namespace MonitoredVm

mutual

/-- A callback: one of the ready-made tools, or a scripted one that on its `n`-th call performs the `n`-th list of
operations and answers the `n`-th verdict, the last one from then on. -/
inductive Callback where
  | scripted (verdicts : List Verdict) (actions : List (List Control)) (calls : Nat)
  | recorder (r : Recorder)
  | coverage (c : Coverage)
  | profile (p : Profile)
  | eventLog (l : EventLog)

/-- A control operation; code objects and callbacks are given by index. -/
inductive Control where
  | useTool (tool : Nat) (name : String)
  | clearTool (tool : Nat)
  | freeTool (tool : Nat)
  | getTool (tool : Nat)
  | register (tool : Nat) (events : EventSet) (callback : Option Nat)
  | setEvents (tool : Nat) (events : EventSet)
  | getEvents (tool : Nat)
  | setLocal (code tool : Nat) (events : EventSet)
  | getLocal (code tool : Nat)
  | restart (times : Nat)
  | allEvents
  | install (tool : Nat) (name : String) (events : EventSet) (callback : Nat)
  | instrument (code : Nat)
  | versions
  | dump (code : Nat)
  | addCallback (c : Callback)
  | dropCode (code : Nat)
  | addCode (spec : CodeSpec)
  | describe
  | report (callback : Nat) (take : Bool) (qualname : String)

end

instance : Inhabited Callback := ⟨.scripted [] [] 0⟩
instance : Inhabited Control := ⟨.versions⟩

/-- The instrumentation of a code object at a glance. -/
structure Dump where
  version : Nat
  slots : List Slot
  counters : List Nat
  deriving Repr, Inhabited

/-- What a tool reports. -/
inductive Report where
  | recorded (events : List RecordedEvent)
  | taken (events : List RecordedEvent)
  | coverage (lines : List Nat) (branches : List (Nat × Nat))
  | profile (p : Profile)
  | nothing
  deriving Inhabited

inductive Reply where
  | done
  | failed (why : Abort)
  | toolName (name : Option String)
  | previous (callback : Option Nat)
  | events (s : EventSet)
  | enabled (table : List (Event × ToolMask))
  | versions (version lastRestart tracked : Nat)
  | dump (d : Option Dump)
  | index (n : Nat)
  | assembled (outcomes : List Assembly.Outcome)
  | text (s : String)
  | report (r : Report)
  deriving Inhabited

/-- An event as a scripted callback received it. -/
structure Delivery where
  callback : Nat
  args : EventArgs
  /-- The code object is still held. -/
  held : Bool
  /-- The answers to the operations performed, if any were given. -/
  did : Option (List Reply)
  deriving Inhabited

/-- The dispatch state of one thread. -/
structure Thread where
  /-- Positive while a callback or hook runs; nothing is delivered then. -/
  tracing : Nat := 0
  /-- The event whose callback runs. -/
  current : Option Event := none
  pending : Option Exception := none
  deriving DecidableEq, Repr, Inhabited

structure CodeEntry where
  code : Code
  state : CodeState
  /-- Somebody outside the engine still refers to it. -/
  held : Bool := true
  /-- The engine keeps it in line. -/
  tracked : Bool := false
  deriving Inhabited

/-- What monitoring writes to the log. -/
inductive MonitoringNote where
  | cleared (tool version : Nat)
  | eventsSet (tool : Nat) (events : EventSet) (version : Nat)
  | localEventsSet (tool : Nat) (qualname : String) (events : EventSet)
  | restarted (version : Nat)
  | instrumenting (qualname : String) (version : Nat) (restarted : Bool)
  | changed (r : SlotChange)
  | event (text : String)
  deriving Repr, Inhabited

def MonitoringNote.message : MonitoringNote → String
  | .cleared tool version => "cleared tool " ++ toString tool ++ ", monitoring version " ++ hexText version
  | .eventsSet tool events version =>
    "tool " ++ toString tool ++ " events set to " ++ hexText events.toNat ++ ", monitoring version " ++ hexText version
  | .localEventsSet tool qualname events =>
    "tool " ++ toString tool ++ " local events on " ++ qualname ++ " set to " ++ hexText events.toNat
  | .restarted version => "events restarted, monitoring version " ++ hexText version
  | .instrumenting qualname version again =>
    "instrumenting " ++ qualname ++ " at version " ++ hexText version ++ (if again then " after restart" else "")
  | .changed (.instrumented op i) => "instrumented " ++ op.name ++ " at " ++ toString i
  | .changed (.restored op i) => "de-instrumented " ++ op.name ++ " at " ++ toString i
  | .event text => text

/-- An engine and everything it works on. -/
structure World where
  engine : Engine := {}
  codes : Array CodeEntry := #[]
  callbacks : Array Callback := #[]
  threads : List (Nat × Thread) := []
  /-- The code object a delivery is under way for; it stays alive meanwhile. -/
  dispatching : Option Nat := none
  /-- What scripted callbacks received, oldest first. -/
  deliveries : List Delivery := []
  log : Log MonitoringNote := {}
  deriving Inhabited

/-- An operation on the world. What was done before it aborts stays done. -/
abbrev Act := ExceptT Abort (StateM World)

namespace World

def entry (w : World) (i : Nat) : CodeEntry := (w.codes[i]?).getD default

def modifyEntry (w : World) (i : Nat) (f : CodeEntry → CodeEntry) : World :=
  { w with codes := w.codes.setIfInBounds i (f (w.entry i)) }

def modifyState (w : World) (i : Nat) (f : CodeState → CodeState) : World :=
  w.modifyEntry i fun e => { e with state := f e.state }

/-- The code object is alive: held, or a delivery is under way for it. -/
def isAlive (w : World) (i : Nat) : Bool := (w.entry i).held || w.dispatching == some i

/-- Indexes of the code objects the engine keeps in line. -/
def trackedCodes (w : World) : List Nat :=
  (List.range w.codes.size).filter fun i => (w.entry i).tracked && w.isAlive i

def note (w : World) (level : Level) (n : MonitoringNote) : World := { w with log := w.log.add level n }

def addCode (w : World) (spec : CodeSpec) : World × List Assembly.Outcome :=
  let (code, outcomes) := spec.assemble
  ({ w with codes := w.codes.push { code, state := CodeState.ofCode code } }, outcomes)

/-- Moves the changes of a code object to the log. -/
def reportChanges (w : World) (i : Nat) : World :=
  let changes := (w.entry i).state.changes
  { w with log := w.log.addAll .trace (changes.map .changed) }.modifyState i fun s => { s with changes := [] }

/-- The instrumentation of a code object, unless it was dropped. -/
def dump? (w : World) (i : Nat) : Option Dump :=
  let e := w.entry i
  let offsets := e.code.offsetsFrom 0
  if e.held then
    some { version := e.state.version, slots := offsets.map e.state.slot
           counters := offsets.filterMap (e.state.counter e.code) }
  else none

/-- Version, last restart and number of code objects kept in line. -/
def versions (w : World) : Nat × Nat × Nat := (w.engine.version, w.engine.lastRestart, w.trackedCodes.length)

def thread (w : World) (t : Nat) : Thread := (w.threads.lookup t).getD {}

def setThread (w : World) (t : Nat) (th : Thread) : World :=
  { w with threads := (t, th) :: w.threads.filter (·.1 != t) }

end World

namespace Act

/-- Runs a check or an engine operation, aborting if it is refused. -/
def accept {α : Type} : Except MonitoringError α → Act α
  | .ok a => pure a
  | .error e => throw (.refused e)

def setEngine (e : Engine) : Act Unit := modify fun w => { w with engine := e }

/-- Brings a code object in line with the engine. -/
def force (i : Nat) : Act Unit := do
  let w ← get
  let entry := w.entry i
  let (state, outcome) := w.engine.force entry.code entry.state
  let w := w.modifyState i fun _ => state
  match outcome with
  | .ok none => set w
  | .ok (some restarted) =>
    set ((w.note .debug (.instrumenting entry.code.qualname w.engine.version restarted)).reportChanges i)
  | .error why =>
    set w
    throw why

/-- Brings a code object in line unless it is at the engine's version. -/
def forceIfStale (i : Nat) : Act Unit := do
  let w ← get
  if (w.entry i).state.version ≠ w.engine.version then force i

def forceAll : Act Unit := do
  (← get).trackedCodes.forM forceIfStale

/-- Has the engine keep a code object in line from now on. -/
def track (i : Nat) : Act Unit := modify (·.modifyEntry i fun e => { e with tracked := true })

/-- Brings a code object up to the engine's version. -/
def instrument (i : Nat) : Act Unit := do
  let w ← get
  if (w.entry i).state.version ≠ w.engine.version then
    track i
    force i

/-- Removes everything a tool has registered or enabled. -/
def clear (tool : Nat) : Act Unit := do
  let e ← accept ((← get).engine.clearTool tool)
  setEngine e
  modify (·.note .debug (.cleared tool e.version))
  forceAll

def clearTool (tool : Nat) : Act Unit := do
  accept (Engine.checkTool tool)
  if ((← get).engine.tool tool).name.isSome then clear tool

/-- Clears a tool and gives its id back. -/
def freeTool (tool : Nat) : Act Unit := do
  accept (Engine.checkTool tool)
  if ((← get).engine.tool tool).name.isSome then clear tool
  modify fun w => { w with engine := w.engine.modifyTool tool fun t => { t with name := none } }

def useTool (tool : Nat) (name : String) : Act Unit := do
  setEngine (← accept ((← get).engine.useTool tool name))

def register (tool : Nat) (events : EventSet) (callback : Option Nat) : Act (Option Nat) := do
  let (e, previous) ← accept ((← get).engine.register tool events callback)
  setEngine e
  return previous

def setEvents (tool : Nat) (events : EventSet) : Act Unit := do
  match ← accept ((← get).engine.setEvents tool events) with
  | (_, none) => return
  | (events, some e) =>
    setEngine e
    modify (·.note .debug (.eventsSet tool events e.version))
    forceAll

/-- Enables exactly `events` for a tool on one code object. -/
def setLocal (i tool : Nat) (events : EventSet) : Act Unit := do
  let w ← get
  let code := (w.entry i).code
  let events ← accept (w.engine.checkLocalEvents code tool events)
  track i
  let d := (w.entry i).state.data.getD {}
  let d := { d with stamps := d.stamps.setIfInBounds tool (w.engine.tool tool).stamp }
  if d.own.eventsFor tool = events then
    modify (·.modifyState i fun s => { s with data := some d })
  else
    modify (·.modifyState i fun s => { s with data := some { d with own := d.own.setEvents tool events } })
    modify (·.note .debug (.localEventsSet tool code.qualname events))
    force i

def getLocal (i tool : Nat) : Act EventSet := do
  accept (Engine.checkTool tool)
  return ((((← get).entry i).state.data.map (·.own.eventsFor tool)).getD 0)

/-- Starts events over: every place disabled by a callback is enabled again. -/
def restart : Act Unit := do
  let e ← accept (← get).engine.restart
  setEngine e
  modify (·.note .debug (.restarted e.version))
  forceAll

/-- Takes a tool id, registers a callback for every event given and enables them. -/
def install (tool : Nat) (name : String) (events : EventSet) (callback : Nat) : Act Unit := do
  useTool tool name
  (EventSet.events events).forM fun event => do
    let _ ← register tool (EventSet.single event) (some callback)
  setEvents tool events

end Act

namespace World

/-- Runs an operation; the answer says if it aborted. -/
def answer {α : Type} (w : World) (act : Act α) (reply : α → Reply) : World × Reply :=
  match (act.run).run w with
  | (.ok a, w) => (w, reply a)
  | (.error why, w) => (w, .failed why)

/-- Restarts a number of times, one by one, and answers the last outcome. A fault ends it. -/
def restartEach : Nat → World → Reply → World × Reply
  | 0, w, last => (w, last)
  | n + 1, w, _ =>
    match w.answer Act.restart fun _ => .done with
    | (w, .failed .lineTooFar) => (w, .failed .lineTooFar)
    | (w, last) => restartEach n w last

/-- Restarts a number of times and answers the last outcome. Where no code object is kept in line and no note is kept,
this is a matter of the engine alone. -/
def restartTimes (n : Nat) (w : World) : World × Reply :=
  if w.trackedCodes.isEmpty && decide (w.log.threshold.grade < Level.debug.grade) then
    let (engine, outcome) := w.engine.restartTimes n (.ok ())
    ({ w with engine }, match outcome with
      | .ok () => .done
      | .error e => .failed (.refused e))
  else restartEach n w .done

/-- What a tool reports; taking the events of a recorder empties it. -/
def report (w : World) (i : Nat) (take : Bool) (qualname : String) : World × Report :=
  match w.callbacks[i]? with
  | some (.recorder r) =>
    if take then
      ({ w with callbacks := w.callbacks.setIfInBounds i (.recorder { r with events := [] }) }, .taken r.events)
    else (w, .recorded r.events)
  | some (.coverage c) => (w, .coverage (c.linesOf qualname) (c.branchesOf qualname))
  | some (.profile p) => (w, .profile p)
  | _ => (w, .nothing)

def control (w : World) : Control → World × Reply
  | .useTool tool name => w.answer (Act.useTool tool name) fun _ => .done
  | .clearTool tool => w.answer (Act.clearTool tool) fun _ => .done
  | .freeTool tool => w.answer (Act.freeTool tool) fun _ => .done
  | .getTool tool => w.answer (Act.accept (w.engine.toolName tool)) .toolName
  | .register tool events callback => w.answer (Act.register tool events callback) .previous
  | .setEvents tool events => w.answer (Act.setEvents tool events) fun _ => .done
  | .getEvents tool => w.answer (Act.accept (w.engine.events tool)) .events
  | .setLocal code tool events => w.answer (Act.setLocal code tool events) fun _ => .done
  | .getLocal code tool => w.answer (Act.getLocal code tool) .events
  | .restart times => restartTimes times w
  | .allEvents => (w, .enabled w.engine.allEvents)
  | .install tool name events callback => w.answer (Act.install tool name events callback) fun _ => .done
  | .instrument code => w.answer (Act.instrument code) fun _ => .done
  | .versions => (w, .versions w.versions.1 w.versions.2.1 w.versions.2.2)
  | .dump code => (w, .dump (w.dump? code))
  | .addCallback c => ({ w with callbacks := w.callbacks.push c }, .index w.callbacks.size)
  | .dropCode code => (w.modifyEntry code fun e => { e with held := false }, .done)
  | .addCode spec =>
    let (w, outcomes) := w.addCode spec
    (w, .assembled outcomes)
  | .describe => (w, .text w.engine.describe)
  | .report callback take qualname =>
    let (w, r) := w.report callback take qualname
    (w, .report r)

def controls (w : World) : List Control → World × List Reply
  | [] => (w, [])
  | c :: rest =>
    let (w, reply) := w.control c
    let (w, replies) := w.controls rest
    (w, reply :: replies)

end World
end MonitoredVm
