import MonitoredVm.Monitoring.Error
import MonitoredVm.Monitoring.Instrumented
import MonitoredVm.Text.Inspected

/-!
# The monitoring engine

Tools reserve an id, register a callback per event and enable events for all code. Every change of the
enabled events raises the version; a code object whose version differs is brought in line before it runs. A
restart raises the version twice, so that no code object is ever at the version of a restart.
-/

namespace MonitoredVm

/-- The state of one tool id. -/
structure Tool where
  name : Option String := none
  /-- The version at which the tool was last cleared. -/
  stamp : Nat := 0
  callbacks : Vector (Option Callable) 19 := Vector.replicate 19 none
  deriving DecidableEq, Repr

namespace Tool

instance : Inhabited Tool := ⟨{}⟩

def callback (t : Tool) (event : Event) : Option Callable := (t.callbacks[event.id]?).join

def setCallback (t : Tool) (event : Event) (c : Option Callable) : Tool :=
  { t with callbacks := t.callbacks.setIfInBounds event.id c }

end Tool

/-- The interpreter-wide monitoring state. -/
structure Engine where
  globals : GlobalMonitors := Monitors.none
  tools : Vector Tool 8 := Vector.replicate 8 {}
  version : Nat := 0
  lastRestart : Nat := 0
  deriving DecidableEq, Repr

namespace Engine

instance : Inhabited Engine := ⟨{}⟩

/-- How much the version grows on a change. -/
def increment : Nat := 0x100

def reservedFrom : Nat := 6

def tool (e : Engine) (t : Nat) : Tool := (e.tools[t]?).getD {}

def modifyTool (e : Engine) (t : Nat) (f : Tool → Tool) : Engine :=
  { e with tools := e.tools.setIfInBounds t (f (e.tool t)) }

/-- Per tool, the version at which it was last cleared. -/
def stamps (e : Engine) : Vector Nat 8 := e.tools.map (·.stamp)

/-- The version after `v`, while it fits in 32 bits. -/
def succVersion (v : Nat) : Except MonitoringError Nat :=
  if v + increment < UInt32.size then .ok (v + increment) else .error .overflow

/-- Refuses the reserved tool ids and those above. -/
def checkTool (t : Nat) : Except MonitoringError Unit :=
  if t < reservedFrom then .ok () else .error (.invalidTool t)

def checkInUse (e : Engine) (t : Nat) : Except MonitoringError Unit :=
  if (e.tool t).name.isSome then .ok () else .error (.toolNotInUse t)

def useTool (e : Engine) (t : Nat) (name : String) : Except MonitoringError Engine := do
  checkTool t
  if (e.tool t).name.isSome then throw (.toolInUse t)
  return e.modifyTool t fun tool => { tool with name := some name }

def toolName (e : Engine) (t : Nat) : Except MonitoringError (Option String) := do
  checkTool t
  return (e.tool t).name

/-- Removes every callback and every global event of a tool, and stamps it. Its own events on code objects are
dropped when these are next brought in line. -/
def clearTool (e : Engine) (t : Nat) : Except MonitoringError Engine := do
  let cleared ← if e.globals.eventsFor t = 0 then pure e.version else succVersion e.version
  let version ← succVersion cleared
  let e := e.modifyTool t fun tool => { name := tool.name, stamp := version }
  return { e with globals := e.globals.setEvents t 0, version }

def singleEvent (events : EventSet) : Except MonitoringError Event :=
  match (List.range 32).filter events.getLsbD with
  | [id] => (Event.ofId? id).elim (.error (.invalidEvent events)) .ok
  | _ => .error .severalEvents

/-- Registers a callback for one event and gives back the one it replaces. For `BRANCH` both directions are replaced
and the one on the left is given back. -/
def register (e : Engine) (t : Nat) (events : EventSet) (callback : Option Nat) :
    Except MonitoringError (Engine × Option Nat) := do
  checkTool t
  match ← singleEvent events with
  | .branch =>
    let previous := (e.tool t).callback .branchLeft
    let e := e.modifyTool t fun tool =>
      (tool.setCallback .branchRight (callback.map (.branch · true))).setCallback .branchLeft
        (callback.map (.branch · false))
    return (e, previous.map Callable.callback)
  | event =>
    let previous := (e.tool t).callback event
    return (e.modifyTool t (·.setCallback event (callback.map .direct)), previous.map Callable.callback)

def unregister (e : Engine) (t : Nat) (event : Event) : Engine := e.modifyTool t (·.setCallback event none)

def callable (e : Engine) (t : Nat) (event : Event) : Option Callable := (e.tool t).callback event

def events (e : Engine) (t : Nat) : Except MonitoringError EventSet := do
  checkTool t
  return e.globals.eventsFor t

/-- Folds the C events into `CALL`, on which they depend, and `BRANCH` into its directions. -/
def normalize (events : EventSet) : Except MonitoringError EventSet :=
  let needed := EventSet.cEvents ||| EventSet.single .call
  if events &&& EventSet.cEvents ≠ 0 ∧ events &&& needed ≠ needed then .error .dependentEvents
  else
    let events := events &&& ~~~EventSet.cEvents
    if events.has .branch then .ok (events &&& ~~~EventSet.single .branch ||| EventSet.directions) else .ok events

/-- Enables exactly `events` for a tool. Nothing comes back when they were enabled already. -/
def setEvents (e : Engine) (t : Nat) (events : EventSet) : Except MonitoringError (EventSet × Option Engine) := do
  checkTool t
  if 1 <<< 19 ≤ events.toNat then throw (.invalidEventSet events)
  let events ← normalize events
  e.checkInUse t
  if e.globals.eventsFor t = events then return (events, none)
  let version ← succVersion e.version
  return (events, some { e with globals := e.globals.setEvents t events, version })

/-- Accepts a set of events for one code object, in normal form. -/
def checkLocalEvents (e : Engine) (code : Code) (t : Nat) (events : EventSet) : Except MonitoringError EventSet := do
  checkTool t
  let events ← normalize events
  if 1 <<< 11 ≤ events.toNat then throw (.invalidLocalEventSet events)
  if code.isShim then throw (.shimCode code.name)
  e.checkInUse t
  return events

/-- Makes every code object start over. -/
def restart (e : Engine) : Except MonitoringError Engine := do
  let restart ← succVersion e.version
  let version ← succVersion restart
  return { e with lastRestart := restart, version }

/-- Restarts up to `n` times and tells the last outcome; once refused, a restart stays refused. -/
def restartTimes : Nat → Engine → Except MonitoringError Unit → Engine × Except MonitoringError Unit
  | 0, e, last => (e, last)
  | n + 1, e, _ =>
    match e.restart with
    | .ok e => restartTimes n e (.ok ())
    | .error why => (e, .error why)

/-- The ungrouped events that some tool has enabled globally. -/
def allEvents (e : Engine) : List (Event × ToolMask) :=
  (Event.all.filter (·.isUngrouped)).filterMap fun event =>
    let tools := GlobalMonitors.get e.globals event
    if tools = 0 then none else some (event, tools)

/-- Brings a code object in line. Tells whether slots were changed and, if so, whether after a restart. -/
def force (e : Engine) (code : Code) (s : CodeState) : CodeState × Except Abort (Option Bool) :=
  if code.noMonitoring then (s, .ok none)
  else
    match s.updated? code e.globals e.stamps with
    | (d, none) => ({ s with data := some d }, .error .lineTooFar)
    | (d, some all) =>
      let change : Alignment := ⟨d.active, all, decide (s.version < e.lastRestart)⟩
      let s := { s with data := some { d with active := all }, history := .aligned change :: s.history }
      if change.removed.isEmpty && change.added.isEmpty then ({ s with version := e.version }, .ok none)
      else ({ s.update code change with version := e.version }, .ok (some change.restarted))

def listed (items : List String) : String := "[" ++ ", ".intercalate items ++ "]"

def describe (e : Engine) : String :=
  let tools := e.tools.toList
  let callables := tools.map fun t =>
    listed (t.callbacks.toList.map fun c => if c.isSome then "Some(<callback>)" else "None")
  let names := tools.map fun t => match t.name with
    | none => "None"
    | some name => "Some(" ++ Text.inspected name ++ ")"
  "Monitoring \x7b state: MonitoringState \x7b global: GlobalMonitors \x7b tools: " ++
    listed (e.globals.masks.toList.map fun m => toString m.toNat) ++ " \x7d, callables: " ++ listed callables ++
    ", tool_names: " ++ listed names ++ ", tool_versions: " ++ listed (tools.map fun t => toString t.stamp) ++
    ", version: " ++ toString e.version ++ ", last_restart_version: " ++ toString e.lastRestart ++ " \x7d, .. \x7d"

end Engine
end MonitoredVm
