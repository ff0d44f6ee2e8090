import MonitoredVm.Monitoring.Event

/-!
# Tool masks by event

For each of the first `n` event ids, the tools that have the event enabled.
-/

namespace MonitoredVm

/-- Tool masks of the events with ids below `n`. -/
structure Monitors (n : Nat) where
  masks : Vector ToolMask n
  deriving DecidableEq, Repr

namespace Monitors
variable {n : Nat}

/-- The mask of the event with this id, empty for ids out of the table. -/
def mask (m : Monitors n) (id : Nat) : ToolMask := (m.masks[id]?).getD 0

/-- The table with a given mask for each id. -/
def ofFn (f : Nat → ToolMask) : Monitors n := ⟨Vector.ofFn fun i => f i⟩

def none : Monitors n := ofFn fun _ => 0

instance : Inhabited (Monitors n) := ⟨none⟩

def isEmpty (m : Monitors n) : Bool := m.masks.all (· == 0)

def isShared (m : Monitors n) : Bool := m.masks.any fun tools => decide (1 < tools.tools.length)

/-- The tools of `a` that `b` lacks, event by event. -/
def sub (a b : Monitors n) : Monitors n := ofFn fun e => (a.mask e).without (b.mask e)

def inter (a b : Monitors n) : Monitors n := ofFn fun e => a.mask e &&& b.mask e

def clearTool (m : Monitors n) (tool : Nat) : Monitors n := ofFn fun e => (m.mask e).without (ToolMask.single tool)

def eventsFor (m : Monitors n) (tool : Nat) : EventSet :=
  (List.range n).foldl (fun s e => if (m.mask e).has tool then s ||| BitVec.twoPow 32 e else s) 0

/-- Enables exactly `events` for one tool. -/
def setEvents (m : Monitors n) (tool : Nat) (events : EventSet) : Monitors n :=
  ofFn fun e =>
    if events.getLsbD e then m.mask e ||| ToolMask.single tool else (m.mask e).without (ToolMask.single tool)

end Monitors

/-- The masks of one code object, for the local events. -/
abbrev LocalMonitors := Monitors 11

/-- The masks that hold for every code object, for the ungrouped events. -/
abbrev GlobalMonitors := Monitors 16

def LocalMonitors.get (m : LocalMonitors) (e : Event) : ToolMask := m.mask e.id

/-- The tools an event goes to; the C events go by the mask of `CALL`. -/
def GlobalMonitors.get (m : GlobalMonitors) (e : Event) : ToolMask := m.mask e.maskEvent.id

/-- The global masks of the local events, merged with those of one code object. -/
def GlobalMonitors.union (m : GlobalMonitors) (own : LocalMonitors) : LocalMonitors :=
  Monitors.ofFn fun e => m.mask e ||| own.mask e

end MonitoredVm
