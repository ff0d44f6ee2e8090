import MonitoredVm.Binary64.Round
import MonitoredVm.Bindings
import MonitoredVm.Monitoring.Event
import MonitoredVm.Text.Column
import MonitoredVm.Value

/-!
# Ready-made tools

A recorder keeps every event, a coverage tool the lines and branch directions reached, a profile counts, and
an event log writes a line per event. Each is a value that takes in one event at a time.
-/

namespace MonitoredVm

/-- What an event tells beyond its place. -/
inductive Payload where
  | none
  | value (v : Value)
  | call (callable : Value) (first : Option Value)
  | destination (offset : Nat)
  | exception (e : Exception)

instance : Inhabited Payload := ⟨.none⟩

def Payload.destination? : Payload → Option Nat
  | .destination offset => some offset
  | _ => Option.none

structure EventArgs where
  event : Event
  tool : Nat
  code : Nat
  qualname : String
  offset : Nat
  line : Option UInt32
  payload : Payload
  deriving Inhabited

/-- What a callback asks for. -/
inductive Verdict where
  | proceed
  /-- Stop delivering this event to this tool at this place. -/
  | disable
  | raise (e : Exception)
  deriving DecidableEq, Repr, Inhabited

/-- An event as a recorder keeps it. -/
structure RecordedEvent where
  tool : Nat
  event : Event
  qualname : String
  offset : Nat
  line : Option UInt32
  destination : Option Nat
  deriving DecidableEq, Repr, Inhabited

/-- Records events in order, up to a limit, and may disable one kind of event where it records it. -/
structure Recorder where
  limit : Option Nat := none
  disabling : Option Event := none
  events : List RecordedEvent := []
  deriving Repr, Inhabited

def Recorder.take (r : Recorder) (a : EventArgs) : Recorder × Verdict :=
  if r.limit.any (· ≤ r.events.length) then (r, .proceed)
  else
    let recorded : RecordedEvent := ⟨a.tool, a.event, a.qualname, a.offset, a.line, a.payload.destination?⟩
    ({ r with events := r.events ++ [recorded] }, if r.disabling = some a.event then .disable else .proceed)

/-- Puts a value in its place in an ascending list without repetition. -/
def insertSorted {α : Type} (lt : α → α → Bool) (x : α) : List α → List α
  | [] => [x]
  | y :: rest => if lt x y then x :: y :: rest else if lt y x then y :: insertSorted lt x rest else y :: rest

/-- Lines and branch directions reached, by qualified name. -/
structure Coverage where
  lines : Bindings (List Nat) := {}
  branches : Bindings (List (Nat × Nat)) := {}
  deriving Repr, Inhabited

namespace Coverage

def linesOf (c : Coverage) (qualname : String) : List Nat := (c.lines.get? qualname).getD []

def branchesOf (c : Coverage) (qualname : String) : List (Nat × Nat) := (c.branches.get? qualname).getD []

/-- Source first, then destination. -/
def pairLt (a b : Nat × Nat) : Bool := decide (a.1 < b.1) || (a.1 == b.1 && decide (a.2 < b.2))

/-- Takes note of a line or a branch direction and disables it where it was seen. -/
def take (c : Coverage) (a : EventArgs) : Coverage × Verdict :=
  let name := a.qualname
  match a.event, a.line, a.payload with
  | .line, some line, _ =>
    let lines := insertSorted (fun x y => decide (x < y)) line.toNat (c.linesOf name)
    ({ c with lines := c.lines.insert name lines }, .disable)
  | .branchLeft, _, .destination dest | .branchRight, _, .destination dest | .branch, _, .destination dest =>
    let branches := insertSorted pairLt (a.offset, dest) (c.branchesOf name)
    ({ c with branches := c.branches.insert name branches }, .disable)
  | _, _, _ => (c, .proceed)

end Coverage

/-- Counts of events by kind and of function starts by qualified name. -/
structure Profile where
  events : List (Event × Nat) := []
  starts : Bindings Nat := {}
  total : Nat := 0
  deriving Repr, Inhabited

namespace Profile

def bump (event : Event) : List (Event × Nat) → List (Event × Nat)
  | [] => [(event, 1)]
  | (e, n) :: rest => if e = event then (e, n + 1) :: rest else (e, n) :: bump event rest

def take (p : Profile) (a : EventArgs) : Profile :=
  let starts :=
    if a.event = .pyStart then p.starts.insert a.qualname ((p.starts.get? a.qualname).getD 0 + 1) else p.starts
  { events := bump a.event p.events, starts, total := p.total + 1 }

/-- Event counts, most frequent first, then by id. -/
def eventCounts (p : Profile) : List (Event × Nat) :=
  p.events.mergeSort fun a b => decide (b.2 < a.2) || (a.2 == b.2 && decide (a.1.id ≤ b.1.id))

/-- Start counts, most frequent first, then by name. -/
def startCounts (p : Profile) : List (String × Nat) :=
  p.starts.entries.mergeSort fun a b => decide (b.2 < a.2) || (a.2 == b.2 && decide (a.1 ≤ b.1))

/-- A share in percent with one decimal: a quotient and a product in floating point, then the nearest tenth, a half
going to the even neighbour. -/
def percent (count total : Nat) : String :=
  let share := ((Binary64.ofNat count).div (Binary64.ofNat total)).mul (Binary64.ofNat 100)
  let (num, den) := share.ratio
  let tenths := Binary64.divRound (num * 10) den
  toString (tenths / 10) ++ "." ++ toString (tenths % 10)

def text (p : Profile) : String :=
  let frequency := p.eventCounts.map fun (event, count) =>
    "  " ++ Text.padRight 20 event.name ++ " " ++ Text.padLeft 10 (toString count) ++ "  (" ++
      Text.padLeft 5 (percent count p.total) ++ "%)"
  let calls := p.startCounts.map fun (name, count) =>
    "  " ++ Text.padRight 30 name ++ " " ++ Text.padLeft 10 (toString count)
  let lines := ["=== Monitoring Profile ===", "Total events: " ++ toString p.total, "", "--- Event Frequency ---"] ++
    frequency ++ (if calls.isEmpty then [] else "" :: "--- Calls ---" :: calls)
  String.join (lines.map (· ++ "\n"))

end Profile

/-- Writes events to the log, up to a limit. -/
structure EventLog where
  limit : Option Nat := none
  count : Nat := 0
  deriving Repr, Inhabited

/-- The line for an event: its name, the code, the offset, then the line, destination or exception. -/
def EventLog.text (a : EventArgs) : String :=
  let place := Text.padRight 12 a.event.name ++ " " ++ a.qualname ++ " @" ++ toString a.offset
  match a.line, a.payload with
  | some line, _ => place ++ " line=" ++ toString line.toNat
  | none, .destination dest => place ++ " -> " ++ toString dest
  | none, .exception e => place ++ " " ++ e.summary
  | none, _ => place

/-- The line to write for an event, if the limit is not reached. -/
def EventLog.take (l : EventLog) (a : EventArgs) : EventLog × Option String :=
  if l.limit.any (· ≤ l.count) then (l, none) else ({ l with count := l.count + 1 }, some (text a))

end MonitoredVm
