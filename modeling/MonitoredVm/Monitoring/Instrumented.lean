import MonitoredVm.Bytecode.Slot
import MonitoredVm.Monitoring.History
import MonitoredVm.Monitoring.LineTable

/-!
# Instrumented code

The mutable side of a code object: its slots, its live units and, once a tool has taken an interest, the
tables that say which tools to call where. A table exists only from the time it is needed: the tool table
once two tools share an event, the line table once `LINE` is active, the line and instruction tool tables
once these are active while some event is shared. Without a table the active masks hold at every unit.
-/

namespace MonitoredVm

/-- The two slots that report the directions of a branch. -/
structure BranchSite where
  left : Option Nat
  right : Option Nat
  deriving DecidableEq, Repr, Inhabited

namespace Code

def isAt (c : Code) (i : Nat) (op : Opcode) : Bool := decide (i < c.size) && c.opcodeAt i == op

/-- The source of the branch that the instruction at `i` closes or decides, with the slots that report it. -/
def branchSiteAt? (c : Code) (i : Nat) : Option (Nat × BranchSite) :=
  let next := c.next i
  match c.opcodeAt i with
  | .popJumpIfFalse | .popJumpIfTrue | .popJumpIfNone | .popJumpIfNotNone =>
    some (i, ⟨if c.isAt next .notTaken then some next else none, some i⟩)
  | .forIter => some (i, ⟨some i, (c.jumpTarget i).filter (c.isAt · .popIter)⟩)
  | .endAsyncFor =>
    (subtract? next (c.oparg i)).map fun source =>
      (source, ⟨if c.isAt (source + 1) .notTaken then some (source + 1) else none, some i⟩)
  | _ => none

/-- The slots that report the branch decided at `source`; of several claimants the last one counts. -/
def branchSite? (c : Code) (source : Nat) : Option BranchSite :=
  (((c.offsetsFrom 0).filterMap c.branchSiteAt?).reverse.find? (·.1 == source)).map (·.2)

end Code

/-- The other slot of a branch, with its event, when a callback for `BRANCH` disables the branch. -/
def Call.sibling? (c : Call) (code : Code) : Option (Nat × Event) :=
  match c.callable, c.reached && c.disables with
  | .branch _ right, true =>
    (code.branchSite? c.args.offset).bind fun site =>
      if right then site.left.map (·, .branchLeft) else site.right.map (·, .branchRight)
  | _, _ => none

/-- Which tools watch a code object, and where. -/
structure MonitoringData where
  /-- Events enabled for this code object alone. -/
  own : LocalMonitors := Monitors.none
  /-- Events instrumented: global and own. -/
  active : LocalMonitors := Monitors.none
  tools : Option (Array ToolMask) := none
  lines : Option LineTable := none
  lineTools : Option (Array ToolMask) := none
  instructionTools : Option (Array ToolMask) := none
  /-- Per tool, the stamp under which its own events were enabled. -/
  stamps : Vector Nat 8 := Vector.replicate 8 0
  deriving Repr

instance : Inhabited MonitoringData := ⟨{}⟩

namespace Layer

def armed : Layer → Slot → Bool
  | .opcode, s => s.instrumented
  | .line, s => s.line
  | .instruction, s => s.instruction

def table : Layer → MonitoringData → Option (Array ToolMask)
  | .opcode, d => d.tools
  | .line, d => d.lineTools
  | .instruction, d => d.instructionTools

/-- Changes the tool masks of this layer, if there are any. -/
def mapTable (f : Array ToolMask → Array ToolMask) : Layer → MonitoringData → MonitoringData
  | .opcode, d => { d with tools := d.tools.map f }
  | .line, d => { d with lineTools := d.lineTools.map f }
  | .instruction, d => { d with instructionTools := d.instructionTools.map f }

end Layer

/-- The counter that a changed instruction starts over with. -/
def warmupCounter : Nat := 0x11

inductive SlotChange where
  | instrumented (op : Opcode) (offset : Nat)
  | restored (op : Opcode) (offset : Nat)
  deriving DecidableEq, Repr, Inhabited

/-- The mutable side of a code object. -/
structure CodeState where
  units : Array CodeUnit
  slots : Array Slot
  data : Option MonitoringData := none
  /-- The engine version the slots were last brought in line with. -/
  version : Nat := 0
  /-- Changes not yet reported, oldest first. -/
  changes : List SlotChange := []
  /-- What happened so far, the latest first. -/
  history : List Happening := []
  deriving Inhabited

namespace CodeState

/-- The state of a code object that nothing watches. -/
def ofCode (code : Code) : CodeState where
  units := code.units
  slots := code.units.map fun u => { base := Opcode.ofByte u.code }

def slot (s : CodeState) (i : Nat) : Slot := (s.slots[i]?).getD ⟨.cache, false, false, false⟩

def setSlot (s : CodeState) (i : Nat) (slot : Slot) : CodeState := { s with slots := s.slots.setIfInBounds i slot }

def modifySlot (s : CodeState) (i : Nat) (f : Slot → Slot) : CodeState := s.setSlot i (f (s.slot i))

def modifyData (s : CodeState) (f : MonitoringData → MonitoringData) : CodeState := { s with data := s.data.map f }

/-- The counter of the instruction at `i`, if it has caches. -/
def counter (s : CodeState) (code : Code) (i : Nat) : Option Nat :=
  if (code.opcodeAt i).caches = 0 then none else (s.units[i + 1]?).map CodeUnit.counter

/-- Starts the counter of the instruction at `i` over. -/
def resetCounter (s : CodeState) (i : Nat) (op : Opcode) : CodeState :=
  if op.caches = 0 then s else { s with units := s.units.setIfInBounds (i + 1) (CodeUnit.ofCounter warmupCounter) }

def instrument (s : CodeState) (i : Nat) : CodeState :=
  let slot := s.slot i
  if slot.instrumented then s
  else
    let s := (s.setSlot i { slot with instrumented := true }).resetCounter i slot.base
    { s with changes := s.changes ++ [.instrumented slot.base i] }

def restore (s : CodeState) (i : Nat) : CodeState :=
  let slot := s.slot i
  if slot.instrumented then
    let s := (s.setSlot i { slot with instrumented := false }).resetCounter i slot.base
    { s with changes := s.changes ++ [.restored slot.base i] }
  else s

def maskIn (table : Array ToolMask) (i : Nat) : ToolMask := (table[i]?).getD 0

def removeIn (table : Array ToolMask) (i : Nat) (tools : ToolMask) : Array ToolMask :=
  table.setIfInBounds i ((maskIn table i).without tools)

def addIn (table : Array ToolMask) (i : Nat) (tools : ToolMask) : Array ToolMask :=
  table.setIfInBounds i (maskIn table i ||| tools)

/-- Taking `tools` out at `i` leaves none, by the table or, without one, by the active mask. -/
def leavesNone (table : Option (Array ToolMask)) (active : ToolMask) (i : Nat) (tools : ToolMask) : Bool :=
  match table with
  | some table => (maskIn table i).without tools == 0
  | none => active &&& tools == active

def arm (s : CodeState) (l : Layer) (i : Nat) : CodeState :=
  match l with
  | .opcode => s.instrument i
  | .line => s.modifySlot i Slot.withLine
  | .instruction => s.modifySlot i Slot.withInstruction

/-- Has the slot at `i` no longer report on a layer. -/
def disarm (s : CodeState) (l : Layer) (i : Nat) : CodeState :=
  match l with
  | .opcode => s.restore i
  | .line => s.modifySlot i Slot.withoutLine
  | .instruction => s.modifySlot i Slot.withoutInstruction

/-- Takes `tools` out of `event` on a layer at `i`; the slot stops reporting with the last one. -/
def remove (s : CodeState) (l : Layer) (i : Nat) (event : Event) (tools : ToolMask) : CodeState :=
  match s.data with
  | none => s
  | some d =>
    let s' := s.modifyData (l.mapTable (removeIn · i tools))
    if leavesNone (l.table d) (LocalMonitors.get d.active event) i tools then s'.disarm l i else s'

/-- Puts `tools` into the event of a layer at `i`. -/
def add (s : CodeState) (l : Layer) (i : Nat) (tools : ToolMask) : CodeState :=
  (s.modifyData (l.mapTable (addIn · i tools))).arm l i

/-- Takes note of an answer. A tool that disables is taken out where the event fired, and with it, for a callback
registered for `BRANCH`, out of the other direction. -/
def heed (s : CodeState) (code : Code) (c : Call) : CodeState :=
  let tools := ToolMask.single c.args.tool
  let s := { s with history := .answered c :: s.history }
  let s := match c.sibling? code with
    | some (slot, event) => s.remove .opcode slot event tools
    | none => s
  if c.disables && c.args.event.isLocal then s.remove c.layer c.slot c.args.event tools else s

def startsLine (s : CodeState) (i : Nat) : Bool := ((s.data.bind (·.lines)).map (·.startsLine i)).getD false

/-- The tools to call for `event` fired from slot `i`. -/
def toolsAt (s : CodeState) (globals : GlobalMonitors) (i : Nat) (event : Event) : ToolMask :=
  let event := event.maskEvent
  if event.isLocal then
    match s.data with
    | none => 0
    | some d =>
      match d.tools with
      | some table => maskIn table i
      | none => LocalMonitors.get d.active event
  else GlobalMonitors.get globals event

/-- The tools to call for the overlay event `event` at `i`, by the table or the masks now enabled. -/
def overlayTools (d : MonitoringData) (table : Option (Array ToolMask)) (globals : GlobalMonitors) (i : Nat)
    (event : Event) : ToolMask :=
  match table with
  | some table => maskIn table i
  | none => GlobalMonitors.get globals event ||| LocalMonitors.get d.own event

/-- The tool table that agrees with the instrumented slots. -/
def toolTable (s : CodeState) (code : Code) (active : LocalMonitors) : Array ToolMask :=
  (code.offsetsFrom 0).foldl (fun table i =>
      match (code.opcodeAt i).event? (code.oparg i) with
      | some event => if (s.slot i).instrumented then table.setIfInBounds i (LocalMonitors.get active event) else table
      | none => table)
    (Array.replicate code.size 0)

/-- Drops the own events of tools cleared since they were enabled. -/
def dropStale (own : LocalMonitors) (stamps versions : Vector Nat 8) : LocalMonitors :=
  ((List.range 8).filter fun t => stamps[t]? != versions[t]?).foldl Monitors.clearTool own

/-- The table a layer without one gets when the active events change from `active` to `all`: none as long as no event is
shared. -/
def newTable? (s : CodeState) (code : Code) (active all : LocalMonitors) (l : Layer) : Option (Array ToolMask) :=
  if all.isShared then
    match l with
    | .opcode => some (s.toolTable code active)
    | .line =>
      if LocalMonitors.get all .line = 0 then none else some (Array.replicate code.size (LocalMonitors.get all .line))
    | .instruction => if LocalMonitors.get all .instruction = 0 then none else some (Array.replicate code.size 0)
  else none

/-- The data with every table that the events now enabled call for, and these events; nothing if the line table is
needed and cannot be built. -/
def updated? (s : CodeState) (code : Code) (globals : GlobalMonitors) (versions : Vector Nat 8) :
    MonitoringData × Option LocalMonitors :=
  let d := s.data.getD {}
  let own := dropStale d.own d.stamps versions
  let all := GlobalMonitors.union globals own
  let d := { d with own, tools := d.tools <|> s.newTable? code d.active all .opcode }
  let lines := if LocalMonitors.get all .line = 0 then d.lines else d.lines <|> LineTable.build code
  if LocalMonitors.get all .line ≠ 0 ∧ lines.isNone then (d, none)
  else
    ({ d with
        lines
        lineTools := d.lineTools <|> s.newTable? code d.active all .line
        instructionTools := d.instructionTools <|> s.newTable? code d.active all .instruction }, some all)

/-- Applies a change of opcode events at every offset. -/
def updateOpcodes (s : CodeState) (code : Code) (change : Alignment) (offsets : List Nat) : CodeState :=
  offsets.foldl (fun s i =>
      match (code.opcodeAt i).event? (code.oparg i) with
      | none => s
      | some event =>
        let gone := LocalMonitors.get change.removed event
        let new := LocalMonitors.get change.added event
        let s := if gone != 0 then s.remove .opcode i event gone else s
        if new != 0 then s.add .opcode i new else s)
    s

/-- Takes `tools` out of `event` on a layer at every offset. -/
def removeAll (s : CodeState) (l : Layer) (event : Event) (tools : ToolMask) (offsets : List Nat) : CodeState :=
  if tools = 0 then s else offsets.foldl (fun s i => s.remove l i event tools) s

/-- Puts `tools` into the event of a layer at every offset. -/
def addAll (s : CodeState) (l : Layer) (tools : ToolMask) (offsets : List Nat) : CodeState :=
  if tools = 0 then s else offsets.foldl (fun s i => s.add l i tools) s

/-- Applies a change of active events to every traceable slot. Overlays are removed before any is added, so that no
removal undoes an addition. -/
def update (s : CodeState) (code : Code) (change : Alignment) : CodeState :=
  let offsets := code.offsetsFrom code.firstTraceable
  let starts := offsets.filter s.startsLine
  let carriers := offsets.filter fun i => !(code.opcodeAt i).skipsInstructionOverlay
  let s := s.updateOpcodes code change offsets
  let s := s.removeAll .line .line (LocalMonitors.get change.removed .line) starts
  let s := s.removeAll .instruction .instruction (LocalMonitors.get change.removed .instruction) carriers
  let s := s.addAll .line (LocalMonitors.get change.added .line) starts
  s.addAll .instruction (LocalMonitors.get change.added .instruction) carriers

end CodeState
end MonitoredVm
