import MonitoredVm.Monitoring.World

/-!
# Event dispatch

The dispatch loop reports each instruction it reaches. The tools to call are read once, before the first
callback runs; they are called from the highest id down, each with what it has registered at that time. A
callback that disables takes its tool out at the firing place only.
-/

namespace MonitoredVm

namespace World

def call (w : World) (i : Nat) (a : EventArgs) : World × Verdict :=
  let keep (c : Callback) : World := { w with callbacks := w.callbacks.setIfInBounds i c }
  match w.callbacks[i]? with
  | none => (w, .proceed)
  | some (.recorder r) =>
    let (r, verdict) := r.take a
    (keep (.recorder r), verdict)
  | some (.coverage c) =>
    let (c, verdict) := c.take a
    (keep (.coverage c), verdict)
  | some (.profile p) => (keep (.profile (p.take a)), .proceed)
  | some (.eventLog l) =>
    let (l, line) := l.take a
    let w := keep (.eventLog l)
    (match line with
      | some line => w.note .info (.event line)
      | none => w, .proceed)
  | some (.scripted verdicts actions calls) =>
    let held := (w.entry a.code).held
    let w := keep (.scripted verdicts actions (calls + 1))
    let (w, did) := match actions[calls]? with
      | some ops =>
        let (w, replies) := w.controls ops
        (w, some replies)
      | none => (w, none)
    ({ w with deliveries := w.deliveries ++ [{ callback := i, args := a, held, did }] },
      (verdicts[calls]?).getD (verdicts.getLast?.getD .proceed))

/-- What is registered reaches its callback. One direction of a `BRANCH` callback does so only while the deciding
instruction is instrumented: otherwise the other direction has disabled the branch. -/
def reaches (w : World) (c : Callable) (a : EventArgs) : Bool :=
  match c with
  | .direct _ => true
  | .branch _ _ =>
    let entry := w.entry a.code
    decide (a.offset < entry.code.size) && (entry.state.slot a.offset).isLayered

end World

namespace Act

/-- Calls what is registered, with the thread marked as running a callback. -/
def invoke (t : Nat) (layer : Layer) (slot : Nat) (c : Callable) (a : EventArgs) : Act Call := do
  let w ← get
  let th := w.thread t
  let reached := w.reaches c a
  let w := w.setThread t { th with tracing := th.tracing + 1, current := some a.event }
  let (w, verdict) := if reached then w.call c.callback a else (w, .disable)
  set (w.setThread t { w.thread t with tracing := (w.thread t).tracing - 1, current := th.current })
  return { layer, slot, callable := c, args := a, reached, verdict }

/-- Changes the state of a code object and reports its changes. -/
def changeState (i : Nat) (f : CodeState → CodeState) : Act Unit :=
  modify fun w => (w.modifyState i f).reportChanges i

/-- Taking `tools` out of the event fired at `i` touches a slot or table entry that does not exist. -/
def removalFaults (s : CodeState) (i : Nat) (event : Event) (tools : ToolMask) : Bool :=
  match s.data with
  | none => false
  | some d =>
    decide (s.slots.size ≤ i) &&
      (d.tools.isSome || LocalMonitors.get d.active event &&& tools == LocalMonitors.get d.active event)

/-- Acts on an answer. A tool that disables an event without a place loses its callback instead, and delivery ends, as it
does when a callback raises. -/
def settle (c : Call) : Act Unit := do
  let a := c.args
  let entry := (← get).entry a.code
  changeState a.code (·.heed entry.code c)
  match c.verdict with
  | .proceed => pure ()
  | .raise e => throw (.refused (.callback e))
  | .disable =>
    if a.event.isLocal then
      if removalFaults entry.state c.slot a.event (ToolMask.single a.tool) then throw .outOfRange
    else
      modify fun w => { w with engine := w.engine.unregister a.tool a.event }
      throw (.refused (.disableNotAllowed a.event))

/-- Delivers an event fired by a slot to tools in turn. -/
def deliver (t : Nat) (layer : Layer) (slot : Nat) (a : EventArgs) : List Nat → Act Unit
  | [] => pure ()
  | tool :: rest => do
    match (← get).engine.callable tool a.event with
    | none => pure ()
    | some c => settle (← invoke t layer slot c { a with tool })
    deliver t layer slot a rest

/-- Fires an event from the slot at `offset`, reported as `reported`. -/
def fireFrom (t : Nat) (event : Event) (i offset reported : Nat) (payload : Payload) : Act Unit := do
  let w ← get
  if 0 < (w.thread t).tracing then return
  let entry := w.entry i
  let tools := entry.state.toolsAt w.engine.globals offset event
  let a : EventArgs :=
    { event, tool := 0, code := i, qualname := entry.code.qualname, offset := reported, line := none, payload }
  deliver t .opcode offset a tools.tools

def fire (t : Nat) (event : Event) (i offset : Nat) (payload : Payload) : Act Unit :=
  fireFrom t event i offset offset payload

/-- Fires a jump or branch direction from the slot at `offset`, decided at `source`. -/
def fireJump (t : Nat) (event : Event) (i offset source dest : Nat) : Act Nat := do
  fireFrom t event i offset source (.destination dest)
  return dest

/-- Fires an event about the pending exception. It is pending again afterwards, unless delivery ended early. -/
def fireProtected (t : Nat) (event : Event) (i offset : Nat) : Act Unit := do
  let th := (← get).thread t
  match th.pending with
  | none => throw (.refused (.noPendingException event))
  | some e =>
    modify (·.setThread t { th with pending := none })
    fireFrom t event i offset offset (.exception e)
    modify fun w => w.setThread t { w.thread t with pending := some e }

def slotAt (i offset : Nat) : Act Slot := do
  let s := ((← get).entry i).state
  if offset < s.slots.size then return s.slot offset else throw .outOfRange

/-- The line to report at `offset` coming from `prev`: none if that is on the same line, unless it is a `RESUME`. -/
def lineToReport (entry : CodeEntry) (offset : Nat) (prev : Option Nat) : Option UInt32 := do
  let d ← entry.state.data
  let lines ← d.lines
  let line ← lines.line entry.code offset
  let repeated := prev.any fun p =>
    lines.line entry.code p == some line && entry.code.opcodeAt p != .resume
  if repeated then none else some line

/-- Fires `LINE` at a line start. Answers the opcode that runs next. -/
def fireLine (t : Nat) (i offset : Nat) (prev : Option Nat) : Act Opcode := do
  let w ← get
  let entry := w.entry i
  if (w.thread t).tracing = 0 then
    match lineToReport entry offset prev, entry.state.data with
    | some line, some d =>
      let tools := CodeState.overlayTools d d.lineTools w.engine.globals offset .line
      let a : EventArgs :=
        { event := .line, tool := 0, code := i, qualname := entry.code.qualname, offset, line := some line,
          payload := .none }
      deliver t .line offset a tools.tools
    | _, _ => pure ()
  return (← slotAt i offset).runs

/-- Fires `INSTRUCTION` at an offset. Answers the opcode the overlay hands over to. -/
def fireInstruction (t : Nat) (i offset : Nat) : Act Opcode := do
  let next := (← slotAt i offset).underInstruction
  let w ← get
  let entry := w.entry i
  if (w.thread t).tracing = 0 then
    match entry.state.data with
    | some d =>
      let tools := CodeState.overlayTools d d.instructionTools w.engine.globals offset .instruction
      let a : EventArgs :=
        { event := .instruction, tool := 0, code := i, qualname := entry.code.qualname, offset, line := none,
          payload := .none }
      deliver t .instruction offset a tools.tools
    | none => pure ()
  return next

/-- What an instrumented instruction reports: its event, the offset that decided it and the payload. A conditional
instruction reports only the direction it is itself the slot of. -/
def opcodeEvent? (code : Code) (offset : Nat) (prev : Option Nat) (taken : Bool) : Option (Event × Nat × Payload) :=
  let next := code.next offset
  let source := prev.getD offset
  let target := (code.jumpTarget offset).getD next
  match code.opcodeAt offset with
  | .resume => some (if code.oparg offset = 0 then .pyStart else .pyResume, offset, .none)
  | .returnValue => some (.pyReturn, offset, .value .none)
  | .yieldValue => some (.pyYield, offset, .value .none)
  | .call | .callKw | .callFunctionEx | .loadSuperAttr => some (.call, offset, .call .none none)
  | .endFor | .endSend => some (.stopIteration, offset, .value .none)
  | .jumpForward | .jumpBackward => some (.jump, offset, .destination target)
  | .popJumpIfFalse | .popJumpIfTrue | .popJumpIfNone | .popJumpIfNotNone =>
    if taken then some (.branchRight, offset, .destination target) else none
  | .forIter => if taken then none else some (.branchLeft, offset, .destination next)
  | .notTaken => some (.branchLeft, source, .destination next)
  | .popIter => some (.branchRight, source, .destination next)
  | .endAsyncFor => some (.branchRight, next - code.oparg offset, .destination next)
  | _ => none

/-- Fires the event of an instrumented instruction. Answers the compiled opcode. -/
def fireOpcode (t : Nat) (i offset : Nat) (prev : Option Nat) (taken : Bool) : Act Opcode := do
  let slot ← slotAt i offset
  if slot.instrumented then
    match opcodeEvent? ((← get).entry i).code offset prev taken with
    | some (event, reported, payload) => fireFrom t event i offset reported payload
    | none => pure ()
  return slot.base

/-- The monitoring side of one instruction: the code object is brought up to date, then the overlays fire, then the
opcode's own event. Answers the compiled opcode, which is to be executed. -/
def step (t : Nat) (i offset : Nat) (prev : Option Nat) (taken : Bool) : Act Opcode := do
  instrument i
  if (← slotAt i offset).instruction then
    let _ ← fireInstruction t i offset
  if (← slotAt i offset).line then
    let _ ← fireLine t i offset prev
  fireOpcode t i offset prev taken

end Act

inductive ThreadOp where
  | step (code offset : Nat) (prev : Option Nat) (taken : Bool)
  /-- Steps along a path of offsets, each with whether its branch is taken; without one, over every instruction. -/
  | run (code : Nat) (path : Option (List (Nat × Bool)))
  | fire (code : Nat) (event : Event) (offset : Nat) (payload : Payload)
  | fireJump (code : Nat) (event : Event) (offset source dest : Nat)
  | fireProtected (code : Nat) (event : Event) (offset : Nat)
  | fireLine (code offset : Nat) (prev : Option Nat)
  | fireInstruction (code offset : Nat)
  | setPending (e : Exception)
  | takePending
  | inspect
  deriving Inhabited

inductive ThreadReply where
  | done
  | failed (why : Abort)
  | opcode (op : Opcode)
  | offset (n : Nat)
  | ran (steps : List ThreadReply)
  | guarded (why : Option MonitoringError) (pending : Option Exception)
  | pending (e : Option Exception)
  | thread (t : Thread)
  deriving Inhabited

/-- The fault that a reply reports: a failure that is no refusal. -/
def ThreadReply.fault? : ThreadReply → Option Abort
  | .failed (.refused _) => none
  | .failed why => some why
  | _ => none

namespace World

/-- Runs an operation on a code object, which stays alive meanwhile. -/
def dispatch {α : Type} (w : World) (code : Nat) (act : Act α) (reply : α → ThreadReply) : World × ThreadReply :=
  let (r, w) := (act.run).run { w with dispatching := some code }
  ({ w with dispatching := none }, match r with
    | .ok a => reply a
    | .error why => .failed why)

/-- Steps along a path. A refusal does not end it; a fault does, and is then all the run tells. -/
def runPath (w : World) (t code : Nat) (prev : Option Nat) : List (Nat × Bool) → World × Except Abort (List ThreadReply)
  | [] => (w, .ok [])
  | (offset, taken) :: rest =>
    let (w, reply) := w.dispatch code (Act.step t code offset prev taken) .opcode
    match reply.fault? with
    | some why => (w, .error why)
    | none =>
      let (w, replies) := w.runPath t code (some offset) rest
      (w, replies.map (reply :: ·))

def threadOp (w : World) (t : Nat) : ThreadOp → World × ThreadReply
  | .step code offset prev taken => w.dispatch code (Act.step t code offset prev taken) .opcode
  | .run code path =>
    let path := path.getD (((w.entry code).code.offsetsFrom 0).map (·, false))
    match w.runPath t code none path with
    | (w, .ok steps) => (w, .ran steps)
    | (w, .error why) => (w, .failed why)
  | .fire code event offset payload => w.dispatch code (Act.fire t event code offset payload) fun _ => .done
  | .fireJump code event offset source dest =>
    w.dispatch code (Act.fireJump t event code offset source dest) .offset
  | .fireProtected code event offset =>
    match w.dispatch code (Act.fireProtected t event code offset) fun _ => .done with
    | (w, .failed (.refused e)) => (w, .guarded (some e) (w.thread t).pending)
    | (w, .failed why) => (w, .failed why)
    | (w, _) => (w, .guarded none (w.thread t).pending)
  | .fireLine code offset prev => w.dispatch code (Act.fireLine t code offset prev) .opcode
  | .fireInstruction code offset => w.dispatch code (Act.fireInstruction t code offset) .opcode
  | .setPending e => (w.setThread t { w.thread t with pending := some e }, .done)
  | .takePending => (w.setThread t { w.thread t with pending := none }, .pending (w.thread t).pending)
  | .inspect => (w, .thread (w.thread t))

end World

/-- An operation on the world: control, of a thread, or several inside a thread's trace hook. -/
inductive Operation where
  | control (c : Control)
  | thread (t : Nat) (op : ThreadOp)
  | tracing (t : Nat) (ops : List Operation)
  deriving Inhabited

inductive Answer where
  | control (r : Reply)
  | thread (r : ThreadReply)
  | traced (answers : List Answer)
  deriving Inhabited

mutual

def World.perform (w : World) : Operation → World × Answer
  | .control c =>
    let (w, r) := w.control c
    (w, .control r)
  | .thread t op =>
    let (w, r) := w.threadOp t op
    (w, .thread r)
  | .tracing t ops =>
    let w := w.setThread t { w.thread t with tracing := (w.thread t).tracing + 1 }
    let (w, answers) := w.performAll ops
    (w.setThread t { w.thread t with tracing := (w.thread t).tracing - 1 }, .traced answers)

def World.performAll (w : World) : List Operation → World × List Answer
  | [] => (w, [])
  | op :: rest =>
    let (w, answer) := w.perform op
    let (w, answers) := w.performAll rest
    (w, answer :: answers)

end

/-- What one operation brought about: its answer, what callbacks received and what was logged. -/
structure Observation where
  answer : Answer
  deliveries : List Delivery
  log : List (Level × MonitoringNote)
  deriving Inhabited

def World.observe (w : World) (op : Operation) : World × Observation :=
  let (w, answer) := { w with deliveries := [], log := w.log.clear }.perform op
  (w, { answer, deliveries := w.deliveries, log := w.log.records })

/-- A world with these code objects and callbacks. -/
def World.start (specs : List CodeSpec) (callbacks : List Callback) (threshold : Level) : World :=
  specs.foldl (fun w spec => (w.addCode spec).1) { callbacks := callbacks.toArray, log := { threshold } }

end MonitoredVm
