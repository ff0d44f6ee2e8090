import MonitoredVm.Bytecode.Opcode

/-!
# Events, event sets and tool masks

Nineteen events in id order. The first eleven are local: they are instrumented into bytecode and may be
enabled for a single code object. The first sixteen have a tool mask of their own; the C events go by the
mask of `CALL`, and `BRANCH` stands for its two directions.
-/

namespace MonitoredVm

inductive Event where
  | pyStart
  | pyResume
  | pyReturn
  | pyYield
  | call
  | line
  | instruction
  | jump
  | branchLeft
  | branchRight
  | stopIteration
  | raise
  | exceptionHandled
  | pyUnwind
  | pyThrow
  | reraise
  | cReturn
  | cRaise
  | branch
  deriving DecidableEq, Repr, Inhabited

namespace Event

def all : List Event :=
  [.pyStart, .pyResume, .pyReturn, .pyYield, .call, .line, .instruction, .jump, .branchLeft, .branchRight,
    .stopIteration, .raise, .exceptionHandled, .pyUnwind, .pyThrow, .reraise, .cReturn, .cRaise, .branch]

def id : Event → Nat
  | .pyStart => 0
  | .pyResume => 1
  | .pyReturn => 2
  | .pyYield => 3
  | .call => 4
  | .line => 5
  | .instruction => 6
  | .jump => 7
  | .branchLeft => 8
  | .branchRight => 9
  | .stopIteration => 10
  | .raise => 11
  | .exceptionHandled => 12
  | .pyUnwind => 13
  | .pyThrow => 14
  | .reraise => 15
  | .cReturn => 16
  | .cRaise => 17
  | .branch => 18

def name : Event → String
  | .pyStart => "PY_START"
  | .pyResume => "PY_RESUME"
  | .pyReturn => "PY_RETURN"
  | .pyYield => "PY_YIELD"
  | .call => "CALL"
  | .line => "LINE"
  | .instruction => "INSTRUCTION"
  | .jump => "JUMP"
  | .branchLeft => "BRANCH_LEFT"
  | .branchRight => "BRANCH_RIGHT"
  | .stopIteration => "STOP_ITERATION"
  | .raise => "RAISE"
  | .exceptionHandled => "EXCEPTION_HANDLED"
  | .pyUnwind => "PY_UNWIND"
  | .pyThrow => "PY_THROW"
  | .reraise => "RERAISE"
  | .cReturn => "C_RETURN"
  | .cRaise => "C_RAISE"
  | .branch => "BRANCH"

def ofId? (i : Nat) : Option Event := all[i]?

def ofName? (name : String) : Option Event := all.find? (·.name == name)

/-- Instrumented into bytecode and settable for one code object. -/
def isLocal (e : Event) : Bool := decide (e.id < 11)

/-- Has a tool mask of its own. -/
def isUngrouped (e : Event) : Bool := decide (e.id < 16)

/-- The event whose tool mask decides who receives this one. -/
def maskEvent : Event → Event
  | .cReturn | .cRaise => .call
  | e => e

end Event

/-- A set of events, one bit per event id; bits without an event may be set too. -/
abbrev EventSet := BitVec 32

namespace EventSet

def single (e : Event) : EventSet := BitVec.twoPow 32 e.id

def has (s : EventSet) (e : Event) : Bool := s.getLsbD e.id

def events (s : EventSet) : List Event := Event.all.filter (has s)

def directions : EventSet := single .branchLeft ||| single .branchRight

def cEvents : EventSet := single .cReturn ||| single .cRaise

end EventSet

/-- A set of tools, one bit per tool id. -/
abbrev ToolMask := BitVec 8

namespace ToolMask

def single (tool : Nat) : ToolMask := BitVec.twoPow 8 tool

def has (m : ToolMask) (tool : Nat) : Bool := m.getLsbD tool

def without (m tools : ToolMask) : ToolMask := m &&& ~~~tools

/-- The tools in the mask, highest id first: the order in which callbacks are called. -/
def tools (m : ToolMask) : List Nat := [7, 6, 5, 4, 3, 2, 1, 0].filter (has m)

end ToolMask

namespace Opcode

/-- The event a plain opcode fires, given its operand. `RESUME` starts a function when its operand is zero. -/
def event? (op : Opcode) (oparg : Nat) : Option Event :=
  match op with
  | .resume => some (if oparg = 0 then .pyStart else .pyResume)
  | .returnValue => some .pyReturn
  | .yieldValue => some .pyYield
  | .call | .callKw | .callFunctionEx | .loadSuperAttr => some .call
  | .jumpForward | .jumpBackward => some .jump
  | .popJumpIfFalse | .popJumpIfTrue | .popJumpIfNone | .popJumpIfNotNone | .popIter | .endAsyncFor =>
    some .branchRight
  | .forIter | .notTaken => some .branchLeft
  | .endFor | .endSend => some .stopIteration
  | _ => none

/-- Instructions that do not start a line by themselves. -/
def neverStartsLine : Opcode → Bool
  | .endAsyncFor | .endFor | .endSend | .resume | .popIter => true
  | _ => false

/-- Instructions that never carry an instruction overlay. -/
def skipsInstructionOverlay : Opcode → Bool
  | .resume | .endFor => true
  | _ => false

end Opcode
end MonitoredVm
