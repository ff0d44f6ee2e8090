import MonitoredVm.Bytecode.Opcode

/-!
# Slots

What the dispatch loop meets at one code unit: the compiled opcode, whether it runs in its instrumented
form, and two overlays. The instruction overlay lies over the line overlay, which lies over the opcode.
-/

namespace MonitoredVm

/-- The instrumentation of one unit. -/
structure Slot where
  base : Opcode
  instrumented : Bool := false
  line : Bool := false
  instruction : Bool := false
  deriving DecidableEq, Repr, Inhabited

namespace Slot

/-- The opcode that runs once the overlays have fired. -/
def runs (s : Slot) : Opcode := if s.instrumented then s.base.twin?.getD s.base else s.base

/-- The opcode the dispatch loop reads. -/
def visible (s : Slot) : Opcode :=
  if s.instruction then .instrumentedInstruction else if s.line then .instrumentedLine else s.runs

/-- The opcode the instruction overlay hands over to. -/
def underInstruction (s : Slot) : Opcode := if s.line then .instrumentedLine else s.runs

def isLayered (s : Slot) : Bool := s.instrumented || s.line || s.instruction

def withLine (s : Slot) : Slot := { s with line := true }

def withoutLine (s : Slot) : Slot := { s with line := false }

def withInstruction (s : Slot) : Slot := { s with instruction := true }

def withoutInstruction (s : Slot) : Slot := { s with instruction := false }

def withOpcode (s : Slot) (base : Opcode) (instrumented : Bool) : Slot := { s with base, instrumented }

def describe (s : Slot) : String :=
  (if s.instruction then "X" else "") ++ (if s.line then "L" else "") ++
    (if s.instrumented then "I:" else "P:") ++ s.base.name

end Slot
end MonitoredVm
