import MonitoredVm.Monitoring.Monitors
import MonitoredVm.Monitoring.Tools

/-!
# What happens to a code object

A code object is brought in line with the events enabled for it, and the callbacks called for it answer. Both
are kept, the latest first, so that what is disabled where can be told from what happened.
-/

namespace MonitoredVm

/-- What a slot can report: the event of its opcode, and those of two overlays. -/
inductive Layer where
  | opcode
  | line
  | instruction
  deriving DecidableEq, Repr, Inhabited

/-- What is registered for an event of a tool: a callback, or one direction of a callback for `BRANCH`. -/
inductive Callable where
  | direct (callback : Nat)
  | branch (callback : Nat) (right : Bool)
  deriving DecidableEq, Repr, Inhabited

def Callable.callback : Callable → Nat
  | .direct callback | .branch callback _ => callback

/-- A change of the events active on a code object. After a restart all are taken out and put back. -/
structure Alignment where
  before : LocalMonitors
  after : LocalMonitors
  restarted : Bool
  deriving DecidableEq, Repr, Inhabited

namespace Alignment

def removed (a : Alignment) : LocalMonitors := if a.restarted then a.before else a.before.sub a.after

def added (a : Alignment) : LocalMonitors := if a.restarted then a.after else a.after.sub a.before

end Alignment

/-- A call of what a tool has registered, with the answer. -/
structure Call where
  layer : Layer
  slot : Nat
  callable : Callable
  args : EventArgs
  /-- The callback was reached. One direction of a `BRANCH` callback is not where the deciding instruction is no longer
  instrumented, and disables there. -/
  reached : Bool
  verdict : Verdict
  deriving Inhabited

/-- The tool asked not to be called again at this place. -/
def Call.disables (c : Call) : Bool :=
  match c.verdict with
  | .disable => true
  | _ => false

/-- Something that happened to a code object. -/
inductive Happening where
  | aligned (change : Alignment)
  | answered (call : Call)
  deriving Inhabited

end MonitoredVm
