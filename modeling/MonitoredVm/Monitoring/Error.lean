import MonitoredVm.Exception
import MonitoredVm.Monitoring.Event

/-!
# What can go wrong in monitoring

A refusal leaves everything as it was. A fault is an access outside a code object or its line table; what
was done before it stays done.
-/

namespace MonitoredVm

def hexText (n : Nat) : String := "0x" ++ String.ofList (Nat.toDigits 16 n)

/-- Why an operation was refused, or how a delivery ended. -/
inductive MonitoringError where
  | invalidTool (tool : Nat)
  | toolNotInUse (tool : Nat)
  | toolInUse (tool : Nat)
  | severalEvents
  | invalidEvent (events : EventSet)
  | invalidEventSet (events : EventSet)
  | invalidLocalEventSet (events : EventSet)
  | dependentEvents
  | shimCode (name : String)
  /-- The version has no room left. -/
  | overflow
  /-- A callback tried to disable an event that has no place to be disabled at. -/
  | disableNotAllowed (event : Event)
  | noPendingException (event : Event)
  | callback (exception : Exception)
  deriving DecidableEq, Repr, Inhabited

namespace MonitoringError

def message : MonitoringError → String
  | .invalidTool tool => "invalid tool " ++ toString tool ++ " (must be between 0 and 5)"
  | .toolNotInUse tool => "tool " ++ toString tool ++ " is not in use"
  | .toolInUse tool => "tool " ++ toString tool ++ " is already in use"
  | .severalEvents => "The callback can only be set for one event at a time"
  | .invalidEvent events => "invalid event " ++ toString events.toNat
  | .invalidEventSet events => "invalid event set " ++ hexText events.toNat
  | .invalidLocalEventSet events => "invalid local event set " ++ hexText events.toNat
  | .dependentEvents => "cannot set C_RETURN or C_RAISE events independently"
  | .shimCode name => "cannot instrument shim code object '" ++ name ++ "'"
  | .overflow => "events set too many times"
  | .disableNotAllowed event => "Cannot disable " ++ event.name ++ " events. Callback removed."
  | .noPendingException event => "Firing event " ++ toString event.id ++ " with no exception set"
  | .callback exception => exception.summary

/-- The kinds that callers tell apart. -/
def kind : MonitoringError → String
  | .shimCode _ => "System"
  | .overflow => "Overflow"
  | .disableNotAllowed _ => "DisableNotAllowed"
  | .noPendingException _ => "NoPendingException"
  | .callback _ => "Callback"
  | _ => "Validation"

def exception : MonitoringError → Exception
  | .callback exception => exception
  | .overflow => .new .overflowError (message .overflow)
  | .shimCode name => .new .systemError (message (.shimCode name))
  | e => .new .valueError e.message

end MonitoringError

/-- Why an operation did not finish. -/
inductive Abort where
  | refused (e : MonitoringError)
  | outOfRange
  /-- A line lies too far below the first one. -/
  | lineTooFar
  deriving DecidableEq, Repr, Inhabited

end MonitoredVm
