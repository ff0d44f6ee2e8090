import MonitoredVm.Config
import MonitoredVm.Monitoring.Error
import MonitoredVm.Script.Fault

/-!
# What can go wrong between interpreters

Crossing from one interpreter to another fails with a code, perhaps a message of its own and perhaps a
cause. Operations on interpreters fail for these reasons and a few more; each failure surfaces as an
exception.
-/

namespace MonitoredVm

/-- What a crossing failed at. -/
inductive CrossCode where
  | other
  | noMemory
  | alreadyRunning
  | mainNamespace
  | applyNamespace
  | preserve
  | propagation
  | notShareable
  | uncaught
  deriving DecidableEq, Repr, Inhabited

namespace CrossCode

def all : List CrossCode :=
  [.other, .noMemory, .alreadyRunning, .mainNamespace, .applyNamespace, .preserve, .propagation, .notShareable,
    .uncaught]

def name : CrossCode → String
  | .other => "Other"
  | .noMemory => "NoMemory"
  | .alreadyRunning => "AlreadyRunning"
  | .mainNamespace => "MainNsFailure"
  | .applyNamespace => "ApplyNsFailure"
  | .preserve => "PreserveFailure"
  | .propagation => "ExcPropagationFailure"
  | .notShareable => "NotShareable"
  | .uncaught => "UncaughtException"

def ofName? (s : String) : Option CrossCode := all.find? (·.name == s)

/-- The message when none is given. -/
def message : CrossCode → String
  | .other => "cross-interpreter operation failed"
  | .noMemory => "out of memory"
  | .alreadyRunning => "interpreter already running"
  | .mainNamespace => "failed to get __main__ namespace"
  | .applyNamespace => "failed to apply namespace to __main__"
  | .preserve => "failed to preserve objects across session"
  | .propagation => "failed to transfer exception between interpreters"
  | .notShareable => "object does not support cross-interpreter data"
  | .uncaught => "uncaught exception in another interpreter"

def excType : CrossCode → ExcType
  | .noMemory => .memoryError
  | .notShareable => .notShareableError
  | .uncaught => .executionFailed
  | _ => .interpreterError

end CrossCode

structure CrossError where
  code : CrossCode
  own : Option String := none
  cause : Option Exception := none
  deriving DecidableEq, Repr, Inhabited

namespace CrossError

def message (e : CrossError) : String := e.own.getD e.code.message

def other (message : String) : CrossError := { code := .other, own := some message }

def notShareable (message : String) : CrossError := { code := .notShareable, own := some message }

/-- A value of this type has no portable form. -/
def noPortableForm (typeName : String) : CrossError :=
  notShareable (typeName ++ " does not support cross-interpreter data")

/-- A native function the host does not have. -/
def unknownNative (name : String) : CrossError := notShareable ("native function '" ++ name ++ "' is not registered")

/-- The exception it surfaces as; without any message for an unspecific failure. -/
def exception (e : CrossError) : Exception :=
  let exc : Exception :=
    if e.code = .other ∧ e.own = none then .bare .interpreterError else .new e.code.excType e.message
  match e.cause with
  | some cause => exc.withCause cause
  | none => exc

end CrossError

/-- Why an operation on interpreters failed. -/
inductive InterpError where
  | notFound (id : Int)
  /-- The interpreter has ended; `none` stands for the current one. -/
  | notReady (operation : String) (id : Option Int)
  /-- The interpreter is not one of those the operation is restricted to. -/
  | unrecognized (operation : String) (id : Option Int)
  | destroyCurrent
  | running
  | creationFailed (e : ConfigError)
  | cross (e : CrossError)
  | raised (e : Exception)
  /-- Calls nested deeper than the call budget. -/
  | exhausted
  deriving DecidableEq, Repr, Inhabited

namespace InterpError

def target : Option Int → String
  | none => "current interpreter"
  | some id => "interpreter " ++ toString id

def message : InterpError → String
  | .notFound id => "unrecognized interpreter ID " ++ toString id
  | .notReady operation id => "cannot " ++ operation ++ " " ++ target id ++ " (not ready)"
  | .unrecognized operation id => "cannot " ++ operation ++ " unrecognized " ++ target id
  | .destroyCurrent => "cannot destroy the current interpreter"
  | .running => "interpreter running"
  | .creationFailed _ => "interpreter creation failed"
  | .cross e => e.message
  | .raised e => e.summary
  | .exhausted => "call stack exhausted"

def exception : InterpError → Exception
  | .notFound id => .new .interpreterNotFoundError (message (.notFound id))
  | .creationFailed e => (Exception.new .interpreterError (message (.creationFailed e))).withCause e.exception
  | .cross e => e.exception
  | .raised e => e
  | e => .new .interpreterError e.message

/-- The kinds that callers tell apart. -/
def kind : InterpError → String
  | .notFound _ => "NotFound"
  | .creationFailed _ => "CreationFailed"
  | .cross _ => "Xi"
  | .raised _ => "Raised"
  | .exhausted => "Exhausted"
  | _ => "Interpreter"

end InterpError
end MonitoredVm
