import MonitoredVm.Config
import MonitoredVm.Monitoring.Engine

/-!
# Interpreters

One isolated interpreter: its settings, its main namespace, its monitoring engine, the references to its id
and the number of its buffers that others borrow.
-/

namespace MonitoredVm

/-- Where an interpreter came from. -/
inductive Whence where
  | unknown
  /-- The main interpreter. -/
  | runtime
  | legacy
  | capi
  | xi
  /-- Made by the operations of this library. -/
  | stdlib
  deriving DecidableEq, Repr, Inhabited

namespace Whence

def all : List Whence := [.unknown, .runtime, .legacy, .capi, .xi, .stdlib]

def name : Whence → String
  | .unknown => "unknown"
  | .runtime => "runtime"
  | .legacy => "legacy"
  | .capi => "capi"
  | .xi => "xi"
  | .stdlib => "stdlib"

/-- The name with a capital. -/
def title : Whence → String
  | .unknown => "Unknown"
  | .runtime => "Runtime"
  | .legacy => "Legacy"
  | .capi => "Capi"
  | .xi => "Xi"
  | .stdlib => "Stdlib"

def number (w : Whence) : Nat := all.idxOf w

def ofNumber? (n : Nat) : Option Whence := all[n]?

end Whence

/-- The life of an interpreter. -/
inductive Status where
  | ready
  /-- A session runs in it. -/
  | running
  | destroyed
  deriving DecidableEq, Repr, Inhabited

def Status.name : Status → String
  | .ready => "Ready"
  | .running => "Running"
  | .destroyed => "Destroyed"

structure Interpreter where
  id : Int
  whence : Whence
  config : Config
  status : Status := .ready
  globals : Namespace := Bindings.ofList [("__name__", .str "__main__")]
  engine : Engine := {}
  /-- References to the id. -/
  refs : Nat := 0
  /-- The last reference going away ends the interpreter. -/
  requiresRefs : Bool := false
  /-- Buffers lent to others. -/
  exports : Nat := 0
  deriving Repr

instance : Inhabited Interpreter := ⟨{ id := 0, whence := .runtime, config := Config.legacy }⟩

namespace Interpreter

/-- Not ended; exactly the registered interpreters are. -/
def isReady (i : Interpreter) : Bool := i.status != .destroyed

def isRunning (i : Interpreter) : Bool := i.status == .running

def describe (i : Interpreter) : String :=
  "Interpreter \x7b id: " ++ toString i.id ++ ", whence: " ++ i.whence.title ++ ", status: " ++ i.status.name ++
    ", .. \x7d"

end Interpreter
end MonitoredVm
