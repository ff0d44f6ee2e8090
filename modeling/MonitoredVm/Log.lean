/-!
# Logs

A log keeps the notes at or above a threshold, in order. Notes are typed; their wording belongs to whoever
defines them.
-/

namespace MonitoredVm

/-- Severity, the gravest first. -/
inductive Level where
  | error
  | warn
  | info
  | debug
  | trace
  deriving DecidableEq, Repr, Inhabited

namespace Level

def name : Level → String
  | .error => "ERROR"
  | .warn => "WARN"
  | .info => "INFO"
  | .debug => "DEBUG"
  | .trace => "TRACE"

/-- The grade of a level: the lower, the graver. -/
def grade : Level → Nat
  | .error => 0
  | .warn => 1
  | .info => 2
  | .debug => 3
  | .trace => 4

end Level

structure Log (ν : Type) where
  threshold : Level := .info
  records : List (Level × ν) := []
  deriving Repr

namespace Log
variable {ν : Type}

instance : Inhabited (Log ν) := ⟨{}⟩

/-- Keeps a note if its level is grave enough. -/
def add (l : Log ν) (level : Level) (note : ν) : Log ν :=
  if level.grade ≤ l.threshold.grade then { l with records := l.records ++ [(level, note)] } else l

def addAll (l : Log ν) (level : Level) (notes : List ν) : Log ν := notes.foldl (·.add level ·) l

def clear (l : Log ν) : Log ν := { l with records := [] }

end Log
end MonitoredVm
