/-!
# Exceptions

An exception is plain data: a type of the fixed hierarchy, an optional message, the frames it unwound
through (outermost first) and the chain of its causes. Because an exception has at most one cause, the chain
is kept as a flat list of incidents, direct cause first.
-/

namespace MonitoredVm

/-- The exception types, in the order they are listed. -/
inductive ExcType where
  | baseException
  | exception
  | arithmeticError
  | overflowError
  | zeroDivisionError
  | lookupError
  | indexError
  | keyError
  | runtimeError
  | notImplementedError
  | recursionError
  | attributeError
  | nameError
  | typeError
  | valueError
  | assertionError
  | memoryError
  | systemError
  | syntaxError
  | stopIteration
  | interpreterError
  | interpreterNotFoundError
  | notShareableError
  | executionFailed
  deriving DecidableEq, Repr, Inhabited

namespace ExcType

def all : List ExcType := [
  .baseException, .exception, .arithmeticError, .overflowError, .zeroDivisionError,
  .lookupError, .indexError, .keyError, .runtimeError, .notImplementedError,
  .recursionError, .attributeError, .nameError, .typeError, .valueError,
  .assertionError, .memoryError, .systemError, .syntaxError, .stopIteration,
  .interpreterError, .interpreterNotFoundError, .notShareableError, .executionFailed]

def name : ExcType → String
  | .baseException => "BaseException"
  | .exception => "Exception"
  | .arithmeticError => "ArithmeticError"
  | .overflowError => "OverflowError"
  | .zeroDivisionError => "ZeroDivisionError"
  | .lookupError => "LookupError"
  | .indexError => "IndexError"
  | .keyError => "KeyError"
  | .runtimeError => "RuntimeError"
  | .notImplementedError => "NotImplementedError"
  | .recursionError => "RecursionError"
  | .attributeError => "AttributeError"
  | .nameError => "NameError"
  | .typeError => "TypeError"
  | .valueError => "ValueError"
  | .assertionError => "AssertionError"
  | .memoryError => "MemoryError"
  | .systemError => "SystemError"
  | .syntaxError => "SyntaxError"
  | .stopIteration => "StopIteration"
  | .interpreterError => "InterpreterError"
  | .interpreterNotFoundError => "InterpreterNotFoundError"
  | .notShareableError => "NotShareableError"
  | .executionFailed => "ExecutionFailed"

def ofName? (s : String) : Option ExcType := all.find? fun t => t.name == s

def index (t : ExcType) : Nat := all.idxOf t

/-- The module the type lives in, `none` for builtins. -/
def module : ExcType → Option String
  | .interpreterError | .interpreterNotFoundError | .notShareableError | .executionFailed =>
    some "concurrent.interpreters"
  | _ => none

def parent : ExcType → Option ExcType
  | .baseException => none
  | .exception => some .baseException
  | .overflowError | .zeroDivisionError => some .arithmeticError
  | .indexError | .keyError => some .lookupError
  | .notImplementedError | .recursionError => some .runtimeError
  | .interpreterNotFoundError | .executionFailed => some .interpreterError
  | .notShareableError => some .valueError
  | _ => some .exception

/-- The type followed by its base types up to the root. No chain is longer than four. -/
def lineage (t : ExcType) : List ExcType :=
  go 4 t
where
  go : Nat → ExcType → List ExcType
    | 0, t => [t]
    | n + 1, t => t :: (t.parent.map (go n)).getD []

def isSubtypeOf (t other : ExcType) : Bool := t.lineage.contains other

end ExcType

structure Frame where
  filename : String
  line : Nat
  name : String
  deriving DecidableEq, Repr, Inhabited

/-- One link of an exception chain. -/
structure Incident where
  type : ExcType
  message : Option String := none
  traceback : List Frame := []
  deriving DecidableEq, Repr, Inhabited

/-- A raised exception with its chain of causes. -/
structure Exception extends Incident where
  causes : List Incident := []
  deriving DecidableEq, Repr, Inhabited

namespace Exception

def new (type : ExcType) (message : String) : Exception := { type, message := some message }

def bare (type : ExcType) : Exception := { type }

def typeError (message : String) : Exception := new .typeError message

def nameError (message : String) : Exception := new .nameError message

def cause (e : Exception) : Option Exception :=
  match e.causes with
  | [] => none
  | c :: rest => some { toIncident := c, causes := rest }

/-- Replaces the chain of causes by `c` and the causes of `c`. -/
def withCause (e c : Exception) : Exception := { e with causes := c.toIncident :: c.causes }

/-- Records a frame the exception unwound through, outside the ones already there. -/
def pushFrame (e : Exception) (f : Frame) : Exception := { e with traceback := f :: e.traceback }

end Exception

namespace Incident

/-- The one-line summary: the type, then the message if there is one. -/
def summary (i : Incident) : String :=
  match i.message with
  | some m => i.type.name ++ ": " ++ m
  | none => i.type.name

def frameText (f : Frame) : String :=
  "  File \"" ++ f.filename ++ "\", line " ++ toString f.line ++ ", in " ++ f.name ++ "\n"

/-- The frames, outermost first, followed by the summary. -/
def rendered (i : Incident) : String :=
  (if i.traceback.isEmpty then ""
    else "Traceback (most recent call last):\n" ++ String.join (i.traceback.map frameText)) ++ i.summary

end Incident
end MonitoredVm
