import MonitoredVm.Portable.Encoding

/-!
# Failure reports

What an interpreter tells another one about an uncaught exception: the names of its type, its message, a
one-line summary and the rendered traceback; the exception itself only when it was carried across.
-/

namespace MonitoredVm

/-- The report of an uncaught exception. -/
structure Failure where
  name : String
  qualname : String
  module : String
  message : Option String
  formatted : String
  traceback : String
  exception : Option Exception := none
  deriving DecidableEq, Repr, Inhabited

namespace Failure

/-- The qualified name, with the module unless it is a builtin. -/
def displayName (module qualname : String) : String :=
  if module == "builtins" then qualname else module ++ "." ++ qualname

/-- The report of an exception, without the exception itself. -/
def capture (e : Exception) : Failure :=
  let name := e.type.name
  let module := e.type.module.getD "builtins"
  let shown := displayName module name
  { name, qualname := name, module, message := e.message
    formatted := match e.message with
      | some m => if m.isEmpty then shown else shown ++ ": " ++ m
      | none => shown
    traceback := e.rendered }

/-- The type of the exception, if the name is that of one. -/
def type? (f : Failure) : Option ExcType := ExcType.ofName? f.name

/-- The exception was of this type or a subtype. -/
def isA (f : Failure) (t : ExcType) : Bool := f.type?.any (·.isSubtypeOf t)

/-- The exception raised where the failure is reported: its cause is the exception itself, or one like it. -/
def raised (f : Failure) : Exception :=
  let cause : Exception := match f.exception, f.type? with
    | some e, _ => e
    | none, some t => { type := t, message := f.message }
    | none, none => .new .exception f.formatted
  (Exception.new .executionFailed f.formatted).withCause cause

def datum (f : Failure) : Datum :=
  .record [("exc_type", .record [("name", .str f.name), ("qualname", .str f.qualname), ("module", .str f.module)]),
    ("msg", Datum.ofOption (f.message.map .str)), ("formatted", .str f.formatted), ("errdisplay", .str f.traceback),
    ("exc", Datum.ofOption (f.exception.map Datum.ofException))]

def json (f : Failure) : String := f.datum.jsonText

end Failure
end MonitoredVm
