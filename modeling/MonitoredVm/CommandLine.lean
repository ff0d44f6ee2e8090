import MonitoredVm.Machine.Host
import MonitoredVm.Text.Column
import MonitoredVm.Text.Shown

/-!
# The command line

Runs one script file in a new interpreter and shows what it bound, or how it failed. Arguments and the file
are given; what goes to the two output channels is a report.
-/

namespace MonitoredVm.CommandLine

def usage : String := "usage: tyrt [--config isolated|legacy|empty] [-v] [script]"

inductive Refusal where
  | helpWanted
  | valueMissing
  | unknownOption (flag : String)
  deriving DecidableEq, Repr, Inhabited

def Refusal.message : Refusal → String
  | .helpWanted => usage
  | .valueMissing => "--config needs a value"
  | .unknownOption flag => "unknown option " ++ flag ++ "\n" ++ usage

/-- What is to be run, and how. -/
structure Request where
  file : String := "example.py"
  config : Option String := none
  verbose : Bool := false
  deriving DecidableEq, Repr, Inhabited

/-- Reads arguments from left to right; the first one that cannot be taken decides. -/
def Request.read (r : Request) : List String → Except Refusal Request
  | [] => .ok r
  | "--config" :: rest =>
    match rest with
    | [] => .error .valueMissing
    | value :: rest => { r with config := some value }.read rest
  | arg :: rest =>
    if arg = "-v" ∨ arg = "--verbose" then { r with verbose := true }.read rest
    else if arg = "-h" ∨ arg = "--help" then .error .helpWanted
    else if arg.startsWith "-" then .error (.unknownOption arg)
    else { r with file := arg }.read rest

/-- Why a file name leads nowhere. -/
inductive FileError where
  | missing
  | notDirectory
  | nameTooLong
  deriving DecidableEq, Repr, Inhabited

def FileError.message : FileError → String
  | .missing => "No such file or directory (os error 2)"
  | .notDirectory => "Not a directory (os error 20)"
  | .nameTooLong => "File name too long (os error 36)"

inductive Found where
  | text (s : String)
  /-- A file that is not UTF-8. -/
  | notText
  | notFile
  | nothing (e : FileError)
  deriving DecidableEq, Repr, Inhabited

/-- The script, or what is wrong with the file. -/
def Found.source (file : String) : Found → Except String String
  | .text s => .ok s
  | .notText => .error ("reading " ++ file ++ ": stream did not contain valid UTF-8")
  | .notFile => .error (file ++ " is not a file")
  | .nothing e => .error ("reading " ++ file ++ ": " ++ e.message)

/-- What a run shows. -/
structure Report where
  succeeded : Bool := false
  output : List String := []
  notes : List (Level × MachineNote) := []
  /-- The run came as far as running the script. -/
  timed : Bool := false
  messages : List String := []

/-- One log record with its line end; further lines of a note are indented, and only what shows of it is written. -/
def noteText (level : Level) (note : MachineNote) : String :=
  Text.shown ("[" ++ Text.padRight 5 level.name ++ " " ++ note.source ++ "] " ++
    "\n    ".intercalate (note.message.splitOn "\n") ++ "\n")

namespace Report

/-- What goes to the error channel, for a script that took `elapsed` to run. -/
def diagnostics (r : Report) (elapsed : String) : String :=
  let verdict := (if r.succeeded then "success" else "error") ++ " after: " ++ elapsed
  let notes := r.notes.map fun (level, note) => noteText level note
  let lines := (if r.timed then [verdict] else []) ++ r.messages
  String.join (notes ++ lines.map (· ++ "\n"))

def outputText (r : Report) : String := String.join (r.output.map (· ++ "\n"))

def exitCode (r : Report) : UInt32 := if r.succeeded then 0 else 1

end Report

/-- A binding as it is shown; names that start with two underscores are not. -/
def bindingLine? (name : String) (v : Value) : Option String :=
  if name.startsWith "__" then none else some (name ++ " = " ++ v.repr)

def Request.runIn (r : Request) (m : Machine) (source : String) : Report :=
  match Config.named r.config with
  | .error e => { notes := m.log.records, messages := ["error: " ++ e.message] }
  | .ok config =>
    match Work.create (some config) false m with
    | (.error e, m) => { notes := m.log.records, messages := ["error: " ++ e.message] }
    | (.ok id, m) =>
      let m := m.note .info (.running r.file id)
      match Work.runString m.host 0 id source {} false m with
      | (.ok none, m) =>
        let globals := ((m.get? id).map (·.globals)).getD {}
        { succeeded := true, notes := m.log.records, timed := true
          output := globals.entries.filterMap fun (name, v) => bindingLine? name v }
      | (.ok (some failure), m) => { notes := m.log.records, timed := true, messages := [failure.traceback] }
      | (.error e, m) => { notes := m.log.records, timed := true, messages := [e.message] }

def Request.run (r : Request) (found : Found) : Report :=
  let m : Machine := { log := { threshold := if r.verbose then .debug else .warn } }
  let m := m.note .debug (.reading r.file)
  match found.source r.file with
  | .error problem => { notes := m.log.records, messages := ["error: " ++ problem] }
  | .ok source => r.runIn m source

def Refusal.report (r : Refusal) : Report := { messages := [r.message] }

/-- A number of `unit`s of `10 ^ places` nanoseconds each, without trailing zeros. -/
def durationIn (nanos places : Nat) (unit : String) : String :=
  let fraction := Text.padLeft places (toString (nanos % Nat.pow 10 places))
  let padded := fraction.toList.map fun c => if c = ' ' then '0' else c
  let digits := (padded.reverse.dropWhile (· = '0')).reverse
  toString (nanos / Nat.pow 10 places) ++ (if digits.isEmpty then "" else "." ++ String.ofList digits) ++ unit

/-- A duration in the largest unit that is not too large for it. -/
def durationText (nanos : Nat) : String :=
  if 1000000000 ≤ nanos then durationIn nanos 9 "s"
  else if 1000000 ≤ nanos then durationIn nanos 6 "ms"
  else if 1000 ≤ nanos then durationIn nanos 3 "µs"
  else toString nanos ++ "ns"

end MonitoredVm.CommandLine
