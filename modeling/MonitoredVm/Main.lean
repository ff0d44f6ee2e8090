import MonitoredVm.CommandLine

/-!
# The program

Reads the file, runs it and prints the report.
-/

namespace MonitoredVm

def findFile (file : String) : IO CommandLine.Found := do
  try
    let bytes ← IO.FS.readBinFile file
    return match String.fromUTF8? bytes with
      | some text => .text text
      | none => .notText
  catch
    | .noFileOrDirectory .. => return .nothing .missing
    | .inappropriateType (some _) .. => return .nothing .notDirectory
    | .invalidArgument (some _) .. => return .nothing .nameTooLong
    | _ => return .notFile

/-- Runs the command line: the report and the time the run took. -/
def runCommandLine (args : List String) : IO (CommandLine.Report × Nat) := do
  match ({} : CommandLine.Request).read args with
  | .error refusal => return (refusal.report, 0)
  | .ok request =>
    let found ← findFile request.file
    let start ← IO.monoNanosNow
    let report ← IO.lazyPure fun _ => request.run found
    let stop ← IO.monoNanosNow
    return (report, stop - start)

end MonitoredVm

def main (args : List String) : IO UInt32 := do
  let (report, nanos) ← MonitoredVm.runCommandLine args
  IO.print report.outputText
  IO.eprint (report.diagnostics (MonitoredVm.CommandLine.durationText nanos))
  return report.exitCode
