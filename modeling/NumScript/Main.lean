import NumScript.CommandLine.Run

/-!
# NumScript.Main

The command itself. It reads the input file, lets `Host.perform` decide, and carries out the report,
or says why there is none. It cannot start other programs, so a compilation that gets as far as the
C compiler reports it as missing; the C text is available through the option that keeps it, or by
stopping before.
-/

namespace NumScript

/-- Tries to read a file. -/
def readInput (path : String) : IO (Except ReadFault ByteArray) := do
  try
    return .ok (← IO.FS.readBinFile path)
  catch
    | .noFileOrDirectory .. => return .error .notFound
    | .inappropriateType _ code _ =>
      return .error (if code = 21 then .isDirectory else .notDirectory)
    | .permissionDenied .. => return .error (.refused 13 "Permission denied")
    | _ => return .error (.refused 5 "Input/output error")

/-- Tries to write a file. -/
def writeOutput (name text : String) : IO Bool := do
  try
    IO.FS.writeFile name text
    return true
  catch _ => return false

end NumScript

open NumScript

/-- Runs the command. If the file it wants to write cannot be written, it decides again, knowing
that. -/
def main (arguments : List String) : IO UInt32 := do
  let content ← match Request.settle (Request.ofArguments arguments) with
    | .ok o => readInput o.inputFile
    | .error _ => pure (.error .notFound)
  let host : Host := ⟨fun _ => content, fun _ => true, fun _ => none⟩
  let mut outcome := host.perform arguments
  if let .ok { written := some (name, text), .. } := outcome then
    unless ← writeOutput name text do
      outcome := { host with canWrite := fun _ => false }.perform arguments
  match outcome with
  | .ok report =>
    IO.print report.stdout
    IO.eprint report.stderr
    return report.code.toUInt32
  | .error breakdown =>
    IO.eprintln breakdown.message
    return 1
