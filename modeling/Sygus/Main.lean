import Sygus.Clock
import Sygus.CommandLine

/-!
# The program

Reads the file, runs the job, and prints the answer.
-/

namespace Sygus.CommandLine

/-- What a file holds, if it can be read. -/
def readFile (path : String) : IO (Option ByteArray) := do
  try return some (← IO.FS.readBinFile path) catch _ => return none

end Sygus.CommandLine

open Sygus in
/-- Answers one call. -/
def main (args : List String) : IO UInt32 := do
  let response ← CommandLine.answer args CommandLine.readFile fun job =>
    Clock.host job.timeout job.settings job.problem
  IO.eprint response.complaint
  IO.print response.output
  return response.code.toUInt32
