import Fluxion.Command.Session
import Fluxion.Command.Survey

/-!
# The programs

One executable holds both programs. It tallies a file if it is called under the
name `deriv-stats`, and holds a session under any other name.
-/

namespace Fluxion.Command

/-- The bytes of a file, if it can be read. -/
def readBytes? (path : List Char) : IO (Option (List UInt8)) := do
  try
    let bytes ← IO.FS.readBinFile (String.ofList path)
    return some bytes.toList
  catch _ => return none

/-- Prints what an outcome holds and hands its status on. -/
def Outcome.finish (o : Outcome) : IO UInt32 := do
  (← IO.getStdout).putStr (String.ofList o.text)
  o.complaints.forM IO.eprintln
  return o.status.code.toUInt32

end Fluxion.Command

open Fluxion.Command

/-- Runs the program that the executable is called as. -/
def main (arguments : List String) : IO UInt32 := do
  let arguments := arguments.map String.toList
  if (← IO.appPath).fileName = some "deriv-stats" then
    match Survey.ofArguments arguments with
    | .error outcome => outcome.finish
    | .ok survey => (survey.run (← readBytes? survey.path)).finish
  else
    match Session.ofArguments arguments with
    | .error outcome => outcome.finish
    | .ok session => (session.run (← (← IO.getStdin).readBinToEnd).toList).finish
