import Fluxion.Command.Outcome
import Fluxion.Line.Report
import Fluxion.Line.Tally
import Fluxion.Text.Lines

/-!
# Surveys

The program `deriv-stats` tallies the derivatives of a file of expressions, one
on a line. Blank lines and lines that begin with `#` are passed over. Lines
without a derivation are counted, and the program succeeds all the same; it
fails if there is no such file or the file is no text.
-/

namespace Fluxion.Command

/-- The file to go through, and the variable to differentiate with respect to. -/
structure Survey where
  path : List Char
  wrt : Char
deriving DecidableEq, Repr

namespace Survey

def accepts : Accepts :=
  ⟨[], 1⟩

/-- The survey that arguments ask for. -/
def ofGiven (given : Given) : Except Refusal Survey :=
  match given.operands with
  | [] => .error (.missingArgument "PATH".toList)
  | path :: _ => .ok ⟨path, given.wrt.getD defaultVariable⟩

/-- The survey that arguments ask for, or how the program ends without one. -/
def ofArguments (arguments : List (List Char)) : Except Outcome Survey :=
  match read accepts arguments with
  | .error refusal => .error (.refused refusal)
  | .ok .version => .error (.version "deriv-stats".toList)
  | .ok (.run given) => (ofGiven given).mapError Outcome.refused

def isSkipped (line : List Char) : Bool :=
  (Text.trim line).head?.all (· == '#')

def relevant (lines : List (List Char)) : List (List Char) :=
  lines.filter fun line => !isSkipped line

def tally (s : Survey) (lines : List (List Char)) : Tally :=
  (relevant lines).foldl (fun t line => t.recordLine line s.wrt) Tally.empty

/-- What is to be said about the lines without a derivation. -/
def complaints (s : Survey) (lines : List (List Char)) : List String :=
  (relevant lines).flatMap fun line =>
    match Derivation.ofLine line s.wrt with
    | .ok _ => []
    | .error problem => (Report.ofProblem problem).lines

/-- A survey of what the file holds, if there is such a file. -/
def run (s : Survey) (contents : Option (List UInt8)) : Outcome :=
  match contents.map Text.lines with
  | none => .failed "there is no such file"
  | some lines =>
    match lines.mapM id with
    | none => .failed "the file is not valid UTF-8"
    | some lines => ⟨.success, [(s.tally lines).render], s.complaints lines⟩

end Survey

end Fluxion.Command
