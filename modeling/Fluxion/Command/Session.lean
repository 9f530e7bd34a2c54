import Fluxion.Command.Outcome
import Fluxion.Line.Report
import Fluxion.Text.Lines

/-!
# Sessions

The program `deriv` answers line after line with its derivation. Blank lines are
passed over, and a line that holds nothing but the letter `q` ends the session.
A line with a problem does not end it, but then the program does not succeed.
Bytes that are no text end it, and what came before them has been answered.
-/

namespace Fluxion.Command

/-- What is settled before a session begins. -/
structure Session where
  wrt : Char
  detail : Detail
deriving DecidableEq, Repr

namespace Session

def accepts : Accepts :=
  ⟨[.raw, .steps], 0⟩

/-- The session that arguments ask for. -/
def ofGiven (given : Given) : Except Refusal Session :=
  let wrt := given.wrt.getD defaultVariable
  match decide (Flag.raw ∈ given.flags), decide (Flag.steps ∈ given.flags) with
  | true, true => .error (.conflict "--steps".toList "--raw".toList)
  | true, false => .ok ⟨wrt, .raw⟩
  | false, true => .ok ⟨wrt, .steps⟩
  | false, false => .ok ⟨wrt, .reduced⟩

/-- The session that arguments ask for, or how the program ends without one. -/
def ofArguments (arguments : List (List Char)) : Except Outcome Session :=
  match read accepts arguments with
  | .error refusal => .error (.refused refusal)
  | .ok .version => .error (.version "deriv".toList)
  | .ok (.run given) => (ofGiven given).mapError Outcome.refused

/-- Whether a line asks for the end of the session. -/
def isQuit (line : List Char) : Bool :=
  Text.trim line == ['q'] || Text.trim line == ['Q']

/-- Answers lines up to the end. -/
def answer (s : Session) : List (Option (List Char)) → Outcome
  | [] => .done
  | none :: _ => .failed "the input is not valid UTF-8"
  | some line :: rest =>
    if Text.trim line = [] then s.answer rest
    else if isQuit line then .done
    else
      match Derivation.ofLine line s.wrt with
      | .ok derivation => .print (derivation.render s.detail) (s.answer rest)
      | .error problem => .complain (Report.ofProblem problem).lines (s.answer rest)

/-- A session over everything that is typed in. -/
def run (s : Session) (input : List UInt8) : Outcome :=
  s.answer (Text.lines input)

end Session

end Fluxion.Command
