import Fluxion.Command.Arguments

/-!
# Outcomes

What a program prints and how it ends.
-/

namespace Fluxion.Command

inductive Status where
  | success
  /-- Something it was given could not be worked on. -/
  | failure
  /-- Its arguments were refused. -/
  | misuse
deriving DecidableEq, Repr

def Status.code : Status → Nat
  | success => 0
  | failure => 1
  | misuse => 2

/-- What a program prints and how it ends. -/
structure Outcome where
  status : Status
  /-- Lines of the answer. -/
  output : List (List Char)
  /-- Lines about what is wrong, which are no part of the answer. -/
  complaints : List String
deriving DecidableEq, Repr

namespace Outcome

/-- The end of a program that has nothing more to print. -/
def done : Outcome :=
  ⟨.success, [], []⟩

/-- The end of a program that fails. -/
def failed (complaint : String) : Outcome :=
  ⟨.failure, [], [complaint]⟩

/-- The end of a program that prints `line` and then goes on to `rest`. -/
def print (line : List Char) (rest : Outcome) : Outcome :=
  { rest with output := line :: rest.output }

/-- The end of a program that has something to complain about, goes on to `rest`
and cannot succeed any more. -/
def complain (lines : List String) (rest : Outcome) : Outcome :=
  { rest with status := .failure, complaints := lines ++ rest.complaints }

/-- The end of a program whose arguments are refused. -/
def refused (refusal : Refusal) : Outcome :=
  ⟨.misuse, [], ["error: " ++ refusal.message]⟩

/-- The end of a program that only says its name and version. -/
def version (program : List Char) : Outcome :=
  print (program ++ " 0.1.0".toList) done

/-- What is printed, with every line ended. -/
def text (o : Outcome) : List Char :=
  o.output.flatMap fun line => line ++ ['\n']

end Outcome

/-- The variable of differentiation if none is named. -/
def defaultVariable : Char :=
  'x'

end Fluxion.Command
