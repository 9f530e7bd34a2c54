import Fluxion.Derivative
import Fluxion.Expr.Reader
import Fluxion.Expr.Printer
import Fluxion.Line.Heading
import Fluxion.Reduction

/-!
# From a line to its derivative

A line is an expression with an optional heading. Its derivation holds the
expression, the derivative as the rules of calculus give it, and what the rules
of reduction make of that. A line without one has a problem: its body is no
expression, or has two variables besides the one to differentiate with respect
to, and nothing says how these depend on each other.
-/

namespace Fluxion

inductive Problem where
  /-- The body of the line is no expression. -/
  | unreadable (fault : Fault)
  /-- Besides `wrt`, more than one variable occurs; `found` are all of them. -/
  | tooManyVariables (wrt : Char) (found : List Char)
deriving DecidableEq, Repr

namespace Problem

def message : Problem → String
  | unreadable fault => fault.message
  | tooManyVariables _ found => "too many variables (" ++ toString found.length ++ " found)"

/-- What was being done with the line. -/
def stage : Problem → String
  | unreadable _ => "parse error"
  | tooManyVariables _ _ => "invalid expression"

/-- The message with the stage in front. -/
def staged (p : Problem) : String :=
  p.stage ++ ": " ++ p.message

end Problem

/-- How much of a derivation is shown. -/
inductive Detail where
  /-- The derivative as it is found. -/
  | raw
  /-- The reduced derivative too. -/
  | reduced
  /-- The reduced derivative and the rules used for it. -/
  | steps
deriving DecidableEq, Repr

structure Derivation where
  wrt : Char
  /-- The body of the line without the blanks around it. -/
  input : List Char
  expr : Expr
  raw : Expr
  reduction : Reduction
deriving Repr

namespace Derivation

/-- The derivation of an expression read from `input`. -/
def ofExpr (wrt : Char) (input : List Char) (e : Expr) : Derivation where
  wrt := wrt
  input := input
  expr := e
  raw := e.derivative wrt
  reduction := (e.derivative wrt).simplify

/-- All variables of an expression, if besides `wrt` there is more than one. -/
def tooMany? (wrt : Char) (e : Expr) : Option (List Char) :=
  if 1 < (e.letters.filter (· ≠ wrt)).length then some e.letters else none

/-- The derivation of a line. Without a heading it is with respect to `default`. -/
def ofLine (line : List Char) (default : Char) : Except (Located Problem) Derivation :=
  let heading := Heading.ofLine line
  let wrt := heading.wrt.getD default
  match Expr.read heading.body with
  | .error fault => .error ((fault.map Problem.unreadable).shift heading.offset)
  | .ok e =>
    match tooMany? wrt e with
    | some found =>
      let stop := max (Text.byteLength (Text.trimEnd line)) heading.offset
      .error ⟨.tooManyVariables wrt found, ⟨heading.offset, stop⟩⟩
    | none => .ok (ofExpr wrt (Text.trim heading.body) e)

/-- What stands in front of the derivative on its first line. -/
def question (d : Derivation) : List Char :=
  ['d', '/', 'd', d.wrt, ' '] ++ d.input ++ [' ']

/-- The derivative as it is found, on the first line. -/
def firstLine (d : Derivation) : List Char :=
  d.question ++ ['=', ' '] ++ d.raw.text

/-- The reduced derivative on a line of its own, under the other one. -/
def secondLine (d : Derivation) : List Char :=
  List.replicate d.question.length ' ' ++ ['=', ' '] ++ d.reduction.expr.text

/-- The rules that were used, one on a line. -/
def stepLines (d : Derivation) : List (List Char) :=
  match d.reduction.steps with
  | [] => ["steps: (none)".toList]
  | steps => "steps:".toList :: steps.map fun rule => ' ' :: ' ' :: rule.name.toList

/-- The lines a derivation is shown in. -/
def lines (d : Derivation) : Detail → List (List Char)
  | .raw => [d.firstLine]
  | .reduced => [d.firstLine, d.secondLine]
  | .steps => d.firstLine :: d.secondLine :: d.stepLines

/-- A derivation as it is shown, without a line end behind the last line. -/
def render (d : Derivation) (detail : Detail) : List Char :=
  List.intercalate ['\n'] (d.lines detail)

end Derivation

end Fluxion
