import Fluxion.Line.Derivation

/-!
# Reports

What the user is told about a problem: a headline, a label for the place it is
at, and, for most problems, a word of help.
-/

namespace Fluxion

namespace Fault

/-- What the place of a fault is marked with. -/
def label : Fault → String
  | unclosedParenthesis => "this parenthesis is not closed"
  | unopenedParenthesis => "this parenthesis was never opened"
  | missingOperand _ => "I expected to see an expression next to this"
  | missingOperator => "this operand is not joined to the rest of the expression"
  | unknownSymbol _ => "this name is not recognized"
  | unexpectedToken _ => "here"
  | numberOutOfRange _ => "this number is too large"
  | emptyExpression => "you might need to add an expression here"

/-- How to mend a fault. -/
def help? : Fault → Option String
  | unclosedParenthesis => some "add a closing parenthesis `)` somewhere after this"
  | unopenedParenthesis => some "add an opening parenthesis `(` somewhere before this"
  | missingOperand _ => none
  | missingOperator => some "write multiplication explicitly, e.g. `2 * x`"
  | unknownSymbol _ =>
    some ("variables are single letters, optionally with a coefficient such as `2x`; "
      ++ "functions must be followed by `(`")
  | unexpectedToken _ => some "the supported operators are `+ - * / ^`"
  | numberOutOfRange _ => some "numbers must be smaller than 1.7976931348623157e308"
  | emptyExpression => none

end Fault

namespace Problem

def label : Problem → String
  | unreadable fault => fault.label
  | tooManyVariables _ found =>
    "this expression uses " ++ String.intercalate ", " (found.map fun name => Text.quoted [name])

def help? : Problem → Option String
  | unreadable fault => fault.help?
  | tooManyVariables wrt _ =>
    some ("only " ++ Text.quoted [wrt] ++ " and one other variable may appear in the same expression")

end Problem

structure Report where
  headline : String
  /-- The first byte of the place the problem is at. -/
  offset : Nat
  label : String
  help : Option String
deriving DecidableEq, Repr

namespace Report

def ofProblem (p : Located Problem) : Report where
  headline := "Error: " ++ p.value.message
  offset := p.span.start
  label := p.value.label
  help := p.value.help?

/-- A report in lines of plain text. -/
def lines (r : Report) : List String :=
  [r.headline, "  at byte " ++ toString r.offset ++ ": " ++ r.label]
    ++ (r.help.map ("  help: " ++ ·)).toList

end Report

end Fluxion
