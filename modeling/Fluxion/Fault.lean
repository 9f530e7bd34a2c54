import Fluxion.Text.Quoted
import Fluxion.Token.Basic

/-!
# Faults

Why a text is no expression, each with the place it is found at.
-/

namespace Fluxion

inductive Fault where
  /-- A parenthesis is opened and not closed. -/
  | unclosedParenthesis
  /-- A parenthesis is closed that was not opened. -/
  | unopenedParenthesis
  /-- Something waits for an operand that does not come, named as it is written. -/
  | missingOperand (waiting : List Char)
  /-- Two operands stand next to each other. -/
  | missingOperator
  /-- A name means nothing. -/
  | unknownSymbol (name : List Char)
  /-- A character belongs in no expression. -/
  | unexpectedToken (lexeme : List Char)
  /-- A number, or the number in front of a name, is too large for a float. -/
  | numberOutOfRange (lexeme : List Char)
  /-- There is nothing to read. -/
  | emptyExpression
deriving DecidableEq, Repr

/-- Something together with the stretch of text it is about. -/
structure Located (α : Type) where
  value : α
  span : Span
deriving DecidableEq, Repr

namespace Located

/-- The same thing in a text that has `offset` more bytes in front. -/
def shift {α : Type} (offset : Nat) (x : Located α) : Located α :=
  { x with span := x.span.shift offset }

/-- Changes what is said and keeps where. -/
def map {α β : Type} (f : α → β) (x : Located α) : Located β :=
  ⟨f x.value, x.span⟩

end Located

namespace Fault

def message : Fault → String
  | unclosedParenthesis | unopenedParenthesis => "unclosed parenthesis"
  | missingOperand waiting => "missing operand for " ++ Text.quoted waiting
  | missingOperator => "missing operator between operands"
  | unknownSymbol name => "unknown symbol " ++ Text.quoted name
  | unexpectedToken lexeme => "unexpected token " ++ Text.quoted lexeme
  | numberOutOfRange lexeme => "number out of range in " ++ Text.quoted lexeme
  | emptyExpression => "empty expression"

end Fault

end Fluxion
