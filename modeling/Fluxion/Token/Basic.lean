import Fluxion.Expr.Name

/-!
# Tokens

The pieces a text is read in. Positions are byte offsets in the text.
-/

namespace Fluxion

/-- A stretch of a text, from the first byte to just past the last. -/
structure Span where
  start : Nat
  stop : Nat
deriving DecidableEq, Repr

namespace Span

/-- The span that lies `offset` bytes further on. -/
def shift (offset : Nat) (s : Span) : Span :=
  ⟨offset + s.start, offset + s.stop⟩

/-- The empty span at a position. -/
def point (position : Nat) : Span :=
  ⟨position, position⟩

end Span

namespace Token

inductive Kind where
  | blank
  | operator (op : Operator)
  | openParen
  | closeParen
  | number
  /-- A constant, variable or function. -/
  | name
  /-- An unknown derivative such as `dy/dx`. -/
  | leibniz
  /-- A character that no expression contains. -/
  | symbol
deriving DecidableEq, Repr

end Token

/-- A token: its kind, where it stands, and how it is written. -/
structure Token where
  kind : Token.Kind
  span : Span
  lexeme : List Char
deriving DecidableEq, Repr

namespace Token

def isBlank (t : Token) : Bool :=
  t.kind == .blank

/-- Whether an operand is complete after a token, so that an operator has to
follow. A name completes an operand unless it calls a function. -/
def endsOperand (t : Token) : Bool :=
  match t.kind with
  | .number | .leibniz | .closeParen => true
  | .name => (CallName.ofName? t.lexeme).isNone
  | .blank | .operator _ | .openParen | .symbol => false

def visible (ts : List Token) : List Token :=
  ts.filter fun t => !t.isBlank

/-- The place behind the last token. -/
def endSpan (ts : List Token) : Span :=
  .point (ts.getLast?.elim 0 (·.span.stop))

end Token

end Fluxion
