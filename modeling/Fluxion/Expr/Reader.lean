import Fluxion.Expr.Basic
import Fluxion.Fault
import Fluxion.Token.Lexer

/-!
# Reading expressions

An expression is built from its tokens from left to right, on two stacks: the
operands that are complete, and above which of them something still waits, be it
an operator, a function or an open parenthesis. An operator that comes in first
lets those before it take their operands that bind at least as tightly; a closing
parenthesis does so with everything back to the one it closes.

A flag says whether an operand may start. Every complaint is about what waits on
top of the stack or about the token at hand, and the first one ends the reading.
-/

namespace Fluxion

namespace Token

/-- Whether a number, or the number in front of a name, is too large for a float. -/
def isOutOfRange (t : Token) : Bool :=
  match t.kind with
  | .number => (Decimal.read? t.lexeme).any fun n => !n.isFinite
  | .name => (SplitName.ofName? t.lexeme).any fun split => !split.isFinite
  | _ => false

/-- The leaf that a token stands for. -/
def leaf? (t : Token) : Option Leaf :=
  match t.kind with
  | .number => (Decimal.read? t.lexeme).map Leaf.number
  | .leibniz => Leaf.ofLeibniz? t.lexeme
  | _ => Leaf.ofName? t.lexeme

end Token

/-- Something that waits for its operands. -/
inductive Pending where
  | operator (op : Operator) (span : Span)
  | func (call : CallName) (name : List Char) (span : Span)
  | paren (span : Span)

namespace Pending

/-- Whether an open parenthesis is waiting. -/
def isParen : Pending → Bool
  | paren _ => true
  | _ => false

/-- Whether what waits takes its operands before the operator `op` does. -/
def yieldsTo (op : Operator) : Pending → Bool
  | operator top _ => decide (top.Before op)
  | _ => false

/-- Gives what waits its operands from the top of the stack. -/
def merge : Pending → List Expr → Except (Located Fault) (List Expr)
  | operator op _, rhs :: lhs :: operands => .ok (.binary op lhs rhs :: operands)
  | operator op span, _ => .error ⟨.missingOperand [op.symbol], span⟩
  | func call _ _, arg :: operands => .ok (.call call.coefficient call.func arg :: operands)
  | func _ name span, [] => .error ⟨.missingOperand name, span⟩
  | paren span, _ => .error ⟨.unclosedParenthesis, span⟩

/-- What is wrong when an operand is missing, given what waits for it and where
the text ends. An open parenthesis stands for the function it belongs to. -/
def missing (eof : Span) : List Pending → Located Fault
  | operator op span :: _ => ⟨.missingOperand [op.symbol], span⟩
  | func _ name span :: _ => ⟨.missingOperand name, span⟩
  | paren span :: func _ name _ :: _ => ⟨.missingOperand name, span⟩
  | paren span :: _ => ⟨.missingOperand ['('], span⟩
  | [] => ⟨.emptyExpression, eof⟩

end Pending

/-- The two stacks of the reader, top first. -/
structure Stacks where
  operands : List Expr
  pending : List Pending

namespace Stacks

/-- Gives everything its operands that waits on top and satisfies `p`. -/
def mergeWhile (p : Pending → Bool) (operands : List Expr) :
    List Pending → Except (Located Fault) Stacks
  | [] => .ok ⟨operands, []⟩
  | top :: pending =>
    if p top then do
      let operands ← top.merge operands
      mergeWhile p operands pending
    else .ok ⟨operands, top :: pending⟩

/-- Completes a function whose argument has just been closed. -/
def closeCall (s : Stacks) : Except (Located Fault) Stacks :=
  match s.pending with
  | .func call name span :: pending => do
    let operands ← (Pending.func call name span).merge s.operands
    return ⟨operands, pending⟩
  | _ => .ok s

end Stacks

/-- A reading under way: the stacks, and whether an operand has to come next. -/
structure Reading extends Stacks where
  expectsOperand : Bool

namespace Reading

/-- A reading that is about to begin. -/
def start : Reading :=
  ⟨⟨[], []⟩, true⟩

/-- Takes a leaf. -/
def takeLeaf (r : Reading) (t : Token) : Except (Located Fault) Reading :=
  match t.leaf? with
  | none => .error ⟨.unknownSymbol t.lexeme, t.span⟩
  | some leaf =>
    if r.expectsOperand then .ok ⟨⟨.leaf leaf :: r.operands, r.pending⟩, false⟩
    else .error ⟨.missingOperator, t.span⟩

/-- Takes the name of a function, which an open parenthesis has to follow. -/
def takeCall (r : Reading) (t : Token) (call : CallName) (upcoming : Option Token.Kind) :
    Except (Located Fault) Reading :=
  if !r.expectsOperand then .error ⟨.missingOperator, t.span⟩
  else if upcoming ≠ some .openParen then .error ⟨.unknownSymbol t.lexeme, t.span⟩
  else .ok ⟨⟨r.operands, .func call t.lexeme t.span :: r.pending⟩, true⟩

/-- Takes an open parenthesis. -/
def takeOpen (r : Reading) (t : Token) : Except (Located Fault) Reading :=
  if r.expectsOperand then .ok ⟨⟨r.operands, .paren t.span :: r.pending⟩, true⟩
  else .error ⟨.missingOperator, t.span⟩

/-- Takes a closing parenthesis. -/
def takeClose (r : Reading) (eof : Span) (t : Token) : Except (Located Fault) Reading :=
  if r.expectsOperand then .error (Pending.missing eof r.pending)
  else do
    let merged ← Stacks.mergeWhile (fun p => !p.isParen) r.operands r.pending
    match merged.pending with
    | [] => .error ⟨.unopenedParenthesis, t.span⟩
    | _ :: pending =>
      let closed ← Stacks.closeCall ⟨merged.operands, pending⟩
      return ⟨closed, false⟩

/-- Takes an operator. -/
def takeOperator (r : Reading) (t : Token) (op : Operator) : Except (Located Fault) Reading :=
  if r.expectsOperand then .error ⟨.missingOperand [op.symbol], t.span⟩
  else do
    let merged ← Stacks.mergeWhile (Pending.yieldsTo op) r.operands r.pending
    return ⟨⟨merged.operands, .operator op t.span :: merged.pending⟩, true⟩

/-- Takes one token. The kind of the token behind it, blanks aside, decides
whether a name can call a function. -/
def take (r : Reading) (eof : Span) (t : Token) (upcoming : Option Token.Kind) :
    Except (Located Fault) Reading :=
  if t.isOutOfRange then .error ⟨.numberOutOfRange t.lexeme, t.span⟩
  else
    match t.kind with
    | .number | .leibniz => r.takeLeaf t
    | .name =>
      match CallName.ofName? t.lexeme with
      | some call => r.takeCall t call upcoming
      | none => r.takeLeaf t
    | .openParen => r.takeOpen t
    | .closeParen => r.takeClose eof t
    | .operator op => r.takeOperator t op
    | .symbol => .error ⟨.unexpectedToken t.lexeme, t.span⟩
    | .blank => .ok r

/-- Takes tokens, none of them blank, up to the end. -/
def takeAll (r : Reading) (eof : Span) : List Token → Except (Located Fault) Reading
  | [] => .ok r
  | t :: ts => do
    let r ← r.take eof t (ts.head?.map (·.kind))
    r.takeAll eof ts

/-- The expression that has been read once the tokens are at an end. -/
def finish (r : Reading) (eof : Span) : Except (Located Fault) Expr :=
  if r.expectsOperand then .error (Pending.missing eof r.pending)
  else do
    let merged ← Stacks.mergeWhile (fun p => !p.isParen) r.operands r.pending
    match merged.pending, merged.operands with
    | .paren span :: _, _ => .error ⟨.unclosedParenthesis, span⟩
    | _, [e] => .ok e
    | _, [] => .error ⟨.emptyExpression, eof⟩
    | _, _ :: _ :: _ => .error ⟨.missingOperator, eof⟩

end Reading

namespace Expr

/-- The expression that a list of tokens stands for. -/
def ofTokens (ts : List Token) : Except (Located Fault) Expr :=
  let eof := Token.endSpan ts
  match Token.visible ts with
  | [] => .error ⟨.emptyExpression, eof⟩
  | visible => do
    let r ← Reading.start.takeAll eof visible
    r.finish eof

/-- The expression that a text stands for. -/
def read (cs : List Char) : Except (Located Fault) Expr :=
  ofTokens (Token.tokenize cs)

end Expr

end Fluxion
