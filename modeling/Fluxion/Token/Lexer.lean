import Fluxion.Text.Blank
import Fluxion.Token.Basic

/-!
# Cutting a text into tokens

Each kind of token has a pattern, and the next token of a text is the longest
start of it that fits any pattern. A character that begins no pattern is a
`symbol` of its own. The patterns are

* blank: one or more spaces, tabs and line ends;
* operators and parentheses: one character each;
* number: `-?[0-9]+(\.[0-9]+)?`;
* name: `-?([0-9]+(\.[0-9]+)?)?[a-zA-Z][a-zA-Z0-9_.]*`;
* leibniz: `d[a-zA-Z]/d[a-zA-Z]`.

A minus is taken into the number or name behind it, which is wrong in `x-1`.
So the tokens are gone through once more: a number or name with a minus in
front that comes right after an operand is split into an operator and the rest.
-/

namespace Fluxion.Token

/-- The characters that separate tokens. -/
def isSpace (c : Char) : Bool :=
  c == ' ' || c == '\t' || c == '\n' || c == '\r'

/-- The characters of a name behind its first letter. -/
def isNameChar (c : Char) : Bool :=
  c.isAlphanum || c == '_' || c == '.'

/-- The length of the longest start of a text whose characters all satisfy `p`. -/
def runLength (p : Char → Bool) (cs : List Char) : Nat :=
  (cs.takeWhile p).length

/-- One for a minus at the start of a text. -/
def signLength : List Char → Nat
  | '-' :: _ => 1
  | _ => 0

/-- The length of the longest unsigned decimal at the start of a text: digits,
and a point if digits follow it too. -/
def decimalLength (cs : List Char) : Nat :=
  let whole := runLength Char.isDigit cs
  match cs.drop whole with
  | '.' :: rest =>
    let part := runLength Char.isDigit rest
    if whole = 0 ∨ part = 0 then whole else whole + 1 + part
  | _ => whole

/-- The length of the longest start of a text that is a number. -/
def numberLength (cs : List Char) : Nat :=
  let sign := signLength cs
  let body := decimalLength (cs.drop sign)
  if body = 0 then 0 else sign + body

/-- The length of the longest start of a text that is a name. -/
def nameLength (cs : List Char) : Nat :=
  let sign := signLength cs
  let coefficient := decimalLength (cs.drop sign)
  match cs.drop (sign + coefficient) with
  | c :: rest => if c.isAlpha then sign + coefficient + 1 + runLength isNameChar rest else 0
  | [] => 0

/-- The length of the longest start of a text that is an unknown derivative. -/
def leibnizLength : List Char → Nat
  | 'd' :: of :: '/' :: 'd' :: wrt :: _ => if of.isAlpha && wrt.isAlpha then 5 else 0
  | _ => 0

/-- The length of the longest start of a text that is the character `c`. -/
def charLength (c : Char) : List Char → Nat
  | first :: _ => if first = c then 1 else 0
  | [] => 0

namespace Kind

def patterns : List Kind :=
  [blank] ++ Operator.all.map operator ++ [openParen, closeParen, number, name, leibniz]

/-- The length of the longest start of a text that fits the pattern of a kind,
or zero if no start fits it. -/
def matchLength : Kind → List Char → Nat
  | blank, cs => runLength isSpace cs
  | operator op, cs => charLength op.symbol cs
  | openParen, cs => charLength '(' cs
  | closeParen, cs => charLength ')' cs
  | number, cs => numberLength cs
  | name, cs => nameLength cs
  | leibniz, cs => leibnizLength cs
  | symbol, _ => 0

end Kind

/-- A kind of token and a length in characters. -/
structure Match where
  kind : Kind
  length : Nat
deriving DecidableEq, Repr

/-- The longest match of any of the given kinds, or `best` if none is longer. -/
def longest (cs : List Char) (best : Match) : List Kind → Match
  | [] => best
  | kind :: kinds =>
    let length := kind.matchLength cs
    longest cs (if best.length < length then ⟨kind, length⟩ else best) kinds

/-- The next token of a text that is not empty. -/
def next (cs : List Char) : Match :=
  let best := longest cs ⟨.symbol, 0⟩ Kind.patterns
  if best.length = 0 then ⟨.symbol, 1⟩ else best

theorem next_length_pos (cs : List Char) : 0 < (next cs).length := by
  simp only [next]
  split
  next => exact Nat.one_pos
  next h => exact Nat.pos_of_ne_zero h

/-- The tokens of a text that starts at `offset`, with every minus left where
the patterns put it. -/
def scanFrom (offset : Nat) (cs : List Char) : List Token :=
  match cs with
  | [] => []
  | c :: rest =>
    let m := next (c :: rest)
    let lexeme := (c :: rest).take m.length
    let stop := offset + Text.byteLength lexeme
    ⟨m.kind, ⟨offset, stop⟩, lexeme⟩ :: scanFrom stop ((c :: rest).drop m.length)
termination_by cs.length
decreasing_by
  have := next_length_pos (c :: rest)
  simp only [List.length_drop, List.length_cons]
  omega

/-- The tokens of a text, with every minus left where the patterns put it. -/
def scan (cs : List Char) : List Token :=
  scanFrom 0 cs

/-- A number or name that starts with a minus, taken apart into the minus and
the rest. -/
def unsign? (t : Token) : Option (Token × Token) :=
  match t.kind, t.lexeme with
  | .number, '-' :: rest | .name, '-' :: rest =>
    let middle := t.span.start + 1
    some (⟨.operator .sub, ⟨t.span.start, middle⟩, ['-']⟩,
      ⟨t.kind, ⟨middle, t.span.stop⟩, rest⟩)
  | _, _ => none

/-- Splits the signs off that follow an operand. The flag tells whether the
nearest token before the list that is not blank ends an operand. -/
def splitSigns (afterOperand : Bool) : List Token → List Token
  | [] => []
  | t :: ts =>
    match t.unsign?, afterOperand with
    | some (minus, rest), true => minus :: rest :: splitSigns rest.endsOperand ts
    | _, _ => t :: splitSigns (if t.isBlank then afterOperand else t.endsOperand) ts

def tokenize (cs : List Char) : List Token :=
  splitSigns false (scan cs)

end Fluxion.Token
