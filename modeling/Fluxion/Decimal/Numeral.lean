import Fluxion.Decimal.Digits

/-!
# Reading numbers

The texts that stand for a number: an optional sign, and then one of the words
`inf`, `infinity` and `nan` in any case, or digits with an optional point and
an optional exponent. A digit has to stand on at least one side of the point.
Nothing else is a number: no blanks, no separators, no other base, and no
digits beyond ASCII.

The value is the float nearest to what is written, however long it is; what is
too large reads as infinity.
-/

namespace Fluxion.Decimal

/-- The float nearest to `m · 10 ^ exponent`. -/
def nearest (m : Nat) (exponent : Int) : Float :=
  Float.ofModel (Float.Model.ofScientific m exponent)

/-- The words for numbers that have no digits. -/
def word? (cs : List Char) : Option Float :=
  match cs.map Char.toLower with
  | ['i', 'n', 'f'] => some (1 / 0)
  | ['i', 'n', 'f', 'i', 'n', 'i', 't', 'y'] => some (1 / 0)
  | ['n', 'a', 'n'] => some (0 / 0)
  | _ => none

/-- A row of digits that is not empty and has nothing behind it. -/
def natural? (cs : List Char) : Option Nat :=
  if cs ≠ [] ∧ cs.all Char.isDigit then some (value cs) else none

/-- What may follow the digits: nothing, or an exponent. -/
def exponent? : List Char → Option Int
  | [] => some 0
  | c :: rest =>
    if c = 'e' ∨ c = 'E' then
      match rest with
      | '-' :: ds => (natural? ds).map fun n => -(n : Int)
      | '+' :: ds => (natural? ds).map fun n => (n : Int)
      | ds => (natural? ds).map fun n => (n : Int)
    else none

/-- The digits behind the point, if there is a point, and what follows them. -/
def fraction : List Char → List Char × List Char
  | '.' :: rest => rest.span Char.isDigit
  | rest => ([], rest)

/-- Digits with an optional point and an optional exponent. -/
def unsigned? (cs : List Char) : Option Float :=
  let whole := cs.takeWhile Char.isDigit
  let (part, rest) := fraction (cs.dropWhile Char.isDigit)
  if whole = [] ∧ part = [] then none
  else (exponent? rest).map fun e => nearest (value (whole ++ part)) (e - part.length)

def magnitude? (cs : List Char) : Option Float :=
  (word? cs).or (unsigned? cs)

/-- The number that a text stands for, if it is one. -/
def read? : List Char → Option Float
  | '-' :: cs => (magnitude? cs).map fun x => -x
  | '+' :: cs => magnitude? cs
  | cs => magnitude? cs

end Fluxion.Decimal
