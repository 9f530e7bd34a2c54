import Fluxion.Decimal.Binary
import Fluxion.Decimal.Digits

/-!
# Rounding

Floats rounded to a number of places or to a whole number. Both round the
exact value of the float, and differ in what they do with a tie: places go to
the even neighbour, whole numbers away from zero.
-/

namespace Fluxion.Decimal

/-- Where a value halfway between two neighbours goes. -/
inductive Tie where
  | toEven
  | awayFromZero
deriving DecidableEq, Repr

/-- The quotient `num / den` rounded to the nearest natural number. -/
def roundDiv (num den : Nat) (tie : Tie) : Nat :=
  let below := num / den
  match compare (2 * (num % den)) den, tie with
  | .lt, _ => below
  | .gt, _ => below + 1
  | .eq, .awayFromZero => below + 1
  | .eq, .toEven => below + below % 2

/-- The number of multiples of `10 ^ e` nearest to `b`. -/
def Binary.round (b : Binary) (e : Int) (tie : Tie) : Nat :=
  roundDiv (b.numerator e) (b.denominator e) tie

/-- The text of a number with exactly `places` digits behind the point. A
negative number keeps its sign even where only zeros are left of it. -/
def fixed (places : Nat) (x : Float) : List Char :=
  let sign := if isNegative x then ['-'] else []
  match Binary.ofFloat? x with
  | some b => sign ++ pointed places (b.round (-places) .toEven)
  | none => if x.isNaN then ['N', 'a', 'N'] else sign ++ ['i', 'n', 'f']

/-- The whole number nearest to `x`. Infinities and NaN have none and give zero. -/
def wholeNumber (x : Float) : Int :=
  match Binary.ofFloat? x with
  | some b =>
    let n := b.round 0 .awayFromZero
    if isNegative x then -n else n
  | none => 0

end Fluxion.Decimal
