/-!
# What a float stands for

A finite float is a natural number times a power of two, with a sign. This is
where exact arithmetic on floats starts: everything that is written about a
float is worked out on the two numbers of its `Binary`.
-/

namespace Fluxion.Decimal

/-- The magnitude `mantissa · 2 ^ exponent`. -/
structure Binary where
  mantissa : Nat
  exponent : Int
deriving DecidableEq, Repr

/-- The magnitude of a finite float. Infinities and NaN have none. -/
def Binary.ofFloat? (x : Float) : Option Binary :=
  match x.toModel.unpack with
  | .zero _ => some ⟨0, 0⟩
  | .finite _ m e _ => some ⟨m, e⟩
  | .infinity _ => none
  | .notANumber => none

/-- Whether a float has a minus sign. The negative zero has one, NaN has none. -/
def isNegative (x : Float) : Bool :=
  match x.toModel.unpack with
  | .zero s => s == .negative
  | .finite s _ _ _ => s == .negative
  | .infinity s => s == .negative
  | .notANumber => false

namespace Binary

/-- The numerator of `b / 10 ^ e`, over `b.denominator e`. -/
def numerator (b : Binary) (e : Int) : Nat :=
  b.mantissa * Nat.pow 2 b.exponent.toNat * Nat.pow 10 (-e).toNat

/-- The denominator of `b / 10 ^ e`, under `b.numerator e`. -/
def denominator (b : Binary) (e : Int) : Nat :=
  Nat.pow 2 (-b.exponent).toNat * Nat.pow 10 e.toNat

/-- The number of times `10 ^ e` goes into `b`. -/
def floor (b : Binary) (e : Int) : Nat :=
  b.numerator e / b.denominator e

/-- `b` lies below the middle between its two neighbours among the multiples of
`10 ^ e`. -/
abbrev InLowerHalf (b : Binary) (e : Int) : Prop :=
  2 * b.numerator e < (2 * b.floor e + 1) * b.denominator e

end Binary

end Fluxion.Decimal
