import Fluxion.Decimal.Binary
import Fluxion.Decimal.Numeral

/-!
# The shortest text of a number

A number is written with the fewest digits that read back to it, positionally,
however many zeros that takes: an exponent is never used. A whole number has
no point, and both zeros are written `0`.

The search is the definition turned round. The multiples of `10 ^ e` form a
grid, and of all points of a grid only the two neighbours of the number can be
the nearest that reads back. Grids are tried from coarse to fine, and the first
one with a neighbour that reads back has the fewest digits. Of two such
neighbours the nearer one is taken, and the upper one if they are equally near.
-/

namespace Fluxion.Decimal

/-- The decimal `n · 10 ^ e` reads as `x`. -/
abbrev ReadsAs (x : Float) (n : Nat) (e : Int) : Prop :=
  (nearest n e == x) = true

/-- The neighbour of `b` among the multiples of `10 ^ e` that reads as `x`, in
those multiples. -/
def neighbour? (x : Float) (b : Binary) (e : Int) : Option Nat :=
  if ReadsAs x (b.floor e) e ∧ (b.InLowerHalf e ∨ ¬ ReadsAs x (b.floor e + 1) e) then
    some (b.floor e)
  else if ReadsAs x (b.floor e + 1) e then
    some (b.floor e + 1)
  else none

theorem readsAs_of_neighbour? {x : Float} {b : Binary} {e : Int} {n : Nat}
    (h : neighbour? x b e = some n) : ReadsAs x n e := by
  unfold neighbour? at h
  split at h
  next hb => cases h; exact hb.1
  next =>
    split at h
    next ha => cases h; exact ha
    next => cases h

/-- The exponents of the grids to try, from coarse to fine. The first grid has
no point but zero below `b`, which is smaller than `2 ^ bits`, and the last is
finer than the seventeen digits that tell any two floats apart. -/
def grids (b : Binary) : List Int :=
  let bits : Int := b.mantissa.log2 + 1 + b.exponent
  let top := bits * 30103 / 100000 + 1
  (List.range 20).map fun (i : Nat) => top - i

/-- A number of digits and the exponent they are scaled by. -/
structure Scaled where
  digits : Nat
  exponent : Int
deriving DecidableEq, Repr

/-- The exact decimal value of `b`. -/
def Binary.exact (b : Binary) : Scaled where
  digits := b.mantissa * Nat.pow 2 b.exponent.toNat * Nat.pow 5 (-b.exponent).toNat
  exponent := min b.exponent 0

/-- The shortest decimal that reads as `x`, whose magnitude is `b`. -/
def shortest (x : Float) (b : Binary) : Scaled :=
  ((grids b).findSome? fun e => (neighbour? x b e).map fun n => ⟨n, e⟩).getD b.exact

def text (x : Float) : List Char :=
  let sign := if isNegative x then ['-'] else []
  match Binary.ofFloat? x with
  | some b =>
    if b.mantissa = 0 then ['0']
    else
      let d := shortest x.abs b
      sign ++ positional d.digits d.exponent
  | none => if x.isNaN then ['N', 'a', 'N'] else sign ++ ['i', 'n', 'f']

end Fluxion.Decimal
