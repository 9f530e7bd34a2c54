import Fluxion.Decimal.Rounded
import Fluxion.Line.Derivation

/-!
# Tallies

How much shorter the derivatives of many lines become when they are reduced.
Two sizes are added up, the nodes of an expression and the characters of its
text. A tally keeps nothing but totals, so it does not depend on the order of
the lines. Lines without a derivation are counted and nothing else.
-/

namespace Fluxion

/-- Two sizes of an expression, or totals of them. -/
structure Size where
  nodes : Nat
  length : Nat
deriving DecidableEq, Repr

namespace Size

def ofExpr (e : Expr) : Size :=
  ⟨e.nodeCount, e.text.length⟩

instance : Add Size :=
  ⟨fun a b => ⟨a.nodes + b.nodes, a.length + b.length⟩⟩

end Size

/-- Totals over many derivatives, before and after reduction. -/
structure Tally where
  /-- The number of derivatives. -/
  count : Nat
  /-- The number of lines without one. -/
  failures : Nat
  raw : Size
  reduced : Size
deriving DecidableEq, Repr

namespace Tally

def empty : Tally :=
  ⟨0, 0, ⟨0, 0⟩, ⟨0, 0⟩⟩

/-- Adds a derivative and what it was reduced to. -/
def record (t : Tally) (raw reduced : Expr) : Tally :=
  { t with
    count := t.count + 1
    raw := t.raw + Size.ofExpr raw
    reduced := t.reduced + Size.ofExpr reduced }

/-- Adds a line without a derivation. -/
def recordFailure (t : Tally) : Tally :=
  { t with failures := t.failures + 1 }

def recordLine (t : Tally) (line : List Char) (default : Char) : Tally :=
  match Derivation.ofLine line default with
  | .ok d => t.record d.raw d.reduction.expr
  | .error _ => t.recordFailure

/-- A total divided by the number of derivatives, or zero if there are none. -/
def mean (t : Tally) (total : Nat) : Float :=
  if t.count = 0 then 0 else Float.ofNat total / Float.ofNat t.count

/-- By how many percent `after` is smaller than `before`. -/
def reduction (before after : Float) : Float :=
  if before == 0 then 0 else 100 * (1 - after / before)

/-- By how many percent the mean number of nodes has shrunk. -/
def nodeReduction (t : Tally) : Float :=
  reduction (t.mean t.raw.nodes) (t.mean t.reduced.nodes)

/-- By how many percent the mean length has shrunk. -/
def lengthReduction (t : Tally) : Float :=
  reduction (t.mean t.raw.length) (t.mean t.reduced.length)

/-- The larger of the two reductions in whole percent. -/
def largerReduction (t : Tally) : Int :=
  Decimal.wholeNumber
    (if t.lengthReduction < t.nodeReduction then t.nodeReduction else t.lengthReduction)

/-- The line between two parts of a tally. -/
def ruler : List Char :=
  List.replicate 53 '-'

/-- The lines a tally is shown in. Means and reductions have two places. -/
def lines (t : Tally) : List (List Char) :=
  let count (n : Nat) := Decimal.digits n
  let places (x : Float) := Decimal.fixed 2 x
  ["expressions: ".toList ++ count t.count ++ " (".toList ++ count t.failures
      ++ " failed)".toList,
   ruler,
   "raw output avg length: ".toList ++ places (t.mean t.raw.length) ++ " chars".toList,
   "simplified output avg length: ".toList ++ places (t.mean t.reduced.length)
      ++ " chars".toList,
   "length reduced: ".toList ++ places t.lengthReduction ++ ['%'],
   ruler,
   "raw output avg nodes: ".toList ++ places (t.mean t.raw.nodes),
   "simplified output avg nodes: ".toList ++ places (t.mean t.reduced.nodes),
   "nodes reduced: ".toList ++ places t.nodeReduction ++ ['%'],
   ruler,
   "larger percentage: ".toList ++ (toString t.largerReduction).toList ++ ['%']]

/-- A tally as it is shown, without a line end behind the last line. -/
def render (t : Tally) : List Char :=
  List.intercalate ['\n'] t.lines

end Tally

end Fluxion
