import Fluxion.Expr.Name

/-!
# The text of an expression

An operator below the top of an expression stands in parentheses, a leaf or a
function never does. The argument of a function counts as below the top, so an
operator there has two pairs around it: `sin((x + 1))`.
-/

namespace Fluxion

/-- The text of a coefficient, which is empty if there is none. -/
def coefficientText (coefficient : Option Float) : List Char :=
  coefficient.elim [] Decimal.text

def Leaf.text : Leaf → List Char
  | number n => Decimal.text n
  | constant c => c.name
  | var coefficient name => coefficientText coefficient ++ [name]
  | leibniz of wrt => ['d', of, '/', 'd', wrt]

namespace Expr

/-- The text of an expression below the top of another one. -/
def inner : Expr → List Char
  | leaf l => l.text
  | call coefficient func arg =>
    coefficientText coefficient ++ func.name ++ '(' :: (arg.inner ++ [')'])
  | binary op lhs rhs =>
    '(' :: (lhs.inner ++ ' ' :: op.symbol :: ' ' :: (rhs.inner ++ [')']))

def text : Expr → List Char
  | binary op lhs rhs => lhs.inner ++ ' ' :: op.symbol :: ' ' :: rhs.inner
  | e => e.inner

/-- The two texts of an operator differ in the parentheses around it. -/
theorem inner_binary (op : Operator) (lhs rhs : Expr) :
    (binary op lhs rhs).inner = '(' :: ((binary op lhs rhs).text ++ [')']) := by
  simp [inner, text]

end Expr

end Fluxion
