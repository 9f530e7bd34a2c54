import Fluxion.Expr.PostOrder

/-!
# Derivatives

The derivative of an expression with respect to a variable, by the rules of
calculus and with nothing tidied up. One other variable may occur: it is an
unknown function of the first, and its derivative is written as a leaf `dy/dx`.

Every rule builds the derivative of an expression from its parts and their
derivatives. The derivative of `u ^ v` with a variable in `v` is that of
`e ^ (v · ln u)`, whose exponent is no part of `u ^ v`; but the product rule and
the chain rule give the derivative of that exponent from the parts.
-/

namespace Fluxion

/-- The derivative of a function at the argument `u`. -/
def Func.derivative (f : Func) (u : Expr) : Expr :=
  let one : Expr := .number 1
  let negative (v : Expr) : Expr := .number 0 - v
  let squared : Expr := u ^ Expr.number 2
  let root (v : Expr) : Expr := v ^ (one / Expr.number 2)
  match f with
  | abs => u / .apply abs u
  | sin => .apply cos u
  | cos => negative (.apply sin u)
  | tan => .apply sec u ^ Expr.number 2
  | sec => .apply sec u * .apply tan u
  | csc => negative (.apply csc u * .apply cot u)
  | cot => negative (.apply csc u ^ Expr.number 2)
  | arcsin => one / root (one - squared)
  | arccos => negative (one / root (one - squared))
  | arctan => one / (squared + one)
  | arccot => negative (one / (squared + one))
  | arcsec => one / (.apply abs u * root (squared - one))
  | arccsc => negative (one / (.apply abs u * root (squared - one)))
  | ln | log none => one / u
  | log (some base) => one / (u * .apply ln (.leaf base.leaf))

/-- The derivative of a leaf: one for the variable of differentiation, an
unknown derivative for another variable, zero for anything else. -/
def Leaf.derivative (wrt : Char) : Leaf → Expr
  | var coefficient name =>
    if name = wrt then .number (coefficient.getD 1)
    else
      match coefficient with
      | none => .leibniz name wrt
      | some c => .number c * .leibniz name wrt
  | number _ | constant _ | leibniz _ _ => .number 0

theorem Leaf.derivative_of_letter?_eq_none {wrt : Char} {l : Leaf} (h : l.letter? = none) :
    l.derivative wrt = .number 0 := by
  cases l with
  | number _ | constant _ | leibniz _ _ => rfl
  | var _ _ => cases h

/-- An argument whose derivative is a factor in that of a call: more than a single letter,
and not known to be constant from its shape. -/
def Expr.IsInner : Expr → Prop
  | .var (some _) _ | .call _ _ _ | .binary _ _ _ => True
  | .var none _ | .number _ | .constant _ | .leibniz _ _ => False

/-- What a differentiation is about: its variable, and the one taken for an
unknown function of it. -/
structure Roles where
  wrt : Char
  other : Option Char

namespace Roles

/-- The value of an expression may change with the variable of differentiation. -/
def Affects (roles : Roles) (e : Expr) : Prop :=
  e.mentions roles.wrt = true ∨ roles.other.any e.mentions = true

instance (roles : Roles) (e : Expr) : Decidable (roles.Affects e) :=
  inferInstanceAs (Decidable (_ ∨ _))

/-- The derivative of `f(u)`, where `u'` is that of `u`. The factor `u'` is left
out where it is one, and stands in front where it is a single unknown. -/
def chain (roles : Roles) (f : Func) (u u' : Expr) : Expr :=
  match u with
  | .var none name =>
    if name = roles.wrt then f.derivative u
    else .leibniz name roles.wrt * f.derivative u
  | .var (some _) _ | .call _ _ _ | .binary _ _ _ => f.derivative u * u'
  | .number _ | .constant _ | .leibniz _ _ => .number 0

/-- The derivative of `u ^ v` where only `u` changes. -/
def powerRule (roles : Roles) (u v u' : Expr) : Expr :=
  let outer := (v * u) ^ (v - Expr.number 1)
  if u.isBare roles.wrt then outer else u' * outer

/-- The derivative of `u ^ v` where `v` changes. -/
def exponentialRule (roles : Roles) (u v u' v' : Expr) : Expr :=
  let logarithm := Expr.apply .ln u
  (Expr.constant .e) ^ (v * logarithm) * (v' * logarithm + v * roles.chain .ln u u')

def power (roles : Roles) (u v u' v' : Expr) : Expr :=
  if roles.Affects v then roles.exponentialRule u v u' v'
  else if roles.Affects u then roles.powerRule u v u'
  else .number 0

def derive (roles : Roles) : Expr → Expr
  | .leaf l => l.derivative roles.wrt
  | .call none f u => roles.chain f u (roles.derive u)
  | .call (some c) f u => .number c * roles.chain f u (roles.derive u)
  | .binary .add u v => roles.derive u + roles.derive v
  | .binary .sub u v => roles.derive u - roles.derive v
  | .binary .mul u v => roles.derive u * v + u * roles.derive v
  | .binary .div u v => (roles.derive u * v - u * roles.derive v) / v ^ Expr.number 2
  | .binary .pow u v => roles.power u v (roles.derive u) (roles.derive v)

/-- The exponent that the exponential rule writes a power with has the
derivative that the rule puts behind it. -/
theorem derive_exponent (roles : Roles) (u v : Expr) :
    roles.derive (v * Expr.apply .ln u)
      = roles.derive v * Expr.apply .ln u + v * roles.chain .ln u (roles.derive u) := rfl

/-- What becomes of a call: the derivative of the argument is a factor, or it is left
out where it is one, written down at once where it is an unknown, and not asked for
where it is zero. -/
theorem chain_cases (roles : Roles) (f : Func) (u u' : Expr) :
    (u.IsInner ∧ roles.chain f u u' = f.derivative u * u') ∨
    (u = .var none roles.wrt ∧ roles.chain f u u' = f.derivative u) ∨
    (∃ name, name ≠ roles.wrt ∧ u = .var none name ∧
      roles.chain f u u' = .leibniz name roles.wrt * f.derivative u) ∨
    ∃ l : Leaf, l.letter? = none ∧ u = .leaf l ∧ roles.chain f u u' = .number 0 := by
  match u with
  | .var (some _) _ | .call _ _ _ | .binary _ _ _ => exact Or.inl ⟨trivial, rfl⟩
  | .var none name =>
      refine Or.inr ?_
      by_cases hname : name = roles.wrt
      · subst hname
        exact Or.inl ⟨rfl, if_pos rfl⟩
      · exact Or.inr (Or.inl ⟨name, hname, rfl, if_neg hname⟩)
  | .number _ | .constant _ | .leibniz _ _ =>
      exact Or.inr (Or.inr (Or.inr ⟨_, rfl, rfl, rfl⟩))

end Roles

/-- The derivative of an expression with respect to the variable `wrt`. The
first other variable from the left is taken for an unknown function of it. -/
def Expr.derivative (e : Expr) (wrt : Char) : Expr :=
  Roles.derive ⟨wrt, e.letters.find? (· ≠ wrt)⟩ e

end Fluxion
