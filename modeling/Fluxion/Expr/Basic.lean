import Fluxion.Operator

/-!
# Expressions

An expression is a leaf, a function applied to one argument, or a binary
operator between two operands. Variables are single letters. A number may stand
directly in front of a variable or a function, as in `2x` and `3sin(x)`: that
coefficient is part of the node, and a missing one is not the same as `1`.

Two expressions are compared with `==`, which compares their numbers as numbers:
the two zeros are equal, and NaN is not equal to itself.
-/

namespace Fluxion

inductive Constant where
  | pi
  | e
deriving DecidableEq, Repr

inductive Base where
  | number (n : Float)
  | constant (c : Constant)
deriving BEq, Repr

/-- A function of one argument. -/
inductive Func where
  | abs
  | sin
  | cos
  | tan
  | sec
  | csc
  | cot
  | arcsin
  | arccos
  | arctan
  | arcsec
  | arccsc
  | arccot
  | ln
  /-- A logarithm; without a base it is the logarithm to base ten. -/
  | log (base : Option Base)
deriving BEq, Repr

inductive Leaf where
  | number (n : Float)
  | constant (c : Constant)
  | var (coefficient : Option Float) (name : Char)
  /-- The unknown derivative of the variable `of` with respect to `wrt`. -/
  | leibniz (of wrt : Char)
deriving BEq, Repr

inductive Expr where
  | leaf (l : Leaf)
  | call (coefficient : Option Float) (func : Func) (arg : Expr)
  | binary (op : Operator) (lhs rhs : Expr)
deriving BEq, Repr

namespace Base

/-- The base as an expression of its own. -/
def leaf : Base → Leaf
  | number n => .number n
  | constant c => .constant c

end Base

namespace Leaf

def number? : Leaf → Option Float
  | number n => some n
  | _ => none

def letter? : Leaf → Option Char
  | var _ name => some name
  | _ => none

end Leaf

namespace Expr

@[match_pattern] abbrev number (n : Float) : Expr :=
  leaf (.number n)

@[match_pattern] abbrev constant (c : Constant) : Expr :=
  leaf (.constant c)

@[match_pattern] abbrev var (coefficient : Option Float) (name : Char) : Expr :=
  leaf (.var coefficient name)

/-- The unknown derivative of `of` with respect to `wrt`. -/
@[match_pattern] abbrev leibniz (of wrt : Char) : Expr :=
  leaf (.leibniz of wrt)

/-- A function without a coefficient, applied to `arg`. -/
@[match_pattern] abbrev apply (func : Func) (arg : Expr) : Expr :=
  call none func arg

instance : Add Expr := ⟨binary .add⟩
instance : Sub Expr := ⟨binary .sub⟩
instance : Mul Expr := ⟨binary .mul⟩
instance : Div Expr := ⟨binary .div⟩
instance : HPow Expr Expr Expr := ⟨binary .pow⟩

theorem add_def (a b : Expr) : a + b = binary .add a b := rfl

theorem sub_def (a b : Expr) : a - b = binary .sub a b := rfl

theorem mul_def (a b : Expr) : a * b = binary .mul a b := rfl

theorem div_def (a b : Expr) : a / b = binary .div a b := rfl

theorem pow_def (a b : Expr) : a ^ b = binary .pow a b := rfl

/-- The number in an expression, if it is nothing but a number. -/
def number? : Expr → Option Float
  | leaf l => l.number?
  | _ => none

def isNumber (e : Expr) (n : Float) : Bool :=
  e.number?.any (· == n)

/-- The letter of an expression, if it is nothing but a variable. -/
def letter? : Expr → Option Char
  | leaf l => l.letter?
  | _ => none

/-- The coefficient and letter of an expression, if it is nothing but a
variable. A missing coefficient counts as one. -/
def term? : Expr → Option (Float × Char)
  | leaf (.var c name) => some (c.getD 1, name)
  | _ => none

/-- Whether an expression is the variable `name` without a coefficient. -/
def isBare (e : Expr) (name : Char) : Bool :=
  match e with
  | leaf (.var none n) => n == name
  | _ => false

end Expr

/-! ## Equal expressions

Expressions that are equal have the same shape, and differ only in numbers that
are equal. -/

@[elab_as_elim] theorem Func.rec_of_beq {motive : Func → Func → Prop} (refl : ∀ f, motive f f)
    (log : ∀ m n, (m == n) = true →
      motive (.log (some (.number m))) (.log (some (.number n)))) :
    ∀ {f g : Func}, (f == g) = true → motive f g := by
  intro f g h
  cases f with
  | log base =>
      match g, base with
      | .log none, none => exact refl _
      | .log (some (.constant c)), some (.constant c') =>
          obtain rfl : c' = c := of_decide_eq_true h
          exact refl _
      | .log (some (.number n)), some (.number m) => exact log m n h
      | .log (some _), none | .log none, some _ => cases h
  | _ => cases g <;> first | exact refl _ | cases h

@[elab_as_elim] theorem Leaf.rec_of_beq {motive : Leaf → Leaf → Prop}
    (number : ∀ m n, (m == n) = true → motive (.number m) (.number n))
    (constant : ∀ c, motive (.constant c) (.constant c))
    (var : ∀ c d name, (c == d) = true → motive (.var c name) (.var d name))
    (leibniz : ∀ of wrt, motive (.leibniz of wrt) (.leibniz of wrt)) :
    ∀ {l l' : Leaf}, (l == l') = true → motive l l' := by
  intro l l' h
  match l, l' with
  | .number m, .number n => exact number m n h
  | .constant c, .constant c' =>
      obtain rfl : c = c' := of_decide_eq_true h
      exact constant c
  | .var c name, .var d name' =>
      obtain ⟨hc, hname⟩ := Bool.and_eq_true_iff.mp h
      obtain rfl : name = name' := of_decide_eq_true hname
      exact var c d name hc
  | .leibniz of wrt, .leibniz of' wrt' =>
      obtain ⟨hof, hwrt⟩ := Bool.and_eq_true_iff.mp h
      obtain rfl : of = of' := of_decide_eq_true hof
      obtain rfl : wrt = wrt' := of_decide_eq_true hwrt
      exact leibniz of wrt
  | .number _, .constant _ | .number _, .var _ _ | .number _, .leibniz _ _
  | .constant _, .number _ | .constant _, .var _ _ | .constant _, .leibniz _ _
  | .var _ _, .number _ | .var _ _, .constant _ | .var _ _, .leibniz _ _
  | .leibniz _ _, .number _ | .leibniz _ _, .constant _ | .leibniz _ _, .var _ _ => cases h

@[elab_as_elim] theorem Expr.rec_of_beq {motive : Expr → Expr → Prop}
    (leaf : ∀ l l', (l == l') = true → motive (.leaf l) (.leaf l'))
    (call : ∀ c d f g a b, (c == d) = true → (f == g) = true → motive a b →
      motive (.call c f a) (.call d g b))
    (binary : ∀ op a b a' b', motive a a' → motive b b' →
      motive (.binary op a b) (.binary op a' b')) :
    ∀ {e e' : Expr}, (e == e') = true → motive e e' := by
  intro e e' h
  induction e generalizing e' with
  | leaf l =>
      match e' with
      | .leaf l' => exact leaf l l' h
      | .call _ _ _ | .binary _ _ _ => cases h
  | call c f a ih =>
      match e' with
      | .call d g b =>
          obtain ⟨hc, hrest⟩ := Bool.and_eq_true_iff.mp h
          obtain ⟨hf, ha⟩ := Bool.and_eq_true_iff.mp hrest
          exact call c d f g a b hc hf (ih ha)
      | .leaf _ | .binary _ _ _ => cases h
  | binary op a b iha ihb =>
      match e' with
      | .binary op' a' b' =>
          obtain ⟨hop, hrest⟩ := Bool.and_eq_true_iff.mp h
          obtain ⟨ha, hb⟩ := Bool.and_eq_true_iff.mp hrest
          obtain rfl : op = op' := of_decide_eq_true hop
          exact binary op a b a' b' (iha ha) (ihb hb)
      | .leaf _ | .call _ _ _ => cases h

end Fluxion
