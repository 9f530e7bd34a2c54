import Fluxion.Expr.Basic

/-!
# Rules of reduction

A rule replaces an operator and its two operands by something simpler, looks no
further than the operands themselves, and keeps the value. Folding and dividing are done only if
what comes out is finite. Coefficients that are added or multiplied are taken as
they come out. A number computed by a rule is never the negative zero.

Every rule makes an expression lighter (`weight_lt_of_reduct?`), so rules cannot
be used for ever. A variable weighs four: that is what pays for `2x * 3x`, which
becomes the larger `6 * (x ^ 2)` but has one variable less.
-/

namespace Fluxion

inductive Rule where
  /-- `2 + 3 = 5`, and so with every operator. -/
  | foldConstants
  /-- `0 + a = a` and `a + 0 = a`. -/
  | addZero
  /-- `a - 0 = a`. -/
  | subtractZero
  /-- `a - a = 0`. -/
  | subtractSelf
  /-- `a + a = 2a` and `2a - 1a = 1a`. -/
  | combineLikeTerms
  /-- `0 * a = 0` and `a * 0 = 0`. -/
  | multiplyZero
  /-- `1 * a = a` and `a * 1 = a`. -/
  | multiplyOne
  /-- `a * a = a ^ 2` and `a * 2a = 2 * (a ^ 2)`. -/
  | combineLikeFactors
  /-- `3 * 2a = 6a` and `sin(a) * 3 = 3sin(a)`. -/
  | multiplyCoefficient
  /-- `a / 1 = a`. -/
  | divideOne
  /-- `0 / a = 0`. -/
  | divideZero
  /-- `6a / 3a = 2` and `6a / 3 = 2a`. -/
  | reduceFraction
  /-- `a ^ 0 = 1`. -/
  | powerZero
  /-- `a ^ 1 = a`. -/
  | powerOne
  /-- `0 ^ a = 0`. -/
  | powerZeroLeft
  /-- `1 ^ a = 1`. -/
  | powerOneLeft
deriving DecidableEq, Repr

namespace Expr

/-- The number `n`, with the negative zero replaced by zero. -/
def folded (n : Float) : Expr :=
  .number (if n == 0 then 0 else n)

/-- What an expression weighs: one for each node, and three more for each
variable. -/
def weight : Expr → Nat
  | leaf (.var _ _) => 4
  | leaf _ => 1
  | call _ _ arg => arg.weight + 1
  | binary _ lhs rhs => lhs.weight + rhs.weight + 1

@[simp, grind =] theorem weight_var (c : Option Float) (name : Char) :
    (var c name).weight = 4 := rfl

@[simp, grind =] theorem weight_number (n : Float) : (number n).weight = 1 := rfl

@[simp, grind =] theorem weight_binary (op : Operator) (lhs rhs : Expr) :
    (binary op lhs rhs).weight = lhs.weight + rhs.weight + 1 := rfl

theorem weight_pos (e : Expr) : 0 < e.weight := by
  unfold weight
  split <;> omega

@[simp, grind =] theorem weight_folded (n : Float) : (folded n).weight = 1 := rfl

/-- An expression multiplied by `n` through its coefficient, if it can have one. -/
def scale? (n : Float) : Expr → Option Expr
  | leaf (.var c name) => some (.var (some (n * c.getD 1)) name)
  | call c f u => some (call (some (n * c.getD 1)) f u)
  | _ => none

theorem weight_scale? {n : Float} {e e' : Expr} (h : e.scale? n = some e') :
    e'.weight = e.weight := by
  unfold scale? at h
  split at h <;> simp_all [weight] <;> subst h <;> rfl

theorem weight_of_term? {e : Expr} {t : Float × Char} (h : e.term? = some t) : e.weight = 4 := by
  unfold term? at h
  split at h <;> simp_all [weight]

end Expr

namespace Rule

/-- The value of an operator at two numbers, if it is finite. -/
def fold? (op : Operator) (lhs rhs : Expr) : Option Expr :=
  match lhs.number?, rhs.number? with
  | some a, some b =>
    if (op.apply a b).isFinite then some (.folded (op.apply a b)) else none
  | _, _ => none

def addZero? (lhs rhs : Expr) : Option Expr :=
  if lhs.isNumber 0 then some rhs
  else if rhs.isNumber 0 then some lhs
  else none

def subtractZero? (lhs rhs : Expr) : Option Expr :=
  if rhs.isNumber 0 then some lhs else none

/-- A difference of two equal expressions. Numbers and variables are left to
`fold?` and `combineLikeTerms?`. -/
def subtractSelf? (lhs rhs : Expr) : Option Expr :=
  if lhs.number?.isNone && lhs.term?.isNone && lhs == rhs then some (.folded 0) else none

def combineLikeTerms? (op : Operator) (lhs rhs : Expr) : Option Expr :=
  match lhs.term?, rhs.term? with
  | some (a, name), some (b, other) =>
    if name ≠ other then none
    else if op.apply a b == 0 then some (.folded 0)
    else some (.var (some (op.apply a b)) name)
  | _, _ => none

def multiplyZero? (lhs rhs : Expr) : Option Expr :=
  if lhs.isNumber 0 || rhs.isNumber 0 then some (.folded 0) else none

def multiplyOne? (lhs rhs : Expr) : Option Expr :=
  if lhs.isNumber 1 then some rhs
  else if rhs.isNumber 1 then some lhs
  else none

def combineLikeFactors? (lhs rhs : Expr) : Option Expr :=
  match lhs.term?, rhs.term? with
  | some (a, name), some (b, other) =>
    if name ≠ other then none
    else if a * b == 1 then some (Expr.var none name ^ Expr.number 2)
    else some (.folded (a * b) * Expr.var none name ^ Expr.number 2)
  | _, _ => none

/-- A product of a number with something that can have a coefficient. -/
def multiplyCoefficient? (lhs rhs : Expr) : Option Expr :=
  match lhs.number?, rhs.number? with
  | some n, none => rhs.scale? n
  | none, some n => lhs.scale? n
  | _, _ => none

def divideOne? (lhs rhs : Expr) : Option Expr :=
  if rhs.isNumber 1 then some lhs else none

def divideZero? (lhs rhs : Expr) : Option Expr :=
  if lhs.isNumber 0 && !rhs.isNumber 0 then some (.folded 0) else none

/-- A variable divided by itself or by a number, if the quotient of the
coefficients is finite. -/
def reduceFraction? (lhs rhs : Expr) : Option Expr :=
  match lhs.term?, rhs.term?, rhs.number? with
  | some (a, name), some (b, other), _ =>
    if name = other && b != 0 && (a / b).isFinite then some (.folded (a / b)) else none
  | some (a, name), none, some b =>
    if b != 0 && (a / b).isFinite then some (.var (some (a / b)) name) else none
  | _, _, _ => none

def powerZero? (rhs : Expr) : Option Expr :=
  if rhs.isNumber 0 then some (.folded 1) else none

def powerOne? (lhs rhs : Expr) : Option Expr :=
  if rhs.isNumber 1 then some lhs else none

/-- A power of zero whose exponent is a positive number. -/
def powerZeroLeft? (lhs rhs : Expr) : Option Expr :=
  if lhs.isNumber 0 && rhs.number?.any (0 < ·) then some (.folded 0) else none

def powerOneLeft? (lhs : Expr) : Option Expr :=
  if lhs.isNumber 1 then some (.folded 1) else none

/-- What a rule makes of an operator and its operands, if it applies. -/
def onBinary? (rule : Rule) (op : Operator) (lhs rhs : Expr) : Option Expr :=
  match rule, op with
  | foldConstants, op => fold? op lhs rhs
  | addZero, .add => addZero? lhs rhs
  | subtractZero, .sub => subtractZero? lhs rhs
  | subtractSelf, .sub => subtractSelf? lhs rhs
  | combineLikeTerms, .add => combineLikeTerms? .add lhs rhs
  | combineLikeTerms, .sub => combineLikeTerms? .sub lhs rhs
  | multiplyZero, .mul => multiplyZero? lhs rhs
  | multiplyOne, .mul => multiplyOne? lhs rhs
  | combineLikeFactors, .mul => combineLikeFactors? lhs rhs
  | multiplyCoefficient, .mul => multiplyCoefficient? lhs rhs
  | divideOne, .div => divideOne? lhs rhs
  | divideZero, .div => divideZero? lhs rhs
  | reduceFraction, .div => reduceFraction? lhs rhs
  | powerZero, .pow => powerZero? rhs
  | powerOne, .pow => powerOne? lhs rhs
  | powerZeroLeft, .pow => powerZeroLeft? lhs rhs
  | powerOneLeft, .pow => powerOneLeft? lhs
  | _, _ => none

/-- What a rule makes of an expression, if it applies. -/
def reduct? (rule : Rule) : Expr → Option Expr
  | .binary op lhs rhs => rule.onBinary? op lhs rhs
  | _ => none

/-! ## Families of rules, in the order in which they are tried -/

def forNumbers : List Rule :=
  [foldConstants]

def forSums : List Rule :=
  [addZero, subtractZero, subtractSelf, combineLikeTerms]

def forProducts : List Rule :=
  [multiplyZero, multiplyOne, combineLikeFactors, multiplyCoefficient]

def forQuotients : List Rule :=
  [divideOne, divideZero, reduceFraction]

def forPowers : List Rule :=
  [powerZero, powerOne, powerZeroLeft, powerOneLeft]

def all : List Rule :=
  forNumbers ++ forSums ++ forProducts ++ forQuotients ++ forPowers

/-- The first of some rules that applies to an expression, and what it makes of it. -/
def first? (rules : List Rule) (e : Expr) : Option (Rule × Expr) :=
  rules.findSome? fun rule => (rule.reduct? e).map fun e' => (rule, e')

def name : Rule → String
  | foldConstants => "FoldConstants"
  | addZero => "AddZero"
  | subtractZero => "SubtractZero"
  | subtractSelf => "SubtractSelf"
  | combineLikeTerms => "CombineLikeTerms"
  | multiplyZero => "MultiplyZero"
  | multiplyOne => "MultiplyOne"
  | combineLikeFactors => "CombineLikeFactors"
  | multiplyCoefficient => "MultiplyCoefficient"
  | divideOne => "DivideOne"
  | divideZero => "DivideZero"
  | reduceFraction => "ReduceFraction"
  | powerZero => "PowerZero"
  | powerOne => "PowerOne"
  | powerZeroLeft => "PowerZeroLeft"
  | powerOneLeft => "PowerOneLeft"

/-! ## Every rule makes an expression lighter -/

theorem weight_lt_of_combineLikeFactors? {lhs rhs e : Expr}
    (h : combineLikeFactors? lhs rhs = some e) : e.weight < lhs.weight + rhs.weight + 1 := by
  unfold combineLikeFactors? at h
  split at h
  next a name b other ha hb =>
    have square (c : Float) : (Expr.folded c * Expr.var none name ^ Expr.number 2).weight = 8 := rfl
    have bare : (Expr.var none name ^ Expr.number 2).weight = 6 := rfl
    have := Expr.weight_of_term? ha
    have := Expr.weight_of_term? hb
    grind
  next => cases h

theorem weight_lt_of_onBinary? {rule : Rule} {op : Operator} {lhs rhs e : Expr}
    (h : rule.onBinary? op lhs rhs = some e) : e.weight < lhs.weight + rhs.weight + 1 := by
  have hl := lhs.weight_pos
  have hr := rhs.weight_pos
  unfold onBinary? at h
  split at h
  next => grind [fold?]
  next => grind [addZero?]
  next => grind [subtractZero?]
  next => grind [subtractSelf?]
  next => grind [combineLikeTerms?, Expr.weight_of_term?]
  next => grind [combineLikeTerms?, Expr.weight_of_term?]
  next => grind [multiplyZero?]
  next => grind [multiplyOne?]
  next => exact weight_lt_of_combineLikeFactors? h
  next => grind [multiplyCoefficient?, Expr.weight_scale?]
  next => grind [divideOne?]
  next => grind [divideZero?]
  next => grind [reduceFraction?, Expr.weight_of_term?]
  next => grind [powerZero?]
  next => grind [powerOne?]
  next => grind [powerZeroLeft?]
  next => grind [powerOneLeft?]
  next => cases h

theorem weight_lt_of_reduct? {rule : Rule} {e e' : Expr} (h : rule.reduct? e = some e') :
    e'.weight < e.weight := by
  unfold reduct? at h
  split at h
  next => exact weight_lt_of_onBinary? h
  next => cases h

theorem weight_lt_of_first? {rules : List Rule} {e e' : Expr} {rule : Rule}
    (h : first? rules e = some (rule, e')) : e'.weight < e.weight := by
  obtain ⟨r, _, hr⟩ := List.exists_of_findSome?_eq_some h
  obtain ⟨e'', he, heq⟩ := Option.map_eq_some_iff.1 hr
  cases heq
  exact weight_lt_of_reduct? he

end Rule

end Fluxion
