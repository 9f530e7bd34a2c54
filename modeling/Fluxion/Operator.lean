/-!
# Operators

The five binary operators, how tightly each binds, which way it groups, and
what it does to two numbers.
-/

namespace Fluxion

inductive Operator where
  | add
  | sub
  | mul
  | div
  | pow
deriving DecidableEq, Repr

/-- Which way a chain of operators of one precedence groups. -/
inductive Associativity where
  /-- `a ∘ b ∘ c` means `(a ∘ b) ∘ c`. -/
  | left
  /-- `a ∘ b ∘ c` means `a ∘ (b ∘ c)`. -/
  | right
deriving DecidableEq, Repr

namespace Operator

def all : List Operator :=
  [add, sub, mul, div, pow]

/-- The character an operator is written with. -/
def symbol : Operator → Char
  | add => '+'
  | sub => '-'
  | mul => '*'
  | div => '/'
  | pow => '^'

/-- How tightly an operator binds; the greater number binds first. -/
def precedence : Operator → Nat
  | add | sub => 2
  | mul | div => 3
  | pow => 4

def associativity : Operator → Associativity
  | pow => .right
  | add | sub | mul | div => .left

/-- In `a first b next c`, the operator `first` takes `b`. -/
def Before (first next : Operator) : Prop :=
  next.precedence < first.precedence ∨
    next.precedence = first.precedence ∧ next.associativity = .left

instance (first next : Operator) : Decidable (first.Before next) :=
  inferInstanceAs (Decidable (_ ∨ _))

def apply : Operator → Float → Float → Float
  | add, a, b => a + b
  | sub, a, b => a - b
  | mul, a, b => a * b
  | div, a, b => a / b
  | pow, a, b => a.pow b

end Operator

end Fluxion
