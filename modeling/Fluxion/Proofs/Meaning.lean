import Fluxion.Proofs.Parts
import Fluxion.Proofs.Value

/-!
# The meaning of an expression in a field

A meaning says what numbers, constants, variables, unknown derivatives, functions
and powers stand for in a field, and then every expression stands for an element
of the field. A quotient by zero is zero, as in every field here. Functions and
powers may stand for anything. Of numbers it is only asked that `0` and `1` stand
for zero and one, for these are the numbers that the rules of differentiation add
to an expression and rely on.

The element depends on nothing but the parts of the expression: another meaning
of unknown derivatives changes nothing where there are none
(`Meaning.eval_withLeibniz`), nor does another meaning of variables that do not
occur (`Meaning.eval_withVar`).
-/

namespace Fluxion

/-- What numbers, letters, functions and powers stand for. -/
structure Meaning (K : Type*) [Field K] where
  number : Float → K
  number_zero : number 0 = 0
  number_one : number 1 = 1
  constant : Constant → K
  var : Char → K
  leibniz : Char → Char → K
  func : Func → K → K
  pow : K → K → K

namespace Meaning

variable {K : Type*} [Field K] (ρ : Meaning K)

/-- A coefficient, where a missing one is one. -/
def coefficient (c : Option Float) : K :=
  ρ.number (c.getD 1)

def apply (op : Operator) (a b : K) : K :=
  match op with
  | .add => a + b
  | .sub => a - b
  | .mul => a * b
  | .div => a / b
  | .pow => ρ.pow a b

/-- What an expression stands for. -/
def eval : Expr → K
  | .number n => ρ.number n
  | .constant c => ρ.constant c
  | .var c name => ρ.coefficient c * ρ.var name
  | .leibniz of wrt => ρ.leibniz of wrt
  | .call c f arg => ρ.coefficient c * ρ.func f (eval arg)
  | .binary op lhs rhs => ρ.apply op (eval lhs) (eval rhs)

attribute [simp] number_zero number_one

@[simp] theorem coefficient_none : ρ.coefficient none = 1 := ρ.number_one

@[simp] theorem eval_number (n : Float) : ρ.eval (.number n) = ρ.number n := rfl

theorem eval_zero : ρ.eval (.number 0) = 0 := ρ.number_zero

theorem eval_one : ρ.eval (.number 1) = 1 := ρ.number_one

@[simp] theorem eval_constant (c : Constant) : ρ.eval (.constant c) = ρ.constant c := rfl

@[simp] theorem eval_var (c : Option Float) (name : Char) :
    ρ.eval (.var c name) = ρ.coefficient c * ρ.var name := rfl

@[simp] theorem eval_leibniz (of wrt : Char) : ρ.eval (.leibniz of wrt) = ρ.leibniz of wrt := rfl

@[simp] theorem eval_call (c : Option Float) (f : Func) (u : Expr) :
    ρ.eval (.call c f u) = ρ.coefficient c * ρ.func f (ρ.eval u) := rfl

@[simp] theorem eval_add (a b : Expr) : ρ.eval (a + b) = ρ.eval a + ρ.eval b := rfl

@[simp] theorem eval_sub (a b : Expr) : ρ.eval (a - b) = ρ.eval a - ρ.eval b := rfl

@[simp] theorem eval_mul (a b : Expr) : ρ.eval (a * b) = ρ.eval a * ρ.eval b := rfl

@[simp] theorem eval_div (a b : Expr) : ρ.eval (a / b) = ρ.eval a / ρ.eval b := rfl

@[simp] theorem eval_pow (a b : Expr) : ρ.eval (a ^ b) = ρ.pow (ρ.eval a) (ρ.eval b) := rfl

theorem eval_binary (op : Operator) (a b : Expr) :
    ρ.eval (.binary op a b) = ρ.apply op (ρ.eval a) (ρ.eval b) := rfl

/-- Numbers stand for themselves. Infinities and NaN, which are no numbers, stand
for zero. -/
def literal (K : Type*) [Field K] [LinearOrder K] [IsStrictOrderedRing K] (constant : Constant → K)
    (var : Char → K) (leibniz : Char → Char → K) (func : Func → K → K) (pow : K → K → K) :
    Meaning K where
  number n := (Decimal.value? K n).getD 0
  number_zero := by rw [Decimal.value?_zero, Option.getD_some]
  number_one := by rw [Decimal.value?_one, Option.getD_some]
  constant := constant
  var := var
  leibniz := leibniz
  func := func
  pow := pow

/-! ## What an expression does not mention -/

/-- The meaning `ρ`, but with `z` for `dy/dx`, where `y` is `of` and `x` is `wrt`. -/
def withLeibniz (of wrt : Char) (z : K) : Meaning K :=
  { ρ with leibniz := Function.update ρ.leibniz of (Function.update (ρ.leibniz of) wrt z) }

/-- The meaning `ρ`, but with other variables. -/
def withVar (var : Char → K) : Meaning K :=
  { ρ with var := var }

@[simp] theorem coefficient_withLeibniz (of wrt : Char) (z : K) :
    (ρ.withLeibniz of wrt z).coefficient = ρ.coefficient := rfl

@[simp] theorem leibniz_withLeibniz (of wrt : Char) (z : K) :
    (ρ.withLeibniz of wrt z).leibniz of wrt = z := by
  simp [withLeibniz]

end Meaning

/-- No unknown derivative occurs in an expression. -/
def Expr.LeibnizFree (e : Expr) : Prop :=
  e.Everywhere fun s => ∀ of wrt, s ≠ .leibniz of wrt

namespace Meaning

variable {K : Type*} [Field K] (ρ : Meaning K)

theorem eval_withLeibniz {of wrt : Char} {z : K} {e : Expr} (h : e.LeibnizFree) :
    (ρ.withLeibniz of wrt z).eval e = ρ.eval e := by
  induction e with
  | leaf l =>
      cases l with
      | leibniz of' wrt' => exact absurd rfl (h.self of' wrt')
      | number _ | constant _ | var _ _ => rfl
  | call c f u ih =>
      rw [eval_call, eval_call, ih (Expr.everywhere_call.mp h).2]
      rfl
  | binary op a b iha ihb =>
      obtain ⟨-, ha, hb⟩ := Expr.everywhere_binary.mp h
      rw [eval_binary, eval_binary, iha ha, ihb hb]
      cases op <;> rfl

theorem eval_withVar {var : Char → K} {e : Expr} (h : ∀ name ∈ e.letters, var name = ρ.var name) :
    (ρ.withVar var).eval e = ρ.eval e := by
  induction e with
  | leaf l =>
      cases l with
      | var c name =>
          have hname := h name (Expr.mem_letters_leaf.mpr rfl)
          rw [eval_var, eval_var, ← hname]
          rfl
      | number _ | constant _ | leibniz _ _ => rfl
  | call c f u ih =>
      rw [eval_call, eval_call, ih (Expr.forall_letters_call.mp h)]
      rfl
  | binary op a b iha ihb =>
      obtain ⟨ha, hb⟩ := Expr.forall_letters_binary.mp h
      rw [eval_binary, eval_binary, iha ha, ihb hb]
      cases op <;> rfl

end Meaning

end Fluxion
