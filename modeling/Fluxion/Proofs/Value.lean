import Fluxion.Expr.Basic
import Fluxion.Proofs.FloatParts

/-!
# The value of an expression

What an expression means when its numbers are taken for what they are, elements
of an ordered field, and nothing is ever rounded. An infinity and NaN are no
elements of a field and have no value; neither has a quotient by zero. Functions
and variables mean whatever they are interpreted as, and may be undefined
anywhere. Of powers, only those laws are asked that hold wherever powers are
defined at all.

Of functions it is asked that equal ones are the same function. Only logarithms
can be equal and yet differ, those to base `0` and to base `-0`. With that, equal
expressions have equal values, `Interpretation.eval_of_beq`.
-/

namespace Fluxion

namespace Decimal

open Float.Model.UnpackedFloat (Sign)

variable {K : Type*} [Field K]

/-- The number that a finite float is. -/
def value? (K : Type*) [Field K] (x : Float) : Option K :=
  match parts x with
  | .zero _ => some 0
  | .finite s m e _ => some (((s.apply m : Int) : K) * 2 ^ e)
  | .infinity _ | .notANumber => none

@[simp] theorem value?_zero : value? K 0 = some 0 := rfl

theorem value?_of_beq {x y : Float} (h : (x == y) = true) : value? K x = value? K y := by
  unfold value?
  rcases beq_iff.mp h with ⟨⟨s, hs⟩, s', hs'⟩ | ⟨heq, -⟩
  · rw [hs, hs']
  · rw [heq]

theorem value?_of_parts {x : Float} {s : Sign} {m : Nat} {e : Int} {hm : 0 < m}
    (h : parts x = .finite s m e hm) : value? K x = some (((s.apply m : Int) : K) * 2 ^ e) := by
  rw [value?]
  rw [h]

/-- A value with a coefficient in front. -/
def scaled (coefficient : Option Float) (v : K) : Option K :=
  match coefficient with
  | none => some v
  | some n => (value? K n).map (· * v)

theorem scaled_of_beq {c c' : Option Float} (h : (c == c') = true) :
    (scaled c : K → Option K) = scaled c' := by
  match c, c' with
  | none, none => rfl
  | none, some _ | some _, none => cases h
  | some n, some n' =>
      funext v
      rw [scaled, scaled, value?_of_beq h]

variable [LinearOrder K] [IsStrictOrderedRing K]

@[simp] theorem value?_one : value? K 1 = some 1 := by
  rw [value?_of_parts parts_one]
  norm_num [Sign.apply]

@[simp] theorem value?_two : value? K 2 = some 2 := by
  have h : parts 2 = .finite .positive (2 ^ 52) (-51) (by decide) := rfl
  rw [value?_of_parts h]
  norm_num [Sign.apply]

theorem pos_of_value? {x : Float} {v : K} (h : 0 < x) (hv : value? K x = some v) : 0 < v := by
  rw [lt_iff, parts_zero] at h
  rw [value?] at hv
  rcases hp : parts x with s | _ | s | ⟨_ | _, m, e, hm⟩ <;> rw [hp] at h hv
  case infinity | notANumber => cases hv
  case zero => cases h
  case finite.negative => cases h
  case finite.positive =>
    cases hv
    have hm' : (0 : K) < m := Nat.cast_pos.mpr hm
    have hpow : (0 : K) < 2 ^ e := zpow_pos two_pos e
    simp only [Sign.apply, Int.cast_natCast]
    exact mul_pos hm' hpow

end Decimal

open Decimal (value? value?_of_beq scaled scaled_of_beq)

/-- What constants, variables, functions and powers mean. -/
structure Interpretation (K : Type*) [Field K] [LinearOrder K] where
  constant : Constant → Option K
  var : Char → Option K
  leibniz : Char → Char → Option K
  func : Func → K → Option K
  func_of_beq : ∀ f g, (f == g) = true → func f = func g
  pow : K → K → Option K
  pow_zero : ∀ a, pow a 0 = some 1
  pow_one : ∀ a, pow a 1 = some a
  pow_two : ∀ a, pow a 2 = some (a * a)
  one_pow : ∀ b, pow 1 b = some 1
  zero_pow : ∀ p, 0 < p → pow 0 p = some 0

variable {K : Type*} [Field K] [LinearOrder K]

namespace Interpretation

/-- The interpretation of the variables that defines nothing else but the powers
it has to. -/
def ofVariables [IsStrictOrderedRing K] (var : Char → Option K) : Interpretation K where
  constant _ := none
  var := var
  leibniz _ _ := none
  func _ _ := none
  func_of_beq _ _ _ := rfl
  pow a b :=
    if b = 0 then some 1
    else if b = 1 then some a
    else if b = 2 then some (a * a)
    else if a = 1 then some 1
    else if a = 0 ∧ 0 < b then some 0
    else none
  pow_zero a := if_pos rfl
  pow_one a := by simp
  pow_two a := by simp
  one_pow b := by simp
  zero_pow p hp := by
    have hne : p ≠ 0 := hp.ne'
    simp [hne, hp]

variable (I : Interpretation K)

def apply (op : Operator) (a b : K) : Option K :=
  match op with
  | .add => some (a + b)
  | .sub => some (a - b)
  | .mul => some (a * b)
  | .div => if b = 0 then none else some (a / b)
  | .pow => I.pow a b

/-- The value of an expression, if it has one. -/
def eval : Expr → Option K
  | .number n => value? K n
  | .constant c => I.constant c
  | .var c name => (I.var name).bind (scaled c)
  | .leibniz of wrt => I.leibniz of wrt
  | .call c f arg => (eval arg).bind fun a => (I.func f a).bind (scaled c)
  | .binary op lhs rhs => (eval lhs).bind fun a => (eval rhs).bind fun b => I.apply op a b

theorem eval_binary {op : Operator} {lhs rhs : Expr} {v : K} :
    I.eval (.binary op lhs rhs) = some v ↔
      ∃ a b, I.eval lhs = some a ∧ I.eval rhs = some b ∧ I.apply op a b = some v := by
  simp only [eval, Option.bind_eq_some_iff]
  constructor
  · rintro ⟨a, ha, b, hb, hv⟩
    exact ⟨a, b, ha, hb, hv⟩
  · rintro ⟨a, b, ha, hb, hv⟩
    exact ⟨a, ha, b, hb, hv⟩

/-! ## Equal expressions -/

theorem eval_leaf_of_beq {l l' : Leaf} (h : (l == l') = true) :
    I.eval (.leaf l) = I.eval (.leaf l') := by
  refine Leaf.rec_of_beq (fun m n => value?_of_beq) (fun c => rfl) (fun c d name hc => ?_)
    (fun of wrt => rfl) h
  rw [eval, eval, scaled_of_beq hc]

theorem eval_of_beq {a b : Expr} (h : (a == b) = true) : I.eval a = I.eval b := by
  refine Expr.rec_of_beq (fun l l' => I.eval_leaf_of_beq) ?_ ?_ h
  · intro c d f g a b hc hf hab
    rw [eval, eval, hab, I.func_of_beq f g hf, scaled_of_beq hc]
  · intro op a b a' b' ha hb
    rw [eval, eval, ha, hb]

end Interpretation

end Fluxion
