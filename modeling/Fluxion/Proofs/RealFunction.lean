import Fluxion.Derivative
import Fluxion.Proofs.Meaning

/-!
# Functions of a real number

What the functions are among the real numbers, where each of them is regular, and
that the derivative of a function is its derivative there
(`Func.hasDerivAt_real`). The inverse functions of secant, cosecant and cotangent
are those of cosine, sine and tangent at the reciprocal.

The logarithm without a base is left out. It is the logarithm to base ten, and its
derivative is written as that of the natural logarithm.
-/

namespace Fluxion

noncomputable section

def Constant.real : Constant → ℝ
  | pi => Real.pi
  | e => Real.exp 1

/-- The real number that a finite float is. -/
def realOfFloat (n : Float) : ℝ :=
  (Decimal.value? ℝ n).getD 0

def Base.real : Base → ℝ
  | number n => realOfFloat n
  | constant c => c.real

def Func.real : Func → ℝ → ℝ
  | abs, u => |u|
  | sin, u => Real.sin u
  | cos, u => Real.cos u
  | tan, u => Real.tan u
  | sec, u => 1 / Real.cos u
  | csc, u => 1 / Real.sin u
  | cot, u => Real.cos u / Real.sin u
  | arcsin, u => Real.arcsin u
  | arccos, u => Real.arccos u
  | arctan, u => Real.arctan u
  | arcsec, u => Real.arccos (1 / u)
  | arccsc, u => Real.arcsin (1 / u)
  | arccot, u => Real.arctan (1 / u)
  | ln, u => Real.log u
  | log none, u => Real.logb 10 u
  | log (some base), u => Real.logb base.real u

/-- The meaning of expressions among the real numbers. -/
def Meaning.real (var : Char → ℝ) (leibniz : Char → Char → ℝ) : Meaning ℝ :=
  .literal ℝ Constant.real var leibniz Func.real fun a b => a ^ b

namespace Meaning

variable (var : Char → ℝ) (leibniz : Char → Char → ℝ)

@[simp] theorem number_real_two : (real var leibniz).number 2 = 2 := by
  change (Decimal.value? ℝ 2).getD 0 = 2
  rw [Decimal.value?_two, Option.getD_some]

@[simp] theorem func_real (f : Func) (u : ℝ) : (real var leibniz).func f u = f.real u := rfl

@[simp] theorem pow_real (a b : ℝ) : (real var leibniz).pow a b = a ^ b := rfl

theorem eval_real_base (base : Base) : (real var leibniz).eval (.leaf base.leaf) = base.real := by
  cases base <;> rfl

end Meaning

/-- A base of logarithms is a constant, or a positive number that is not one. -/
def Base.IsProper : Base → Prop
  | constant _ => True
  | number n => 0 < realOfFloat n ∧ realOfFloat n ≠ 1

/-- The numbers at which a function is differentiated. -/
def Func.RegularAt : Func → ℝ → Prop
  | sin, _ | cos, _ | arctan, _ => True
  | abs, u | arccot, u => u ≠ 0
  | tan, u | sec, u => Real.cos u ≠ 0
  | csc, u | cot, u => Real.sin u ≠ 0
  | arcsin, u | arccos, u => -1 < u ∧ u < 1
  | arcsec, u | arccsc, u => 1 < |u|
  | ln, u | log none, u => 0 < u
  | log (some base), u => 0 < u ∧ base.IsProper

namespace Func

/-! ## Derivatives of the real functions -/

theorem hasDerivAt_abs {u : ℝ} (h : u ≠ 0) : HasDerivAt (fun x => |x|) (u / |u|) u := by
  rcases lt_or_gt_of_ne h with hneg | hpos
  · refine (hasDerivAt_abs_neg hneg).congr_deriv ?_
    rw [abs_of_neg hneg, div_neg, div_self h]
  · refine (hasDerivAt_abs_pos hpos).congr_deriv ?_
    rw [abs_of_pos hpos, div_self h]

theorem hasDerivAt_sec {u : ℝ} (h : Real.cos u ≠ 0) :
    HasDerivAt (fun x => 1 / Real.cos x) (1 / Real.cos u * Real.tan u) u := by
  refine ((hasDerivAt_const u 1).fun_div (Real.hasDerivAt_cos u) h).congr_deriv ?_
  rw [Real.tan_eq_sin_div_cos]
  field_simp
  ring

theorem hasDerivAt_csc {u : ℝ} (h : Real.sin u ≠ 0) :
    HasDerivAt (fun x => 1 / Real.sin x) (0 - 1 / Real.sin u * (Real.cos u / Real.sin u)) u := by
  refine ((hasDerivAt_const u 1).fun_div (Real.hasDerivAt_sin u) h).congr_deriv ?_
  field_simp
  ring

theorem hasDerivAt_cot {u : ℝ} (h : Real.sin u ≠ 0) :
    HasDerivAt (fun x => Real.cos x / Real.sin x) (0 - (1 / Real.sin u) ^ 2) u := by
  refine ((Real.hasDerivAt_cos u).fun_div (Real.hasDerivAt_sin u) h).congr_deriv ?_
  have := Real.sin_sq_add_cos_sq u
  field_simp
  linarith

theorem hasDerivAt_reciprocal {u : ℝ} (h : u ≠ 0) :
    HasDerivAt (fun x : ℝ => 1 / x) (-1 / u ^ 2) u := by
  refine ((hasDerivAt_const u 1).fun_div (hasDerivAt_id' u) h).congr_deriv ?_
  ring

theorem hasDerivAt_arccot {u : ℝ} (h : u ≠ 0) :
    HasDerivAt (fun x => Real.arctan (1 / x)) (0 - 1 / (u ^ 2 + 1)) u := by
  refine ((Real.hasDerivAt_arctan _).comp u (hasDerivAt_reciprocal h)).congr_deriv ?_
  field_simp
  ring

/-- The derivative that arcsecant and arccosecant have up to its sign, by the chain
rule and as it is written. -/
theorem sqrt_one_sub_reciprocal {u : ℝ} (h : 1 < |u|) :
    1 / √(1 - (1 / u) ^ 2) * (1 / u ^ 2) = 1 / (|u| * √(u ^ 2 - 1)) := by
  have hu : u ≠ 0 := by
    rintro rfl
    norm_num at h
  have hsq : 1 - (1 / u) ^ 2 = (u ^ 2 - 1) / u ^ 2 := by
    field_simp
  have hpos : 0 < u ^ 2 - 1 := by
    have := one_lt_sq_iff_one_lt_abs u |>.mpr h
    linarith
  have hroot : √(u ^ 2 - 1) ≠ 0 := (Real.sqrt_pos.mpr hpos).ne'
  have habs : |u| ≠ 0 := abs_ne_zero.mpr hu
  rw [hsq, Real.sqrt_div' _ (sq_nonneg u), Real.sqrt_sq_eq_abs, ← sq_abs u]
  field_simp

theorem reciprocal_mem {u : ℝ} (h : 1 < |u|) : 1 / u ≠ -1 ∧ 1 / u ≠ 1 := by
  have hlt : |1 / u| < 1 := by
    rw [abs_div, abs_one, div_lt_one (one_pos.trans h)]
    exact h
  obtain ⟨hlow, hhigh⟩ := abs_lt.mp hlt
  exact ⟨hlow.ne', hhigh.ne⟩

theorem hasDerivAt_arcsec {u : ℝ} (h : 1 < |u|) :
    HasDerivAt (fun x => Real.arccos (1 / x)) (1 / (|u| * √(u ^ 2 - 1))) u := by
  obtain ⟨hlow, hhigh⟩ := reciprocal_mem h
  have hu : u ≠ 0 := abs_pos.mp (one_pos.trans h)
  refine ((Real.hasDerivAt_arccos hlow hhigh).comp u (hasDerivAt_reciprocal hu)).congr_deriv ?_
  rw [← sqrt_one_sub_reciprocal h]
  ring

theorem hasDerivAt_arccsc {u : ℝ} (h : 1 < |u|) :
    HasDerivAt (fun x => Real.arcsin (1 / x)) (0 - 1 / (|u| * √(u ^ 2 - 1))) u := by
  obtain ⟨hlow, hhigh⟩ := reciprocal_mem h
  have hu : u ≠ 0 := abs_pos.mp (one_pos.trans h)
  refine ((Real.hasDerivAt_arcsin hlow hhigh).comp u (hasDerivAt_reciprocal hu)).congr_deriv ?_
  rw [← sqrt_one_sub_reciprocal h]
  ring

/-! ## The table -/

variable (var : Char → ℝ) (leibniz : Char → Char → ℝ)

/-- The derivative of a function is its derivative wherever it is regular. -/
theorem hasDerivAt_real {f : Func} {e : Expr} (hf : f ≠ .log none)
    (h : f.RegularAt ((Meaning.real var leibniz).eval e)) :
    HasDerivAt f.real ((Meaning.real var leibniz).eval (f.derivative e))
      ((Meaning.real var leibniz).eval e) := by
  cases f with
  | abs =>
      refine (hasDerivAt_abs h).congr_deriv ?_
      simp [Func.derivative, Func.real]
  | sin =>
      refine (Real.hasDerivAt_sin _).congr_deriv ?_
      simp [Func.derivative, Func.real]
  | cos =>
      refine (Real.hasDerivAt_cos _).congr_deriv ?_
      simp [Func.derivative, Func.real]
  | tan =>
      refine (Real.hasDerivAt_tan h).congr_deriv ?_
      simp [Func.derivative, Func.real]
  | sec =>
      refine (hasDerivAt_sec h).congr_deriv ?_
      simp [Func.derivative, Func.real]
  | csc =>
      refine (hasDerivAt_csc h).congr_deriv ?_
      simp [Func.derivative, Func.real]
  | cot =>
      refine (hasDerivAt_cot h).congr_deriv ?_
      simp [Func.derivative, Func.real]
  | arcsin =>
      refine (Real.hasDerivAt_arcsin h.1.ne' h.2.ne).congr_deriv ?_
      simp [Func.derivative, Real.sqrt_eq_rpow]
  | arccos =>
      refine (Real.hasDerivAt_arccos h.1.ne' h.2.ne).congr_deriv ?_
      simp [Func.derivative, Real.sqrt_eq_rpow]
  | arctan =>
      refine (Real.hasDerivAt_arctan _).congr_deriv ?_
      simp [Func.derivative, add_comm]
  | arcsec =>
      refine (hasDerivAt_arcsec h).congr_deriv ?_
      simp [Func.derivative, Func.real, Real.sqrt_eq_rpow, mul_comm]
  | arccsc =>
      refine (hasDerivAt_arccsc h).congr_deriv ?_
      simp [Func.derivative, Func.real, Real.sqrt_eq_rpow, mul_comm]
  | arccot =>
      refine (hasDerivAt_arccot h).congr_deriv ?_
      simp [Func.derivative]
  | ln =>
      refine (Real.hasDerivAt_log (ne_of_gt h)).congr_deriv ?_
      simp [Func.derivative]
  | log base =>
      cases base with
      | none => exact absurd rfl hf
      | some base =>
          refine ((Real.hasDerivAt_log (ne_of_gt h.1)).div_const _).congr_deriv ?_
          simp [Func.derivative, Func.real, Meaning.eval_real_base, div_eq_mul_inv, mul_comm]

end Func

end

end Fluxion
