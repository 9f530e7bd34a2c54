import Fluxion.Proofs.UniformDerivative

/-!
# Implicit differentiation

In an expression in `x` and `y`, either letter may be taken for the variable and
the other for an unknown function of it. The two derivatives belong together: the
one with respect to `x` is affine in the unknown `dy/dx`, and its slope is the
derivative with respect to `y` at `dx/dy = 0`, the partial derivative.

The two runs use different special cases, for what is the variable in one is the
unknown in the other. The uniform derivative has none. Its rules are linear in the
derivatives of the parts, and their other factors do not know the unknown.
-/

namespace Fluxion

namespace Expr

variable {c : Option Float} {f : Func} {op : Operator} {arg lhs rhs u : Expr}

@[simp] theorem leibnizFree_number (n : Float) : (number n).LeibnizFree :=
  everywhere_leaf.mpr nofun

@[simp] theorem leibnizFree_constant (c : Constant) : (constant c).LeibnizFree :=
  everywhere_leaf.mpr nofun

@[simp] theorem leibnizFree_var (c : Option Float) (name : Char) : (var c name).LeibnizFree :=
  everywhere_leaf.mpr nofun

@[simp] theorem leibnizFree_call : (call c f arg).LeibnizFree ↔ arg.LeibnizFree :=
  everywhere_call.trans (and_iff_right nofun)

@[simp] theorem leibnizFree_binary :
    (binary op lhs rhs).LeibnizFree ↔ lhs.LeibnizFree ∧ rhs.LeibnizFree :=
  everywhere_binary.trans (and_iff_right nofun)

/-- The derivative of a function has no unknowns but those of the argument. -/
theorem leibnizFree_func_derivative (f : Func) (h : u.LeibnizFree) :
    (f.derivative u).LeibnizFree := by
  cases f with
  | log base =>
      match base with
      | none | some (.number _) | some (.constant _) =>
          simp [Func.derivative, Base.leaf, mul_def, div_def, h]
  | _ => simp [Func.derivative, add_def, sub_def, mul_def, div_def, pow_def, h]

end Expr

namespace Meaning

variable {K : Type*} [Field K] (ρ : Meaning K) {x y : Char} {e : Expr}

theorem eval_uniformDerivative_eq_add_mul (hxy : x ≠ y) (hfree : e.LeibnizFree)
    (hletters : ∀ name ∈ e.letters, name = x ∨ name = y) (z : K) :
    (ρ.withLeibniz y x z).eval (e.uniformDerivative x) =
      (ρ.withLeibniz y x 0).eval (e.uniformDerivative x) +
        z * (ρ.withLeibniz x y 0).eval (e.uniformDerivative y) := by
  induction e with
  | leaf l =>
      cases l with
      | number _ | constant _ =>
          simp only [Expr.uniformDerivative, Leaf.derivative, eval_zero, mul_zero, add_zero]
      | leibniz of wrt => exact absurd rfl (hfree.self of wrt)
      | var c name =>
          rcases hletters name (Expr.mem_letters_leaf.mpr rfl) with rfl | rfl
          · simp [Expr.uniformDerivative, eval_derivative_var, hxy]
          · simp [Expr.uniformDerivative, eval_derivative_var, hxy.symm, mul_comm]
  | call c f u ih =>
      have hu := Expr.leibnizFree_call.mp hfree
      have hfu := Expr.leibnizFree_func_derivative f hu
      have hdu := ih hu (Expr.forall_letters_call.mp hletters)
      simp only [Expr.uniformDerivative, eval_mul, eval_withLeibniz ρ hfu, hdu,
        eval_withLeibniz ρ (Expr.leibnizFree_number (c.getD 1))]
      ring
  | binary op u v ihu ihv =>
      obtain ⟨hu, hv⟩ := Expr.leibnizFree_binary.mp hfree
      obtain ⟨hlu, hlv⟩ := Expr.forall_letters_binary.mp hletters
      have hdu := ihu hu hlu
      have hdv := ihv hv hlv
      have heu (of wrt : Char) (z : K) : (ρ.withLeibniz of wrt z).eval u = ρ.eval u :=
        ρ.eval_withLeibniz hu
      have hev (of wrt : Char) (z : K) : (ρ.withLeibniz of wrt z).eval v = ρ.eval v :=
        ρ.eval_withLeibniz hv
      cases op with
      | add =>
          simp only [Expr.uniformDerivative, eval_add, hdu, hdv]
          ring
      | sub =>
          simp only [Expr.uniformDerivative, eval_sub, hdu, hdv]
          ring
      | mul =>
          simp only [Expr.uniformDerivative, eval_add, eval_mul, hdu, hdv, heu, hev]
          ring
      | div =>
          have hsquare : (v ^ Expr.number 2).LeibnizFree := by simp [Expr.pow_def, hv]
          simp only [Expr.uniformDerivative, eval_div, eval_sub, eval_mul, hdu, hdv, heu, hev,
            eval_withLeibniz ρ hsquare]
          ring
      | pow =>
          have hexp : (Expr.constant .e ^ (v * Expr.apply .ln u)).LeibnizFree := by
            simp [Expr.mul_def, Expr.pow_def, hu, hv]
          have hln : (Expr.apply .ln u).LeibnizFree := Expr.leibnizFree_call.mpr hu
          have hinverse : (Expr.number 1 / u).LeibnizFree := by simp [Expr.div_def, hu]
          have houter : ((v * u) ^ (v - Expr.number 1)).LeibnizFree := by
            simp [Expr.mul_def, Expr.sub_def, Expr.pow_def, hu, hv]
          simp only [Expr.uniformDerivative]
          split
          · simp only [eval_mul, eval_add, hdu, hdv, hev, eval_withLeibniz ρ hexp,
              eval_withLeibniz ρ hln, eval_withLeibniz ρ hinverse]
            ring
          · simp only [eval_mul, hdu, eval_withLeibniz ρ houter]
            ring

/-- The derivative with respect to `x` is affine in `dy/dx`, and its slope is the
derivative with respect to `y` when `x` is held. -/
theorem eval_derivative_eq_add_mul (hxy : x ≠ y) (hfree : e.LeibnizFree)
    (hletters : ∀ name ∈ e.letters, name = x ∨ name = y) (z : K) :
    (ρ.withLeibniz y x z).eval (e.derivative x) =
      (ρ.withLeibniz y x 0).eval (e.derivative x) +
        z * (ρ.withLeibniz x y 0).eval (e.derivative y) := by
  have hx := Roles.covers_of_pair hletters
  have hy := Roles.covers_of_pair fun name hname => (hletters name hname).symm
  simp only [Expr.derivative, Roles.eval_derive _ hx, Roles.eval_derive _ hy]
  exact ρ.eval_uniformDerivative_eq_add_mul hxy hfree hletters z

/-- The slope of the derivative of `ln(x * y) ^ y` with respect to `x` is not zero where
`x` and `y` are five, the logarithm adds one and a power is a product. -/
theorem eval_derivative_ln_mul_pow :
    ((literal ℚ (fun _ => 3) (fun _ => 5) (fun _ _ => 0) (fun _ u => u + 1)
          fun u v => u * v).withLeibniz 'y' 'x' 7).eval
        ((Expr.apply .ln (Expr.var none 'x' * Expr.var none 'y') ^ Expr.var none 'y').derivative
          'x') =
      ((literal ℚ (fun _ => 3) (fun _ => 5) (fun _ _ => 0) (fun _ u => u + 1)
          fun u v => u * v).withLeibniz 'y' 'x' 0).eval
        ((Expr.apply .ln (Expr.var none 'x' * Expr.var none 'y') ^ Expr.var none 'y').derivative
          'x') +
      7 * ((literal ℚ (fun _ => 3) (fun _ => 5) (fun _ _ => 0) (fun _ u => u + 1)
          fun u v => u * v).withLeibniz 'x' 'y' 0).eval
        ((Expr.apply .ln (Expr.var none 'x' * Expr.var none 'y') ^ Expr.var none 'y').derivative
          'y') ∧
      ((literal ℚ (fun _ => 3) (fun _ => 5) (fun _ _ => 0) (fun _ u => u + 1)
          fun u v => u * v).withLeibniz 'x' 'y' 0).eval
        ((Expr.apply .ln (Expr.var none 'x' * Expr.var none 'y') ^ Expr.var none 'y').derivative
          'y') = 284715 / 26 := by
  have hderivative :
      (Expr.apply .ln (Expr.var none 'x' * Expr.var none 'y') ^ Expr.var none 'y').derivative 'y' =
        Expr.constant .e ^ (Expr.var none 'y' *
            Expr.apply .ln (Expr.apply .ln (Expr.var none 'x' * Expr.var none 'y'))) *
          (Expr.number 1 * Expr.apply .ln (Expr.apply .ln (Expr.var none 'x' * Expr.var none 'y')) +
            Expr.var none 'y' *
              (Expr.number 1 / Expr.apply .ln (Expr.var none 'x' * Expr.var none 'y') *
                (Expr.number 1 / (Expr.var none 'x' * Expr.var none 'y') *
                  (Expr.leibniz 'x' 'y' * Expr.var none 'y' +
                    Expr.var none 'x' * Expr.number 1)))) := by cbv
  refine ⟨eval_derivative_eq_add_mul _ (by decide) ?_ ?_ 7, ?_⟩
  · simp [Expr.mul_def, Expr.pow_def]
  · intro name hname
    simp only [Expr.mul_def, Expr.pow_def, Expr.mem_letters_binary, Expr.mem_letters_call,
      Expr.mem_letters_leaf, Leaf.letter?, Option.some.injEq] at hname
    rcases hname with (rfl | rfl) | rfl <;> decide
  · rw [hderivative]
    norm_num [withLeibniz, literal, Expr.apply]

end Meaning

end Fluxion
