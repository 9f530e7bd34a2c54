import Fluxion.Proofs.RealFunction
import Fluxion.Proofs.UniformDerivative

/-!
# The derivative as a rate of change

Over the real numbers an expression in `w` and in an unknown function `y` of `w` is
a function of `w`. Where that function is regular, its derivative is what the
derivative of the expression stands for, with the derivative of `y` for `dy/dw`.

Two kinds of expressions are left out: logarithms without a base, and powers with
variables in the base alone, for which `(v * u) ^ (v - 1)` is no derivative. What
remains of powers is `u ^ v` with a variable in `v`, which is `e ^ (v * ln(u))` for
a positive base (`hasDerivAt_power`), and powers that do not change.

The proof is about the uniform derivative and by induction on the expression:
each of its rules is a rule for the derivative of a real function.
-/

namespace Fluxion

noncomputable section

/-- `w` is `s`, and every other letter is the value of the function `g` there. -/
def along (w : Char) (g : ℝ → ℝ) (s : ℝ) : Char → ℝ :=
  Function.update (fun _ => g s) w s

/-- The place where an expression is built from its parts is a regular one: the
denominator is not zero, the base of a power that changes in the exponent is
positive, and the function is regular at its argument. -/
def Expr.RegularAt (ρ : Meaning ℝ) : Expr → Prop
  | binary .div _ v => ρ.eval v ≠ 0
  | binary .pow u v => v.hasVariables = true → 0 < ρ.eval u
  | call _ f u => f.RegularAt (ρ.eval u)
  | _ => True

/-- An expression that is no logarithm without a base, and no power with
variables in its base alone. -/
def Expr.IsDifferentiable : Expr → Prop
  | call _ (.log none) _ => False
  | binary .pow u v => v.hasVariables = true ∨ (u ^ v).hasVariables = false
  | _ => True

variable {w y : Char} {g : ℝ → ℝ} {a : ℝ} {rates : Char → Char → ℝ} {e : Expr}

theorem hasDerivAt_power {u v : ℝ → ℝ} {u' v' : ℝ} (hu : HasDerivAt u u' a)
    (hv : HasDerivAt v v' a) (hpos : 0 < u a) :
    HasDerivAt (fun s => u s ^ v s)
      (Real.exp 1 ^ (v a * Real.log (u a)) *
        (v' * Real.log (u a) + v a * (1 / u a * u'))) a := by
  refine (hu.rpow hv hpos).congr_deriv ?_
  have hexp : Real.exp 1 ^ (v a * Real.log (u a)) = u a ^ v a := by
    rw [Real.exp_one_rpow, Real.rpow_def_of_pos hpos, mul_comm]
  rw [hexp, Real.rpow_sub_one hpos.ne']
  ring

theorem hasDerivAt_var (hg : HasDerivAt g (rates y w) a) {name : Char}
    (hname : name = w ∨ name = y) :
    HasDerivAt (fun s => along w g s name) (if name = w then 1 else rates name w) a := by
  by_cases hw : name = w
  · subst hw
    simpa [along] using hasDerivAt_id' a
  · obtain rfl := hname.resolve_left hw
    simpa [along, hw] using hg

/-- What does not change has the derivative zero. -/
theorem hasDerivAt_eval_of_constant (h : e.IsConstant) :
    HasDerivAt (fun s => (Meaning.real (along w g s) rates).eval e)
      ((Meaning.real (along w g a) rates).eval (e.uniformDerivative w)) a := by
  have hfixed (s : ℝ) : (Meaning.real (along w g s) rates).eval e =
      (Meaning.real (along w g a) rates).eval e :=
    Meaning.eval_withVar (.real (along w g a) rates) fun name hname => absurd hname (h name)
  simp only [hfixed, Meaning.eval_uniformDerivative_of_constant _ h]
  exact hasDerivAt_const a _

theorem hasDerivAt_eval_uniformDerivative (hg : HasDerivAt g (rates y w) a)
    (hletters : ∀ name ∈ e.letters, name = w ∨ name = y)
    (hdiff : e.Everywhere Expr.IsDifferentiable)
    (hregular : e.Everywhere (Expr.RegularAt (.real (along w g a) rates))) :
    HasDerivAt (fun s => (Meaning.real (along w g s) rates).eval e)
      ((Meaning.real (along w g a) rates).eval (e.uniformDerivative w)) a := by
  induction e with
  | leaf l =>
      cases l with
      | number _ | constant _ | leibniz _ _ =>
          refine hasDerivAt_eval_of_constant fun name hname => ?_
          cases Expr.mem_letters_leaf.mp hname
      | var c name =>
          have hvar := hasDerivAt_var hg (hletters name (Expr.mem_letters_leaf.mpr rfl))
          refine (hvar.const_mul ((Meaning.real (along w g a) rates).coefficient c)).congr_deriv ?_
          exact (Meaning.eval_derivative_var _ c name w).symm
  | call c f u ih =>
      obtain ⟨hf, hu⟩ := Expr.everywhere_call.mp hdiff
      obtain ⟨hf', hu'⟩ := Expr.everywhere_call.mp hregular
      have hlog : f ≠ .log none := by
        rintro rfl
        exact hf
      have harg := ih (Expr.forall_letters_call.mp hletters) hu hu'
      have hchain := (Func.hasDerivAt_real (along w g a) rates hlog hf').comp a harg
      exact hchain.const_mul ((Meaning.real (along w g a) rates).coefficient c)
  | binary op u v ihu ihv =>
      obtain ⟨htop, hu, hv⟩ := Expr.everywhere_binary.mp hdiff
      obtain ⟨htop', hu', hv'⟩ := Expr.everywhere_binary.mp hregular
      obtain ⟨hlu, hlv⟩ := Expr.forall_letters_binary.mp hletters
      have hdu := ihu hlu hu hu'
      have hdv := ihv hlv hv hv'
      cases op with
      | add => exact hdu.add hdv
      | sub => exact hdu.sub hdv
      | mul => exact hdu.mul hdv
      | div =>
          refine (hdu.div hdv htop').congr_deriv ?_
          simp [Expr.uniformDerivative]
      | pow =>
          by_cases hvariables : v.hasVariables = true
          · rw [Expr.uniformDerivative, if_pos hvariables]
            refine (hasDerivAt_power hdu hdv (htop' hvariables)).congr_deriv ?_
            simp only [Meaning.eval_mul, Meaning.eval_add, Meaning.eval_pow, Meaning.eval_div,
              Meaning.eval_one, Meaning.eval_constant, Meaning.eval_call, Meaning.coefficient_none,
              one_mul]
            rfl
          · exact hasDerivAt_eval_of_constant
              (Expr.hasVariables_eq_false_iff.mp (htop.resolve_left hvariables))

/-- Where an expression is regular, the derivative of the function that it stands
for is what its derivative stands for. Unknown derivatives that occur in it are
held fixed. -/
theorem hasDerivAt_eval_derivative (hg : DifferentiableAt ℝ g a) (hrate : rates y w = deriv g a)
    (hletters : ∀ name ∈ e.letters, name = w ∨ name = y)
    (hdiff : e.Everywhere Expr.IsDifferentiable)
    (hregular : e.Everywhere (Expr.RegularAt (.real (along w g a) rates))) :
    HasDerivAt (fun s => (Meaning.real (along w g s) rates).eval e)
      ((Meaning.real (along w g a) rates).eval (e.derivative w)) a := by
  have hg' : HasDerivAt g (rates y w) a := by
    rw [hrate]
    exact hg.hasDerivAt
  rw [Expr.derivative, Roles.eval_derive _ (Roles.covers_of_pair hletters)]
  exact hasDerivAt_eval_uniformDerivative hg' hletters hdiff hregular

theorem hasDerivAt_eval_derivative_ln_pow :
    HasDerivAt
      (fun s => (Meaning.real (along 'x' (fun s => s + 1) s) fun _ _ => 1).eval
        (Expr.apply .ln (.var none 'x') ^ Expr.var none 'y' / Expr.var none 'y'))
      ((Meaning.real (along 'x' (fun s => s + 1) 2) fun _ _ => 1).eval
        ((Expr.apply .ln (.var none 'x') ^ Expr.var none 'y' / Expr.var none 'y').derivative
          'x')) 2 := by
  have hvariables : (Expr.var none 'y').hasVariables = true :=
    Expr.hasVariables_iff.mpr ⟨'y', Expr.mem_letters_leaf.mpr rfl⟩
  have hx : (Meaning.real (along 'x' (fun s => s + 1) 2) fun _ _ => 1).var 'x' = 2 := by
    simp [Meaning.real, Meaning.literal, along]
  have hy : (Meaning.real (along 'x' (fun s => s + 1) 2) fun _ _ => 1).var 'y' = 3 := by
    simp [Meaning.real, Meaning.literal, along]
    norm_num
  refine hasDerivAt_eval_derivative (y := 'y') (by fun_prop) (by simp) ?_ ?_ ?_
  · intro name hname
    simp only [Expr.div_def, Expr.pow_def, Expr.mem_letters_binary, Expr.mem_letters_call,
      Expr.mem_letters_leaf, Leaf.letter?, Option.some.injEq] at hname
    rcases hname with (rfl | rfl) | rfl <;> decide
  · simp [Expr.div_def, Expr.pow_def, Expr.everywhere_binary, Expr.everywhere_call,
      Expr.everywhere_leaf, Expr.IsDifferentiable, hvariables]
  · simp [Expr.div_def, Expr.pow_def, Expr.everywhere_binary, Expr.everywhere_call,
      Expr.everywhere_leaf, Expr.RegularAt, Func.RegularAt, Func.real, hx, hy, Real.log_pos]

end

end Fluxion
