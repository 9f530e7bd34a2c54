import Fluxion.Derivative
import Fluxion.Proofs.Meaning

/-!
# Derivatives without special cases

`Expr.uniformDerivative` differentiates by the chain rule and by two rules for
powers, whatever the argument or the base looks like. The derivative proper leaves
out a factor that is one, puts a single unknown in front and gives zero at once
where it sees that nothing changes. Both stand for the same, whatever meaning
numbers, functions and powers have: `Roles.eval_derive`.

Two things carry this. An expression without variables has a uniform derivative
that stands for zero, quotients included (`Meaning.eval_uniformDerivative_of_constant`),
which is why a derivative may be zero at once. And where each letter has a role,
an expression may change exactly if it has variables (`Roles.affects_iff`), so
that both take the same rule for a power.
-/

namespace Fluxion

/-- The derivative of an expression by the rules alone. -/
def Expr.uniformDerivative (wrt : Char) : Expr → Expr
  | leaf l => l.derivative wrt
  | call c f u => number (c.getD 1) * (f.derivative u * u.uniformDerivative wrt)
  | binary .add u v => u.uniformDerivative wrt + v.uniformDerivative wrt
  | binary .sub u v => u.uniformDerivative wrt - v.uniformDerivative wrt
  | binary .mul u v => u.uniformDerivative wrt * v + u * v.uniformDerivative wrt
  | binary .div u v =>
    (u.uniformDerivative wrt * v - u * v.uniformDerivative wrt) / v ^ number 2
  | binary .pow u v =>
    if v.hasVariables then
      constant .e ^ (v * apply .ln u) *
        (v.uniformDerivative wrt * apply .ln u + v * (number 1 / u * u.uniformDerivative wrt))
    else u.uniformDerivative wrt * (v * u) ^ (v - number 1)

/-- No variable occurs in an expression. -/
def Expr.IsConstant (e : Expr) : Prop :=
  ∀ name, name ∉ e.letters

namespace Expr

variable {c : Option Float} {f : Func} {op : Operator} {arg lhs rhs : Expr}

theorem hasVariables_eq_false_iff {e : Expr} : e.hasVariables = false ↔ e.IsConstant := by
  rw [← Bool.not_eq_true, hasVariables_iff, not_exists]
  rfl

theorem isConstant_call : (call c f arg).IsConstant ↔ arg.IsConstant :=
  forall_letters_call

theorem isConstant_binary : (binary op lhs rhs).IsConstant ↔ lhs.IsConstant ∧ rhs.IsConstant :=
  forall_letters_binary

end Expr

namespace Meaning

variable {K : Type*} [Field K] (ρ : Meaning K)

theorem eval_derivative_var (c : Option Float) (name wrt : Char) :
    ρ.eval ((Leaf.var c name).derivative wrt) =
      ρ.coefficient c * if name = wrt then 1 else ρ.leibniz name wrt := by
  by_cases hname : name = wrt
  · simp only [Leaf.derivative, if_pos hname, mul_one]
    rfl
  · cases c with
    | none => simp only [Leaf.derivative, if_neg hname, coefficient_none, one_mul, eval_leibniz]
    | some n => simp only [Leaf.derivative, if_neg hname]; rfl

theorem eval_uniformDerivative_of_constant {wrt : Char} {e : Expr} (h : e.IsConstant) :
    ρ.eval (e.uniformDerivative wrt) = 0 := by
  induction e with
  | leaf l =>
      cases l with
      | var c name => exact absurd (Expr.mem_letters_leaf.mpr rfl) (h name)
      | number _ | constant _ | leibniz _ _ => exact ρ.eval_zero
  | call c f u ih =>
      simp only [Expr.uniformDerivative, eval_mul, ih (Expr.isConstant_call.mp h), mul_zero]
  | binary op u v ihu ihv =>
      obtain ⟨hu, hv⟩ := Expr.isConstant_binary.mp h
      cases op with
      | add => simp only [Expr.uniformDerivative, eval_add, ihu hu, ihv hv, add_zero]
      | sub => simp only [Expr.uniformDerivative, eval_sub, ihu hu, ihv hv, sub_zero]
      | mul =>
          simp only [Expr.uniformDerivative, eval_add, eval_mul, ihu hu, ihv hv, zero_mul, mul_zero,
            add_zero]
      | div =>
          simp only [Expr.uniformDerivative, eval_div, eval_sub, eval_mul, ihu hu, ihv hv, zero_mul,
            mul_zero, sub_zero, zero_div]
      | pow =>
          rw [Expr.uniformDerivative, if_neg (by simp [Expr.hasVariables_eq_false_iff.mpr hv]),
            eval_mul, ihu hu, zero_mul]

end Meaning

namespace Roles

/-- Every letter of an expression has a role in its differentiation. -/
def Covers (roles : Roles) (e : Expr) : Prop :=
  ∀ name ∈ e.letters, name = roles.wrt ∨ roles.other = some name

variable {roles : Roles} {c : Option Float} {f : Func} {op : Operator} {arg lhs rhs : Expr}

theorem covers_call : roles.Covers (.call c f arg) ↔ roles.Covers arg :=
  Expr.forall_letters_call

theorem covers_binary :
    roles.Covers (.binary op lhs rhs) ↔ roles.Covers lhs ∧ roles.Covers rhs :=
  Expr.forall_letters_binary

theorem affects_iff {e : Expr} (h : roles.Covers e) :
    roles.Affects e ↔ e.hasVariables = true := by
  rw [Affects, Expr.hasVariables_iff, Expr.mentions_iff, Option.any_eq_true]
  simp only [Expr.mentions_iff]
  constructor
  · rintro (hwrt | ⟨name, -, hname⟩)
    · exact ⟨roles.wrt, hwrt⟩
    · exact ⟨name, hname⟩
  · rintro ⟨name, hname⟩
    rcases h name hname with rfl | hother
    · exact Or.inl hname
    · exact Or.inr ⟨name, hother, hname⟩

theorem not_affects_iff {e : Expr} (h : roles.Covers e) : ¬ roles.Affects e ↔ e.IsConstant := by
  rw [affects_iff h, Bool.not_eq_true, Expr.hasVariables_eq_false_iff]

variable {K : Type*} [Field K] (ρ : Meaning K)

/-- Whatever is left out of the chain rule is a factor that is one or zero. -/
theorem eval_chain (f : Func) (u : Expr) :
    ρ.eval (roles.chain f u (roles.derive u)) =
      ρ.eval (f.derivative u) * ρ.eval (roles.derive u) := by
  rcases roles.chain_cases f u (roles.derive u) with
    ⟨-, hchain⟩ | ⟨rfl, hchain⟩ | ⟨name, hname, rfl, hchain⟩ | ⟨l, hl, rfl, hchain⟩
  · rw [hchain, Meaning.eval_mul]
  · rw [hchain]
    simp only [derive, Leaf.derivative, if_true, Option.getD_none, Meaning.eval_one, mul_one]
  · rw [hchain]
    simp only [derive, Leaf.derivative, if_neg hname, Meaning.eval_mul, mul_comm]
  · rw [hchain, derive, Leaf.derivative_of_letter?_eq_none hl, Meaning.eval_zero, mul_zero]

/-- The factor left out of the power rule is one. -/
theorem eval_powerRule (u v : Expr) :
    ρ.eval (roles.powerRule u v (roles.derive u)) =
      ρ.eval (roles.derive u) * ρ.eval ((v * u) ^ (v - Expr.number 1)) := by
  unfold powerRule
  split
  · next hbare =>
      unfold Expr.isBare at hbare
      split at hbare
      · next name =>
          obtain rfl : name = roles.wrt := by simpa using hbare
          simp only [derive, Leaf.derivative, if_true, Option.getD_none, Meaning.eval_one, one_mul]
      · cases hbare
  · rfl

theorem eval_derive {e : Expr} (h : roles.Covers e) :
    ρ.eval (roles.derive e) = ρ.eval (e.uniformDerivative roles.wrt) := by
  induction e with
  | leaf l => rfl
  | call c f u ih =>
      have hchain := roles.eval_chain ρ f u
      rw [ih (covers_call.mp h)] at hchain
      cases c with
      | none =>
          rw [derive, hchain]
          simp only [Expr.uniformDerivative, Meaning.eval_mul, Option.getD_none, Meaning.eval_one,
            one_mul]
      | some n => rw [derive, Meaning.eval_mul, hchain]; rfl
  | binary op u v ihu ihv =>
      obtain ⟨hu, hv⟩ := covers_binary.mp h
      have hdu := ihu hu
      have hdv := ihv hv
      cases op with
      | add => simp only [derive, Expr.uniformDerivative, Meaning.eval_add, hdu, hdv]
      | sub => simp only [derive, Expr.uniformDerivative, Meaning.eval_sub, hdu, hdv]
      | mul =>
          simp only [derive, Expr.uniformDerivative, Meaning.eval_add, Meaning.eval_mul, hdu, hdv]
      | div =>
          simp only [derive, Expr.uniformDerivative, Meaning.eval_div, Meaning.eval_sub,
            Meaning.eval_mul, hdu, hdv]
      | pow =>
          rw [derive, power, Expr.uniformDerivative]
          split
          · next hchanges =>
              rw [if_pos ((affects_iff hv).mp hchanges)]
              simp only [exponentialRule, Meaning.eval_mul, Meaning.eval_add, eval_chain, hdu, hdv]
              rfl
          · next hfixed =>
              rw [if_neg fun hvariables => hfixed ((affects_iff hv).mpr hvariables)]
              split
              · rw [eval_powerRule, Meaning.eval_mul, hdu]
              · next hconstant =>
                  have hzero : ρ.eval (u.uniformDerivative roles.wrt) = 0 :=
                    ρ.eval_uniformDerivative_of_constant ((not_affects_iff hu).mp hconstant)
                  rw [Meaning.eval_zero, Meaning.eval_mul, hzero, zero_mul]

/-- The roles that differentiation gives cover the expression, if there is at
most one other variable. -/
theorem covers_of_letters {wrt : Char} {e : Expr}
    (h : ∀ a ∈ e.letters, ∀ b ∈ e.letters, a ≠ wrt → b ≠ wrt → a = b) :
    Roles.Covers ⟨wrt, e.letters.find? (· ≠ wrt)⟩ e := by
  intro name hname
  by_cases hwrt : name = wrt
  · exact Or.inl hwrt
  · right
    cases hfind : e.letters.find? (· ≠ wrt) with
    | none => exact absurd hwrt (by simpa using List.find?_eq_none.mp hfind name hname)
    | some other =>
        have hother : other ≠ wrt := by simpa using List.find?_some hfind
        rw [h name hname other (List.mem_of_find?_eq_some hfind) hwrt hother]

theorem covers_of_pair {wrt other : Char} {e : Expr}
    (h : ∀ name ∈ e.letters, name = wrt ∨ name = other) :
    Roles.Covers ⟨wrt, e.letters.find? (· ≠ wrt)⟩ e := by
  refine covers_of_letters fun a ha b hb hawrt hbwrt => ?_
  exact ((h a ha).resolve_left hawrt).trans ((h b hb).resolve_left hbwrt).symm

end Roles

namespace Meaning

variable {K : Type*} [Field K] (ρ : Meaning K)

/-- The derivative with its special cases stands for what the derivative without
them does, in any field and whatever functions and powers are. -/
theorem eval_derivative_eq_eval_uniformDerivative {wrt : Char} {e : Expr}
    (h : ∀ a ∈ e.letters, ∀ b ∈ e.letters, a ≠ wrt → b ≠ wrt → a = b) :
    ρ.eval (e.derivative wrt) = ρ.eval (e.uniformDerivative wrt) :=
  Roles.eval_derive ρ (Roles.covers_of_letters h)

/-- In `sin(y) ^ x` the base and the exponent both change with `x`. -/
theorem eval_derivative_sin_pow :
    (literal ℚ (fun _ => 3) (fun _ => 5) (fun _ _ => 7) (fun _ u => u + 1) fun u v => u * v).eval
        ((Expr.apply .sin (.var none 'y') ^ Expr.var none 'x').derivative 'x') =
      (literal ℚ (fun _ => 3) (fun _ => 5) (fun _ _ => 7) (fun _ u => u + 1) fun u v => u * v).eval
        ((Expr.apply .sin (.var none 'y') ^ Expr.var none 'x').uniformDerivative 'x') ∧
      (literal ℚ (fun _ => 3) (fun _ => 5) (fun _ _ => 7) (fun _ u => u + 1) fun u v => u * v).eval
        ((Expr.apply .sin (.var none 'y') ^ Expr.var none 'x').derivative 'x') = 4410 := by
  have hderivative : (Expr.apply .sin (.var none 'y') ^ Expr.var none 'x').derivative 'x' =
      Expr.constant .e ^ (Expr.var none 'x' * Expr.apply .ln (Expr.apply .sin (.var none 'y'))) *
        (Expr.number 1 * Expr.apply .ln (Expr.apply .sin (.var none 'y')) +
          Expr.var none 'x' * (Expr.number 1 / Expr.apply .sin (.var none 'y') *
            (.leibniz 'y' 'x' * Expr.apply .cos (.var none 'y')))) := by cbv
  refine ⟨eval_derivative_eq_eval_uniformDerivative _ fun a ha b hb hax hbx => ?_, ?_⟩
  · simp only [Expr.pow_def, Expr.mem_letters_binary, Expr.mem_letters_call,
      Expr.mem_letters_leaf, Leaf.letter?, Option.some.injEq] at ha hb
    rw [← ha.resolve_right hax.symm, ← hb.resolve_right hbx.symm]
  · rw [hderivative]
    norm_num [literal, Expr.apply]

end Meaning

end Fluxion
