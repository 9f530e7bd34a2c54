import Fluxion.Proofs.Differentiation

/-!
# How long a derivative gets

The rules of differentiation copy what they differentiate: a quotient has its
denominator twice, the exponential rule the base of a power three times. They never
copy a derivative. So every node adds to the derivatives of its parts at most a
multiple of what stands below it, and the derivative of an expression with `n`
nodes has at most `20 · n²` of them.
-/

namespace Fluxion

theorem Func.size_derivative_le (f : Func) (u : Expr) :
    (f.derivative u).size ≤ 2 * u.size + 14 := by
  cases f with
  | log base =>
      cases base <;> simp only [Func.derivative, Expr.div_def, Expr.mul_def, Expr.size] <;> omega
  | _ =>
      simp only [Func.derivative, Expr.add_def, Expr.sub_def, Expr.mul_def, Expr.div_def,
        Expr.pow_def, Expr.size]
      omega

theorem Leaf.size_derivative_le (wrt : Char) (l : Leaf) : (l.derivative wrt).size ≤ 3 := by
  match l with
  | .number _ | .constant _ | .leibniz _ _ => simp [Leaf.derivative, Expr.size]
  | .var c name =>
      by_cases hname : name = wrt
      · simp [Leaf.derivative, hname, Expr.size]
      · cases c <;> simp [Leaf.derivative, hname, Expr.mul_def, Expr.size]

namespace Roles

variable (roles : Roles) (f : Func) (u v u' v' : Expr)

/-- The chain rule puts one node and the derivative of the argument next to the
derivative of the function. -/
theorem size_chain_le :
    (roles.chain f u u').size ≤ (f.derivative u).size + u'.size + 1 := by
  have hu' := u'.size_pos
  rcases roles.chain_cases f u u' with
    ⟨-, hchain⟩ | ⟨-, hchain⟩ | ⟨name, -, -, hchain⟩ | ⟨l, -, -, hchain⟩ <;>
    simp only [hchain, Expr.mul_def, Expr.size] <;> omega

theorem size_exponentialRule_le :
    (roles.exponentialRule u v u' v').size ≤
      u'.size + v'.size + 3 * u.size + 2 * v.size + 12 := by
  have hchain := roles.size_chain_le .ln u u'
  simp only [exponentialRule, Func.derivative, Expr.add_def, Expr.mul_def, Expr.div_def,
    Expr.pow_def, Expr.size] at hchain ⊢
  omega

theorem size_powerRule_le :
    (roles.powerRule u v u').size ≤ u'.size + u.size + 2 * v.size + 5 := by
  unfold powerRule
  split <;> simp only [Expr.sub_def, Expr.mul_def, Expr.pow_def, Expr.size] <;> omega

theorem size_power_le :
    (roles.power u v u' v').size ≤ u'.size + v'.size + 3 * u.size + 2 * v.size + 12 := by
  unfold power
  split
  · exact roles.size_exponentialRule_le u v u' v'
  · split
    · have hrule := roles.size_powerRule_le u v u'
      omega
    · simp only [Expr.size]
      omega

theorem size_derive_le (e : Expr) : (roles.derive e).size ≤ 20 * e.size ^ 2 := by
  induction e with
  | leaf l =>
      have hleaf := l.size_derivative_le roles.wrt
      simp only [derive, Expr.size]
      omega
  | call c f u ih =>
      have hfunc := f.size_derivative_le u
      have hchain := roles.size_chain_le f u (roles.derive u)
      have hsquare : (u.size + 1) ^ 2 = u.size ^ 2 + 2 * u.size + 1 := by ring
      cases c with
      | none =>
          simp only [derive, Expr.size]
          omega
      | some n =>
          simp only [derive, Expr.mul_def, Expr.size]
          omega
  | binary op u v ihu ihv =>
      -- twice the product of the two sizes is more than is needed
      have hsquare : (u.size + v.size + 1) ^ 2 =
          u.size ^ 2 + v.size ^ 2 + 2 * (u.size * v.size) + 2 * u.size + 2 * v.size + 1 := by ring
      cases op with
      | pow =>
          have hpower := roles.size_power_le u v (roles.derive u) (roles.derive v)
          simp only [derive, Expr.size]
          omega
      | _ =>
          simp only [derive, Expr.add_def, Expr.sub_def, Expr.mul_def, Expr.div_def, Expr.pow_def,
            Expr.size]
          omega

end Roles

namespace Expr

/-- Differentiation comes to an end on every expression, with one result, and the
number of nodes is squared at most, up to a factor. -/
theorem nodeCount_derivative_le (e : Expr) (wrt : Char) :
    (∀ d, Roles.Gives ⟨wrt, e.letters.find? (· ≠ wrt)⟩ e d ↔ d = e.derivative wrt) ∧
      (e.derivative wrt).nodeCount ≤ 20 * e.nodeCount ^ 2 := by
  constructor
  · intro d
    exact Roles.gives_iff
  · rw [nodeCount_eq_size, nodeCount_eq_size]
    exact Roles.size_derive_le _ e

end Expr

end Fluxion
