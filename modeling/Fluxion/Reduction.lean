import Fluxion.Reduction.Rule

/-!
# Reduction

An expression is reduced in passes. A pass goes through it from the leaves to
the top and uses rules on every node, once its parts are done, until no rule
applies to it. Passes follow one another until one of them uses no rule.

Both loops end because every rule makes the expression lighter. A pass takes at
least as much weight away as it uses rules: `weight_pass`.
-/

namespace Fluxion

/-- An expression after some rules have been used on it, and these rules in the
order of their use. -/
structure Reduction where
  expr : Expr
  steps : List Rule
deriving Repr

namespace Reduction

/-- Uses rules at the top of an expression until none applies there. -/
def atTop (e : Expr) : Reduction :=
  match h : Rule.first? Rule.all e with
  | none => ⟨e, []⟩
  | some (rule, e') =>
    have := Rule.weight_lt_of_first? h
    let rest := atTop e'
    ⟨rest.expr, rule :: rest.steps⟩
termination_by e.weight

/-- One pass through an expression. -/
def pass : Expr → Reduction
  | .leaf l => ⟨.leaf l, []⟩
  | .call coefficient func arg =>
    let inside := pass arg
    ⟨.call coefficient func inside.expr, inside.steps⟩
  | .binary op lhs rhs =>
    let left := pass lhs
    let right := pass rhs
    let top := atTop (.binary op left.expr right.expr)
    ⟨top.expr, left.steps ++ right.steps ++ top.steps⟩

theorem atTop_of_none {e : Expr} (h : Rule.first? Rule.all e = none) : atTop e = ⟨e, []⟩ := by
  rw [atTop]
  split <;> simp_all

theorem atTop_of_some {e e' : Expr} {rule : Rule} (h : Rule.first? Rule.all e = some (rule, e')) :
    atTop e = ⟨(atTop e').expr, rule :: (atTop e').steps⟩ := by
  rw [atTop]
  split <;> simp_all

theorem weight_atTop (e : Expr) : (atTop e).expr.weight + (atTop e).steps.length ≤ e.weight := by
  induction e using atTop.induct with
  | case1 e h => simp [atTop_of_none h]
  | case2 e rule e' h hlt ih =>
    simp only [atTop_of_some h, List.length_cons]
    omega

theorem weight_pass (e : Expr) : (pass e).expr.weight + (pass e).steps.length ≤ e.weight := by
  induction e with
  | leaf l => simp [pass]
  | call c f arg ih =>
    simp only [pass, Expr.weight]
    omega
  | binary op lhs rhs ihl ihr =>
    have := weight_atTop (.binary op (pass lhs).expr (pass rhs).expr)
    simp only [pass, List.length_append, Expr.weight_binary] at *
    omega

/-- A pass that uses a rule leaves a lighter expression. -/
theorem weight_pass_lt {e : Expr} (h : (pass e).steps ≠ []) :
    (pass e).expr.weight < e.weight := by
  have := weight_pass e
  have := List.length_pos_iff.2 h
  omega

end Reduction

/-- Reduces an expression as far as the rules go. -/
def Expr.simplify (e : Expr) : Reduction :=
  let first := Reduction.pass e
  if h : first.steps = [] then first
  else
    have := Reduction.weight_pass_lt h
    let rest := simplify first.expr
    ⟨rest.expr, first.steps ++ rest.steps⟩
termination_by e.weight

end Fluxion
