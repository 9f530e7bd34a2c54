import Fluxion.Proofs.Firings
import Fluxion.Proofs.Parts

/-!
# One pass is enough

An expression is normal if no rule applies to it or to any part of it. A pass
works from the leaves to the top, so a rule is only ever used on operands that
are normal already, and nearly all rules make a leaf, an operand, or an operand
with another coefficient. These are normal. The exception is `2x * 3x`, which
becomes `6 * (x ^ 2)`: a product again, to which one rule may still apply, for
`0x * 3x` has become `0 * (x ^ 2)`. That rule makes a leaf or the square, and
the square is normal.

So no node takes more than two rules, and the expression that the first pass
leaves is normal (`Reduction.isNormal_pass`). A second pass finds nothing to do
and leaves the expression as it is (`Reduction.pass_of_isNormal`). None of this
depends on how numbers compare: a comparison with NaN only makes a rule fail to
apply.
-/

namespace Fluxion

namespace Expr

/-- No rule applies to an expression or to a part of it. -/
def IsNormal (e : Expr) : Prop :=
  e.Everywhere fun s => Rule.first? Rule.all s = none

/-- The number of operators in an expression. -/
def operatorCount : Expr → Nat
  | leaf _ => 0
  | call _ _ arg => arg.operatorCount
  | binary _ lhs rhs => lhs.operatorCount + rhs.operatorCount + 1

/-- The passes of the reduction of an expression. Each begins with what the one
before it has left, and the last is the first to use no rule. -/
def passes (e : Expr) : List Reduction :=
  if h : (Reduction.pass e).steps = [] then [Reduction.pass e]
  else
    have := Reduction.weight_pass_lt h
    Reduction.pass e :: passes (Reduction.pass e).expr
termination_by e.weight

theorem passes_of_nil {e : Expr} (h : (Reduction.pass e).steps = []) :
    e.passes = [Reduction.pass e] := by
  rw [passes, dif_pos h]

theorem passes_of_ne_nil {e : Expr} (h : (Reduction.pass e).steps ≠ []) :
    e.passes = Reduction.pass e :: (Reduction.pass e).expr.passes := by
  rw [passes, dif_neg h]

theorem passes_ne_nil (e : Expr) : e.passes ≠ [] := by
  rw [passes]
  split <;> exact List.cons_ne_nil _ _

/-- A reduction is its passes, one after another. -/
theorem simplify_eq_passes (e : Expr) :
    e.simplify = ⟨(e.passes.getLast e.passes_ne_nil).expr, e.passes.flatMap (·.steps)⟩ := by
  induction e using simplify.induct with
  | case1 e first h =>
      have hpasses := passes_of_nil h
      simp only [simplify_of_nil h, hpasses, List.getLast_singleton, List.flatMap_singleton]
  | case2 e first h _ ih =>
      have hpasses := passes_of_ne_nil h
      simp only [simplify_of_ne_nil h, hpasses, List.flatMap_cons,
        List.getLast_cons (passes_ne_nil _)]
      rw [ih]

/-! ## Normal expressions -/

theorem isNormal_leaf (l : Leaf) : (leaf l).IsNormal :=
  everywhere_leaf.mpr (Rule.first?_leaf _ l)

theorem isNormal_call {c : Option Float} {f : Func} {arg : Expr} :
    (call c f arg).IsNormal ↔ arg.IsNormal :=
  everywhere_call.trans (and_iff_right (Rule.first?_call Rule.all c f arg))

theorem isNormal_binary {op : Operator} {lhs rhs : Expr} :
    (binary op lhs rhs).IsNormal ↔
      Rule.first? Rule.all (binary op lhs rhs) = none ∧ lhs.IsNormal ∧ rhs.IsNormal :=
  everywhere_binary

theorem isNormal_square (name : Char) : (var none name ^ number 2).IsNormal :=
  isNormal_binary.mpr ⟨rfl, isNormal_leaf _, isNormal_leaf _⟩

theorem IsNormal.scale? {n : Float} {e e' : Expr} (he : e.IsNormal) (h : e.scale? n = some e') :
    e'.IsNormal := by
  unfold Expr.scale? at h
  split at h
  · cases h
    exact isNormal_leaf _
  · cases h
    exact isNormal_call.mpr (isNormal_call.mp he)
  · cases h

/-- A normal expression, or a number times the square of a variable. -/
def NearlyNormal (e : Expr) : Prop :=
  e.IsNormal ∨ ∃ n name, e = number n * var none name ^ number 2

theorem IsNormal.nearly {e : Expr} (h : e.IsNormal) : e.NearlyNormal := Or.inl h

theorem nearlyNormal_leaf (l : Leaf) : (leaf l).NearlyNormal :=
  (isNormal_leaf l).nearly

end Expr

open Fluxion.Expr (NearlyNormal isNormal_leaf isNormal_call isNormal_binary isNormal_square
  nearlyNormal_leaf)

/-! ## What rules make of normal operands -/

namespace Rule

variable {op : Operator} {lhs rhs e : Expr}

theorem nearlyNormal_of_if {a : Expr} {p : Prop} [Decidable p] (ha : a.NearlyNormal)
    (h : (if p then some a else none) = some e) : e.NearlyNormal := by
  split at h
  · cases h
    exact ha
  · cases h

theorem nearlyNormal_of_sides {p q : Prop} [Decidable p] [Decidable q]
    (hl : lhs.IsNormal) (hr : rhs.IsNormal)
    (h : (if p then some rhs else if q then some lhs else none) = some e) : e.NearlyNormal := by
  split at h
  · cases h
    exact hr.nearly
  · exact nearlyNormal_of_if hl.nearly h

theorem nearlyNormal_of_fold? (h : fold? op lhs rhs = some e) : e.NearlyNormal := by
  rw [fold?] at h
  split at h
  · exact nearlyNormal_of_if (nearlyNormal_leaf _) h
  · cases h

theorem nearlyNormal_of_combineLikeTerms? (h : combineLikeTerms? op lhs rhs = some e) :
    e.NearlyNormal := by
  rw [combineLikeTerms?] at h
  split at h
  · split at h
    · cases h
    · split at h <;> cases h <;> exact nearlyNormal_leaf _
  · cases h

theorem nearlyNormal_of_combineLikeFactors? (h : combineLikeFactors? lhs rhs = some e) :
    e.NearlyNormal := by
  rw [combineLikeFactors?] at h
  split at h
  · next a name b other ha hb =>
      split at h
      · cases h
      · split at h
        · cases h
          exact (isNormal_square name).nearly
        · cases h
          exact Or.inr ⟨_, name, rfl⟩
  · cases h

theorem nearlyNormal_of_multiplyCoefficient? (hl : lhs.IsNormal) (hr : rhs.IsNormal)
    (h : multiplyCoefficient? lhs rhs = some e) : e.NearlyNormal := by
  rw [multiplyCoefficient?] at h
  split at h
  · exact (hr.scale? h).nearly
  · exact (hl.scale? h).nearly
  · cases h

theorem nearlyNormal_of_reduceFraction? (h : reduceFraction? lhs rhs = some e) :
    e.NearlyNormal := by
  rw [reduceFraction?] at h
  split at h
  · exact nearlyNormal_of_if (nearlyNormal_leaf _) h
  · exact nearlyNormal_of_if (nearlyNormal_leaf _) h
  · cases h

theorem nearlyNormal_of_onBinary? {rule : Rule} (hl : lhs.IsNormal) (hr : rhs.IsNormal)
    (h : rule.onBinary? op lhs rhs = some e) : e.NearlyNormal := by
  unfold onBinary? at h
  split at h
  · exact nearlyNormal_of_fold? h
  · exact nearlyNormal_of_sides hl hr h
  · exact nearlyNormal_of_if hl.nearly h
  · exact nearlyNormal_of_if (nearlyNormal_leaf _) h
  · exact nearlyNormal_of_combineLikeTerms? h
  · exact nearlyNormal_of_combineLikeTerms? h
  · exact nearlyNormal_of_if (nearlyNormal_leaf _) h
  · exact nearlyNormal_of_sides hl hr h
  · exact nearlyNormal_of_combineLikeFactors? h
  · exact nearlyNormal_of_multiplyCoefficient? hl hr h
  · exact nearlyNormal_of_if hl.nearly h
  · exact nearlyNormal_of_if (nearlyNormal_leaf _) h
  · exact nearlyNormal_of_reduceFraction? h
  · exact nearlyNormal_of_if (nearlyNormal_leaf _) h
  · exact nearlyNormal_of_if hl.nearly h
  · exact nearlyNormal_of_if (nearlyNormal_leaf _) h
  · exact nearlyNormal_of_if (nearlyNormal_leaf _) h
  · cases h

/-- Of the rules for products only those for zero and one look at a number times a square. -/
theorem first?_mul_square (n : Float) (name : Char) :
    first? all (Expr.number n * Expr.var none name ^ Expr.number 2) =
      if n == 0 then some (multiplyZero, .folded 0)
      else if n == 1 then some (multiplyOne, Expr.var none name ^ Expr.number 2)
      else none := by
  have hany (m : Float) : (Expr.number n).isNumber m = (n == m) := rfl
  have hsquare (m : Float) : (Expr.var none name ^ Expr.number 2).isNumber m = false := rfl
  simp only [first?, all, forNumbers, forSums, forProducts, forQuotients, forPowers,
    List.cons_append, List.nil_append, List.findSome?_cons, List.findSome?_nil, reduct?,
    onBinary?, multiplyZero?, multiplyOne?, hany, hsquare]
  cases n == 0 <;> cases n == 1 <;> rfl

end Rule

/-! ## Passes -/

namespace Reduction

theorem atTop_of_isNormal {e : Expr} (h : e.IsNormal) : atTop e = ⟨e, []⟩ :=
  atTop_of_none (Expr.Everywhere.self h)

theorem atTop_of_nearlyNormal {e : Expr} (h : e.NearlyNormal) :
    (atTop e).expr.IsNormal ∧ (atTop e).steps.length ≤ 1 := by
  have hone {e e' : Expr} {rule : Rule} (hfirst : Rule.first? Rule.all e = some (rule, e'))
      (he' : e'.IsNormal) : (atTop e).expr.IsNormal ∧ (atTop e).steps.length ≤ 1 := by
    rw [atTop_of_some hfirst, atTop_of_isNormal he']
    exact ⟨he', Nat.le_refl 1⟩
  rcases h with h | ⟨n, name, rfl⟩
  · rw [atTop_of_isNormal h]
    exact ⟨h, Nat.zero_le 1⟩
  · have hfirst := Rule.first?_mul_square n name
    split at hfirst
    · exact hone hfirst (isNormal_leaf _)
    · split at hfirst
      · exact hone hfirst (isNormal_square name)
      · rw [atTop_of_none hfirst]
        exact ⟨isNormal_binary.mpr ⟨hfirst, isNormal_leaf _, isNormal_square name⟩,
          Nat.zero_le 1⟩

/-- Above normal operands two rules at the most are used. -/
theorem atTop_binary {op : Operator} {lhs rhs : Expr} (hl : lhs.IsNormal) (hr : rhs.IsNormal) :
    (atTop (.binary op lhs rhs)).expr.IsNormal ∧
      (atTop (.binary op lhs rhs)).steps.length ≤ 2 := by
  cases hfirst : Rule.first? Rule.all (.binary op lhs rhs) with
  | none =>
      rw [atTop_of_none hfirst]
      exact ⟨isNormal_binary.mpr ⟨hfirst, hl, hr⟩, Nat.zero_le 2⟩
  | some used =>
      obtain ⟨rule, e⟩ := used
      have hreduct : rule.onBinary? op lhs rhs = some e := Rule.reduct?_of_first? hfirst
      obtain ⟨hnormal, hlength⟩ :=
        atTop_of_nearlyNormal (Rule.nearlyNormal_of_onBinary? hl hr hreduct)
      rw [atTop_of_some hfirst]
      exact ⟨hnormal, Nat.succ_le_succ hlength⟩

theorem isNormal_pass (e : Expr) : (pass e).expr.IsNormal := by
  induction e with
  | leaf l => exact isNormal_leaf l
  | call c f arg ih => exact isNormal_call.mpr ih
  | binary op lhs rhs ihl ihr => exact (atTop_binary ihl ihr).1

theorem length_steps_pass_le (e : Expr) : (pass e).steps.length ≤ 2 * e.operatorCount := by
  induction e with
  | leaf l => exact Nat.zero_le _
  | call c f arg ih => exact ih
  | binary op lhs rhs ihl ihr =>
      have htop : (atTop (.binary op (pass lhs).expr (pass rhs).expr)).steps.length ≤ 2 :=
        (atTop_binary (isNormal_pass lhs) (isNormal_pass rhs)).2
      simp only [pass, List.length_append, Expr.operatorCount]
      omega

/-- A pass over a normal expression changes nothing. -/
theorem pass_of_isNormal {e : Expr} (h : e.IsNormal) : pass e = ⟨e, []⟩ := by
  induction e with
  | leaf l => rfl
  | call c f arg ih => rw [pass, ih (isNormal_call.mp h)]
  | binary op lhs rhs ihl ihr =>
      obtain ⟨-, hl, hr⟩ := isNormal_binary.mp h
      simp only [pass, ihl hl, ihr hr, atTop_of_isNormal h, List.append_nil]

end Reduction

namespace Expr

theorem simplify_of_isNormal {e : Expr} (h : e.IsNormal) : e.simplify = ⟨e, []⟩ := by
  have hpass := Reduction.pass_of_isNormal h
  rw [simplify_of_nil (by rw [hpass]), hpass]

theorem passes_of_isNormal {e : Expr} (h : e.IsNormal) : e.passes = [⟨e, []⟩] := by
  have hpass := Reduction.pass_of_isNormal h
  rw [passes_of_nil (by rw [hpass]), hpass]

theorem simplify_eq_pass (e : Expr) : e.simplify = Reduction.pass e := by
  by_cases h : (Reduction.pass e).steps = []
  · exact simplify_of_nil h
  · rw [simplify_of_ne_nil h, simplify_of_isNormal (Reduction.isNormal_pass e), List.append_nil]

/-- The first pass leaves a normal expression, so that a second one, if there is
one, uses no rule. Each operator costs two rules at the most, and what has been
reduced is left alone by another reduction. -/
theorem isNormal_pass_and_simplify_simplify (e : Expr) :
    (Reduction.pass e).expr.IsNormal ∧
      e.simplify = ⟨(e.passes.getLast e.passes_ne_nil).expr, e.passes.flatMap (·.steps)⟩ ∧
      e.passes.length ≤ 2 ∧ (∀ second ∈ e.passes.tail, second.steps = []) ∧
      e.simplify.steps.length ≤ 2 * e.operatorCount ∧
      e.simplify.expr.simplify = ⟨e.simplify.expr, []⟩ := by
  have hnormal := Reduction.isNormal_pass e
  have hsteps := Reduction.length_steps_pass_le e
  rw [← e.simplify_eq_pass] at hsteps
  have hagain : e.simplify.expr.simplify = ⟨e.simplify.expr, []⟩ := by
    rw [simplify_eq_pass e]
    exact simplify_of_isNormal hnormal
  have hpasses : e.passes.length ≤ 2 ∧ ∀ second ∈ e.passes.tail, second.steps = [] := by
    by_cases h : (Reduction.pass e).steps = []
    · simp [passes_of_nil h]
    · simp [passes_of_ne_nil h, passes_of_isNormal hnormal]
  exact ⟨hnormal, e.simplify_eq_passes, hpasses.1, hpasses.2, hsteps, hagain⟩

end Expr

end Fluxion
