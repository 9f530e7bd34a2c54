import Fluxion.Reduction

/-!
# What a reduction does, rule by rule

A reduction lists the rules it has used. Here each use is kept with the
expression it was used on and the one it left, in the same order
(`Expr.map_rule_firings`), so that a theorem about reductions can speak of the
numbers its rules have computed.

Whatever relation a rule keeps between the two, the reduction keeps between the
expression it began with and the one it ended with, if the relation can be
carried into operands and arguments: `Reduction.Compatible.simplify`. Theorems
about `simplify` are theorems about single rules, through this one.
-/

namespace Fluxion

theorem Rule.reduct?_of_first? {rules : List Rule} {e e' : Expr} {rule : Rule}
    (h : first? rules e = some (rule, e')) : rule.reduct? e = some e' := by
  obtain ⟨r, _, hr⟩ := List.exists_of_findSome?_eq_some h
  obtain ⟨e'', he, heq⟩ := Option.map_eq_some_iff.1 hr
  cases heq
  exact he

/-- The first rule that applies is found behind those that do not. -/
theorem Rule.first?_append_cons (before : List Rule) {after : List Rule} {rule : Rule}
    {e e' : Expr} (hbefore : ∀ r ∈ before, r.reduct? e = none) (h : rule.reduct? e = some e') :
    first? (before ++ rule :: after) e = some (rule, e') := by
  have hnone : first? before e = none :=
    List.findSome?_eq_none_iff.mpr fun r hr => by rw [hbefore r hr, Option.map_none]
  rw [first?, List.findSome?_append, ← first?, hnone, Option.none_or, List.findSome?_cons, h]
  rfl

structure Operation where
  op : Operator
  left : Float
  right : Float

def Operation.result (o : Operation) : Float :=
  o.op.apply o.left o.right

/-- The coefficient of an expression that can have one. A missing coefficient
counts as one. -/
def Expr.coefficient? : Expr → Option Float
  | leaf (.var c _) => some (c.getD 1)
  | call c _ _ => some (c.getD 1)
  | _ => none

/-- The operation that a rule carries out between two operands, if it computes a
number there. -/
def Rule.operation? (rule : Rule) (op : Operator) (lhs rhs : Expr) : Option Operation :=
  match rule with
  | foldConstants =>
    match lhs.number?, rhs.number? with
    | some a, some b => some ⟨op, a, b⟩
    | _, _ => none
  | combineLikeTerms | combineLikeFactors =>
    match lhs.term?, rhs.term? with
    | some (a, _), some (b, _) => some ⟨op, a, b⟩
    | _, _ => none
  | multiplyCoefficient =>
    match lhs.number?, rhs.number? with
    | some n, none => rhs.coefficient?.map fun c => ⟨op, n, c⟩
    | none, some n => lhs.coefficient?.map fun c => ⟨op, n, c⟩
    | _, _ => none
  | reduceFraction =>
    match lhs.term?, rhs.term?, rhs.number? with
    | some (a, _), some (b, _), _ => some ⟨op, a, b⟩
    | some (a, _), none, some b => some ⟨op, a, b⟩
    | _, _, _ => none
  | _ => none

/-- One use of a rule. -/
structure Firing where
  rule : Rule
  redex : Expr
  reduct : Expr
  fires : rule.reduct? redex = some reduct

/-- The operation carried out where a rule was used. -/
def Firing.operation? (f : Firing) : Option Operation :=
  match f.redex with
  | .binary op lhs rhs => f.rule.operation? op lhs rhs
  | _ => none

theorem Firing.exists_binary (f : Firing) :
    ∃ op lhs rhs, f.redex = .binary op lhs rhs ∧
      f.rule.onBinary? op lhs rhs = some f.reduct ∧
      f.operation? = f.rule.operation? op lhs rhs := by
  obtain ⟨rule, redex, reduct, fires⟩ := f
  match redex with
  | .binary op lhs rhs => exact ⟨op, lhs, rhs, rfl, fires, rfl⟩
  | .leaf _ | .call _ _ _ => cases fires

namespace Reduction

/-- The uses of rules at the top of an expression. -/
def firingsAtTop (e : Expr) : List Firing :=
  match h : Rule.first? Rule.all e with
  | none => []
  | some (rule, e') =>
    have := Rule.weight_lt_of_first? h
    ⟨rule, e, e', Rule.reduct?_of_first? h⟩ :: firingsAtTop e'
termination_by e.weight

/-- The uses of rules in one pass. -/
def firingsInPass : Expr → List Firing
  | .leaf _ => []
  | .call _ _ arg => firingsInPass arg
  | .binary op lhs rhs =>
    firingsInPass lhs ++ firingsInPass rhs ++
      firingsAtTop (.binary op (pass lhs).expr (pass rhs).expr)

end Reduction

/-- The uses of rules in the reduction of an expression. -/
def Expr.firings (e : Expr) : List Firing :=
  if h : (Reduction.pass e).steps = [] then Reduction.firingsInPass e
  else
    have := Reduction.weight_pass_lt h
    Reduction.firingsInPass e ++ firings (Reduction.pass e).expr
termination_by e.weight

namespace Reduction

theorem firingsAtTop_of_none {e : Expr} (h : Rule.first? Rule.all e = none) :
    firingsAtTop e = [] := by
  rw [firingsAtTop]
  split
  · rfl
  · next h' =>
      rw [h] at h'
      cases h'

theorem firingsAtTop_of_some {e e' : Expr} {rule : Rule}
    (h : Rule.first? Rule.all e = some (rule, e')) :
    firingsAtTop e = ⟨rule, e, e', Rule.reduct?_of_first? h⟩ :: firingsAtTop e' := by
  rw [firingsAtTop]
  split
  · next h' =>
      rw [h] at h'
      cases h'
  · next h' =>
      rw [h] at h'
      cases h'
      rfl

theorem map_rule_firingsAtTop (e : Expr) : (firingsAtTop e).map (·.rule) = (atTop e).steps := by
  induction e using atTop.induct with
  | case1 e h =>
      rw [firingsAtTop_of_none h, atTop_of_none h]
      rfl
  | case2 e rule e' h _ ih =>
      rw [firingsAtTop_of_some h, atTop_of_some h, List.map_cons, ih]

theorem map_rule_firingsInPass (e : Expr) :
    (firingsInPass e).map (·.rule) = (pass e).steps := by
  induction e with
  | leaf l => rfl
  | call c f arg ih => exact ih
  | binary op lhs rhs ihl ihr =>
      rw [firingsInPass, List.map_append, List.map_append, ihl, ihr, map_rule_firingsAtTop]
      rfl

end Reduction

namespace Expr

theorem simplify_of_nil {e : Expr} (h : (Reduction.pass e).steps = []) :
    e.simplify = Reduction.pass e := by
  rw [simplify]
  exact dif_pos h

theorem simplify_of_ne_nil {e : Expr} (h : (Reduction.pass e).steps ≠ []) :
    e.simplify = ⟨(Reduction.pass e).expr.simplify.expr,
      (Reduction.pass e).steps ++ (Reduction.pass e).expr.simplify.steps⟩ := by
  rw [simplify]
  exact dif_neg h

theorem firings_of_nil {e : Expr} (h : (Reduction.pass e).steps = []) :
    e.firings = Reduction.firingsInPass e := by
  rw [firings, dif_pos h]

theorem firings_of_ne_nil {e : Expr} (h : (Reduction.pass e).steps ≠ []) :
    e.firings = Reduction.firingsInPass e ++ (Reduction.pass e).expr.firings := by
  rw [firings, dif_neg h]

/-- The uses of rules are those that the reduction lists. -/
theorem map_rule_firings (e : Expr) : e.firings.map (·.rule) = e.simplify.steps := by
  induction e using simplify.induct with
  | case1 e first h => rw [firings_of_nil h, simplify_of_nil h, Reduction.map_rule_firingsInPass]
  | case2 e first h _ ih =>
      rw [firings_of_ne_nil h, simplify_of_ne_nil h, List.map_append, ih,
        Reduction.map_rule_firingsInPass]

end Expr

/-! ## Leaves and calls -/

theorem Rule.first?_leaf (rules : List Rule) (l : Leaf) : first? rules (.leaf l) = none := by
  refine List.findSome?_eq_none_iff.mpr fun rule _ => ?_
  rfl

theorem Rule.first?_call (rules : List Rule) (c : Option Float) (f : Func) (arg : Expr) :
    first? rules (.call c f arg) = none := by
  refine List.findSome?_eq_none_iff.mpr fun rule _ => ?_
  rfl

namespace Expr

variable {op : Operator} {l r l' : Leaf} {rule : Rule}

theorem pass_of_leaves
    (h : Rule.first? Rule.all (binary op (leaf l) (leaf r)) = some (rule, leaf l')) :
    Reduction.pass (binary op (leaf l) (leaf r)) = ⟨leaf l', [rule]⟩ := by
  simp only [Reduction.pass, Reduction.atTop_of_some h,
    Reduction.atTop_of_none (Rule.first?_leaf Rule.all l'), List.append_nil, List.nil_append]

/-- Two leaves that a rule makes one leaf of are done with. -/
theorem simplify_of_leaves
    (h : Rule.first? Rule.all (binary op (leaf l) (leaf r)) = some (rule, leaf l')) :
    (binary op (leaf l) (leaf r)).simplify = ⟨leaf l', [rule]⟩ := by
  have hsteps : (Reduction.pass (binary op (leaf l) (leaf r))).steps ≠ [] := by
    rw [pass_of_leaves h]
    exact List.cons_ne_nil _ _
  have hleaf : (leaf l').simplify = ⟨leaf l', []⟩ := simplify_of_nil rfl
  rw [simplify_of_ne_nil hsteps, pass_of_leaves h, hleaf]
  rfl

theorem firings_of_leaves
    (h : Rule.first? Rule.all (binary op (leaf l) (leaf r)) = some (rule, leaf l')) :
    (binary op (leaf l) (leaf r)).firings =
      [⟨rule, binary op (leaf l) (leaf r), leaf l', Rule.reduct?_of_first? h⟩] := by
  have hsteps : (Reduction.pass (binary op (leaf l) (leaf r))).steps ≠ [] := by
    rw [pass_of_leaves h]
    exact List.cons_ne_nil _ _
  have hleaf : (leaf l').firings = [] := firings_of_nil rfl
  have hfirst := Reduction.firingsAtTop_of_some h
  rw [Reduction.firingsAtTop_of_none (Rule.first?_leaf Rule.all l')] at hfirst
  rw [firings_of_ne_nil hsteps, pass_of_leaves h, hleaf, List.append_nil]
  exact hfirst

end Expr

/-! ## From single rules to reductions -/

namespace Reduction

/-- A relation that can be carried into larger expressions and along reductions. -/
structure Compatible (R : Expr → Expr → Prop) : Prop where
  refl : ∀ e, R e e
  trans : ∀ {a b c}, R a b → R b c → R a c
  call : ∀ c f {a a'}, R a a' → R (.call c f a) (.call c f a')
  binary : ∀ op {a a' b b'}, R a a' → R b b' → R (.binary op a b) (.binary op a' b')

namespace Compatible

variable {R : Expr → Expr → Prop}

theorem atTop (hR : Compatible R) {e : Expr} (h : ∀ f ∈ firingsAtTop e, R f.redex f.reduct) :
    R e (atTop e).expr := by
  induction e using Reduction.atTop.induct with
  | case1 e hnone =>
      rw [atTop_of_none hnone]
      exact hR.refl e
  | case2 e rule e' hsome _ ih =>
      rw [firingsAtTop_of_some hsome] at h
      rw [atTop_of_some hsome]
      exact hR.trans (h _ List.mem_cons_self) (ih fun f hf => h f (List.mem_cons_of_mem _ hf))

theorem pass (hR : Compatible R) {e : Expr} (h : ∀ f ∈ firingsInPass e, R f.redex f.reduct) :
    R e (pass e).expr := by
  induction e with
  | leaf l => exact hR.refl _
  | call c f arg ih => exact hR.call c f (ih h)
  | binary op lhs rhs ihl ihr =>
      have hl := ihl fun f hf => h f (List.mem_append_left _ (List.mem_append_left _ hf))
      have hr := ihr fun f hf => h f (List.mem_append_left _ (List.mem_append_right _ hf))
      exact hR.trans (hR.binary op hl hr) (hR.atTop fun f hf => h f (List.mem_append_right _ hf))

/-- What every rule used keeps, the reduction keeps. -/
theorem simplify (hR : Compatible R) {e : Expr} (h : ∀ f ∈ e.firings, R f.redex f.reduct) :
    R e e.simplify.expr := by
  induction e using Expr.simplify.induct with
  | case1 e first hnone =>
      rw [Expr.firings_of_nil hnone] at h
      rw [Expr.simplify_of_nil hnone]
      exact hR.pass h
  | case2 e first hsome _ ih =>
      rw [Expr.firings_of_ne_nil hsome] at h
      rw [Expr.simplify_of_ne_nil hsome]
      exact hR.trans (hR.pass fun f hf => h f (List.mem_append_left _ hf))
        (ih fun f hf => h f (List.mem_append_right _ hf))

end Compatible

end Reduction

end Fluxion
