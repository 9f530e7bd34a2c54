import Fluxion.Proofs.NormalForm
import Fluxion.Proofs.Ways

/-!
# Reduction part by part

A pass reduces the parts of an expression by recursion and never looks at the
whole. Told from the outside, it takes the parts in the order of the walk, looks
for the first one that some rule applies to, replaces that part by what the first
such rule makes of it, and begins again (`Reduction.oneByOne`).

That the two agree, rule by rule (`Expr.simplify_eq_oneByOne`), has two reasons.
The ways into the left operand come before those into the right one, and both
before the top, so that the left operand is reduced to its end before anything
else is touched, then the right one (`Reduction.oneByOne_wrap`). And what a rule
makes of normal operands has no part below the top that a rule applies to, so that
once the top is reached it is not left again (`Reduction.oneByOne_of_nearlyNormal`).

The order matters only to the rules that are listed. Parts may be reduced before
the whole, in any order, and the reduced expression is the same
(`Expr.simplify_of_parts_simplified`): what a pass makes of an expression depends
on a part only through what it makes of that part, and what has been reduced is
normal, so that the pass leaves it as it is.
-/

namespace Fluxion

namespace Expr

/-- The part on a way gives way to what the first rule that applies to it makes
of it. -/
def reduceAt? (e : Expr) (way : List Turn) : Option (Rule × Expr) :=
  (e.at? way).bind fun s =>
    (Rule.first? Rule.all s).map fun (rule, s') => (rule, e.replaceAt way s')

/-- The same at the first part, in the order of the walk, that some rule applies to. -/
def reduceFirst? (e : Expr) : Option (Rule × Expr) :=
  e.ways.findSome? e.reduceAt?

theorem weight_lt_of_reduceFirst? {e : Expr} {used : Rule × Expr} (h : e.reduceFirst? = some used) :
    used.2.weight < e.weight := by
  obtain ⟨way, -, hway⟩ := List.exists_of_findSome?_eq_some h
  obtain ⟨s, hat, hused⟩ := Option.bind_eq_some_iff.mp hway
  obtain ⟨⟨rule, s'⟩, hfirst, rfl⟩ := Option.map_eq_some_iff.mp hused
  refine replaceAt_induct (R := fun e e' => e'.weight < e.weight) ?_ ?_ ?_ hat
    (Rule.weight_lt_of_first? hfirst)
  · intro c f a a' h
    simpa only [weight] using Nat.succ_lt_succ h
  · intro op a a' b h
    simp only [weight_binary]
    omega
  · intro op a b b' h
    simp only [weight_binary]
    omega

end Expr

namespace Reduction

/-- Uses one rule after another, each at the first part that some rule applies
to, until there is no such part. -/
def oneByOne (e : Expr) : Reduction :=
  match h : e.reduceFirst? with
  | none => ⟨e, []⟩
  | some (rule, e') =>
    have := Expr.weight_lt_of_reduceFirst? h
    let rest := oneByOne e'
    ⟨rest.expr, rule :: rest.steps⟩
termination_by e.weight

variable {e e' : Expr} {rule : Rule}

theorem oneByOne_of_none (h : e.reduceFirst? = none) : oneByOne e = ⟨e, []⟩ := by
  rw [oneByOne]
  split <;> simp_all

theorem oneByOne_of_some (h : e.reduceFirst? = some (rule, e')) :
    oneByOne e = ⟨(oneByOne e').expr, rule :: (oneByOne e').steps⟩ := by
  rw [oneByOne]
  split <;> simp_all

end Reduction

/-! ## The first part that a rule applies to -/

namespace Expr

variable {e : Expr} {c : Option Float} {f : Func} {op : Operator} {arg lhs rhs : Expr}

theorem reduceAt?_nil (e : Expr) : e.reduceAt? [] = Rule.first? Rule.all e := by
  simp [reduceAt?]

/-- A rule used inside a part is used in the whole. -/
theorem findSome?_reduceAt? {turn : Turn} {s e : Expr} (wrap : Expr → Expr)
    (hat : ∀ way, e.at? (turn :: way) = s.at? way)
    (hreplace : ∀ way s', e.replaceAt (turn :: way) s' = wrap (s.replaceAt way s')) :
    (s.ways.map (turn :: ·)).findSome? e.reduceAt? =
      s.reduceFirst?.map fun used => (used.1, wrap used.2) := by
  rw [List.findSome?_map, reduceFirst?, List.map_findSome?]
  refine congrArg (s.ways.findSome? ·) (funext fun way => ?_)
  simp only [Function.comp_def, reduceAt?, hat, hreplace, Option.map_bind, Option.map_map]

theorem reduceFirst?_leaf (l : Leaf) : (leaf l).reduceFirst? = none := by
  simp [reduceFirst?, ways, reduceAt?_nil, Rule.first?_leaf]

theorem reduceFirst?_call : (call c f arg).reduceFirst? =
    arg.reduceFirst?.map fun used => (used.1, call c f used.2) := by
  rw [reduceFirst?, ways, List.findSome?_append,
    findSome?_reduceAt? (call c f) (fun _ => rfl) fun _ _ => rfl]
  simp [reduceAt?_nil, Rule.first?_call]

theorem reduceFirst?_binary : (binary op lhs rhs).reduceFirst? =
    ((lhs.reduceFirst?.map fun used => (used.1, binary op used.2 rhs)).or
      (rhs.reduceFirst?.map fun used => (used.1, binary op lhs used.2))).or
      (Rule.first? Rule.all (binary op lhs rhs)) := by
  rw [reduceFirst?, ways, List.findSome?_append, List.findSome?_append,
    findSome?_reduceAt? (binary op · rhs) (fun _ => rfl) fun _ _ => rfl,
    findSome?_reduceAt? (binary op lhs ·) (fun _ => rfl) fun _ _ => rfl]
  simp [reduceAt?_nil]

/-- There is nothing to reduce in normal expressions, and only in them. -/
theorem reduceFirst?_eq_none_iff : e.reduceFirst? = none ↔ e.IsNormal := by
  induction e with
  | leaf l => exact iff_of_true (reduceFirst?_leaf l) (isNormal_leaf l)
  | call c f arg ih => rw [reduceFirst?_call, Option.map_eq_none_iff, ih, isNormal_call]
  | binary op lhs rhs ihl ihr =>
      rw [reduceFirst?_binary, isNormal_binary, Option.or_eq_none_iff, Option.or_eq_none_iff,
        Option.map_eq_none_iff, Option.map_eq_none_iff, ihl, ihr]
      exact and_comm

theorem reduceFirst?_of_operands (hl : lhs.IsNormal) (hr : rhs.IsNormal) :
    (binary op lhs rhs).reduceFirst? = Rule.first? Rule.all (binary op lhs rhs) := by
  rw [reduceFirst?_binary, reduceFirst?_eq_none_iff.mpr hl, reduceFirst?_eq_none_iff.mpr hr]
  rfl

end Expr

/-! ## From part to part -/

namespace Reduction

variable {e : Expr} {c : Option Float} {f : Func} {op : Operator} {arg lhs rhs : Expr}

theorem oneByOne_of_isNormal (h : e.IsNormal) : oneByOne e = ⟨e, []⟩ :=
  oneByOne_of_none (Expr.reduceFirst?_eq_none_iff.mpr h)

/-- As long as something is left to do in a part of an expression that comes first
in it, nothing else is touched. -/
theorem oneByOne_wrap (wrap : Expr → Expr)
    (hwrap : ∀ {s : Expr} {rule : Rule} {s' : Expr}, s.reduceFirst? = some (rule, s') →
      (wrap s).reduceFirst? = some (rule, wrap s')) (s : Expr) :
    oneByOne (wrap s) = ⟨(oneByOne (wrap (oneByOne s).expr)).expr,
      (oneByOne s).steps ++ (oneByOne (wrap (oneByOne s).expr)).steps⟩ := by
  induction s using oneByOne.induct with
  | case1 s h => rw [oneByOne_of_none h]; rfl
  | case2 s rule s' h _ ih =>
      rw [oneByOne_of_some h, oneByOne_of_some (hwrap h), ih]
      rfl

/-- Above normal operands only the top is left to reduce. -/
theorem oneByOne_of_operands (hl : lhs.IsNormal) (hr : rhs.IsNormal)
    (hreduct : ∀ rule e, Rule.first? Rule.all (.binary op lhs rhs) = some (rule, e) →
      oneByOne e = atTop e) :
    oneByOne (.binary op lhs rhs) = atTop (.binary op lhs rhs) := by
  have hoperands : (Expr.binary op lhs rhs).reduceFirst? = _ :=
    Expr.reduceFirst?_of_operands hl hr
  cases hfirst : Rule.first? Rule.all (.binary op lhs rhs) with
  | none => rw [oneByOne_of_none (hoperands.trans hfirst), atTop_of_none hfirst]
  | some used =>
      obtain ⟨rule, e⟩ := used
      rw [oneByOne_of_some (hoperands.trans hfirst), atTop_of_some hfirst, hreduct rule e hfirst]

theorem oneByOne_of_nearlyNormal (h : e.NearlyNormal) : oneByOne e = atTop e := by
  have hnormal {e : Expr} (h : e.IsNormal) : oneByOne e = atTop e := by
    rw [oneByOne_of_isNormal h, atTop_of_isNormal h]
  rcases h with h | ⟨n, name, rfl⟩
  · exact hnormal h
  · refine oneByOne_of_operands (Expr.isNormal_leaf _) (Expr.isNormal_square name) ?_
    intro rule e hfirst
    have hcases := (Rule.first?_mul_square n name).symm.trans hfirst
    split at hcases
    · cases hcases
      exact hnormal (Expr.isNormal_leaf _)
    · split at hcases
      · cases hcases
        exact hnormal (Expr.isNormal_square name)
      · cases hcases

theorem oneByOne_binary (hl : lhs.IsNormal) (hr : rhs.IsNormal) :
    oneByOne (.binary op lhs rhs) = atTop (.binary op lhs rhs) := by
  refine oneByOne_of_operands hl hr fun rule e hfirst => oneByOne_of_nearlyNormal ?_
  have hreduct : rule.onBinary? op lhs rhs = some e := Rule.reduct?_of_first? hfirst
  exact Rule.nearlyNormal_of_onBinary? hl hr hreduct

theorem oneByOne_eq_pass (e : Expr) : oneByOne e = pass e := by
  induction e with
  | leaf l => exact oneByOne_of_isNormal (Expr.isNormal_leaf l)
  | call c f arg ih =>
      rw [oneByOne_wrap (.call c f) ?_, ih,
        oneByOne_of_isNormal (Expr.isNormal_call.mpr (isNormal_pass arg)), List.append_nil]
      · rfl
      · intro s rule s' h
        rw [Expr.reduceFirst?_call, h]
        rfl
  | binary op lhs rhs ihl ihr =>
      have hl := isNormal_pass lhs
      have hleft := oneByOne_wrap (.binary op · rhs) ?_ lhs
      have hright := oneByOne_wrap (.binary op (pass lhs).expr ·) ?_ rhs
      · rw [ihl] at hleft
        rw [ihr, oneByOne_binary hl (isNormal_pass rhs)] at hright
        simp only [hleft, hright, pass, List.append_assoc]
      · intro s rule s' h
        rw [Expr.reduceFirst?_binary, Expr.reduceFirst?_eq_none_iff.mpr hl, h]
        rfl
      · intro s rule s' h
        rw [Expr.reduceFirst?_binary, h]
        rfl

end Reduction

namespace Expr

/-- A reduction is what using one rule after another comes to, always at the first
part in the order of the walk that some rule applies to. It uses no rule exactly
if it leaves the expression as it is. -/
theorem simplify_eq_oneByOne (e : Expr) :
    e.ways.map e.at? = e.postOrder.map some ∧ e.simplify = Reduction.oneByOne e ∧
      (e.simplify.steps = [] ↔ e.simplify.expr = e) := by
  rw [simplify_eq_pass]
  refine ⟨e.map_at?_ways, (Reduction.oneByOne_eq_pass e).symm, fun h => ?_, fun h => ?_⟩
  · rw [← Reduction.oneByOne_eq_pass] at h ⊢
    cases hfirst : e.reduceFirst? with
    | none => rw [Reduction.oneByOne_of_none hfirst]
    | some used =>
        rw [Reduction.oneByOne_of_some hfirst] at h
        cases h
  · have hweight := Reduction.weight_pass e
    rw [h] at hweight
    exact List.length_eq_zero_iff.mp (by omega)

end Expr

/-! ## Parts reduced beforehand -/

namespace Reduction

variable {e s s' : Expr} {way : List Turn}

theorem expr_pass_pass (e : Expr) : (pass (pass e).expr).expr = (pass e).expr := by
  rw [pass_of_isNormal (isNormal_pass e)]

/-- Two parts that a pass makes the same of can stand for one another. -/
theorem expr_pass_replaceAt (hat : e.at? way = some s) (h : (pass s').expr = (pass s).expr) :
    (pass (e.replaceAt way s')).expr = (pass e).expr := by
  refine Expr.replaceAt_induct (R := fun e e' => (pass e').expr = (pass e).expr) ?_ ?_ ?_ hat h
  · intro c f a a' h
    simp only [pass, h]
  · intro op a a' b h
    simp only [pass, h]
  · intro op a b b' h
    simp only [pass, h]

end Reduction

namespace Expr

variable {e s : Expr} {way : List Turn}

theorem expr_simplify_replaceAt (hat : e.at? way = some s) :
    (e.replaceAt way s.simplify.expr).simplify.expr = e.simplify.expr := by
  simp only [simplify_eq_pass]
  exact Reduction.expr_pass_replaceAt hat (Reduction.expr_pass_pass s)

/-- Parts of an expression that do not overlap can be reduced before the whole,
one of them or any number, in any order: the whole reduces to the same. -/
theorem simplify_of_parts_simplified {parts : List (List Turn × Expr)}
    (hat : ∀ p ∈ parts, e.at? p.1 = some p.2)
    (hapart : parts.Pairwise fun p q => Apart p.1 q.1) :
    (parts.foldl (fun e p => e.replaceAt p.1 p.2.simplify.expr) e).simplify.expr =
      e.simplify.expr := by
  induction parts generalizing e with
  | nil => rfl
  | cons p parts ih =>
      obtain ⟨hp, hparts⟩ := List.forall_mem_cons.mp hat
      obtain ⟨hhead, htail⟩ := List.pairwise_cons.mp hapart
      rw [List.foldl_cons, ih ?_ htail, expr_simplify_replaceAt hp]
      intro q hq
      rw [at?_replaceAt_of_apart (hhead q hq), hparts q hq]

/-- Both products in `1 * x + x * 1` may be reduced first, here the second one
before the first. What is left are like terms. -/
theorem simplify_products_simplified :
    (var none 'x' + var none 'x').simplify.expr =
        (number 1 * var none 'x' + var none 'x' * number 1).simplify.expr ∧
      (var none 'x' + var none 'x').simplify.expr = var (some (1 + 1)) 'x' := by
  have hleft : (number 1 * var none 'x').simplify = ⟨var none 'x', [.multiplyOne]⟩ :=
    simplify_of_leaves rfl
  have hright : (var none 'x' * number 1).simplify = ⟨var none 'x', [.multiplyOne]⟩ :=
    simplify_of_leaves rfl
  have hterms : (var none 'x' + var none 'x').simplify =
      ⟨var (some (1 + 1)) 'x', [.combineLikeTerms]⟩ := simplify_of_leaves rfl
  have hat : ∀ p ∈ [([Turn.right], var none 'x' * number 1), ([.left], number 1 * var none 'x')],
      (number 1 * var none 'x' + var none 'x' * number 1).at? p.1 = some p.2 := by
    simp [add_def, at?]
  have h := simplify_of_parts_simplified hat (by simp [Apart])
  refine ⟨?_, congrArg Reduction.expr hterms⟩
  rw [← h, List.foldl_cons, List.foldl_cons, List.foldl_nil, hleft, hright]
  rfl

end Expr

end Fluxion
