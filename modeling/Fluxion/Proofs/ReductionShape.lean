import Fluxion.Proofs.NormalForm

/-!
# What is left of an expression

A rule makes one of three things of an operator and its operands: a number, one
operand with perhaps another coefficient where the other operand is a number, or a
term or a square of the letter that both operands are (`Rule.Outcome`).

No variable, constant or unknown derivative comes out of that which was not there
before. One can only be lost where a number is made of operands that are not both
numbers, and the rules that do so are listed in `Rule.cancelling`. So the rules a
reduction lists tell whether it may have lost a variable
(`Expr.letters_and_unknowns_simplify`).

As for nodes, only a square of a letter has more of them than what it is made of,
and it has five at the most, where there were three. The operands of a square are
single nodes, and nothing that is made of a square is a single letter again. In one
pass a node is therefore only ever paid for by the operands below it, and an
expression grows by no more than half (`Expr.nodeCount_simplify_le`).
-/

namespace Fluxion

/-! ## What a rule makes -/

/-- `Rescaled u e`: the expression `e` is `u`, or `u` with another coefficient. -/
inductive Expr.Rescaled : Expr → Expr → Prop where
  | self (u : Expr) : Rescaled u u
  | var (c d : Option Float) (name : Char) : Rescaled (.var c name) (.var d name)
  | call (c d : Option Float) (f : Func) (arg : Expr) : Rescaled (.call c f arg) (.call d f arg)

namespace Rule

/-- The rules that can make a number of operands that are not both numbers. -/
def cancelling : List Rule :=
  [subtractSelf, combineLikeTerms, multiplyZero, divideZero, reduceFraction, powerZero,
    powerOneLeft]

/-- What a rule can make of two operands. -/
inductive Outcome (rule : Rule) : Expr → Expr → Expr → Prop where
  | cancelled (lhs rhs : Expr) (n : Float) :
      rule ∈ cancelling → Outcome rule lhs rhs (.folded n)
  | numbers (a b n : Float) : Outcome rule (.number a) (.number b) (.folded n)
  | left {lhs e : Expr} (n : Float) : lhs.Rescaled e → Outcome rule lhs (.number n) e
  | right {rhs e : Expr} (n : Float) : rhs.Rescaled e → Outcome rule (.number n) rhs e
  | term (a b c : Option Float) (name : Char) :
      Outcome rule (.var a name) (.var b name) (.var c name)
  | square (a b : Option Float) (name : Char) :
      Outcome rule (.var a name) (.var b name) (Expr.var none name ^ Expr.number 2)
  | product (a b : Option Float) (name : Char) (n : Float) :
      Outcome rule (.var a name) (.var b name)
        (.folded n * Expr.var none name ^ Expr.number 2)

end Rule

namespace Expr

variable {e e' : Expr}

theorem eq_number_of_number? {n : Float} (h : e.number? = some n) : e = number n := by
  unfold number? Leaf.number? at h
  split at h
  · split at h
    · cases h
      rfl
    · cases h
  · cases h

theorem exists_number_of_isNumber {n : Float} (h : e.isNumber n = true) : ∃ m, e = number m := by
  obtain ⟨m, hm, -⟩ := (Option.any_eq_true ..).mp h
  exact ⟨m, eq_number_of_number? hm⟩

theorem exists_var_of_term? {a : Float} {name : Char} (h : e.term? = some (a, name)) :
    ∃ c, e = var c name := by
  unfold term? at h
  split at h
  · cases h
    exact ⟨_, rfl⟩
  · cases h

theorem rescaled_of_scale? {n : Float} (h : e.scale? n = some e') : e.Rescaled e' := by
  unfold scale? at h
  split at h
  · cases h
    exact .var _ _ _
  · cases h
    exact .call _ _ _ _
  · cases h

end Expr

namespace Rule

variable {rule : Rule} {op : Operator} {lhs rhs e : Expr}

theorem Outcome.of_isNumber_left {n : Float} (hn : lhs.isNumber n = true) (h : rhs.Rescaled e) :
    Outcome rule lhs rhs e := by
  obtain ⟨m, rfl⟩ := Expr.exists_number_of_isNumber hn
  exact .right m h

theorem Outcome.of_isNumber_right {n : Float} (hn : rhs.isNumber n = true) (h : lhs.Rescaled e) :
    Outcome rule lhs rhs e := by
  obtain ⟨m, rfl⟩ := Expr.exists_number_of_isNumber hn
  exact .left m h

/-- An operand next to a number that changes nothing. -/
theorem outcome_of_sides {n : Float}
    (h : (if lhs.isNumber n then some rhs else if rhs.isNumber n then some lhs else none) =
      some e) : Outcome rule lhs rhs e := by
  split at h
  · next hl =>
      cases h
      exact .of_isNumber_left hl (.self rhs)
  · split at h
    · next hr =>
        cases h
        exact .of_isNumber_right hr (.self lhs)
    · cases h

theorem outcome_of_left {n : Float} (h : (if rhs.isNumber n then some lhs else none) = some e) :
    Outcome rule lhs rhs e := by
  split at h
  · next hr =>
      cases h
      exact .of_isNumber_right hr (.self lhs)
  · cases h

theorem outcome_of_cancelling {p : Bool} {n : Float} (hrule : rule ∈ cancelling)
    (h : (if p then some (Expr.folded n) else none) = some e) : Outcome rule lhs rhs e := by
  split at h
  · cases h
    exact .cancelled lhs rhs n hrule
  · cases h

theorem outcome_of_fold? (h : fold? op lhs rhs = some e) : Outcome rule lhs rhs e := by
  rw [fold?] at h
  split at h
  · next a b ha hb =>
      obtain rfl := Expr.eq_number_of_number? ha
      obtain rfl := Expr.eq_number_of_number? hb
      split at h
      · cases h
        exact .numbers a b _
      · cases h
  · cases h

theorem outcome_of_combineLikeTerms? (h : combineLikeTerms? op lhs rhs = some e) :
    Outcome combineLikeTerms lhs rhs e := by
  rw [combineLikeTerms?] at h
  split at h
  · next a name b other ha hb =>
      split at h
      · cases h
      · next hname =>
          obtain rfl : name = other := by simpa using hname
          obtain ⟨c, rfl⟩ := Expr.exists_var_of_term? ha
          obtain ⟨d, rfl⟩ := Expr.exists_var_of_term? hb
          split at h
          · cases h
            exact .cancelled _ _ 0 (by decide)
          · cases h
            exact .term c d _ name
  · cases h

theorem outcome_of_combineLikeFactors? (h : combineLikeFactors? lhs rhs = some e) :
    Outcome rule lhs rhs e := by
  rw [combineLikeFactors?] at h
  split at h
  · next a name b other ha hb =>
      split at h
      · cases h
      · next hname =>
          obtain rfl : name = other := by simpa using hname
          obtain ⟨c, rfl⟩ := Expr.exists_var_of_term? ha
          obtain ⟨d, rfl⟩ := Expr.exists_var_of_term? hb
          split at h
          · cases h
            exact .square c d name
          · cases h
            exact .product c d name _
  · cases h

theorem outcome_of_multiplyCoefficient? (h : multiplyCoefficient? lhs rhs = some e) :
    Outcome rule lhs rhs e := by
  rw [multiplyCoefficient?] at h
  split at h
  · next n hl _ =>
      obtain rfl := Expr.eq_number_of_number? hl
      exact .right n (Expr.rescaled_of_scale? h)
  · next n _ hr =>
      obtain rfl := Expr.eq_number_of_number? hr
      exact .left n (Expr.rescaled_of_scale? h)
  · cases h

theorem outcome_of_reduceFraction? (h : reduceFraction? lhs rhs = some e) :
    Outcome reduceFraction lhs rhs e := by
  rw [reduceFraction?] at h
  split at h
  · exact outcome_of_cancelling (by decide) h
  · next a name b ha _ hb =>
      obtain ⟨c, rfl⟩ := Expr.exists_var_of_term? ha
      obtain rfl := Expr.eq_number_of_number? hb
      split at h
      · cases h
        exact .left b (.var c _ name)
      · cases h
  · cases h

theorem outcome_of_powerZeroLeft? (h : powerZeroLeft? lhs rhs = some e) :
    Outcome rule lhs rhs e := by
  rw [powerZeroLeft?] at h
  split at h
  · next hzero =>
      obtain ⟨hl, hr⟩ := Bool.and_eq_true_iff.mp hzero
      obtain ⟨a, rfl⟩ := Expr.exists_number_of_isNumber hl
      obtain ⟨b, hb, -⟩ := (Option.any_eq_true ..).mp hr
      obtain rfl := Expr.eq_number_of_number? hb
      cases h
      exact .numbers a b 0
  · cases h

theorem outcome_of_onBinary? (h : rule.onBinary? op lhs rhs = some e) :
    Outcome rule lhs rhs e := by
  unfold onBinary? at h
  split at h
  · exact outcome_of_fold? h
  · exact outcome_of_sides h
  · exact outcome_of_left h
  · exact outcome_of_cancelling (by decide) h
  · exact outcome_of_combineLikeTerms? h
  · exact outcome_of_combineLikeTerms? h
  · exact outcome_of_cancelling (by decide) h
  · exact outcome_of_sides h
  · exact outcome_of_combineLikeFactors? h
  · exact outcome_of_multiplyCoefficient? h
  · exact outcome_of_left h
  · exact outcome_of_cancelling (by decide) h
  · exact outcome_of_reduceFraction? h
  · exact outcome_of_cancelling (by decide) h
  · exact outcome_of_left h
  · exact outcome_of_powerZeroLeft? h
  · exact outcome_of_cancelling (by decide) h
  · cases h

end Rule

/-! ## The product of two terms of one letter -/

theorem Rule.first?_mul_var (c d : Option Float) (name : Char) :
    first? all (Expr.var c name * Expr.var d name) =
      some (combineLikeFactors, if c.getD 1 * d.getD 1 == 1 then Expr.var none name ^ Expr.number 2
        else .folded (c.getD 1 * d.getD 1) * Expr.var none name ^ Expr.number 2) := by
  refine first?_append_cons (forNumbers ++ forSums ++ [multiplyZero, multiplyOne]) ?_ ?_
  · simp only [forNumbers, forSums, List.cons_append, List.nil_append, List.forall_mem_cons]
    exact ⟨rfl, rfl, rfl, rfl, rfl, rfl, rfl, List.forall_mem_nil _⟩
  · change combineLikeFactors? (Expr.var c name) (Expr.var d name) = _
    simp only [combineLikeFactors?, Expr.term?, ne_eq, not_true, if_false]
    split <;> rfl

theorem Expr.simplify_mul_var {c d : Option Float} (name : Char)
    (hzero : (c.getD 1 * d.getD 1 == 0) = false) (hone : (c.getD 1 * d.getD 1 == 1) = false) :
    (var c name * var d name).simplify =
      ⟨number (c.getD 1 * d.getD 1) * var none name ^ number 2, [.combineLikeFactors]⟩ := by
  have hfolded : folded (c.getD 1 * d.getD 1) = number (c.getD 1 * d.getD 1) := by
    simp only [folded, hzero, Bool.false_eq_true, if_false]
  have hfirst := Rule.first?_mul_var c d name
  have hlast := Rule.first?_mul_square (c.getD 1 * d.getD 1) name
  simp only [hone, hfolded, Bool.false_eq_true, if_false] at hfirst
  simp only [hzero, hone, Bool.false_eq_true, if_false] at hlast
  rw [simplify_eq_pass, mul_def, Reduction.pass, Reduction.pass, Reduction.pass, ← mul_def]
  simp only [Reduction.atTop_of_some hfirst, Reduction.atTop_of_none hlast, List.nil_append]

/-! ## Variables, constants and unknown derivatives -/

/-- What a leaf that is no number stands for, without its coefficient. -/
def Leaf.symbol? : Leaf → Option Leaf
  | number _ => none
  | var _ name => some (var none name)
  | constant c => some (constant c)
  | leibniz of wrt => some (leibniz of wrt)

/-- The variables, constants and unknown derivatives of an expression, as often as
they occur, from left to right. -/
def Expr.symbols (e : Expr) : List Leaf :=
  e.leaves.filterMap Leaf.symbol?

namespace Expr

@[simp] theorem symbols_number (n : Float) : (number n).symbols = [] := rfl

@[simp] theorem symbols_folded (n : Float) : (folded n).symbols = [] := rfl

@[simp] theorem symbols_var (c : Option Float) (name : Char) :
    (var c name).symbols = [.var none name] := rfl

@[simp] theorem symbols_call (c : Option Float) (f : Func) (arg : Expr) :
    (call c f arg).symbols = arg.symbols := rfl

@[simp] theorem symbols_binary (op : Operator) (lhs rhs : Expr) :
    (binary op lhs rhs).symbols = lhs.symbols ++ rhs.symbols :=
  List.filterMap_append

theorem mem_symbols_var {name : Char} {e : Expr} :
    .var none name ∈ e.symbols ↔ name ∈ e.letters := by
  rw [symbols, List.mem_filterMap, mem_letters_iff_leaves]
  refine exists_congr fun l => and_congr_right fun _ => ?_
  cases l <;> simp [Leaf.symbol?, Leaf.letter?]

theorem mem_symbols_leibniz {of wrt : Char} {e : Expr} :
    .leibniz of wrt ∈ e.symbols ↔ (leibniz of wrt).PartOf e := by
  rw [symbols, List.mem_filterMap, ← mem_leaves]
  constructor
  · rintro ⟨l, hl, hsymbol⟩
    match l with
    | .leibniz _ _ =>
        cases hsymbol
        exact hl
    | .number _ | .constant _ | .var _ _ => cases hsymbol
  · intro h
    exact ⟨_, h, rfl⟩

theorem Rescaled.symbols_eq {u e : Expr} (h : u.Rescaled e) : e.symbols = u.symbols := by
  cases h <;> rfl

end Expr

namespace Rule

variable {rule : Rule} {lhs rhs e : Expr}

theorem Outcome.symbols_subset (h : Outcome rule lhs rhs e) :
    e.symbols ⊆ lhs.symbols ++ rhs.symbols := by
  cases h with
  | cancelled | numbers => exact List.nil_subset _
  | left n h => rw [h.symbols_eq]; exact List.subset_append_left _ _
  | right n h => rw [h.symbols_eq]; exact List.subset_append_right _ _
  | term | square | product => exact List.subset_append_left _ _

/-- Only a rule that cancels drops what is no number. -/
theorem Outcome.subset_symbols (h : Outcome rule lhs rhs e) (hrule : rule ∉ cancelling) :
    lhs.symbols ++ rhs.symbols ⊆ e.symbols := by
  cases h with
  | cancelled _ _ _ hcancels => exact absurd hcancels hrule
  | numbers => exact List.nil_subset _
  | left n h => simp [h.symbols_eq]
  | right n h => simp [h.symbols_eq]
  | term a b c name | square a b name | product a b name n =>
      exact List.append_subset.mpr ⟨List.Subset.refl _, List.Subset.refl _⟩

end Rule

theorem Firing.outcome (f : Firing) :
    ∃ op lhs rhs, f.redex = .binary op lhs rhs ∧ f.rule.Outcome lhs rhs f.reduct := by
  obtain ⟨op, lhs, rhs, hredex, hreduct, -⟩ := f.exists_binary
  exact ⟨op, lhs, rhs, hredex, Rule.outcome_of_onBinary? hreduct⟩

namespace Reduction

theorem Compatible.flip {R : Expr → Expr → Prop} (hR : Compatible R) :
    Compatible fun e e' => R e' e where
  refl := hR.refl
  trans h h' := hR.trans h' h
  call c f := hR.call c f
  binary op := hR.binary op

theorem compatible_subset_symbols : Compatible fun e e' => e.symbols ⊆ e'.symbols where
  refl e := List.Subset.refl e.symbols
  trans h h' := List.Subset.trans h h'
  call _ _ _ _ h := h
  binary op a a' b b' h h' := by
    rw [Expr.symbols_binary, Expr.symbols_binary]
    exact List.append_subset.mpr
      ⟨List.subset_append_of_subset_left _ h, List.subset_append_of_subset_right _ h'⟩

end Reduction

namespace Expr

theorem symbols_simplify_subset (e : Expr) : e.simplify.expr.symbols ⊆ e.symbols := by
  refine Reduction.compatible_subset_symbols.flip.simplify fun f _ => ?_
  obtain ⟨op, lhs, rhs, hredex, houtcome⟩ := f.outcome
  rw [hredex, symbols_binary]
  exact houtcome.symbols_subset

theorem subset_symbols_simplify {e : Expr}
    (h : ∀ rule ∈ e.simplify.steps, rule ∉ Rule.cancelling) :
    e.symbols ⊆ e.simplify.expr.symbols := by
  refine Reduction.compatible_subset_symbols.simplify fun f hf => ?_
  have hused : f.rule ∈ e.simplify.steps := by
    rw [← e.map_rule_firings]
    exact List.mem_map_of_mem hf
  obtain ⟨op, lhs, rhs, hredex, houtcome⟩ := f.outcome
  rw [hredex, symbols_binary]
  exact houtcome.subset_symbols (h f.rule hused)

/-- Every variable and every unknown derivative of a reduced expression was there
before it was reduced. If no rule was used that can cancel, all variables are still
there. -/
theorem letters_and_unknowns_simplify (e : Expr) :
    (∀ name ∈ e.simplify.expr.letters, name ∈ e.letters) ∧
      (∀ of wrt, (leibniz of wrt).PartOf e.simplify.expr → (leibniz of wrt).PartOf e) ∧
      ((∀ rule ∈ e.simplify.steps, rule ∉ Rule.cancelling) →
        ∀ name, name ∈ e.simplify.expr.letters ↔ name ∈ e.letters) := by
  have hletters : ∀ name ∈ e.simplify.expr.letters, name ∈ e.letters := fun name hname =>
    mem_symbols_var.mp (e.symbols_simplify_subset (mem_symbols_var.mpr hname))
  refine ⟨hletters, fun of wrt hpart => ?_, fun hsteps name => ⟨hletters name, fun hname => ?_⟩⟩
  · exact mem_symbols_leibniz.mp (e.symbols_simplify_subset (mem_symbols_leibniz.mpr hpart))
  · exact mem_symbols_var.mp (subset_symbols_simplify hsteps (mem_symbols_var.mpr hname))

/-- In `2x * 3x` two letters become one, and none is lost. -/
theorem letters_simplify_product :
    (∀ rule ∈ (var (some 2) 'x' * var (some 3) 'x').simplify.steps, rule ∉ Rule.cancelling) ∧
      ∀ name, name ∈ (var (some 2) 'x' * var (some 3) 'x').simplify.expr.letters ↔
        name ∈ (var (some 2) 'x' * var (some 3) 'x').letters := by
  have hsteps : ∀ rule ∈ (var (some 2) 'x' * var (some 3) 'x').simplify.steps,
      rule ∉ Rule.cancelling := by
    rw [simplify_mul_var 'x' rfl rfl]
    decide
  exact ⟨hsteps, (letters_and_unknowns_simplify _).2.2 hsteps⟩

/-! ## Nodes -/

theorem Rescaled.size_eq {u e : Expr} (h : u.Rescaled e) : e.size = u.size := by
  cases h <;> rfl

end Expr

/-- Only a square has more nodes than what it is made of, and never more than five. -/
theorem Rule.Outcome.size_le {rule : Rule} {lhs rhs e : Expr} (h : Outcome rule lhs rhs e) :
    e.size ≤ max (lhs.size + rhs.size + 1) 5 := by
  cases h with
  | cancelled | numbers | term | square | product =>
      simp only [Expr.folded, Expr.pow_def, Expr.size]
      omega
  | left n h =>
      have hsize := h.size_eq
      omega
  | right n h =>
      have hsize := h.size_eq
      omega

namespace Reduction

theorem size_atTop_le (e : Expr) : (atTop e).expr.size ≤ max e.size 5 := by
  induction e using atTop.induct with
  | case1 e h =>
      rw [atTop_of_none h]
      exact Nat.le_max_left _ 5
  | case2 e rule e' h _ ih =>
      rw [atTop_of_some h]
      obtain ⟨op, lhs, rhs, rfl, houtcome⟩ := Firing.outcome ⟨rule, e, e', Rule.reduct?_of_first? h⟩
      have hsize := houtcome.size_le
      simp only [Expr.size] at hsize ⊢
      omega

/-- The operands of an operator have a node each, so that five nodes above them are
not too many. -/
theorem two_mul_size_pass_le (e : Expr) : 2 * (pass e).expr.size ≤ 3 * e.size + 1 := by
  induction e with
  | leaf l => simp only [pass, Expr.size]; omega
  | call c f arg ih => simp only [pass, Expr.size]; omega
  | binary op lhs rhs ihl ihr =>
      have htop := size_atTop_le (.binary op (pass lhs).expr (pass rhs).expr)
      have hl := lhs.size_pos
      have hr := rhs.size_pos
      simp only [pass, Expr.size] at htop ⊢
      omega

end Reduction

namespace Expr

/-- A reduction makes at most half as many nodes again, and half a node more. A product of
two terms of one letter comes to that, unless the product of their coefficients is zero
or one. -/
theorem nodeCount_simplify_le :
    (∀ e : Expr, 2 * e.simplify.expr.nodeCount ≤ 3 * e.nodeCount + 1) ∧
      ∀ (c d : Option Float) (name : Char),
        (c.getD 1 * d.getD 1 == 0) = false → (c.getD 1 * d.getD 1 == 1) = false →
        2 * (var c name * var d name).simplify.expr.nodeCount =
          3 * (var c name * var d name).nodeCount + 1 := by
  constructor
  · intro e
    rw [nodeCount_eq_size, nodeCount_eq_size, simplify_eq_pass]
    exact Reduction.two_mul_size_pass_le e
  · intro c d name hzero hone
    rw [nodeCount_eq_size, nodeCount_eq_size, simplify_mul_var name hzero hone]
    rfl

theorem nodeCount_simplify_product :
    2 * (var (some 2) 'x' * var (some 3) 'x').simplify.expr.nodeCount =
      3 * (var (some 2) 'x' * var (some 3) 'x').nodeCount + 1 :=
  nodeCount_simplify_le.2 (some 2) (some 3) 'x' rfl rfl

end Expr

end Fluxion
