import Fluxion.Proofs.Firings
import Fluxion.Proofs.Value

/-!
# A reduction keeps the value

Where an expression has a value, what it is reduced to has the same value, as
long as the numbers that rules compute on the way are exact. The proviso is about
the operations that are carried out and no others (`Firing.Exact`): a coefficient
that is only moved is not rounded.

The converse does not hold. `x / x` has no value at zero and `1` has one, and a
product with zero forgets whatever the other factor left undefined.

Each rule is one lemma about `Interpretation.apply`, given the values of both
operands; what is common to several of them is how a number, a variable with a
coefficient and a scaled expression are evaluated.
-/

namespace Fluxion

open Decimal (value? value?_of_beq value?_zero value?_one value?_two pos_of_value? scaled)

variable {K : Type*} [Field K] [LinearOrder K]

/-- An operation between floats has the value that it has between the numbers
they are. -/
def Interpretation.Exact (I : Interpretation K) (o : Operation) : Prop :=
  ∀ a b, value? K o.left = some a → value? K o.right = some b →
    value? K o.result = I.apply o.op a b

/-- A rule was used and has rounded nothing. -/
def Firing.Exact (I : Interpretation K) (f : Firing) : Prop :=
  ∀ o, f.operation? = some o → I.Exact o

namespace Interpretation

variable (I : Interpretation K)

/-! ## Numbers and coefficients -/

theorem eval_of_number? {e : Expr} {n : Float} (h : e.number? = some n) :
    I.eval e = value? K n := by
  unfold Expr.number? Leaf.number? at h
  split at h
  · split at h
    · cases h
      rfl
    · cases h
  · cases h

theorem eval_of_isNumber {e : Expr} {n : Float} (h : e.isNumber n = true) :
    I.eval e = value? K n := by
  obtain ⟨m, hm, heq⟩ := (Option.any_eq_true ..).mp h
  rw [I.eval_of_number? hm, value?_of_beq heq]

theorem eval_folded (n : Float) : I.eval (.folded n) = value? K n := by
  rw [Expr.folded]
  split
  · next h => exact (value?_of_beq h).symm
  · rfl

/-! ## Rules for zeros and for two numbers -/

variable {lhs rhs e : Expr} {a b v : K} {op : Operator}

theorem eval_of_fold? (ha : I.eval lhs = some a) (hb : I.eval rhs = some b)
    (hv : I.apply op a b = some v)
    (hexact : ∀ o, Rule.foldConstants.operation? op lhs rhs = some o → I.Exact o)
    (h : Rule.fold? op lhs rhs = some e) : I.eval e = some v := by
  rw [Rule.fold?] at h
  split at h
  · next x y hx hy =>
      split at h
      · cases h
        have hop : Rule.foldConstants.operation? op lhs rhs = some ⟨op, x, y⟩ := by
          simp only [Rule.operation?, hx, hy]
        rw [I.eval_of_number? hx] at ha
        rw [I.eval_of_number? hy] at hb
        rw [eval_folded, ← hv]
        exact hexact _ hop a b ha hb
      · cases h
  · cases h

theorem eval_of_addZero? (ha : I.eval lhs = some a) (hb : I.eval rhs = some b)
    (h : Rule.addZero? lhs rhs = some e) : I.eval e = some (a + b) := by
  rw [Rule.addZero?] at h
  split at h
  · next hzero =>
      cases h
      rw [I.eval_of_isNumber hzero, value?_zero] at ha
      cases ha
      rw [hb, zero_add]
  · split at h
    · next hzero =>
        cases h
        rw [I.eval_of_isNumber hzero, value?_zero] at hb
        cases hb
        rw [ha, add_zero]
    · cases h

theorem eval_of_subtractZero? (ha : I.eval lhs = some a) (hb : I.eval rhs = some b)
    (h : Rule.subtractZero? lhs rhs = some e) : I.eval e = some (a - b) := by
  rw [Rule.subtractZero?] at h
  split at h
  · next hzero =>
      cases h
      rw [I.eval_of_isNumber hzero, value?_zero] at hb
      cases hb
      rw [ha, sub_zero]
  · cases h

theorem eval_of_subtractSelf? (ha : I.eval lhs = some a) (hb : I.eval rhs = some b)
    (h : Rule.subtractSelf? lhs rhs = some e) : I.eval e = some (a - b) := by
  rw [Rule.subtractSelf?] at h
  split at h
  · next hself =>
      cases h
      have heq := (Bool.and_eq_true_iff.mp hself).2
      rw [I.eval_of_beq heq, hb] at ha
      cases ha
      rw [eval_folded, value?_zero, sub_self]
  · cases h

theorem eval_of_multiplyZero? (ha : I.eval lhs = some a) (hb : I.eval rhs = some b)
    (h : Rule.multiplyZero? lhs rhs = some e) : I.eval e = some (a * b) := by
  rw [Rule.multiplyZero?] at h
  split at h
  · next hzero =>
      cases h
      rw [eval_folded, value?_zero]
      rcases (Bool.or_eq_true ..).mp hzero with hzero | hzero
      · rw [I.eval_of_isNumber hzero, value?_zero] at ha
        cases ha
        rw [zero_mul]
      · rw [I.eval_of_isNumber hzero, value?_zero] at hb
        cases hb
        rw [mul_zero]
  · cases h

theorem eval_of_divideZero? (ha : I.eval lhs = some a) (hv : I.apply .div a b = some v)
    (h : Rule.divideZero? lhs rhs = some e) : I.eval e = some v := by
  rw [Rule.divideZero?] at h
  split at h
  · next hzero =>
      cases h
      rw [I.eval_of_isNumber (Bool.and_eq_true_iff.mp hzero).1, value?_zero] at ha
      cases ha
      rw [apply] at hv
      split at hv
      · cases hv
      · rw [eval_folded, value?_zero, ← hv, zero_div]
  · cases h

/-! ## Rules for coefficients -/

theorem apply_mul_right (hop : op = .add ∨ op = .sub) (a b x : K) :
    I.apply op (a * x) (b * x) = (I.apply op a b).map (· * x) := by
  rcases hop with rfl | rfl
  · rw [apply, apply, Option.map_some, add_mul]
  · rw [apply, apply, Option.map_some, sub_mul]

variable [IsStrictOrderedRing K]

theorem scaled_getD (c : Option Float) (v : K) : scaled (some (c.getD 1)) v = scaled c v := by
  cases c with
  | none => simp [scaled]
  | some n => rfl

theorem eval_of_term? {e : Expr} {c : Float} {name : Char} (h : e.term? = some (c, name)) :
    I.eval e = (I.var name).bind (scaled (some c)) := by
  unfold Expr.term? at h
  split at h
  · next c' name' =>
      cases h
      rw [eval, funext (scaled_getD c')]
  · cases h

theorem exists_of_term? {e : Expr} {c : Float} {name : Char} {v : K}
    (h : e.term? = some (c, name)) (hv : I.eval e = some v) :
    ∃ a x, value? K c = some a ∧ I.var name = some x ∧ v = a * x := by
  rw [I.eval_of_term? h] at hv
  obtain ⟨x, hx, hscaled⟩ := Option.bind_eq_some_iff.mp hv
  obtain ⟨a, ha, rfl⟩ := Option.map_eq_some_iff.mp hscaled
  exact ⟨a, x, ha, hx, rfl⟩

theorem exists_of_scale? {n : Float} {e e' : Expr} {v : K} (h : e.scale? n = some e')
    (hv : I.eval e = some v) :
    ∃ c a x, e.coefficient? = some c ∧ value? K c = some a ∧ v = a * x ∧
      I.eval e' = (value? K (n * c)).map (· * x) := by
  have hscaled : ∀ {c : Option Float} {x : K}, scaled c x = some v →
      ∃ a, value? K (c.getD 1) = some a ∧ v = a * x := by
    intro c x hx
    rw [← scaled_getD] at hx
    obtain ⟨a, ha, rfl⟩ := Option.map_eq_some_iff.mp hx
    exact ⟨a, ha, rfl⟩
  unfold Expr.scale? at h
  split at h
  · next c name =>
      cases h
      obtain ⟨x, hx, hc⟩ := Option.bind_eq_some_iff.mp hv
      obtain ⟨a, ha, hmul⟩ := hscaled hc
      refine ⟨c.getD 1, a, x, rfl, ha, hmul, ?_⟩
      rw [eval, hx]
      rfl
  · next c f u =>
      cases h
      obtain ⟨y, hy, hrest⟩ := Option.bind_eq_some_iff.mp hv
      obtain ⟨x, hx, hc⟩ := Option.bind_eq_some_iff.mp hrest
      obtain ⟨a, ha, hmul⟩ := hscaled hc
      refine ⟨c.getD 1, a, x, rfl, ha, hmul, ?_⟩
      rw [eval, hy, Option.bind_some, hx]
      rfl
  · cases h

theorem eval_of_combineLikeTerms? (hop : op = .add ∨ op = .sub) (ha : I.eval lhs = some a)
    (hb : I.eval rhs = some b) (hv : I.apply op a b = some v)
    (hexact : ∀ o, Rule.combineLikeTerms.operation? op lhs rhs = some o → I.Exact o)
    (h : Rule.combineLikeTerms? op lhs rhs = some e) : I.eval e = some v := by
  rw [Rule.combineLikeTerms?] at h
  split at h
  · next m name n other hm hn =>
      split at h
      · cases h
      · next hname =>
          obtain rfl : name = other := by simpa using hname
          obtain ⟨p, x, hp, hx, rfl⟩ := I.exists_of_term? hm ha
          obtain ⟨q, y, hq, hy, rfl⟩ := I.exists_of_term? hn hb
          obtain rfl : x = y := Option.some.inj (hx.symm.trans hy)
          have hoperation : Rule.combineLikeTerms.operation? op lhs rhs = some ⟨op, m, n⟩ := by
            simp only [Rule.operation?, hm, hn]
          have hsum : value? K (op.apply m n) = I.apply op p q := hexact _ hoperation p q hp hq
          rw [I.apply_mul_right hop] at hv
          split at h
          · next hzero =>
              cases h
              rw [← hsum, value?_of_beq hzero, value?_zero, Option.map_some, zero_mul] at hv
              rw [eval_folded, value?_zero, hv]
          · cases h
            rw [eval, hx, Option.bind_some, scaled, hsum, hv]
  · cases h

theorem eval_of_multiplyOne? (ha : I.eval lhs = some a) (hb : I.eval rhs = some b)
    (h : Rule.multiplyOne? lhs rhs = some e) : I.eval e = some (a * b) := by
  rw [Rule.multiplyOne?] at h
  split at h
  · next hone =>
      cases h
      rw [I.eval_of_isNumber hone, value?_one] at ha
      cases ha
      rw [hb, one_mul]
  · split at h
    · next hone =>
        cases h
        rw [I.eval_of_isNumber hone, value?_one] at hb
        cases hb
        rw [ha, mul_one]
    · cases h

theorem eval_square {name : Char} {x : K} (hx : I.var name = some x) :
    I.eval (.var none name ^ Expr.number 2) = some (x * x) := by
  rw [Expr.pow_def, eval_binary]
  refine ⟨x, 2, ?_, value?_two, I.pow_two x⟩
  rw [eval, hx]
  rfl

theorem eval_of_combineLikeFactors? (ha : I.eval lhs = some a) (hb : I.eval rhs = some b)
    (hexact : ∀ o, Rule.combineLikeFactors.operation? .mul lhs rhs = some o → I.Exact o)
    (h : Rule.combineLikeFactors? lhs rhs = some e) : I.eval e = some (a * b) := by
  rw [Rule.combineLikeFactors?] at h
  split at h
  · next m name n other hm hn =>
      split at h
      · cases h
      · next hname =>
          obtain rfl : name = other := by simpa using hname
          obtain ⟨p, x, hp, hx, rfl⟩ := I.exists_of_term? hm ha
          obtain ⟨q, y, hq, hy, rfl⟩ := I.exists_of_term? hn hb
          obtain rfl : x = y := Option.some.inj (hx.symm.trans hy)
          have hoperation : Rule.combineLikeFactors.operation? .mul lhs rhs =
              some ⟨.mul, m, n⟩ := by
            simp only [Rule.operation?, hm, hn]
          have hproduct : value? K (m * n) = some (p * q) := hexact _ hoperation p q hp hq
          have hsquare := I.eval_square hx
          split at h
          · next hone =>
              cases h
              rw [value?_of_beq hone, value?_one] at hproduct
              have hpq : p * q = 1 := (Option.some.inj hproduct).symm
              rw [hsquare, mul_mul_mul_comm, hpq, one_mul]
          · cases h
            rw [Expr.mul_def, eval_binary]
            refine ⟨p * q, x * x, ?_, hsquare, ?_⟩
            · rw [eval_folded, hproduct]
            · rw [apply, mul_mul_mul_comm]
  · cases h

theorem eval_of_multiplyCoefficient? (ha : I.eval lhs = some a) (hb : I.eval rhs = some b)
    (hexact : ∀ o, Rule.multiplyCoefficient.operation? .mul lhs rhs = some o → I.Exact o)
    (h : Rule.multiplyCoefficient? lhs rhs = some e) : I.eval e = some (a * b) := by
  rw [Rule.multiplyCoefficient?] at h
  split at h
  · next n hn hnone =>
      rw [I.eval_of_number? hn] at ha
      obtain ⟨c, p, x, hc, hp, rfl, heval⟩ := I.exists_of_scale? h hb
      have hoperation : Rule.multiplyCoefficient.operation? .mul lhs rhs = some ⟨.mul, n, c⟩ := by
        simp only [Rule.operation?, hn, hnone, hc, Option.map_some]
      have hproduct : value? K (n * c) = some (a * p) := hexact _ hoperation a p ha hp
      rw [heval, hproduct, Option.map_some, mul_assoc]
  · next n hnone hn =>
      rw [I.eval_of_number? hn] at hb
      obtain ⟨c, p, x, hc, hp, rfl, heval⟩ := I.exists_of_scale? h ha
      have hoperation : Rule.multiplyCoefficient.operation? .mul lhs rhs = some ⟨.mul, n, c⟩ := by
        simp only [Rule.operation?, hn, hnone, hc, Option.map_some]
      have hproduct : value? K (n * c) = some (b * p) := hexact _ hoperation b p hb hp
      rw [heval, hproduct, Option.map_some, mul_assoc, mul_comm]
  · cases h

theorem eval_of_divideOne? (ha : I.eval lhs = some a) (hb : I.eval rhs = some b)
    (hv : I.apply .div a b = some v) (h : Rule.divideOne? lhs rhs = some e) :
    I.eval e = some v := by
  rw [Rule.divideOne?] at h
  split at h
  · next hone =>
      cases h
      rw [I.eval_of_isNumber hone, value?_one] at hb
      cases hb
      rw [apply, if_neg one_ne_zero, div_one] at hv
      rw [ha, hv]
  · cases h

theorem eval_of_reduceFraction? (ha : I.eval lhs = some a) (hb : I.eval rhs = some b)
    (hv : I.apply .div a b = some v)
    (hexact : ∀ o, Rule.reduceFraction.operation? .div lhs rhs = some o → I.Exact o)
    (h : Rule.reduceFraction? lhs rhs = some e) : I.eval e = some v := by
  rw [apply] at hv
  split at hv
  · cases hv
  · next hne =>
      rw [Rule.reduceFraction?] at h
      split at h
      · next m name n other hm hn =>
          split at h
          · next hguard =>
              cases h
              obtain rfl : name = other := by
                simp only [Bool.and_eq_true, decide_eq_true_eq] at hguard
                exact hguard.1.1
              obtain ⟨p, x, hp, hx, rfl⟩ := I.exists_of_term? hm ha
              obtain ⟨q, y, hq, hy, rfl⟩ := I.exists_of_term? hn hb
              obtain rfl : x = y := Option.some.inj (hx.symm.trans hy)
              have hoperation : Rule.reduceFraction.operation? .div lhs rhs =
                  some ⟨.div, m, n⟩ := by
                simp only [Rule.operation?, hm, hn]
              have hquotient : value? K (m / n) = I.apply .div p q :=
                hexact _ hoperation p q hp hq
              rw [apply, if_neg (left_ne_zero_of_mul hne)] at hquotient
              rw [eval_folded, hquotient, ← hv, mul_div_mul_right p q (right_ne_zero_of_mul hne)]
          · cases h
      · next m name n hm hnone hn =>
          split at h
          · cases h
            obtain ⟨p, x, hp, hx, rfl⟩ := I.exists_of_term? hm ha
            rw [I.eval_of_number? hn] at hb
            have hoperation : Rule.reduceFraction.operation? .div lhs rhs =
                some ⟨.div, m, n⟩ := by
              simp only [Rule.operation?, hm, hnone, hn]
            have hquotient : value? K (m / n) = I.apply .div p b := hexact _ hoperation p b hp hb
            rw [apply, if_neg hne] at hquotient
            rw [eval, hx, Option.bind_some, scaled, hquotient, Option.map_some, ← hv,
              div_mul_eq_mul_div]
          · cases h
      · cases h

/-! ## Rules for powers -/

theorem eval_of_powerZero? (hb : I.eval rhs = some b) (hv : I.apply .pow a b = some v)
    (h : Rule.powerZero? rhs = some e) : I.eval e = some v := by
  rw [Rule.powerZero?] at h
  split at h
  · next hzero =>
      cases h
      rw [I.eval_of_isNumber hzero, value?_zero] at hb
      cases hb
      rw [eval_folded, value?_one, ← hv]
      exact (I.pow_zero a).symm
  · cases h

theorem eval_of_powerOne? (ha : I.eval lhs = some a) (hb : I.eval rhs = some b)
    (hv : I.apply .pow a b = some v) (h : Rule.powerOne? lhs rhs = some e) :
    I.eval e = some v := by
  rw [Rule.powerOne?] at h
  split at h
  · next hone =>
      cases h
      rw [I.eval_of_isNumber hone, value?_one] at hb
      cases hb
      rw [ha, ← hv]
      exact (I.pow_one a).symm
  · cases h

theorem eval_of_powerZeroLeft? (ha : I.eval lhs = some a) (hb : I.eval rhs = some b)
    (hv : I.apply .pow a b = some v) (h : Rule.powerZeroLeft? lhs rhs = some e) :
    I.eval e = some v := by
  rw [Rule.powerZeroLeft?] at h
  split at h
  · next hguard =>
      cases h
      obtain ⟨hzero, hpos⟩ := Bool.and_eq_true_iff.mp hguard
      obtain ⟨n, hn, hlt⟩ := (Option.any_eq_true ..).mp hpos
      rw [I.eval_of_isNumber hzero, value?_zero] at ha
      cases ha
      rw [I.eval_of_number? hn] at hb
      have hb0 : 0 < b := pos_of_value? (of_decide_eq_true hlt) hb
      rw [eval_folded, value?_zero, ← hv]
      exact (I.zero_pow b hb0).symm
  · cases h

theorem eval_of_powerOneLeft? (ha : I.eval lhs = some a) (hv : I.apply .pow a b = some v)
    (h : Rule.powerOneLeft? lhs = some e) : I.eval e = some v := by
  rw [Rule.powerOneLeft?] at h
  split at h
  · next hone =>
      cases h
      rw [I.eval_of_isNumber hone, value?_one] at ha
      cases ha
      rw [eval_folded, value?_one, ← hv]
      exact (I.one_pow b).symm
  · cases h

/-! ## Reductions -/

/-- A rule keeps the value if what it computes is exact. -/
theorem eval_of_onBinary? {rule : Rule} (ha : I.eval lhs = some a) (hb : I.eval rhs = some b)
    (hv : I.apply op a b = some v) (hexact : ∀ o, rule.operation? op lhs rhs = some o → I.Exact o)
    (h : rule.onBinary? op lhs rhs = some e) : I.eval e = some v := by
  unfold Rule.onBinary? at h
  split at h
  · exact I.eval_of_fold? ha hb hv hexact h
  · exact (I.eval_of_addZero? ha hb h).trans hv
  · exact (I.eval_of_subtractZero? ha hb h).trans hv
  · exact (I.eval_of_subtractSelf? ha hb h).trans hv
  · exact I.eval_of_combineLikeTerms? (Or.inl rfl) ha hb hv hexact h
  · exact I.eval_of_combineLikeTerms? (Or.inr rfl) ha hb hv hexact h
  · exact (I.eval_of_multiplyZero? ha hb h).trans hv
  · exact (I.eval_of_multiplyOne? ha hb h).trans hv
  · exact (I.eval_of_combineLikeFactors? ha hb hexact h).trans hv
  · exact (I.eval_of_multiplyCoefficient? ha hb hexact h).trans hv
  · exact I.eval_of_divideOne? ha hb hv h
  · exact I.eval_of_divideZero? ha hv h
  · exact I.eval_of_reduceFraction? ha hb hv hexact h
  · exact I.eval_of_powerZero? hb hv h
  · exact I.eval_of_powerOne? ha hb hv h
  · exact I.eval_of_powerZeroLeft? ha hb hv h
  · exact I.eval_of_powerOneLeft? ha hv h
  · cases h

theorem eval_reduct {f : Firing} (hexact : f.Exact I) (hv : I.eval f.redex = some v) :
    I.eval f.reduct = some v := by
  obtain ⟨op, lhs, rhs, hredex, hfires, hop⟩ := f.exists_binary
  rw [hredex] at hv
  obtain ⟨a, b, ha, hb, hab⟩ := I.eval_binary.mp hv
  exact I.eval_of_onBinary? ha hb hab (fun o ho => hexact o (hop.trans ho)) hfires

/-- Wherever one expression has a value, the other has the same. -/
def Refines (a b : Expr) : Prop :=
  ∀ v, I.eval a = some v → I.eval b = some v

omit [IsStrictOrderedRing K] in
theorem compatible_refines : Reduction.Compatible I.Refines where
  refl _ _ hv := hv
  trans hab hbc v hv := hbc v (hab v hv)
  call c f a a' h v hv := by
    obtain ⟨x, hx, hrest⟩ := Option.bind_eq_some_iff.mp hv
    rw [eval, h x hx]
    exact hrest
  binary op a a' b b' ha hb v hv := by
    obtain ⟨x, y, hx, hy, hxy⟩ := I.eval_binary.mp hv
    exact I.eval_binary.mpr ⟨x, y, ha x hx, hb y hy, hxy⟩

/-- A reduction that computes exactly keeps the value of an expression. -/
theorem eval_simplify (hexact : ∀ f ∈ e.firings, f.Exact I) (hv : I.eval e = some v) :
    I.eval e.simplify.expr = some v :=
  I.compatible_refines.simplify (fun f hf _ => I.eval_reduct (hexact f hf)) v hv

theorem eval_simplify_like_terms :
    (ofVariables fun _ => some (5 : ℚ)).eval
      (Expr.var (some 2) 'x' + Expr.var (some 3) 'x').simplify.expr = some 25 := by
  have hthree : value? ℚ 3 = some 3 := by
    have h : Decimal.parts 3 = .finite .positive (3 * 2 ^ 51) (-51) (by decide) := rfl
    rw [Decimal.value?_of_parts h]
    norm_num [Float.Model.UnpackedFloat.Sign.apply]
  have hfive : value? ℚ (2 + 3) = some 5 := by
    have h : Decimal.parts (2 + 3) = .finite .positive (5 * 2 ^ 50) (-50) (by decide) := rfl
    rw [Decimal.value?_of_parts h]
    norm_num [Float.Model.UnpackedFloat.Sign.apply]
  have hfirst : Rule.first? Rule.all (Expr.var (some 2) 'x' + Expr.var (some 3) 'x') =
      some (.combineLikeTerms, .var (some (2 + 3)) 'x') := rfl
  refine eval_simplify _ ?_ ?_
  · intro f hf o ho a b ha hb
    rw [Expr.add_def, Expr.firings_of_leaves hfirst, List.mem_singleton] at hf
    subst hf
    cases ho
    obtain rfl : 2 = a := Option.some.inj (value?_two.symm.trans ha)
    obtain rfl : 3 = b := Option.some.inj (hthree.symm.trans hb)
    change value? ℚ (2 + 3) = some (2 + 3)
    rw [hfive]
    norm_num
  · rw [Expr.add_def, eval_binary]
    refine ⟨10, 15, ?_, ?_, ?_⟩
    · change (value? ℚ 2).map (· * 5) = some 10
      rw [value?_two]
      norm_num
    · change (value? ℚ 3).map (· * 5) = some 15
      rw [hthree]
      norm_num
    · change some (10 + 15 : ℚ) = some 25
      norm_num

end Interpretation

end Fluxion
