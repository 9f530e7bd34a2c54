import Fluxion.Proofs.FloatParts
import Fluxion.Proofs.NormalForm
import Fluxion.Proofs.UniformDerivative

/-!
# Constants differentiate to zero

The derivative of an expression without variables is built of zeros: leaves, powers
and functions of a leaf have the derivative `0` at once, and sums, products,
quotients and functions of anything larger put the derivatives of their parts next to
copies of these parts. All of that reduces to the number zero, and it does so
whatever the copies are: a product with zero is zero next to a number that is
infinite, an expression that cannot be folded, or an unknown derivative. If the
product of the two numbers is no float that is finite, folding leaves it alone and
the rule for products with zero takes it.

The exception is a quotient. Its derivative is one by the square of the denominator,
and zero by zero is left as it is.
-/

namespace Fluxion

open Decimal (mul_zero_beq zero_mul_beq zero_div_beq)

/-! ## Rules next to a zero -/

theorem Expr.folded_of_beq {n : Float} (h : (n == 0) = true) : folded n = number 0 := by
  rw [folded, if_pos h]

namespace Rule

variable {op : Operator} {u v e : Expr}

theorem eq_zero_of_fold?
    (hzero : ∀ a b, u.number? = some a → v.number? = some b → (op.apply a b).isFinite = true →
      (op.apply a b == 0) = true)
    (h : fold? op u v = some e) : e = .number 0 := by
  rw [fold?] at h
  split at h
  · next a b ha hb =>
      split at h
      · next hfinite =>
          cases h
          exact Expr.folded_of_beq (hzero a b ha hb hfinite)
      · cases h
  · cases h

/-- Two numbers that are not folded are left to the rule that comes next. -/
theorem exists_first?_of_fold? (before : List Rule) {after : List Rule} (rule : Rule)
    (hall : all = foldConstants :: before ++ rule :: after)
    (hfold : ∀ e, fold? op u v = some e → e = .number 0)
    (hbefore : ∀ r ∈ before, r.reduct? (.binary op u v) = none)
    (h : rule.reduct? (.binary op u v) = some (.number 0)) :
    ∃ used, first? all (.binary op u v) = some (used, .number 0) := by
  cases hfirst : fold? op u v with
  | none =>
      rw [hall]
      exact ⟨rule, first?_append_cons _ (List.forall_mem_cons.mpr ⟨hfirst, hbefore⟩) h⟩
  | some e =>
      obtain rfl := hfold e hfirst
      exact ⟨foldConstants, first?_append_cons [] (List.forall_mem_nil _) hfirst⟩

theorem reduct?_mul_of_mem_forSums : ∀ r ∈ forSums, r.reduct? (u * v) = none := by
  simp only [forSums, List.forall_mem_cons]
  exact ⟨rfl, rfl, rfl, rfl, List.forall_mem_nil _⟩

theorem reduct?_div_of_mem : ∀ r ∈ forSums ++ forProducts, r.reduct? (u / v) = none := by
  simp only [forSums, forProducts, List.cons_append, List.nil_append, List.forall_mem_cons]
  exact ⟨rfl, rfl, rfl, rfl, rfl, rfl, rfl, rfl, List.forall_mem_nil _⟩

theorem multiplyZero_reduct? (h : u.isNumber 0 = true ∨ v.isNumber 0 = true) :
    multiplyZero.reduct? (u * v) = some (.number 0) := by
  change multiplyZero? u v = _
  rw [multiplyZero?, if_pos ((Bool.or_eq_true ..).mpr h), Expr.folded_of_beq rfl]

theorem exists_first?_mul_zero (h : u = .number 0 ∨ v = .number 0) :
    ∃ used, first? all (u * v) = some (used, .number 0) := by
  have hfold : ∀ e, fold? .mul u v = some e → e = .number 0 := by
    refine fun e => eq_zero_of_fold? fun a b ha hb hfinite => ?_
    rcases h with rfl | rfl
    · cases ha
      exact zero_mul_beq hfinite
    · cases hb
      exact mul_zero_beq hfinite
  refine exists_first?_of_fold? forSums multiplyZero rfl hfold reduct?_mul_of_mem_forSums
    (multiplyZero_reduct? ?_)
  rcases h with rfl | rfl
  · exact Or.inl rfl
  · exact Or.inr rfl

theorem exists_first?_zero_div (hv : v.isNumber 0 = false) :
    ∃ used, first? all (Expr.number 0 / v) = some (used, .number 0) := by
  have hfold : ∀ e, fold? .div (.number 0) v = some e → e = .number 0 := by
    refine fun e => eq_zero_of_fold? fun a b ha _ hfinite => ?_
    cases ha
    exact zero_div_beq hfinite
  cases hone : v.isNumber 1 with
  | true =>
      refine exists_first?_of_fold? (forSums ++ forProducts) divideOne rfl hfold
        reduct?_div_of_mem ?_
      change divideOne? (.number 0) v = _
      rw [divideOne?, if_pos hone]
  | false =>
      refine exists_first?_of_fold? (forSums ++ forProducts ++ [divideOne]) divideZero rfl hfold
        ?_ ?_
      · refine List.forall_mem_append.mpr ⟨reduct?_div_of_mem, List.forall_mem_singleton.mpr ?_⟩
        change divideOne? (.number 0) v = none
        rw [divideOne?, hone]
        rfl
      · change divideZero? (.number 0) v = _
        have hzero : (Expr.number 0).isNumber 0 = true := rfl
        rw [divideZero?, hzero, hv, Bool.not_false, Bool.and_self, if_pos rfl,
          Expr.folded_of_beq rfl]

end Rule

/-! ## Expressions that reduce to zero -/

/-- An expression that reduces to the number zero. -/
def Expr.Vanishes (e : Expr) : Prop :=
  e.simplify.expr = number 0

namespace Expr

variable {op : Operator} {u v : Expr}

theorem expr_simplify_binary (op : Operator) (u v : Expr) :
    (binary op u v).simplify.expr =
      (Reduction.atTop (binary op u.simplify.expr v.simplify.expr)).expr := by
  simp only [simplify_eq_pass, Reduction.pass]

theorem vanishes_zero : (number 0).Vanishes := by
  rw [Vanishes, simplify_eq_pass, Reduction.pass]

theorem vanishes_of_first?
    (h : ∃ used, Rule.first? Rule.all (binary op u.simplify.expr v.simplify.expr) =
      some (used, number 0)) : (binary op u v).Vanishes := by
  obtain ⟨used, hfirst⟩ := h
  rw [Vanishes, expr_simplify_binary, Reduction.atTop_of_some hfirst,
    Reduction.atTop_of_none (Rule.first?_leaf Rule.all _)]

theorem Vanishes.add (hu : u.Vanishes) (hv : v.Vanishes) : (u + v).Vanishes := by
  refine vanishes_of_first? ⟨.foldConstants, ?_⟩
  rw [hu, hv]
  rfl

theorem Vanishes.sub (hu : u.Vanishes) (hv : v.Vanishes) : (u - v).Vanishes := by
  refine vanishes_of_first? ⟨.foldConstants, ?_⟩
  rw [hu, hv]
  rfl

theorem Vanishes.mul_right (hu : u.Vanishes) (v : Expr) : (u * v).Vanishes :=
  vanishes_of_first? (Rule.exists_first?_mul_zero (Or.inl hu))

theorem Vanishes.mul_left (hv : v.Vanishes) (u : Expr) : (u * v).Vanishes :=
  vanishes_of_first? (Rule.exists_first?_mul_zero (Or.inr hv))

theorem Vanishes.div (hu : u.Vanishes) (hv : v.simplify.expr.isNumber 0 = false) :
    (u / v).Vanishes := by
  refine vanishes_of_first? ?_
  rw [hu]
  exact Rule.exists_first?_zero_div hv

/-! ### Squares -/

theorem folded_eq_zero {n : Float} (h : (folded n).isNumber 0 = true) :
    folded n = number 0 := by
  rw [folded] at h ⊢
  split
  · rfl
  · next hn =>
      rw [if_neg hn] at h
      exact absurd h hn

theorem exists_folded_of_if {p : Prop} [Decidable p] {m : Float} {e : Expr}
    (h : (if p then some (folded m) else none) = some e) : ∃ n, e = folded n := by
  split at h
  · cases h
    exact ⟨m, rfl⟩
  · cases h

/-- A rule that applies to a square makes a number of it. -/
theorem exists_folded_of_square {rule : Rule} {e : Expr}
    (h : rule.onBinary? .pow u (number 2) = some e) : ∃ n, e = folded n := by
  cases rule with
  | foldConstants =>
      replace h : Rule.fold? .pow u (number 2) = some e := h
      rw [Rule.fold?] at h
      split at h
      · exact exists_folded_of_if h
      · cases h
  | powerZeroLeft | powerOneLeft => exact exists_folded_of_if h
  | _ => cases h

/-- No square reduces to the negative zero. -/
theorem isNumber_simplify_square (h : (u ^ number 2).simplify.expr ≠ number 0) :
    (u ^ number 2).simplify.expr.isNumber 0 = false := by
  have hleaf : (number 2).simplify.expr = number 2 := by rw [simplify_eq_pass, Reduction.pass]
  rw [pow_def, expr_simplify_binary, hleaf] at h ⊢
  cases hfirst : Rule.first? Rule.all (binary .pow u.simplify.expr (number 2)) with
  | none =>
      rw [Reduction.atTop_of_none hfirst]
      rfl
  | some used =>
      obtain ⟨rule, e⟩ := used
      obtain ⟨n, rfl⟩ := exists_folded_of_square (Rule.reduct?_of_first? hfirst)
      have hstop : Reduction.atTop (folded n) = ⟨folded n, []⟩ :=
        Reduction.atTop_of_none (Rule.first?_leaf Rule.all _)
      rw [Reduction.atTop_of_some hfirst, hstop] at h ⊢
      exact Bool.eq_false_iff.mpr fun hzero => h (folded_eq_zero hzero)

end Expr

/-! ## Derivatives of constants -/

namespace Roles

variable {roles : Roles} {f : Func} {u : Expr}

theorem not_affects_of_isConstant {e : Expr} (h : e.IsConstant) : ¬ roles.Affects e :=
  (not_affects_iff fun name hname => absurd hname (h name)).mpr h

theorem vanishes_chain (f : Func) (hu : u.IsConstant) (h : (roles.derive u).Vanishes) :
    (roles.chain f u (roles.derive u)).Vanishes := by
  rcases roles.chain_cases f u (roles.derive u) with
    ⟨-, hchain⟩ | ⟨rfl, -⟩ | ⟨name, -, rfl, -⟩ | ⟨l, -, -, hchain⟩
  · rw [hchain]
    exact h.mul_left _
  · exact absurd (Expr.mem_letters_leaf.mpr rfl) (hu roles.wrt)
  · exact absurd (Expr.mem_letters_leaf.mpr rfl) (hu name)
  · rw [hchain]
    exact Expr.vanishes_zero

theorem vanishes_derive {t : Expr} (ht : t.IsConstant)
    (hquotients : ∀ a b : Expr, (a / b).PartOf t → (b ^ Expr.number 2).simplify.expr ≠ .number 0) :
    (roles.derive t).Vanishes := by
  induction t with
  | leaf l =>
      cases l with
      | var c name => exact absurd (Expr.mem_letters_leaf.mpr rfl) (ht name)
      | number _ | constant _ | leibniz _ _ => exact Expr.vanishes_zero
  | call c f u ih =>
      have hu := Expr.isConstant_call.mp ht
      have hchain := vanishes_chain f hu
        (ih hu fun a b hpart => hquotients a b (hpart.argument c f))
      match c with
      | none => exact hchain
      | some n => exact hchain.mul_left (.number n)
  | binary op u v ihu ihv =>
      obtain ⟨hu, hv⟩ := Expr.isConstant_binary.mp ht
      have hdu := ihu hu fun a b hpart => hquotients a b (hpart.left op v)
      have hdv := ihv hv fun a b hpart => hquotients a b (hpart.right op u)
      cases op with
      | add => exact hdu.add hdv
      | sub => exact hdu.sub hdv
      | mul => exact (hdu.mul_right v).add (hdv.mul_left u)
      | div =>
          refine ((hdu.mul_right v).sub (hdv.mul_left u)).div ?_
          exact Expr.isNumber_simplify_square (hquotients u v (.self _))
      | pow =>
          rw [derive, power, if_neg (not_affects_of_isConstant hv),
            if_neg (not_affects_of_isConstant hu)]
          exact Expr.vanishes_zero

end Roles

namespace Expr

/-- An expression without variables has a derivative that reduces to zero, if the
square of no denominator in it does. -/
theorem simplify_derivative_of_isConstant {t : Expr} (wrt : Char) (ht : t.IsConstant)
    (hquotients : ∀ a b : Expr, (a / b).PartOf t → (b ^ number 2).simplify.expr ≠ number 0) :
    (t.derivative wrt).simplify.expr = number 0 :=
  Roles.vanishes_derive ht hquotients

/-- The derivative of `3sin(pi * dy/dx) / e` reduces to zero. -/
theorem simplify_derivative_of_sin :
    (call (some 3) .sin (constant .pi * leibniz 'y' 'x') / constant .e).IsConstant ∧
      (∀ a b : Expr, (a / b).PartOf
          (call (some 3) .sin (constant .pi * leibniz 'y' 'x') / constant .e) →
        (b ^ number 2).simplify.expr ≠ number 0) ∧
      ((call (some 3) .sin (constant .pi * leibniz 'y' 'x') / constant .e).derivative
        'x').simplify.expr = number 0 := by
  have hconstant :
      (call (some 3) .sin (constant .pi * leibniz 'y' 'x') / constant .e).IsConstant := by
    intro name hname
    rw [mem_letters_iff_leaves] at hname
    simp [div_def, mul_def, leaves, Leaf.letter?] at hname
  have hsquare : (constant .e ^ number 2).simplify.expr ≠ number 0 := by
    have hnormal : (constant .e ^ number 2).IsNormal :=
      isNormal_binary.mpr ⟨rfl, isNormal_leaf _, isNormal_leaf _⟩
    rw [simplify_of_isNormal hnormal]
    intro h
    cases h
  have hquotients : ∀ a b : Expr, (a / b).PartOf
      (call (some 3) .sin (constant .pi * leibniz 'y' 'x') / constant .e) →
      (b ^ number 2).simplify.expr ≠ number 0 := by
    intro a b hpart
    cases hpart with
    | self => exact hsquare
    | right _ _ h => cases h
    | left _ _ h =>
        cases h with
        | argument _ _ h =>
            cases h with
            | left _ _ h | right _ _ h => cases h
  exact ⟨hconstant, hquotients, simplify_derivative_of_isConstant 'x' hconstant hquotients⟩

end Expr

end Fluxion
