import Fluxion.Proofs.UniformDerivative

/-!
# The rules of differentiation, followed to the letter

The derivative of `u ^ v` with a variable in `v` is that of `e ^ (v · ln u)`, and the
rule goes on to differentiate the exponent `v · ln u`; the derivative of `3f(u)`
starts with that of `f(u)`. Neither is a part of what is differentiated, and
`Roles.Gives` goes on with them all the same. It still comes to an end on every
expression, with the derivative and nothing else (`Roles.gives_iff`): the product
rule and the chain rule take the exponent back to the parts of the power.

Which rule a power takes depends on the roles of the letters, and these are given
once, at the top. If there is one other variable at most, then both the roles from
the top and those from a part of the expression have one for each letter of that
part, and in such roles it has the same derivative (`Roles.derive_congr`).
-/

namespace Fluxion

namespace Roles

/-- `roles.Gives e d`: the rules of differentiation end with `d` when they are
followed from `e` on. -/
inductive Gives (roles : Roles) : Expr → Expr → Prop where
  | leaf (l : Leaf) : Gives roles (.leaf l) (l.derivative roles.wrt)
  | coefficient (n : Float) {f : Func} {u d : Expr} :
      Gives roles (.apply f u) d → Gives roles (.call (some n) f u) (.number n * d)
  | inner (f : Func) {u u' : Expr} :
      u.IsInner → Gives roles u u' → Gives roles (.apply f u) (f.derivative u * u')
  | bare (f : Func) :
      Gives roles (.apply f (.var none roles.wrt)) (f.derivative (.var none roles.wrt))
  | unknown (f : Func) {name : Char} :
      name ≠ roles.wrt →
        Gives roles (.apply f (.var none name))
          (.leibniz name roles.wrt * f.derivative (.var none name))
  | constant (f : Func) {l : Leaf} :
      l.letter? = none → Gives roles (.apply f (.leaf l)) (.number 0)
  | add {u v u' v' : Expr} : Gives roles u u' → Gives roles v v' → Gives roles (u + v) (u' + v')
  | sub {u v u' v' : Expr} : Gives roles u u' → Gives roles v v' → Gives roles (u - v) (u' - v')
  | mul {u v u' v' : Expr} :
      Gives roles u u' → Gives roles v v' → Gives roles (u * v) (u' * v + u * v')
  | div {u v u' v' : Expr} :
      Gives roles u u' → Gives roles v v' →
        Gives roles (u / v) ((u' * v - u * v') / v ^ Expr.number 2)
  | fixedPower {u v : Expr} :
      ¬ roles.Affects u → ¬ roles.Affects v → Gives roles (u ^ v) (.number 0)
  | barePower {u v : Expr} :
      roles.Affects u → ¬ roles.Affects v → u.isBare roles.wrt = true →
        Gives roles (u ^ v) ((v * u) ^ (v - Expr.number 1))
  | power {u v u' : Expr} :
      roles.Affects u → ¬ roles.Affects v → u.isBare roles.wrt = false → Gives roles u u' →
        Gives roles (u ^ v) (u' * (v * u) ^ (v - Expr.number 1))
  | exponential {u v d : Expr} :
      roles.Affects v → Gives roles (v * Expr.apply .ln u) d →
        Gives roles (u ^ v) (Expr.constant .e ^ (v * Expr.apply .ln u) * d)

variable {roles : Roles} {f : Func} {e u v d : Expr}

/-- Behind an argument that goes on inside, the chain rule leaves nothing out. -/
theorem chain_of_isInner (h : u.IsInner) (u' : Expr) :
    roles.chain f u u' = f.derivative u * u' := by
  match u with
  | .var (some _) _ | .call _ _ _ | .binary _ _ _ => rfl
  | .var none _ | .number _ | .constant _ | .leibniz _ _ => exact h.elim

theorem derive_eq_of_gives (h : roles.Gives e d) : roles.derive e = d := by
  induction h with
  | leaf l => rfl
  | coefficient n _ ih => rw [← ih]; rfl
  | inner f hu _ ih => rw [derive, chain_of_isInner hu, ih]
  | bare f => simp only [derive, chain, if_true]
  | unknown f hname => simp only [derive, chain, if_neg hname]
  | constant f hl =>
      next l =>
        cases l with
        | number _ | constant _ | leibniz _ _ => rfl
        | var _ _ => cases hl
  | add _ _ ihu ihv => rw [← ihu, ← ihv]; rfl
  | sub _ _ ihu ihv => rw [← ihu, ← ihv]; rfl
  | mul _ _ ihu ihv => rw [← ihu, ← ihv]; rfl
  | div _ _ ihu ihv => rw [← ihu, ← ihv]; rfl
  | fixedPower hu hv => rw [Expr.pow_def, derive, power, if_neg hv, if_neg hu]
  | barePower hu hv hbare =>
      rw [Expr.pow_def, derive, power, if_neg hv, if_pos hu, powerRule, if_pos hbare]
  | power hu hv hbare _ ih =>
      rw [Expr.pow_def, derive, power, if_neg hv, if_pos hu, powerRule,
        if_neg (Bool.eq_false_iff.mp hbare), ih]
  | exponential hv _ ih =>
      rw [Expr.pow_def, derive, power, if_pos hv, exponentialRule, ← derive_exponent, ih]

theorem gives_apply (f : Func) (h : roles.Gives u (roles.derive u)) :
    roles.Gives (.apply f u) (roles.chain f u (roles.derive u)) := by
  rcases roles.chain_cases f u (roles.derive u) with
    ⟨hinner, hchain⟩ | ⟨rfl, hchain⟩ | ⟨name, hname, rfl, hchain⟩ | ⟨l, hl, rfl, hchain⟩
  · rw [hchain]
    exact .inner f hinner h
  · rw [hchain]
    exact .bare f
  · rw [hchain]
    exact .unknown f hname
  · rw [hchain]
    exact .constant f hl

theorem gives_derive (e : Expr) : roles.Gives e (roles.derive e) := by
  induction e with
  | leaf l => exact .leaf l
  | call c f u ih =>
      have happly := gives_apply f ih
      match c with
      | none => exact happly
      | some n => exact .coefficient n happly
  | binary op u v ihu ihv =>
      cases op with
      | add => exact .add ihu ihv
      | sub => exact .sub ihu ihv
      | mul => exact .mul ihu ihv
      | div => exact .div ihu ihv
      | pow =>
          rw [derive, power]
          split
          · next hv =>
              -- the exponent is a product with a call, so the parts of the power suffice
              rw [exponentialRule, ← derive_exponent]
              exact .exponential hv (.mul ihv (gives_apply .ln ihu))
          · next hv =>
              split
              · next hu =>
                  rw [powerRule]
                  split
                  · next hbare => exact .barePower hu hv hbare
                  · next hbare => exact .power hu hv (by simpa using hbare) ihu
              · next hu => exact .fixedPower hu hv

/-- Following the rules ends on every expression, and with its derivative. -/
theorem gives_iff : roles.Gives e d ↔ d = roles.derive e := by
  constructor
  · intro h
    exact (derive_eq_of_gives h).symm
  · rintro rfl
    exact gives_derive e

/-! ## Roles given at the top -/

variable {wrt : Char} {other other' : Option Char}

/-- It makes no difference which roles are given, as long as each letter has one. -/
theorem derive_congr (h : Covers ⟨wrt, other⟩ e) (h' : Covers ⟨wrt, other'⟩ e) :
    derive ⟨wrt, other⟩ e = derive ⟨wrt, other'⟩ e := by
  induction e with
  | leaf l => rfl
  | call c f u ih =>
      have hu := ih (covers_call.mp h) (covers_call.mp h')
      match c with
      | none => rw [derive, derive, hu]; rfl
      | some n => rw [derive, derive, hu]; rfl
  | binary op u v ihu ihv =>
      obtain ⟨hcu, hcv⟩ := covers_binary.mp h
      obtain ⟨hcu', hcv'⟩ := covers_binary.mp h'
      have hu := ihu hcu hcu'
      have hv := ihv hcv hcv'
      cases op with
      | add | sub | mul | div => rw [derive, derive, hu, hv]
      | pow =>
          have haffects : ∀ {s : Expr}, Covers ⟨wrt, other⟩ s → Covers ⟨wrt, other'⟩ s →
              (Affects ⟨wrt, other⟩ s ↔ Affects ⟨wrt, other'⟩ s) := fun hs hs' =>
            (affects_iff hs).trans (affects_iff hs').symm
          -- past the choice of the rule only the variable of differentiation matters
          rw [derive, derive, hu, hv]
          simp only [power, haffects hcu hcu', haffects hcv hcv']
          rfl

end Roles

namespace Expr

variable {wrt : Char} {t s : Expr}

/-- Any expression whose letters are among those of `t` has the same derivative
in the roles that `t` gives as on its own. -/
theorem derive_eq_derivative
    (h : ∀ y ∈ t.letters, ∀ z ∈ t.letters, y ≠ wrt → z ≠ wrt → y = z)
    (hs : s.letters ⊆ t.letters) :
    Roles.derive ⟨wrt, t.letters.find? (· ≠ wrt)⟩ s = s.derivative wrt := by
  have htop : Roles.Covers ⟨wrt, t.letters.find? (· ≠ wrt)⟩ s := fun name hname =>
    Roles.covers_of_letters h name (hs hname)
  have hown : Roles.Covers ⟨wrt, s.letters.find? (· ≠ wrt)⟩ s :=
    Roles.covers_of_letters fun y hy z hz => h y (hs hy) z (hs hz)
  exact Roles.derive_congr htop hown

theorem letters_exponent_subset {u v : Expr} (h : (u ^ v).PartOf t) :
    (v * apply .ln u).letters ⊆ t.letters := by
  intro name hname
  refine h.letters_subset ?_
  rw [mul_def, mem_letters_binary, mem_letters_call] at hname
  rw [pow_def, mem_letters_binary]
  exact hname.symm

theorem derive_operands_eq_derivative {a b : Expr} (op : Operator)
    (h : ∀ y ∈ a.letters ++ b.letters, ∀ z ∈ a.letters ++ b.letters, y ≠ wrt → z ≠ wrt → y = z) :
    Roles.derive ⟨wrt, (binary op a b).letters.find? (· ≠ wrt)⟩ a = a.derivative wrt ∧
      Roles.derive ⟨wrt, (binary op a b).letters.find? (· ≠ wrt)⟩ b = b.derivative wrt := by
  have hletters : (binary op a b).letters ⊆ a.letters ++ b.letters := fun name hname =>
    List.mem_append.mpr (mem_letters_binary.mp hname)
  have hone : ∀ y ∈ (binary op a b).letters, ∀ z ∈ (binary op a b).letters,
      y ≠ wrt → z ≠ wrt → y = z := fun y hy z hz => h y (hletters hy) z (hletters hz)
  constructor
  · exact derive_eq_derivative hone ((PartOf.self a).left op b).letters_subset
  · exact derive_eq_derivative hone ((PartOf.self b).right op a).letters_subset

/-- With one other variable at most, a part of `t` gets the derivative that it has on
its own, and so does every part of the exponent that a power in `t` is written with.
Sums, differences, products and quotients may then be differentiated operand by
operand. -/
theorem derivative_of_one_other (wrt : Char) :
    (∀ t : Expr, (∀ y ∈ t.letters, ∀ z ∈ t.letters, y ≠ wrt → z ≠ wrt → y = z) →
      ∀ s d : Expr, (s.PartOf t ∨ ∃ u v, (u ^ v).PartOf t ∧ s.PartOf (v * apply .ln u)) →
        (Roles.Gives ⟨wrt, t.letters.find? (· ≠ wrt)⟩ s d ↔ d = s.derivative wrt)) ∧
    ∀ a b : Expr,
      (∀ y ∈ a.letters ++ b.letters, ∀ z ∈ a.letters ++ b.letters,
        y ≠ wrt → z ≠ wrt → y = z) →
      (a + b).derivative wrt = a.derivative wrt + b.derivative wrt ∧
      (a - b).derivative wrt = a.derivative wrt - b.derivative wrt ∧
      (a * b).derivative wrt = a.derivative wrt * b + a * b.derivative wrt ∧
      (a / b).derivative wrt =
        (a.derivative wrt * b - a * b.derivative wrt) / b ^ number 2 := by
  constructor
  · intro t h s d hs
    have hletters : s.letters ⊆ t.letters := by
      rcases hs with hpart | ⟨u, v, hpower, hpart⟩
      · exact hpart.letters_subset
      · exact List.Subset.trans hpart.letters_subset (letters_exponent_subset hpower)
    rw [Roles.gives_iff, derive_eq_derivative h hletters]
  · intro a b h
    have hoperands := fun op => derive_operands_eq_derivative op h
    refine ⟨?_, ?_, ?_, ?_⟩
    · rw [add_def, derivative, Roles.derive, (hoperands .add).1, (hoperands .add).2]
    · rw [sub_def, derivative, Roles.derive, (hoperands .sub).1, (hoperands .sub).2]
    · rw [mul_def, derivative, Roles.derive, (hoperands .mul).1, (hoperands .mul).2]
    · rw [div_def, derivative, Roles.derive, (hoperands .div).1, (hoperands .div).2]

theorem derivative_of_one_other_pow :
    (∀ d, Roles.Gives ⟨'x', (var none 'y' ^ var none 'x').letters.find? (· ≠ 'x')⟩
        (var none 'x' * apply .ln (var none 'y')) d ↔
      d = (var none 'x' * apply .ln (var none 'y')).derivative 'x') ∧
    (var none 'y' / var none 'x').derivative 'x' =
      ((var none 'y').derivative 'x' * var none 'x' - var none 'y' * (var none 'x').derivative 'x')
        / var none 'x' ^ number 2 := by
  obtain ⟨hparts, hoperands⟩ := derivative_of_one_other 'x'
  constructor
  · intro d
    refine hparts _ (fun y hy z hz hyx hzx => ?_) _ d (Or.inr ⟨_, _, .self _, .self _⟩)
    simp only [pow_def, mem_letters_binary, mem_letters_leaf, Leaf.letter?, Option.some.injEq]
      at hy hz
    rw [← hy.resolve_right hyx.symm, ← hz.resolve_right hzx.symm]
  · refine (hoperands (var none 'y') (var none 'x') fun y hy z hz hyx hzx => ?_).2.2.2
    simp only [List.mem_append, mem_letters_leaf, Leaf.letter?, Option.some.injEq] at hy hz
    rw [← hy.resolve_right hyx.symm, ← hz.resolve_right hzx.symm]

end Expr

end Fluxion
