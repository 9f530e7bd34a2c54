import Fluxion.Proofs.LineText

/-!
# What a derivative is made of

The rules of differentiation copy parts of an expression, some of them more than
once, and put new things around them: operators, functions without a coefficient,
the numbers up to two, the constant `e`, a coefficient or the base of a logarithm
as a number of its own, and the unknown derivative of a variable that occurs.

A property is `Hereditary` if it survives all of that, and then it survives
differentiation (`Hereditary.derivative`), whatever the expression looks like. Being
well-formed is such a property, so a derivative can be written and read back. To
have no variables but given ones, and no unknown derivatives but given ones and
theirs, is another.
-/

namespace Fluxion

/-- A property that an expression passes on to its parts, and to what the rules of
differentiation with respect to `wrt` make of these. -/
structure Hereditary (wrt : Char) (P : Expr → Prop) : Prop where
  zero : P (.number 0)
  one : P (.number 1)
  two : P (.number 2)
  e : P (.constant .e)
  binary {op : Operator} {u v : Expr} : P (.binary op u v) ↔ P u ∧ P v
  apply {f : Func} {u : Expr} : f ∈ Func.plain → P u → P (.apply f u)
  argument {c : Option Float} {f : Func} {u : Expr} : P (.call c f u) → P u
  base {c : Option Float} {b : Base} {u : Expr} :
    P (.call c (.log (some b)) u) → P (.leaf b.leaf)
  ofCall {n : Float} {f : Func} {u : Expr} : P (.call (some n) f u) → P (.number n)
  ofVar {n : Float} {name : Char} : P (.var (some n) name) → P (.number n)
  unknown {c : Option Float} {name : Char} :
    P (.var c name) → name ≠ wrt → P (.leibniz name wrt)

namespace Hereditary

variable {roles : Roles} {wrt : Char} {P : Expr → Prop} {c : Option Float} {f : Func}
  {u v u' v' : Expr}

theorem func_derivative (h : Hereditary wrt P) (hcall : P (.call c f u)) :
    P (f.derivative u) := by
  have hu := h.argument hcall
  have hplain : ∀ g ∈ Func.plain, P (.apply g u) := fun g hg => h.apply hg hu
  simp only [Func.plain, List.forall_mem_cons] at hplain
  cases f with
  | log base =>
      cases base with
      | none => exact h.binary.mpr ⟨h.one, hu⟩
      | some b =>
          have hln : P (.apply .ln (.leaf b.leaf)) := h.apply (by simp [Func.plain]) (h.base hcall)
          exact h.binary.mpr ⟨h.one, h.binary.mpr ⟨hu, hln⟩⟩
  | _ =>
      simp only [Func.derivative, Expr.add_def, Expr.sub_def, Expr.mul_def, Expr.div_def,
        Expr.pow_def, h.binary, h.zero, h.one, h.two, hu, hplain, and_self]

theorem leaf_derivative (h : Hereditary wrt P) {l : Leaf} (hl : P (.leaf l)) :
    P (l.derivative wrt) := by
  match l with
  | .number _ | .constant _ | .leibniz _ _ => exact h.zero
  | .var c name =>
      by_cases hname : name = wrt
      · simp only [Leaf.derivative, if_pos hname]
        match c with
        | none => exact h.one
        | some n => exact h.ofVar hl
      · have hunknown := h.unknown hl hname
        simp only [Leaf.derivative, if_neg hname]
        match c with
        | none => exact hunknown
        | some n => exact h.binary.mpr ⟨h.ofVar hl, hunknown⟩

theorem chain (h : Hereditary roles.wrt P) (hcall : P (.call c f u)) (hu' : P u') :
    P (roles.chain f u u') := by
  have houter := h.func_derivative hcall
  rcases roles.chain_cases f u u' with
    ⟨-, hchain⟩ | ⟨-, hchain⟩ | ⟨name, hname, rfl, hchain⟩ | ⟨l, -, -, hchain⟩
  · rw [hchain]
    exact h.binary.mpr ⟨houter, hu'⟩
  · rw [hchain]
    exact houter
  · rw [hchain]
    exact h.binary.mpr ⟨h.unknown (h.argument hcall) hname, houter⟩
  · rw [hchain]
    exact h.zero

theorem power (h : Hereditary roles.wrt P) (hu : P u) (hv : P v) (hu' : P u') (hv' : P v') :
    P (roles.power u v u' v') := by
  have hln : P (.apply .ln u) := h.apply (by simp [Func.plain]) hu
  have hchain : P (roles.chain .ln u u') := h.chain hln hu'
  unfold Roles.power
  split
  · simp only [Roles.exponentialRule, Expr.add_def, Expr.mul_def, Expr.pow_def, h.binary, h.e, hv,
      hv', hln, hchain, and_self]
  · split
    · have houter : P ((v * u) ^ (v - Expr.number 1)) := by
        simp only [Expr.sub_def, Expr.mul_def, Expr.pow_def, h.binary, h.one, hu, hv, and_self]
      unfold Roles.powerRule
      split
      · exact houter
      · exact h.binary.mpr ⟨hu', houter⟩
    · exact h.zero

theorem derive (h : Hereditary roles.wrt P) {e : Expr} (he : P e) : P (roles.derive e) := by
  induction e with
  | leaf l => exact h.leaf_derivative he
  | call c f u ih =>
      have hchain : P (roles.chain f u (roles.derive u)) := h.chain he (ih (h.argument he))
      match c with
      | none => exact hchain
      | some n => exact h.binary.mpr ⟨h.ofCall he, hchain⟩
  | binary op u v ihu ihv =>
      obtain ⟨hu, hv⟩ := h.binary.mp he
      have hdu := ihu hu
      have hdv := ihv hv
      cases op with
      | add | sub => exact h.binary.mpr ⟨hdu, hdv⟩
      | mul => exact h.binary.mpr ⟨h.binary.mpr ⟨hdu, hv⟩, h.binary.mpr ⟨hu, hdv⟩⟩
      | div =>
          simp only [Roles.derive, Expr.sub_def, Expr.mul_def, Expr.div_def, Expr.pow_def, h.binary,
            h.two, hu, hv, hdu, hdv, and_self]
      | pow => exact h.power hu hv hdu hdv

theorem derivative (h : Hereditary wrt P) {e : Expr} (he : P e) : P (e.derivative wrt) := by
  have hroles : Hereditary (Roles.mk wrt (e.letters.find? (· ≠ wrt))).wrt P := h
  exact hroles.derive he

end Hereditary

namespace Expr

/-! ## Two such properties -/

theorem hereditary_wellFormed {wrt : Char} (hwrt : wrt.isAlpha = true) :
    Hereditary wrt WellFormed where
  zero := rfl
  one := rfl
  two := rfl
  e := trivial
  binary := Iff.rfl
  apply hf hu := ⟨rfl, Func.wellFormed_of_mem_plain hf, hu⟩
  argument h := h.2.2
  base {_ b _} h := by
    match b with
    | .number n => exact h.2.1.1
    | .constant c => trivial
  ofCall h := h.1
  ofVar h := h.1
  unknown h _ := ⟨Leaf.isAlpha_of_isVariableName h.2, hwrt⟩

/-- A derivative can be written and read back. -/
theorem wellFormed_derivative {e : Expr} {wrt : Char} (hwrt : wrt.isAlpha = true)
    (h : e.WellFormed) : (e.derivative wrt).WellFormed :=
  (hereditary_wellFormed hwrt).derivative h

/-- What a part of the derivative of `e` with respect to `wrt` can be: a variable
only if it is one of `e`, and an unknown derivative only if it is one in `e` or that
of a variable of `e`. -/
structure Known (e : Expr) (wrt : Char) (s : Expr) : Prop where
  letter : ∀ name, s.letter? = some name → name ∈ e.letters
  leibniz : ∀ of wrt', s = leibniz of wrt' →
    s.PartOf e ∨ of ∈ e.letters ∧ of ≠ wrt ∧ wrt' = wrt

theorem known_number (e : Expr) (wrt : Char) (n : Float) : Known e wrt (number n) :=
  ⟨nofun, nofun⟩

theorem known_constant (e : Expr) (wrt : Char) (c : Constant) : Known e wrt (constant c) :=
  ⟨nofun, nofun⟩

theorem hereditary_known (e : Expr) (wrt : Char) : Hereditary wrt (Everywhere (Known e wrt)) where
  zero := everywhere_leaf.mpr (known_number e wrt 0)
  one := everywhere_leaf.mpr (known_number e wrt 1)
  two := everywhere_leaf.mpr (known_number e wrt 2)
  e := everywhere_leaf.mpr (known_constant e wrt .e)
  binary := everywhere_binary.trans (and_iff_right ⟨nofun, nofun⟩)
  apply _ hu := everywhere_call.mpr ⟨⟨nofun, nofun⟩, hu⟩
  argument h := (everywhere_call.mp h).2
  base {_ b _} _ := by
    match b with
    | .number n => exact everywhere_leaf.mpr (known_number e wrt n)
    | .constant c => exact everywhere_leaf.mpr (known_constant e wrt c)
  ofCall _ := everywhere_leaf.mpr (known_number e wrt _)
  ofVar _ := everywhere_leaf.mpr (known_number e wrt _)
  unknown h hne := by
    have hname := (everywhere_leaf.mp h).letter _ rfl
    refine everywhere_leaf.mpr ⟨nofun, fun of wrt' heq => Or.inr ?_⟩
    cases heq
    exact ⟨hname, hne, rfl⟩

theorem everywhere_known (e : Expr) (wrt : Char) : e.Everywhere (Known e wrt) := fun s hs =>
  ⟨fun _ hname => mem_letters.mpr ⟨s, hs, hname⟩, fun _ _ _ => Or.inl hs⟩

theorem everywhere_known_derivative (e : Expr) (wrt : Char) :
    (e.derivative wrt).Everywhere (Known e wrt) :=
  (hereditary_known e wrt).derivative (everywhere_known e wrt)

theorem mem_letters_of_mem_letters_derivative {e : Expr} {wrt name : Char}
    (h : name ∈ (e.derivative wrt).letters) : name ∈ e.letters := by
  obtain ⟨s, hs, hname⟩ := mem_letters.mp h
  exact (everywhere_known_derivative e wrt s hs).letter name hname

/-- An unknown derivative in a derivative was there before, or is that of a variable. -/
theorem partOf_or_mem_letters {e : Expr} {of wrt wrt' : Char}
    (h : (leibniz of wrt').PartOf (e.derivative wrt)) :
    (leibniz of wrt').PartOf e ∨ of ∈ e.letters ∧ of ≠ wrt ∧ wrt' = wrt :=
  (everywhere_known_derivative e wrt _ h).leibniz of wrt' rfl

/-- Where only one other variable occurs, only one unknown derivative is new. -/
theorem exists_unknown {e : Expr} {wrt : Char}
    (hothers : ∀ a ∈ e.letters, ∀ b ∈ e.letters, a ≠ wrt → b ≠ wrt → a = b) :
    ∃ other, ∀ of wrt', (leibniz of wrt').PartOf (e.derivative wrt) →
      ¬ (leibniz of wrt').PartOf e → of = other ∧ wrt' = wrt ∧ of ∈ e.letters ∧ of ≠ wrt := by
  by_cases hnew : ∃ of wrt', (leibniz of wrt').PartOf (e.derivative wrt) ∧
      ¬ (leibniz of wrt').PartOf e
  · obtain ⟨other, wrt', hpart, hnot⟩ := hnew
    obtain ⟨hother, hne, -⟩ := (partOf_or_mem_letters hpart).resolve_left hnot
    refine ⟨other, fun of wrt' hpart hnot => ?_⟩
    obtain ⟨hof, hofne, hwrt⟩ := (partOf_or_mem_letters hpart).resolve_left hnot
    exact ⟨hothers of hof other hother hofne hne, hwrt, hof, hofne⟩
  · exact ⟨wrt, fun of wrt' hpart hnot => absurd ⟨of, wrt', hpart, hnot⟩ hnew⟩

end Expr

namespace Derivation

theorem exists_unknown_of_ofLine {line : List Char} {default : Char} {d : Derivation}
    (h : ofLine line default = .ok d) :
    ∃ other, ∀ of wrt, (Expr.leibniz of wrt).PartOf d.raw → ¬ (Expr.leibniz of wrt).PartOf d.expr →
      of = other ∧ wrt = d.wrt ∧ of ∈ d.expr.letters ∧ of ≠ d.wrt := by
  obtain ⟨e, -, hmany, rfl⟩ := ofLine_eq_ok.mp h
  exact Expr.exists_unknown (tooMany?_eq_none_iff.mp hmany)

/-- The derivative of a well-formed expression is well-formed and reads back. It has
no variables but those of the expression, and no unknown derivatives but those in
the expression and those of its variables. In the derivation of a line, all that are
new are the same one. -/
theorem wellFormed_derivative_and_exists_unknown :
    (∀ (e : Expr) (wrt : Char), Leaf.isVariableName wrt = true → e.WellFormed →
      (e.derivative wrt).WellFormed ∧
      (∀ name ∈ (e.derivative wrt).letters, name ∈ e.letters) ∧
      (∀ of wrt', (Expr.leibniz of wrt').PartOf (e.derivative wrt) →
        (Expr.leibniz of wrt').PartOf e ∨ of ∈ e.letters ∧ of ≠ wrt ∧ wrt' = wrt) ∧
      ∃ e', Expr.read (e.derivative wrt).text = .ok e' ∧ (e' == e.derivative wrt) = true) ∧
    ∀ (line : List Char) (default : Char) (d : Derivation), ofLine line default = .ok d →
      ∃ other, ∀ of wrt, (Expr.leibniz of wrt).PartOf d.raw →
        ¬ (Expr.leibniz of wrt).PartOf d.expr →
        of = other ∧ wrt = d.wrt ∧ of ∈ d.expr.letters ∧ of ≠ d.wrt := by
  refine ⟨fun e wrt hwrt h => ⟨?_, fun name hname => ?_, fun of wrt' hpart => ?_, ?_⟩,
    fun line default d h => exists_unknown_of_ofLine h⟩
  · exact Expr.wellFormed_derivative (Leaf.isAlpha_of_isVariableName hwrt) h
  · exact Expr.mem_letters_of_mem_letters_derivative hname
  · exact Expr.partOf_or_mem_letters hpart
  · exact Expr.read_of_prints
      (Expr.prints_text (Expr.wellFormed_derivative (Leaf.isAlpha_of_isVariableName hwrt) h))

/-- `y ^ 2` as an expression and `y` as a line, with respect to `x`. -/
theorem exists_unknown_of_letter :
    (∃ e', Expr.read ((Expr.var none 'y' ^ Expr.number 2).derivative 'x').text = .ok e' ∧
      (e' == (Expr.var none 'y' ^ Expr.number 2).derivative 'x') = true) ∧
    ∃ d other, ofLine ['y'] 'x' = .ok d ∧ ∀ of wrt, (Expr.leibniz of wrt).PartOf d.raw →
      ¬ (Expr.leibniz of wrt).PartOf d.expr →
      of = other ∧ wrt = d.wrt ∧ of ∈ d.expr.letters ∧ of ≠ d.wrt := by
  obtain ⟨-, -, -, hread⟩ := wellFormed_derivative_and_exists_unknown.1
    (Expr.var none 'y' ^ Expr.number 2) 'x' rfl (by decide)
  have hmany : tooMany? 'x' (.var none 'y') = none :=
    tooMany?_eq_none_iff.mpr fun a ha b hb _ _ => by
      cases Expr.mem_letters_leaf.mp ha
      cases Expr.mem_letters_leaf.mp hb
      rfl
  have hline : ∃ d, ofLine ['y'] 'x' = .ok d ∧ d.wrt = 'x' ∧
      (d.expr == Expr.var none 'y') = true :=
    exists_ofLine_of_body (by decide) rfl rfl hmany
  obtain ⟨d, hd, -⟩ := hline
  obtain ⟨other, hother⟩ := wellFormed_derivative_and_exists_unknown.2 ['y'] 'x' d hd
  exact ⟨hread, d, other, hd, hother⟩

end Derivation

end Fluxion
