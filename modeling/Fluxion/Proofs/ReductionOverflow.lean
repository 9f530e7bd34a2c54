import Fluxion.Proofs.Firings
import Fluxion.Proofs.RoundTrip

/-!
# When a reduced expression can be read back

Two things make an expression well-formed: its names can be spelled, and its
numbers are finite. Every rule keeps the first. As for the second, a number in
the reduced expression was there before, or is one of `Rule.literals`, or is the
result of an operation that some rule has carried out. Folding and dividing look
whether that result is finite. Adding and multiplying coefficients do not, and
from two large coefficients they make one that is infinite.

So a well-formed expression has a reduced form that can be read back unless a
coefficient has overflowed and is still there: `Expr.finite_simplify_iff` and
`Expr.read_text_iff`. An infinite coefficient need not stay, since it may be
multiplied by zero later, or divided by.
-/

namespace Fluxion

/-! ## Numbers and names -/

def Base.numbers : Base → List Float
  | number n => [n]
  | constant _ => []

def Func.numbers : Func → List Float
  | log (some base) => base.numbers
  | _ => []

def Leaf.numbers : Leaf → List Float
  | number n => [n]
  | var coefficient _ => coefficient.toList
  | constant _ | leibniz _ _ => []

/-- The numbers in an expression, coefficients and bases among them. -/
def Expr.numbers : Expr → List Float
  | leaf l => l.numbers
  | call coefficient func arg => coefficient.toList ++ func.numbers ++ arg.numbers
  | binary _ lhs rhs => lhs.numbers ++ rhs.numbers

/-- No number in an expression is infinite or NaN. -/
def Expr.Finite (e : Expr) : Prop :=
  ∀ n ∈ e.numbers, n.isFinite = true

def Base.Spelled : Base → Prop
  | number n => 0 ≤ n
  | constant _ => True

def Func.Spelled : Func → Prop
  | log (some base) => base.Spelled
  | _ => True

def Leaf.Spelled : Leaf → Prop
  | var _ name => isVariableName name = true
  | leibniz of wrt => of.isAlpha = true ∧ wrt.isAlpha = true
  | number _ | constant _ => True

/-- An expression whose names can be written, whatever its numbers are. -/
def Expr.Spelled : Expr → Prop
  | leaf l => l.Spelled
  | call _ func arg => func.Spelled ∧ arg.Spelled
  | binary _ lhs rhs => lhs.Spelled ∧ rhs.Spelled

theorem forall_mem_toList {c : Option Float} :
    c.all Float.isFinite = true ↔ ∀ n ∈ c.toList, n.isFinite = true := by
  cases c <;> simp

theorem Func.wellFormed_iff {f : Func} :
    f.WellFormed ↔ f.Spelled ∧ ∀ n ∈ f.numbers, n.isFinite = true := by
  match f with
  | log (some (.number n)) => simp [WellFormed, Base.WellFormed, Spelled, Base.Spelled, numbers,
      Base.numbers, and_comm]
  | log (some (.constant _)) | log none | abs | sin | cos | tan | sec | csc | cot | arcsin
  | arccos | arctan | arcsec | arccsc | arccot | ln =>
      exact ⟨fun _ => ⟨trivial, List.forall_mem_nil _⟩, fun _ => trivial⟩

theorem Leaf.wellFormed_iff {l : Leaf} :
    l.WellFormed ↔ l.Spelled ∧ ∀ n ∈ l.numbers, n.isFinite = true := by
  cases l with
  | number n => simp [WellFormed, Spelled, numbers]
  | constant c => simp [WellFormed, Spelled, numbers]
  | var c name => rw [WellFormed, Spelled, numbers, forall_mem_toList, and_comm]
  | leibniz of wrt => simp [WellFormed, Spelled, numbers]

namespace Expr

theorem finite_call {c : Option Float} {f : Func} {arg : Expr} : (call c f arg).Finite ↔
    (∀ n ∈ c.toList, n.isFinite = true) ∧ (∀ n ∈ f.numbers, n.isFinite = true) ∧ arg.Finite := by
  rw [Finite, numbers, List.forall_mem_append, List.forall_mem_append, and_assoc]
  rfl

theorem finite_binary {op : Operator} {lhs rhs : Expr} :
    (binary op lhs rhs).Finite ↔ lhs.Finite ∧ rhs.Finite := by
  rw [Finite, numbers, List.forall_mem_append]
  rfl

theorem wellFormed_iff {e : Expr} : e.WellFormed ↔ e.Spelled ∧ e.Finite := by
  induction e with
  | leaf l => exact Leaf.wellFormed_iff
  | call c f arg ih =>
      rw [WellFormed, Spelled, finite_call, forall_mem_toList, Func.wellFormed_iff, ih]
      tauto
  | binary op lhs rhs ihl ihr =>
      rw [WellFormed, Spelled, finite_binary, ihl, ihr]
      tauto

end Expr

/-! ## What a rule makes -/

namespace Rule

/-- The numbers that rules put in. -/
def literals : List Float :=
  [0, 1, 2]

theorem isFinite_of_mem_literals {n : Float} (h : n ∈ literals) : n.isFinite = true := by
  simp only [literals, List.mem_cons, List.not_mem_nil, or_false] at h
  rcases h with rfl | rfl | rfl <;> rfl

/-- An expression made of two others and of what an operation computes. -/
structure Makes (lhs rhs : Expr) (operation? : Option Operation) (e : Expr) : Prop where
  spelled : lhs.Spelled → rhs.Spelled → e.Spelled
  numbers : ∀ n ∈ e.numbers, n ∈ lhs.numbers ∨ n ∈ rhs.numbers ∨ n ∈ literals ∨
    ∃ o, operation? = some o ∧ n = o.result

namespace Makes

variable {lhs rhs : Expr} {operation? : Option Operation}

theorem left : Makes lhs rhs operation? lhs :=
  ⟨fun h _ => h, fun _ h => Or.inl h⟩

theorem right : Makes lhs rhs operation? rhs :=
  ⟨fun _ h => h, fun _ h => Or.inr (Or.inl h)⟩

theorem folded {m : Float} (h : m ∈ literals ∨ ∃ o, operation? = some o ∧ m = o.result) :
    Makes lhs rhs operation? (.folded m) := by
  refine ⟨fun _ _ => trivial, fun n hn => Or.inr (Or.inr ?_)⟩
  obtain rfl := List.mem_singleton.mp hn
  split
  · exact Or.inl List.mem_cons_self
  · exact h

theorem zero : Makes lhs rhs operation? (.folded 0) :=
  folded (Or.inl List.mem_cons_self)

theorem one : Makes lhs rhs operation? (.folded 1) :=
  folded (Or.inl (List.mem_cons_of_mem _ List.mem_cons_self))

theorem square {name : Char} (h : lhs.Spelled → Leaf.isVariableName name = true) :
    Makes lhs rhs operation? (Expr.var none name ^ Expr.number 2) := by
  refine ⟨fun hl _ => ⟨h hl, trivial⟩, fun n hn => Or.inr (Or.inr (Or.inl ?_))⟩
  obtain rfl := List.mem_singleton.mp hn
  exact List.mem_cons_of_mem _ (List.mem_cons_of_mem _ List.mem_cons_self)

theorem mul {a b : Expr} (ha : Makes lhs rhs operation? a) (hb : Makes lhs rhs operation? b) :
    Makes lhs rhs operation? (a * b) := by
  refine ⟨fun hl hr => ⟨ha.spelled hl hr, hb.spelled hl hr⟩, fun n hn => ?_⟩
  rcases List.mem_append.mp hn with hn | hn
  · exact ha.numbers n hn
  · exact hb.numbers n hn

theorem var {o : Operation} {name : Char} (h : lhs.Spelled → Leaf.isVariableName name = true) :
    Makes lhs rhs (some o) (.var (some o.result) name) := by
  refine ⟨fun hl _ => h hl, fun n hn => Or.inr (Or.inr (Or.inr ⟨o, rfl, ?_⟩))⟩
  exact List.mem_singleton.mp hn

theorem symm {e : Expr} (h : Makes rhs lhs operation? e) : Makes lhs rhs operation? e := by
  refine ⟨fun hl hr => h.spelled hr hl, fun n hn => ?_⟩
  rcases h.numbers n hn with hr | hl | hrest
  · exact Or.inr (Or.inl hr)
  · exact Or.inl hl
  · exact Or.inr (Or.inr hrest)

/-- A coefficient is replaced by the one computed. -/
theorem exists_of_scale? {m : Float} {e : Expr} (h : lhs.scale? m = some e) :
    ∃ c, lhs.coefficient? = some c ∧ Makes lhs rhs (some ⟨.mul, m, c⟩) e := by
  unfold Expr.scale? at h
  split at h
  · next c name =>
      cases h
      exact ⟨c.getD 1, rfl, var fun hl => hl⟩
  · next c f u =>
      cases h
      refine ⟨c.getD 1, rfl, fun hl _ => hl, fun n hn => ?_⟩
      rcases List.mem_cons.mp hn with rfl | hn
      · exact Or.inr (Or.inr (Or.inr ⟨_, rfl, rfl⟩))
      · refine Or.inl ?_
        rw [Expr.numbers, List.append_assoc]
        exact List.mem_append_right _ hn
  · cases h

theorem of_if {a e : Expr} {p : Bool} (ha : Makes lhs rhs operation? a)
    (h : (if p then some a else none) = some e) : Makes lhs rhs operation? e := by
  split at h
  · cases h
    exact ha
  · cases h

theorem of_sides {e : Expr} {p q : Bool}
    (h : (if p then some rhs else if q then some lhs else none) = some e) :
    Makes lhs rhs operation? e := by
  split at h
  · cases h
    exact right
  · exact of_if left h

end Makes

theorem isVariableName_of_term? {e : Expr} {c : Float} {name : Char}
    (h : e.term? = some (c, name)) (he : e.Spelled) : Leaf.isVariableName name = true := by
  unfold Expr.term? at h
  split at h
  · cases h
    exact he
  · cases h

variable {lhs rhs e : Expr} {op : Operator}

theorem makes_of_fold? (h : fold? op lhs rhs = some e) :
    Makes lhs rhs (foldConstants.operation? op lhs rhs) e := by
  rw [fold?] at h
  split at h
  · next a b ha hb =>
      split at h
      · cases h
        simp only [operation?, ha, hb]
        exact Makes.folded (Or.inr ⟨_, rfl, rfl⟩)
      · cases h
  · cases h

theorem makes_of_combineLikeTerms? (h : combineLikeTerms? op lhs rhs = some e) :
    Makes lhs rhs (combineLikeTerms.operation? op lhs rhs) e := by
  rw [combineLikeTerms?] at h
  split at h
  · next a name b other ha hb =>
      simp only [operation?, ha, hb]
      split at h
      · cases h
      · split at h
        · cases h
          exact Makes.zero
        · cases h
          exact Makes.var (o := ⟨op, a, b⟩) (isVariableName_of_term? ha)
  · cases h

theorem makes_of_combineLikeFactors? (h : combineLikeFactors? lhs rhs = some e) :
    Makes lhs rhs (combineLikeFactors.operation? .mul lhs rhs) e := by
  rw [combineLikeFactors?] at h
  split at h
  · next a name b other ha hb =>
      have hsquare : Makes lhs rhs (some ⟨.mul, a, b⟩) (Expr.var none name ^ Expr.number 2) :=
        Makes.square (isVariableName_of_term? ha)
      simp only [operation?, ha, hb]
      split at h
      · cases h
      · split at h
        · cases h
          exact hsquare
        · cases h
          exact Makes.mul (Makes.folded (Or.inr ⟨_, rfl, rfl⟩)) hsquare
  · cases h

theorem makes_of_multiplyCoefficient? (h : multiplyCoefficient? lhs rhs = some e) :
    Makes lhs rhs (multiplyCoefficient.operation? .mul lhs rhs) e := by
  rw [multiplyCoefficient?] at h
  split at h
  · next n hl hr =>
      obtain ⟨c, hc, hmakes⟩ := Makes.exists_of_scale? h
      simp only [operation?, hl, hr, hc, Option.map_some]
      exact hmakes.symm
  · next n hl hr =>
      obtain ⟨c, hc, hmakes⟩ := Makes.exists_of_scale? h
      simp only [operation?, hl, hr, hc, Option.map_some]
      exact hmakes
  · cases h

theorem makes_of_reduceFraction? (h : reduceFraction? lhs rhs = some e) :
    Makes lhs rhs (reduceFraction.operation? .div lhs rhs) e := by
  rw [reduceFraction?] at h
  split at h
  · next a name b other n ha hb =>
      split at h
      · cases h
        simp only [operation?, ha, hb]
        exact Makes.folded (Or.inr ⟨_, rfl, rfl⟩)
      · cases h
  · next a name b ha hb hn =>
      split at h
      · cases h
        simp only [operation?, ha, hb, hn]
        exact Makes.var (o := ⟨.div, a, b⟩) (isVariableName_of_term? ha)
      · cases h
  · cases h

theorem makes_of_onBinary? {rule : Rule} (h : rule.onBinary? op lhs rhs = some e) :
    Makes lhs rhs (rule.operation? op lhs rhs) e := by
  unfold onBinary? at h
  split at h
  · exact makes_of_fold? h
  · exact Makes.of_sides h
  · exact Makes.of_if Makes.left h
  · exact Makes.of_if Makes.zero h
  · exact makes_of_combineLikeTerms? h
  · exact makes_of_combineLikeTerms? h
  · exact Makes.of_if Makes.zero h
  · exact Makes.of_sides h
  · exact makes_of_combineLikeFactors? h
  · exact makes_of_multiplyCoefficient? h
  · exact Makes.of_if Makes.left h
  · exact Makes.of_if Makes.zero h
  · exact makes_of_reduceFraction? h
  · exact Makes.of_if Makes.one h
  · exact Makes.of_if Makes.left h
  · exact Makes.of_if Makes.zero h
  · exact Makes.of_if Makes.one h
  · cases h

/-- The rules that take a coefficient as it comes out. -/
def unguarded : List Rule :=
  [combineLikeTerms, combineLikeFactors, multiplyCoefficient]

theorem isFinite_result_of_fold? {o : Operation} (h : fold? op lhs rhs = some e)
    (ho : foldConstants.operation? op lhs rhs = some o) : o.result.isFinite = true := by
  rw [fold?] at h
  split at h
  · next a b ha hb =>
      simp only [operation?, ha, hb] at ho
      cases ho
      split at h
      · next hfin => exact hfin
      · cases h
  · cases h

theorem isFinite_result_of_reduceFraction? {o : Operation} (h : reduceFraction? lhs rhs = some e)
    (ho : reduceFraction.operation? .div lhs rhs = some o) : o.result.isFinite = true := by
  rw [reduceFraction?] at h
  split at h
  · next a name b other n ha hb =>
      simp only [operation?, ha, hb] at ho
      cases ho
      split at h
      · next hfin => exact (Bool.and_eq_true_iff.mp hfin).2
      · cases h
  · next a name b ha hb hn =>
      simp only [operation?, ha, hb, hn] at ho
      cases ho
      split at h
      · next hfin => exact (Bool.and_eq_true_iff.mp hfin).2
      · cases h
  · cases h

/-- Every other rule looks whether what it computes is finite. -/
theorem isFinite_result_of_not_mem_unguarded {rule : Rule} {o : Operation}
    (h : rule.onBinary? op lhs rhs = some e) (ho : rule.operation? op lhs rhs = some o)
    (hrule : rule ∉ unguarded) : o.result.isFinite = true := by
  match rule, op with
  | foldConstants, _ => exact isFinite_result_of_fold? h ho
  | reduceFraction, .div => exact isFinite_result_of_reduceFraction? h ho
  | reduceFraction, .add | reduceFraction, .sub | reduceFraction, .mul
  | reduceFraction, .pow => cases h
  | combineLikeTerms, _ | combineLikeFactors, _ | multiplyCoefficient, _ =>
      exact absurd (by simp [unguarded]) hrule
  | addZero, _ | subtractZero, _ | subtractSelf, _ | multiplyZero, _ | multiplyOne, _
  | divideOne, _ | divideZero, _ | powerZero, _ | powerOne, _ | powerZeroLeft, _
  | powerOneLeft, _ => cases ho

end Rule

namespace Firing

variable (f : Firing)

theorem spelled_reduct (h : f.redex.Spelled) : f.reduct.Spelled := by
  obtain ⟨op, lhs, rhs, hredex, hfires, -⟩ := f.exists_binary
  rw [hredex] at h
  exact (Rule.makes_of_onBinary? hfires).spelled h.1 h.2

/-- Where the numbers come from that a rule leaves. -/
theorem mem_numbers_redex {n : Float} (h : n ∈ f.reduct.numbers) :
    n ∈ f.redex.numbers ∨ n ∈ Rule.literals ∨ ∃ o, f.operation? = some o ∧ n = o.result := by
  obtain ⟨op, lhs, rhs, hredex, hfires, hop⟩ := f.exists_binary
  rw [hredex, hop]
  rcases (Rule.makes_of_onBinary? hfires).numbers n h with hl | hr | hrest
  · exact Or.inl (List.mem_append_left _ hl)
  · exact Or.inl (List.mem_append_right _ hr)
  · exact Or.inr hrest

variable {f}

theorem isFinite_result {o : Operation} (ho : f.operation? = some o)
    (hrule : f.rule ∉ Rule.unguarded) : o.result.isFinite = true := by
  obtain ⟨op, lhs, rhs, -, hfires, hop⟩ := f.exists_binary
  exact Rule.isFinite_result_of_not_mem_unguarded hfires (hop.symm.trans ho) hrule

end Firing

/-! ## Reductions -/

namespace Reduction

/-- Names stay spelled, and only some numbers are added. -/
structure Adds (added : Float → Prop) (a b : Expr) : Prop where
  spelled : a.Spelled → b.Spelled
  numbers : ∀ n ∈ b.numbers, n ∈ a.numbers ∨ added n

theorem compatible_adds (added : Float → Prop) : Compatible (Adds added) where
  refl e := ⟨fun h => h, fun n hn => Or.inl hn⟩
  trans hab hbc := by
    refine ⟨fun h => hbc.spelled (hab.spelled h), fun n hn => ?_⟩
    rcases hbc.numbers n hn with hb | hadded
    · exact hab.numbers n hb
    · exact Or.inr hadded
  call c f a a' h := by
    refine ⟨fun hs => ⟨hs.1, h.spelled hs.2⟩, fun n hn => ?_⟩
    rcases List.mem_append.mp hn with hn | hn
    · exact Or.inl (List.mem_append_left _ hn)
    · exact (h.numbers n hn).imp_left (List.mem_append_right _)
  binary op a a' b b' ha hb := by
    refine ⟨fun hs => ⟨ha.spelled hs.1, hb.spelled hs.2⟩, fun n hn => ?_⟩
    rcases List.mem_append.mp hn with hn | hn
    · exact (ha.numbers n hn).imp_left (List.mem_append_left _)
    · exact (hb.numbers n hn).imp_left (List.mem_append_right _)

end Reduction

def Decimal.largest : Float :=
  Float.ofBits 0x7FEFFFFFFFFFFFFF

namespace Expr

open Decimal (largest)

variable {e : Expr}

/-- The numbers that the rules used on an expression compute or put in. -/
def Computed (e : Expr) (n : Float) : Prop :=
  n ∈ Rule.literals ∨ ∃ f ∈ e.firings, ∃ o, f.operation? = some o ∧ n = o.result

theorem adds_simplify (e : Expr) : Reduction.Adds e.Computed e e.simplify.expr := by
  refine (Reduction.compatible_adds e.Computed).simplify fun f hf =>
    ⟨f.spelled_reduct, fun n hn => ?_⟩
  rcases f.mem_numbers_redex hn with hold | hliteral | ⟨o, ho, hresult⟩
  · exact Or.inl hold
  · exact Or.inr (Or.inl hliteral)
  · exact Or.inr (Or.inr ⟨f, hf, o, ho, hresult⟩)

/-- A coefficient that is in the reduced expression has overflowed when it was
computed. -/
def Overflows (e : Expr) : Prop :=
  ∃ f ∈ e.firings, f.rule ∈ Rule.unguarded ∧ ∃ o, f.operation? = some o ∧
    o.result ∈ e.simplify.expr.numbers ∧ o.result.isFinite = false

theorem finite_simplify_iff (h : e.WellFormed) : e.simplify.expr.Finite ↔ ¬ e.Overflows := by
  constructor
  · rintro hfin ⟨f, hf, hrule, o, ho, hmem, hinf⟩
    rw [hfin o.result hmem] at hinf
    cases hinf
  · intro hover n hn
    rcases e.adds_simplify.numbers n hn with hold | hliteral | ⟨f, hf, o, ho, rfl⟩
    · exact (wellFormed_iff.mp h).2 n hold
    · exact Rule.isFinite_of_mem_literals hliteral
    · by_contra hinf
      refine hover ⟨f, hf, ?_, o, ho, hn, Bool.eq_false_iff.mpr hinf⟩
      by_contra hrule
      exact hinf (Firing.isFinite_result ho hrule)

/-! ## Reading back -/

theorem forall_isFinite_of_beq {c d : Option Float} (h : (c == d) = true)
    (hc : ∀ n ∈ c.toList, n.isFinite = true) : ∀ n ∈ d.toList, n.isFinite = true := by
  match c, d with
  | some m, some k =>
      intro n hn
      obtain rfl := List.mem_singleton.mp hn
      exact (Decimal.isFinite_eq_of_beq h).symm.trans (hc m List.mem_cons_self)
  | none, none => exact hc
  | some _, none | none, some _ => cases h

theorem finite_of_beq {e e' : Expr} (h : (e == e') = true) : e.Finite → e'.Finite := by
  refine rec_of_beq (fun l l' hl => ?_) ?_ ?_ h
  · refine Leaf.rec_of_beq ?_ (fun _ hfin => hfin) (fun c d name hc hfin => ?_)
      (fun _ _ hfin => hfin) hl
    · exact fun m n hmn => forall_isFinite_of_beq (c := some m) (d := some n) hmn
    · exact forall_isFinite_of_beq hc hfin
  · intro c d f g a b hc hf hab
    rw [finite_call, finite_call]
    refine And.imp (forall_isFinite_of_beq hc) (And.imp ?_ hab)
    refine Func.rec_of_beq (fun _ hfin => hfin) (fun m n hmn => ?_) hf
    exact forall_isFinite_of_beq (c := some m) (d := some n) hmn
  · intro op a b a' b' ha hb
    rw [finite_binary, finite_binary]
    exact And.imp ha hb

/-- The text of an expression can be read back if its numbers are finite, and
not otherwise. -/
theorem read_text_iff (h : e.Spelled) :
    (∃ e', read e.text = .ok e' ∧ (e' == e) = true) ↔ e.Finite := by
  constructor
  · rintro ⟨e', hread, heq⟩
    exact finite_of_beq heq (wellFormed_iff.mp (wellFormed_of_read hread)).2
  · intro hfin
    exact read_of_prints (prints_text (wellFormed_iff.mpr ⟨h, hfin⟩))

/-- Reduction keeps a well-formed expression finite and readable unless it leaves
a coefficient that has overflowed. -/
theorem finite_and_read_simplify_iff (h : e.WellFormed) :
    (e.simplify.expr.Finite ↔ ¬ e.Overflows) ∧
      ((∃ e', read e.simplify.expr.text = .ok e' ∧ (e' == e.simplify.expr) = true) ↔
        ¬ e.Overflows) := by
  have hfinite := finite_simplify_iff h
  have hspelled := e.adds_simplify.spelled (wellFormed_iff.mp h).1
  exact ⟨hfinite, (read_text_iff hspelled).trans hfinite⟩

theorem finite_and_read_simplify_like_terms :
    (var (some 2) 'x' + var (some 3) 'x').simplify.expr.Finite ∧
      ∃ e', read (var (some 2) 'x' + var (some 3) 'x').simplify.expr.text = .ok e' ∧
        (e' == (var (some 2) 'x' + var (some 3) 'x').simplify.expr) = true := by
  have hfirst : Rule.first? Rule.all (var (some 2) 'x' + var (some 3) 'x') =
      some (.combineLikeTerms, var (some (2 + 3)) 'x') := rfl
  have hover : ¬ (var (some 2) 'x' + var (some 3) 'x').Overflows := by
    rintro ⟨f, hf, -, o, ho, -, hinf⟩
    rw [add_def, firings_of_leaves hfirst, List.mem_singleton] at hf
    subst hf
    cases ho
    exact absurd hinf (by decide)
  obtain ⟨hfinite, hread⟩ := finite_and_read_simplify_iff
    (e := var (some 2) 'x' + var (some 3) 'x') (by decide)
  exact ⟨hfinite.mpr hover, hread.mpr hover⟩

/-- Adding the largest coefficient to itself makes an infinite one, whose text is
`inf`. -/
theorem exists_wellFormed_not_finite_simplify :
    ∃ e : Expr, e.WellFormed ∧ ¬ e.simplify.expr.Finite ∧
      ¬ ∃ e', read e.simplify.expr.text = .ok e' ∧ (e' == e.simplify.expr) = true := by
  have hfirst : Rule.first? Rule.all (var (some largest) 'x' + var (some largest) 'x') =
      some (.combineLikeTerms, var (some (largest + largest)) 'x') := rfl
  have hinf : ¬ (var (some (largest + largest)) 'x').Finite := fun hfin =>
    absurd (hfin (largest + largest) List.mem_cons_self) (by decide)
  have hspelled : (var (some (largest + largest)) 'x').Spelled :=
    (by decide : Leaf.isVariableName 'x' = true)
  refine ⟨var (some largest) 'x' + var (some largest) 'x', by decide, ?_⟩
  rw [add_def, simplify_of_leaves hfirst]
  exact ⟨hinf, fun hread => hinf ((read_text_iff hspelled).mp hread)⟩

end Expr

end Fluxion
