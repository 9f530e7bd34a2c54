import Mathlib.Data.Finset.Card
import Fluxion.Line.Derivation
import Fluxion.Proofs.Parts
import Fluxion.Proofs.Words

/-!
# A line that is the text of an expression

Differentiating what was printed: the text of an expression, taken as a line, is
read as that expression. The one thing in the way is the heading. It looks like an
unknown derivative with a blank behind it, and that is how the text of an operator
begins whose left side is one. A line `dy/dx + x` asks for the derivative of `+ x`,
and the complaint is that `+` has no left side.

No other text begins so. What else begins with a letter goes on as a name does, and
the slash of an unknown derivative is no part of a name (`leibnizLength_inner`).
-/

namespace Fluxion

open Token (Ends Leads leibnizLength)

/-! ## Headings -/

namespace Heading

theorem ofTrimmed_heading {of wrt blank : Char} (hof : of.isAlpha = true)
    (hwrt : Leaf.isVariableName wrt = true) (hblank : Text.isBlank blank = true) (offset : Nat)
    (body : List Char) :
    ofTrimmed offset ('d' :: of :: '/' :: 'd' :: wrt :: blank :: body) =
      ⟨some wrt, offset + 5 + blank.utf8Size, body⟩ := by
  simp only [ofTrimmed, hof, hwrt, hblank, Bool.and_self, if_true]

/-- A text begins with a heading, or all of it is the body. -/
theorem ofTrimmed_cases (cs : List Char) :
    (∃ of wrt blank body, cs = 'd' :: of :: '/' :: 'd' :: wrt :: blank :: body ∧
      of.isAlpha = true ∧ Leaf.isVariableName wrt = true ∧ Text.isBlank blank = true) ∨
    ∀ offset, ofTrimmed offset cs = ⟨none, offset, cs⟩ := by
  unfold ofTrimmed
  split
  · next of wrt blank body =>
      cases hguard : of.isAlpha && Leaf.isVariableName wrt && Text.isBlank blank with
      | true =>
          simp only [Bool.and_eq_true] at hguard
          exact Or.inl ⟨of, wrt, blank, body, rfl, hguard.1.1, hguard.1.2, hguard.2⟩
      | false => exact Or.inr fun _ => rfl
  · exact Or.inr fun _ => rfl

/-- A heading begins like an unknown derivative. -/
theorem ofTrimmed_of_leibnizLength {cs : List Char} (h : leibnizLength cs = 0) (offset : Nat) :
    ofTrimmed offset cs = ⟨none, offset, cs⟩ := by
  rcases ofTrimmed_cases cs with ⟨of, wrt, blank, body, rfl, hof, hwrt, -⟩ | hnone
  · rw [Token.leibnizLength_eq_five hof (Leaf.isAlpha_of_isVariableName hwrt)] at h
    cases h
  · exact hnone offset

end Heading

/-! ## Derivations of lines -/

namespace Derivation

theorem ofLine_eq_ok {line : List Char} {default : Char} {d : Derivation} :
    ofLine line default = .ok d ↔
      ∃ e, Expr.read (Heading.ofLine line).body = .ok e ∧
        tooMany? ((Heading.ofLine line).wrt.getD default) e = none ∧
        d = ofExpr ((Heading.ofLine line).wrt.getD default)
          (Text.trim (Heading.ofLine line).body) e := by
  rw [ofLine]
  cases hread : Expr.read (Heading.ofLine line).body with
  | error fault => simp
  | ok e =>
      cases hmany : tooMany? ((Heading.ofLine line).wrt.getD default) e with
      | some found => simp [hmany]
      | none => simp [hmany, eq_comm]

/-- No two variables besides `wrt` are different. -/
theorem tooMany?_eq_none_iff {wrt : Char} {e : Expr} : tooMany? wrt e = none ↔
    ∀ a ∈ e.letters, ∀ b ∈ e.letters, a ≠ wrt → b ≠ wrt → a = b := by
  have hnodup : (e.letters.filter (· ≠ wrt)).Nodup := (Expr.nodup_letters e).filter _
  have hnone : tooMany? wrt e = none ↔ (e.letters.filter (· ≠ wrt)).length ≤ 1 := by
    simp [tooMany?]
  rw [hnone, ← List.toFinset_card_of_nodup hnodup, Finset.card_le_one]
  simp only [List.mem_toFinset, List.mem_filter, decide_eq_true_eq, and_imp]
  constructor
  · intro h a ha b hb hane hbne
    exact h a ha hane b hb hbne
  · intro h a ha hane b hb hbne
    exact h a ha b hb hane hbne

/-- A line whose body is the text of an expression. -/
theorem exists_ofLine_of_body {line : List Char} {default : Char} {e : Expr} (h : e.WellFormed)
    (hwrt : (Heading.ofLine line).wrt = none) (hbody : (Heading.ofLine line).body = e.text)
    (hmany : tooMany? default e = none) :
    ∃ d, ofLine line default = .ok d ∧ d.wrt = default ∧ (d.expr == e) = true := by
  obtain ⟨e', hread, heq⟩ := Expr.read_of_prints (Expr.prints_text h)
  have hmany' : tooMany? default e' = none := by
    rw [tooMany?, Expr.letters_of_beq heq]
    exact hmany
  refine ⟨ofExpr default (Text.trim e.text) e', ofLine_eq_ok.mpr ⟨e', ?_, ?_, ?_⟩, rfl, heq⟩
  · rw [hbody]
    exact hread
  · rw [hwrt]
    exact hmany'
  · rw [hwrt, hbody]
    rfl

end Derivation

/-! ## How texts begin -/

namespace Expr

/-- The operator behind an unknown derivative that the text of an expression begins
with, if a blank makes a heading of that derivative. -/
def behindHeading? : Expr → Option Operator
  | binary op (leibniz _ wrt) _ => if Leaf.isVariableName wrt then some op else none
  | _ => none

theorem exists_of_behindHeading? {e : Expr} {op : Operator} (h : e.behindHeading? = some op) :
    ∃ of wrt rhs, e = binary op (leibniz of wrt) rhs ∧ Leaf.isVariableName wrt = true := by
  unfold behindHeading? at h
  split at h
  · next op' of wrt rhs =>
      split at h
      · next hwrt =>
          cases h
          exact ⟨of, wrt, rhs, rfl, hwrt⟩
      · cases h
  · cases h

/-- No part but an unknown derivative has a text that begins with one. -/
theorem leibnizLength_inner {e : Expr} (h : e.WellFormed) (hne : ∀ of wrt, e ≠ leibniz of wrt)
    {rest : List Char} (hend : Ends rest) : leibnizLength (e.inner ++ rest) = 0 := by
  match e with
  | number n => exact Token.leibnizLength_of_signed (Decimal.signed_text h) rest
  | constant c => exact Token.leibnizLength_of_word (Or.inl rfl) (Constant.isWord_name c) hend
  | var c letter =>
      exact Token.leibnizLength_of_word (SplitName.front_coefficientText h.1)
        (Leaf.isWord_letter h.2) hend
  | leibniz of wrt => exact absurd rfl (hne of wrt)
  | call c f arg =>
      have hend : Ends ('(' :: (arg.inner ++ [')']) ++ rest) := Or.inr (Or.inl rfl)
      rw [inner, List.append_assoc]
      exact Token.leibnizLength_of_word (SplitName.front_coefficientText h.1)
        (Func.isWord_name h.2.1) hend
  | binary op lhs rhs => exact Token.leibnizLength_of_ne (by decide) _

/-- The text of an expression begins as the text of a part does. -/
theorem exists_cons_text {e : Expr} (h : e.WellFormed) :
    ∃ c rest, e.text = c :: rest ∧ (Leads c ∨ c = '(') := by
  match e with
  | leaf _ | call _ _ _ => exact exists_cons_inner h
  | binary op lhs rhs =>
      obtain ⟨c, rest, heq, hc⟩ := exists_cons_inner h.1
      exact ⟨c, _, congrArg (· ++ ' ' :: op.symbol :: ' ' :: rhs.inner) heq, hc⟩

theorem heading_text {e : Expr} (h : e.WellFormed) :
    Heading.ofLine e.text = Heading.ofTrimmed 0 e.text := by
  obtain ⟨c, rest, heq, hc⟩ := exists_cons_text h
  have hblank : Text.isBlank c = false := by
    rcases hc with hlead | rfl
    · exact hlead.isBlank
    · rfl
  have htake : e.text.takeWhile Text.isBlank = [] := by
    rw [heq, List.takeWhile_cons_of_neg (by simp [hblank])]
  have hdrop : Text.trimStart e.text = e.text := by
    rw [heq, Text.trimStart, List.dropWhile_cons_of_neg (by simp [hblank])]
  rw [Heading.ofLine, htake, hdrop]
  rfl

theorem heading_text_of_none {e : Expr} (h : e.WellFormed) (hnone : e.behindHeading? = none) :
    Heading.ofLine e.text = ⟨none, 0, e.text⟩ := by
  rw [heading_text h]
  match e with
  | leibniz of wrt => rfl
  | number n | constant c | var c letter | call c f arg =>
      refine Heading.ofTrimmed_of_leibnizLength ?_ 0
      have hend : Ends [] := trivial
      have hzero := leibnizLength_inner h (by simp) hend
      rwa [List.append_nil] at hzero
  | binary op lhs rhs =>
      by_cases hlhs : ∃ of wrt, lhs = leibniz of wrt
      · obtain ⟨of, wrt, rfl⟩ := hlhs
        have hwrt : Leaf.isVariableName wrt = false := by simpa [behindHeading?] using hnone
        simp [Heading.ofTrimmed, text, inner, Leaf.text, hwrt]
      · have hend : Ends (' ' :: op.symbol :: ' ' :: rhs.inner) := Or.inl rfl
        refine Heading.ofTrimmed_of_leibnizLength (leibnizLength_inner h.1 ?_ hend) 0
        rintro of wrt rfl
        exact hlhs ⟨of, wrt, rfl⟩

/-- An operator has no left side at the start of a text. -/
theorem read_operator (op : Operator) (cs : List Char) :
    read (op.symbol :: ' ' :: cs) = .error ⟨.missingOperand [op.symbol], ⟨0, 1⟩⟩ := by
  have hscan : Token.scan (op.symbol :: ' ' :: cs) =
      ⟨.operator op, ⟨0, 1⟩, [op.symbol]⟩ :: Token.scanFrom 1 (' ' :: cs) := by
    rw [Token.scan, Token.scanFrom, Token.next_operator]
    cases op <;> rfl
  rw [read, Token.tokenize, hscan, Token.splitSigns_cons (Or.inl rfl), ofTokens, Token.visible_cons]
  rfl

end Expr

namespace Derivation

/-- An unknown derivative in front of an operator is taken for a heading, which
leaves the operator without its left side. -/
theorem ofLine_text_of_behindHeading {e : Expr} (h : e.WellFormed) {op : Operator}
    (hsome : e.behindHeading? = some op) (default : Char) :
    ofLine e.text default = .error ⟨.unreadable (.missingOperand [op.symbol]), ⟨6, 7⟩⟩ := by
  obtain ⟨of, wrt, rhs, rfl, hwrt⟩ := Expr.exists_of_behindHeading? hsome
  have hheading : Heading.ofLine (Expr.binary op (.leibniz of wrt) rhs).text =
      ⟨some wrt, 6, op.symbol :: ' ' :: rhs.inner⟩ := by
    rw [Expr.heading_text h]
    exact Heading.ofTrimmed_heading h.1.1 hwrt rfl 0 _
  rw [ofLine, hheading]
  simp only [Expr.read_operator]
  rfl

/-- The text of an expression is a line with a derivation of the expression, unless
what it begins with is taken for a heading, and then it is one without. -/
theorem ofLine_text {e : Expr} (h : e.WellFormed) {default : Char}
    (hothers : ∀ a ∈ e.letters, ∀ b ∈ e.letters, a ≠ default → b ≠ default → a = b) :
    (e.behindHeading? = none →
      ∃ d, ofLine e.text default = .ok d ∧ d.wrt = default ∧ (d.expr == e) = true) ∧
    ∀ op, e.behindHeading? = some op →
      ofLine e.text default = .error ⟨.unreadable (.missingOperand [op.symbol]), ⟨6, 7⟩⟩ := by
  refine ⟨fun hnone => ?_, fun op hsome => ofLine_text_of_behindHeading h hsome default⟩
  have hheading := Expr.heading_text_of_none h hnone
  exact exists_ofLine_of_body h (congrArg Heading.wrt hheading) (congrArg Heading.body hheading)
    (tooMany?_eq_none_iff.mpr hothers)

/-- The unknown derivative in `x + dy/dx` is not in front. -/
theorem ofLine_text_letter_add :
    ∃ d, ofLine (Expr.var none 'x' + Expr.leibniz 'y' 'x').text 'x' = .ok d ∧ d.wrt = 'x' ∧
      (d.expr == Expr.var none 'x' + Expr.leibniz 'y' 'x') = true := by
  have hletters : (Expr.var none 'x' + Expr.leibniz 'y' 'x').letters = ['x'] := by
    rw [Expr.letters, Expr.postOrder_eq_parts]
    rfl
  refine (ofLine_text (by decide) ?_).1 rfl
  simp [hletters]

/-- The line `dy/dx + x` has no derivation. -/
theorem ofLine_unknown_add_ne_ok :
    (Expr.leibniz 'y' 'x' + Expr.var none 'x').WellFormed ∧
      (Expr.leibniz 'y' 'x' + Expr.var none 'x').letters = ['x'] ∧
        Leaf.isVariableName 'x' = true ∧
          ∀ d, ofLine (Expr.leibniz 'y' 'x' + Expr.var none 'x').text 'x' ≠ .ok d := by
  refine ⟨by decide, ?_, rfl, fun d hd => ?_⟩
  · rw [Expr.letters, Expr.postOrder_eq_parts]
    rfl
  · rw [ofLine_text_of_behindHeading (by decide) rfl] at hd
    cases hd

end Derivation

end Fluxion
