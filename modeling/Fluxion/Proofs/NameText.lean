import Fluxion.Proofs.WellFormed

/-!
# Names read back

The text of a leaf or of a function is a single token, and what that token means
is what was written. Between a coefficient and the word behind it there is no
boundary in the text, and none is needed: a coefficient has no letters and a
word begins with one (`SplitName.ofFinite?_coefficientText`).

What is read is equal to what was written, and the same but for negative zeros.

A sign more or less in front of a name makes another coefficient, but calls a function
or does not as before (`CallName.isSome_ofName?_minus`).
-/

namespace Fluxion

open Text (Stops stops_nil stops_cons takeWhile_append_of_stops dropWhile_append_of_stops)
open Token (Front inFront inFront_of_isAlpha isNameChar isDigit_of_isAlpha)

namespace Decimal

theorem Plain.isNumeric {cs : List Char} (h : Plain cs) :
    ∀ c ∈ cs, SplitName.isNumeric c = true := by
  have hdigit : ∀ {ds : List Char}, (∀ c ∈ ds, c.isDigit = true) →
      ∀ c ∈ ds, SplitName.isNumeric c = true := by
    intro ds hd c hc
    simp [SplitName.isNumeric, hd c hc]
  cases h with
  | whole hne hd => exact hdigit hd
  | pointed hne hd hfne hf =>
      intro c hc
      rcases List.mem_append.mp hc with hc | hc
      · exact hdigit hd c hc
      · rcases List.mem_cons.mp hc with rfl | hc
        · rfl
        · exact hdigit hf c hc

/-- A number has a digit. -/
theorem Signed.ne_sign {cs : List Char} (h : Signed cs) : cs ≠ [] ∧ cs ≠ ['-'] := by
  cases h with
  | plain h =>
      obtain ⟨d, ds, rfl, hd⟩ := h.exists_cons
      refine ⟨List.cons_ne_nil d ds, fun heq => ?_⟩
      cases heq
      cases hd
  | minus h =>
      obtain ⟨d, ds, rfl, -⟩ := h.exists_cons
      exact ⟨List.cons_ne_nil _ _, by simp⟩

/-- The text of a number that is not negative has no sign. -/
theorem plain_text_of_nonneg {n : Float} (hfin : n.isFinite = true) (h : 0 ≤ n) :
    Plain (text n) := by
  obtain ⟨b, hb⟩ := exists_ofFloat? hfin
  simp only [text, hb]
  split
  · exact plain_pointed 0 0
  · next hpos =>
      rcases (zero_le_iff hfin).mp h with ⟨s, hs⟩ | hs
      · rw [Binary.ofFloat?_eq, hs] at hb
        cases hb
        exact absurd rfl hpos
      · rw [hs]
        exact plain_pointed _ _

end Decimal

open Decimal (Plain Signed)

namespace SplitName

/-- The cut between a coefficient and a word is found. -/
theorem cut_append_word {front word : List Char} (h : Front front) (hstop : Stops inFront word) :
    cut (front ++ word) = (front, word) := by
  have hnum := Token.stops_isNumeric hstop
  rcases h with rfl | h | h
  · unfold cut
    split
    · next heq =>
        rw [List.nil_append] at heq
        rw [heq] at hstop
        exact absurd (hstop '-' rfl) (by decide)
    · have hnone : ∀ c ∈ ([] : List Char), isNumeric c = true := fun c hc => by cases hc
      rw [takeWhile_append_of_stops hnone hnum, dropWhile_append_of_stops hnone hnum]
  · unfold cut
    split
    · next heq =>
        obtain ⟨d, ds, rfl, hd⟩ := h.exists_cons
        cases heq
        cases hd
    · rw [takeWhile_append_of_stops h.isNumeric hnum, dropWhile_append_of_stops h.isNumeric hnum]
  · simp only [List.cons_append, cut, takeWhile_append_of_stops h.isNumeric hnum,
      dropWhile_append_of_stops h.isNumeric hnum]

/-- A number in front of a word is taken off as what it reads as. -/
theorem ofName?_append_of_signed {front word : List Char} (h : Signed front)
    (hstop : Stops inFront word) :
    ofName? (front ++ word) = (Decimal.read? front).map fun c => ⟨some c, word⟩ := by
  simp only [ofName?, cut_append_word (Or.inr h) hstop]
  split
  · exact absurd rfl h.ne_sign.1
  · exact absurd rfl h.ne_sign.2
  · rfl

theorem front_coefficientText {c : Option Float} (hc : c.all Float.isFinite = true) :
    Front (coefficientText c) := by
  match c with
  | none => exact Or.inl rfl
  | some n => exact Or.inr (Decimal.signed_text hc)

/-- A coefficient in front of a word is read back. -/
theorem ofFinite?_coefficientText {c : Option Float} {word : List Char}
    (hc : c.all Float.isFinite = true) (hstop : Stops inFront word) :
    ∃ c', ofFinite? (coefficientText c ++ word) = some ⟨c', word⟩ ∧ (c' == c) = true := by
  match c with
  | none =>
      refine ⟨none, ?_, rfl⟩
      simp only [ofFinite?, ofName?, coefficientText, Option.elim_none,
        cut_append_word (Or.inl rfl) hstop]
      rfl
  | some n =>
      have hsigned := Decimal.signed_text hc
      obtain ⟨y, hy, heq⟩ := Decimal.read?_text hc
      refine ⟨some y, ?_, heq⟩
      have hname : ofName? (Decimal.text n ++ word) = some ⟨some y, word⟩ := by
        rw [ofName?_append_of_signed hsigned hstop, hy]
        rfl
      refine Option.filter_eq_some_iff.mpr ⟨hname, ?_⟩
      exact Decimal.isFinite_of_beq heq hc

/-- A lone minus in front of a word is a coefficient. -/
theorem ofName?_minus_word {word : List Char} (hstop : Stops inFront word) :
    ofName? ('-' :: word) = some ⟨some (-1), word⟩ := by
  have hnum := Token.stops_isNumeric hstop
  have hnone : ∀ c ∈ ([] : List Char), isNumeric c = true := fun c hc => by cases hc
  have htake := takeWhile_append_of_stops hnone hnum
  have hdrop := dropWhile_append_of_stops hnone hnum
  rw [List.nil_append] at htake hdrop
  simp only [ofName?, cut, htake, hdrop]

/-- A sign changes neither what stands behind a number nor whether it is finite. -/
theorem map_rest_ofFinite?_minus {front word : List Char} (hfront : front = [] ∨ Plain front)
    (hstop : Stops inFront word) :
    (ofFinite? ('-' :: (front ++ word))).map rest = (ofFinite? (front ++ word)).map rest := by
  rcases hfront with rfl | hfront
  · have hcut := cut_append_word (Or.inl rfl) hstop
    rw [List.nil_append] at hcut ⊢
    have hword : ofName? word = some ⟨none, word⟩ := by simp only [ofName?, hcut]
    rw [ofFinite?, ofFinite?, ofName?_minus_word hstop, hword]
    rfl
  · rw [← List.cons_append, ofFinite?, ofFinite?, ofName?_append_of_signed (.minus hfront) hstop,
      ofName?_append_of_signed (.plain hfront) hstop, Decimal.read?_of_plain hfront, Decimal.read?]
    cases Decimal.magnitude? front with
    | none => rfl
    | some c =>
        have hfin : isFinite ⟨some (-c), word⟩ = isFinite ⟨some c, word⟩ := Decimal.isFinite_neg c
        simp only [Option.map_some, Option.filter_some, hfin]
        split <;> rfl

end SplitName

/-! ## Variables and constants -/

theorem Constant.ofName?_of_signed {front word : List Char} (h : Signed front) :
    ofName? (front ++ word) = none := by
  obtain ⟨c, rest, rfl, -, halpha⟩ := Token.exists_cons_of_signed h
  have hp : c ≠ 'p' := by
    rintro rfl
    cases halpha
  have he : c ≠ 'e' := by
    rintro rfl
    cases halpha
  simp [ofName?, all, name, Ne.symm hp, Ne.symm he]

theorem Constant.ofName?_letter {letter : Char} (h : letter ≠ 'e') : ofName? [letter] = none := by
  simp [ofName?, all, name, Ne.symm h]

theorem Func.ofName?_letter (letter : Char) : ofName? [letter] = none := by
  simp [ofName?, plain, name, logarithm?]

theorem Leaf.isWord_letter {letter : Char} (h : isVariableName letter = true) :
    Token.IsWord [letter] :=
  ⟨letter, [], rfl, isAlpha_of_isVariableName h, fun x hx => by cases hx⟩

theorem Leaf.ofName?_var {c : Option Float} {letter : Char} (hc : c.all Float.isFinite = true)
    (hl : isVariableName letter = true) :
    ∃ c', ofName? (coefficientText c ++ [letter]) = some (var c' letter) ∧ (c' == c) = true ∧
      CallName.ofName? (coefficientText c ++ [letter]) = none := by
  have hne : letter ≠ 'e' := by
    rintro rfl
    cases hl
  obtain ⟨c', hs, heq⟩ := SplitName.ofFinite?_coefficientText hc (isWord_letter hl).stops
  have hconst : Constant.ofName? (coefficientText c ++ [letter]) = none := by
    match c with
    | none => exact Constant.ofName?_letter hne
    | some n => exact Constant.ofName?_of_signed (Decimal.signed_text hc)
  refine ⟨c', ?_, heq, ?_⟩
  · simp only [ofName?, hconst, hs, hl, if_true]
  · simp [CallName.ofName?, hs, Func.ofName?_letter]

theorem Constant.isWord_name (c : Constant) : Token.IsWord c.name := by
  cases c with
  | pi => exact ⟨'p', ['i'], rfl, rfl, List.all_eq_true.mp rfl⟩
  | e => exact ⟨'e', [], rfl, rfl, List.all_eq_true.mp rfl⟩

theorem Leaf.ofName?_constant (c : Constant) :
    ofName? c.name = some (constant c) ∧ CallName.ofName? c.name = none := by
  cases c <;> exact ⟨rfl, rfl⟩

/-! ## Functions -/

theorem Token.isNameChar_of_isNumeric {c : Char} (h : SplitName.isNumeric c = true) :
    isNameChar c = true := by
  simp only [SplitName.isNumeric, Bool.or_eq_true] at h
  rcases h with h | h <;> simp [isNameChar, Char.isAlphanum, h]

/-- The text of a base can stand inside a name. -/
theorem Base.isNameChar_of_mem_text {base : Base} (h : base.WellFormed) :
    ∀ c ∈ base.text, isNameChar c = true := by
  match base with
  | constant c => cases c <;> simp [text, Constant.name, isNameChar, Char.isAlphanum]
  | number n =>
      intro c hc
      exact Token.isNameChar_of_isNumeric ((Decimal.plain_text_of_nonneg h.1 h.2).isNumeric c hc)

theorem Base.ofText?_text {base : Base} (h : base.WellFormed) :
    ∃ base', ofText? base.text = some base' ∧ (base' == base) = true := by
  match base with
  | constant c => exact ⟨constant c, by cases c <;> rfl, by cases c <;> rfl⟩
  | number n =>
      obtain ⟨y, hy, heq⟩ := Decimal.read?_text h.1
      have hconst : Constant.ofName? (Decimal.text n) = none := by
        rw [← List.append_nil (Decimal.text n)]
        exact Constant.ofName?_of_signed (Decimal.signed_text h.1)
      refine ⟨number y, ?_, heq⟩
      have hfin := Decimal.isFinite_of_beq heq h.1
      simp only [text, ofText?, hconst, hy, Option.filter_some, hfin, if_true, Option.map_some]

theorem Func.isWord_name {f : Func} (h : f.WellFormed) : Token.IsWord f.name := by
  match f with
  | log (some base) =>
      refine ⟨'l', 'o' :: 'g' :: '_' :: base.text, rfl, rfl, fun x hx => ?_⟩
      simp only [List.mem_cons] at hx
      rcases hx with rfl | rfl | rfl | hx
      · rfl
      · rfl
      · rfl
      · exact Base.isNameChar_of_mem_text h x hx
  | log none | abs | sin | cos | tan | sec | csc | cot | arcsin | arccos | arctan
  | arcsec | arccsc | arccot | ln => exact ⟨_, _, rfl, rfl, List.all_eq_true.mp rfl⟩

theorem Func.ofName?_name {f : Func} (h : f.WellFormed) :
    ∃ f', ofName? f.name = some f' ∧ (f' == f) = true := by
  match f with
  | log (some base) =>
      obtain ⟨base', hread, heq⟩ := Base.ofText?_text h
      refine ⟨log (some base'), ?_, heq⟩
      have hplain : (plain.find? fun g => g.name == (log (some base)).name) = none := by
        simp [plain, name]
      rw [ofName?, hplain, Option.none_or]
      simp only [name, logarithm?, hread, Option.map_some]
  | log none | abs | sin | cos | tan | sec | csc | cot | arcsin | arccos | arctan
  | arcsec | arccsc | arccot | ln => exact ⟨_, rfl, rfl⟩

theorem CallName.isSome_ofName? (cs : List Char) :
    (ofName? cs).isSome =
      ((SplitName.ofFinite? cs).map SplitName.rest).any fun rest => (Func.ofName? rest).isSome := by
  rw [ofName?]
  cases SplitName.ofFinite? cs with
  | none => rfl
  | some s => cases hf : Func.ofName? s.rest <;> simp [hf]

theorem CallName.isSome_ofName?_minus {front word : List Char} (hfront : front = [] ∨ Plain front)
    (hstop : Stops inFront word) :
    (ofName? ('-' :: (front ++ word))).isSome = (ofName? (front ++ word)).isSome := by
  rw [isSome_ofName?, isSome_ofName?, SplitName.map_rest_ofFinite?_minus hfront hstop]

theorem CallName.ofName?_name {c : Option Float} {f : Func} (hc : c.all Float.isFinite = true)
    (hf : f.WellFormed) :
    ∃ call, ofName? (coefficientText c ++ f.name) = some call ∧ (call.coefficient == c) = true ∧
      (call.func == f) = true := by
  obtain ⟨f', hread, hfunc⟩ := Func.ofName?_name hf
  obtain ⟨c', hs, hcoefficient⟩ :=
    SplitName.ofFinite?_coefficientText hc (Func.isWord_name hf).stops
  refine ⟨⟨c', f'⟩, ?_, hcoefficient, hfunc⟩
  simp [CallName.ofName?, hs, hread]

end Fluxion
