import Fluxion.Proofs.LineText

/-!
# Blanks around a line

Blanks in front of a line are taken off before anything else is looked at, so they
change nothing. Blanks behind it are seen three times. A heading is one only if a
blank follows: the line `dy/dx` is an expression, and with a blank behind it a
heading without a body. Inside an expression only the blanks of `Token.isSpace`
may stand, and the body is read with the blanks behind it. For the input that a
derivation keeps, all blanks are taken off.

So whatever a line gives with blanks around it, it gives without them
(`ofLine_of_ofLine_blanks`). The other way round, the blanks behind it have to be
ones that an expression allows, and must not complete a heading
(`ofLine_blanks_iff`).
-/

namespace Fluxion

open Token (isSpace leibnizLength)

namespace Text

variable {blanks : List Char}

theorem trimStart_blanks_append (h : ∀ c ∈ blanks, isBlank c = true) (cs : List Char) :
    trimStart (blanks ++ cs) = trimStart cs :=
  List.dropWhile_append_of_pos h

/-- Blanks behind a text stay there, unless the text is blank altogether. -/
theorem trimStart_append_blanks (h : ∀ c ∈ blanks, isBlank c = true) (cs : List Char) :
    trimStart (cs ++ blanks) = trimStart cs ++ blanks ∨
      trimStart cs = [] ∧ trimStart (cs ++ blanks) = [] := by
  rw [trimStart, trimStart, List.dropWhile_append]
  cases cs.dropWhile isBlank with
  | nil => exact Or.inr ⟨rfl, List.dropWhile_eq_nil_iff.mpr h⟩
  | cons c rest => exact Or.inl rfl

theorem trimEnd_append_blanks (h : ∀ c ∈ blanks, isBlank c = true) (cs : List Char) :
    trimEnd (cs ++ blanks) = trimEnd cs := by
  have hreverse : ∀ c ∈ blanks.reverse, isBlank c = true := by simpa using h
  rw [trimEnd, trimEnd, List.reverse_append, List.dropWhile_append_of_pos hreverse]

theorem trim_append_blanks (h : ∀ c ∈ blanks, isBlank c = true) (cs : List Char) :
    trim (cs ++ blanks) = trim cs := by
  rw [trim, trim]
  rcases trimStart_append_blanks h cs with heq | ⟨hnil, heq⟩
  · rw [heq, trimEnd_append_blanks h]
  · rw [hnil, heq]

end Text

namespace Heading

/-- A text that a blank would make a heading. -/
def Unfinished (cs : List Char) : Prop :=
  ∃ of wrt, cs = ['d', of, '/', 'd', wrt] ∧ of.isAlpha = true ∧ Leaf.isVariableName wrt = true

variable {blanks : List Char}

/-- Blanks behind a text belong to its body, unless they complete a heading. -/
theorem ofTrimmed_append_blanks {cs : List Char} (hblanks : ∀ c ∈ blanks, Text.isBlank c = true)
    (h : blanks = [] ∨ ¬ Unfinished cs) (offset offset' : Nat) :
    (ofTrimmed offset (cs ++ blanks)).wrt = (ofTrimmed offset' cs).wrt ∧
      (ofTrimmed offset (cs ++ blanks)).body = (ofTrimmed offset' cs).body ++ blanks := by
  rcases ofTrimmed_cases cs with ⟨of, wrt, blank, body, rfl, hof, hwrt, hblank⟩ | hnone
  · simp only [List.cons_append, ofTrimmed_heading hof hwrt hblank, and_self]
  · rw [hnone]
    rcases ofTrimmed_cases (cs ++ blanks) with
      ⟨of, wrt, blank, body, heq, hof, hwrt, hblank⟩ | hnone'
    · have hfive : leibnizLength (cs ++ blanks) = 5 := by
        rw [heq, Token.leibnizLength_eq_five hof (Leaf.isAlpha_of_isVariableName hwrt)]
      have hne : cs ≠ [] := by
        rintro rfl
        have hd : Text.isBlank 'd' = true := hblanks 'd' (by rw [List.nil_append] at heq; simp [heq])
        cases hd
      rw [Token.leibnizLength_append_of_breaks hne (Token.breaks_of_blanks hblanks)] at hfive
      obtain ⟨of', wrt', more, rfl, -⟩ :=
        Token.exists_of_leibnizLength (by rw [hfive]; decide : leibnizLength cs ≠ 0)
      simp only [List.cons_append, List.cons.injEq, true_and] at heq
      obtain ⟨rfl, rfl, hmore⟩ := heq
      -- The blank of the heading is the first of the blanks behind the text, or it
      -- stands in the text and is a heading there already.
      match more with
      | [] =>
          rcases h with rfl | hunfinished
          · cases hmore
          · exact absurd ⟨of', wrt', rfl, hof, hwrt⟩ hunfinished
      | b :: more =>
          obtain rfl := (List.cons.inj hmore).1
          have hheading := hnone 0
          rw [ofTrimmed_heading hof hwrt hblank] at hheading
          cases hheading
    · rw [hnone']
      exact ⟨rfl, rfl⟩

variable {before after line : List Char}

theorem trimStart_around (hbefore : ∀ c ∈ before, Text.isBlank c = true) (line after : List Char) :
    Text.trimStart (before ++ line ++ after) = Text.trimStart (line ++ after) := by
  rw [List.append_assoc, Text.trimStart_blanks_append hbefore]

theorem ofLine_blanks (hbefore : ∀ c ∈ before, Text.isBlank c = true)
    (hafter : ∀ c ∈ after, Text.isBlank c = true)
    (h : after = [] ∨ ¬ Unfinished (Text.trimStart line)) :
    ∃ blanks, blanks ⊆ after ∧ (ofLine (before ++ line ++ after)).wrt = (ofLine line).wrt ∧
      (ofLine (before ++ line ++ after)).body = (ofLine line).body ++ blanks := by
  simp only [ofLine, trimStart_around hbefore]
  rcases Text.trimStart_append_blanks hafter line with heq | ⟨hnil, heq⟩
  · rw [heq]
    exact ⟨after, List.Subset.refl after, ofTrimmed_append_blanks hafter h _ _⟩
  · rw [hnil, heq]
    exact ⟨[], List.nil_subset after, rfl, rfl⟩

theorem body_of_unfinished (hbefore : ∀ c ∈ before, Text.isBlank c = true)
    (hafter : ∀ c ∈ after, Text.isBlank c = true) (hne : after ≠ [])
    (h : Unfinished (Text.trimStart line)) :
    ∀ c ∈ (ofLine (before ++ line ++ after)).body, Text.isBlank c = true := by
  obtain ⟨of, wrt, hline, hof, hwrt⟩ := h
  obtain ⟨blank, rest, rfl⟩ := List.exists_cons_of_ne_nil hne
  have htrim : Text.trimStart (line ++ blank :: rest) =
      'd' :: of :: '/' :: 'd' :: wrt :: blank :: rest := by
    rcases Text.trimStart_append_blanks hafter line with heq | ⟨hnil, -⟩
    · rw [heq, hline]
      rfl
    · rw [hline] at hnil
      cases hnil
  obtain ⟨hblank, hrest⟩ := List.forall_mem_cons.mp hafter
  rw [ofLine, trimStart_around hbefore, htrim, ofTrimmed_heading hof hwrt hblank]
  exact hrest

end Heading

namespace Derivation

/-- The variable is named by the heading, the input is the body, and the rest
follows from what the body reads as. -/
theorem ofLine_of_heading {line line' : List Char} {default : Char} {d : Derivation}
    (hwrt : (Heading.ofLine line').wrt = (Heading.ofLine line).wrt)
    (htrim : Text.trim (Heading.ofLine line').body = Text.trim (Heading.ofLine line).body)
    (hread : ∀ e, Expr.read (Heading.ofLine line).body = .ok e →
      Expr.read (Heading.ofLine line').body = .ok e)
    (h : ofLine line default = .ok d) : ofLine line' default = .ok d := by
  obtain ⟨e, he, hmany, hd⟩ := ofLine_eq_ok.mp h
  rw [← hwrt] at hmany hd
  rw [← htrim] at hd
  exact ofLine_eq_ok.mpr ⟨e, hread e he, hmany, hd⟩

variable {before after line : List Char}

theorem ofLine_unfinished_ne_ok (hbefore : ∀ c ∈ before, Text.isBlank c = true)
    (hafter : ∀ c ∈ after, Text.isBlank c = true) (hne : after ≠ [])
    (h : Heading.Unfinished (Text.trimStart line)) (default : Char) (d : Derivation) :
    ofLine (before ++ line ++ after) default ≠ .ok d := by
  intro hd
  obtain ⟨e, hread, -⟩ := ofLine_eq_ok.mp hd
  exact Expr.read_blanks_ne_ok (Heading.body_of_unfinished hbefore hafter hne h) hread

/-- Without a blank behind it, what looks like a heading is an expression. -/
theorem exists_ofLine_of_unfinished (h : Heading.Unfinished (Text.trimStart line))
    (default : Char) : ∃ d, ofLine line default = .ok d := by
  obtain ⟨of, wrt, hline, hof, hwrt⟩ := h
  have hwell : (Expr.leibniz of wrt).WellFormed := ⟨hof, Leaf.isAlpha_of_isVariableName hwrt⟩
  have hheading : Heading.ofLine line =
      ⟨none, Text.byteLength (line.takeWhile Text.isBlank), (Expr.leibniz of wrt).text⟩ := by
    rw [Heading.ofLine, hline]
    rfl
  have hmany : tooMany? default (.leibniz of wrt) = none :=
    tooMany?_eq_none_iff.mpr fun a ha => by cases Expr.mem_letters_leaf.mp ha
  obtain ⟨d, hd, -⟩ :=
    exists_ofLine_of_body hwell (congrArg Heading.wrt hheading) (congrArg Heading.body hheading) hmany
  exact ⟨d, hd⟩

theorem ofLine_of_ofLine_blanks (hbefore : ∀ c ∈ before, Text.isBlank c = true)
    (hafter : ∀ c ∈ after, Text.isBlank c = true) {default : Char} {d : Derivation}
    (hd : ofLine (before ++ line ++ after) default = .ok d) : ofLine line default = .ok d := by
  have h : after = [] ∨ ¬ Heading.Unfinished (Text.trimStart line) := by
    by_cases hnil : after = []
    · exact Or.inl hnil
    · exact Or.inr fun hunfinished =>
        ofLine_unfinished_ne_ok hbefore hafter hnil hunfinished default d hd
  obtain ⟨blanks, hsub, hwrt, hbody⟩ := Heading.ofLine_blanks hbefore hafter h
  have hblanks : ∀ c ∈ blanks, Text.isBlank c = true := fun c hc => hafter c (hsub hc)
  refine ofLine_of_heading hwrt.symm ?_ (fun e hread => ?_) hd
  · rw [hbody, Text.trim_append_blanks hblanks]
  · rw [hbody] at hread
    exact Expr.read_of_read_append_blanks hblanks hread

theorem ofLine_blanks_iff (hbefore : ∀ c ∈ before, Text.isBlank c = true)
    (hafter : ∀ c ∈ after, isSpace c = true)
    (h : after = [] ∨ ¬ Heading.Unfinished (Text.trimStart line)) (default : Char)
    (d : Derivation) :
    ofLine (before ++ line ++ after) default = .ok d ↔ ofLine line default = .ok d := by
  have hblank : ∀ c ∈ after, Text.isBlank c = true := fun c hc =>
    Token.isBlank_of_isSpace (hafter c hc)
  refine ⟨ofLine_of_ofLine_blanks hbefore hblank, fun hd => ?_⟩
  obtain ⟨blanks, hsub, hwrt, hbody⟩ := Heading.ofLine_blanks hbefore hblank h
  refine ofLine_of_heading hwrt ?_ (fun e hread => ?_) hd
  · rw [hbody, Text.trim_append_blanks fun c hc => hblank c (hsub hc)]
  · rw [hbody]
    exact (Expr.read_append_spaces (fun c hc => hafter c (hsub hc)) e).mpr hread

/-- What a line gives with blanks around it is what it gives without them. What it
gives without them it also gives with blanks in front, and with blanks behind that
an expression allows, unless these complete a heading: then the line is an
expression, and nothing is left of it with the blanks. -/
theorem ofLine_blanks_around (hbefore : ∀ c ∈ before, Text.isBlank c = true)
    (hafter : ∀ c ∈ after, Text.isBlank c = true) (line : List Char) (default : Char) :
    (∀ d, ofLine (before ++ line ++ after) default = .ok d → ofLine line default = .ok d) ∧
    ((after = [] ∨ ¬ Heading.Unfinished (Text.trimStart line)) → (∀ c ∈ after, isSpace c = true) →
      ∀ d, ofLine (before ++ line ++ after) default = .ok d ↔ ofLine line default = .ok d) ∧
    (after ≠ [] → Heading.Unfinished (Text.trimStart line) →
      (∃ d, ofLine line default = .ok d) ∧
        ∀ d, ofLine (before ++ line ++ after) default ≠ .ok d) := by
  refine ⟨fun d => ofLine_of_ofLine_blanks hbefore hafter, fun h hspace d => ?_,
    fun hne h => ⟨?_, fun d => ?_⟩⟩
  · exact ofLine_blanks_iff hbefore hspace h default d
  · exact exists_ofLine_of_unfinished h default
  · exact ofLine_unfinished_ne_ok hbefore hafter hne h default d

/-- An em space in front of `x` and a line end behind it. -/
theorem ofLine_blanks_around_letter :
    ∃ d, ofLine (['\u2003'] ++ ['x'] ++ ['\n']) 'x' = .ok d ∧ ofLine ['x'] 'x' = .ok d := by
  have hbefore : Text.isBlank '\u2003' = true := rfl
  have hafter : Text.isBlank '\n' = true := rfl
  have hfinished : ¬ Heading.Unfinished (Text.trimStart ['x']) := by
    rintro ⟨of, wrt, heq, -⟩
    cases heq
  have hmany : tooMany? 'x' (.var none 'x') = none :=
    tooMany?_eq_none_iff.mpr fun a ha _ _ hane => by
      cases Expr.mem_letters_leaf.mp ha
      exact absurd rfl hane
  have hletter : ∃ d, ofLine ['x'] 'x' = .ok d ∧ d.wrt = 'x' ∧
      (d.expr == Expr.var none 'x') = true :=
    exists_ofLine_of_body (by decide) rfl rfl hmany
  obtain ⟨d, hd, -⟩ := hletter
  have haround := ofLine_blanks_around (List.forall_mem_singleton.mpr hbefore)
    (List.forall_mem_singleton.mpr hafter) ['x'] 'x'
  exact ⟨d, (haround.2.1 (Or.inr hfinished) (List.forall_mem_singleton.mpr rfl) d).mpr hd, hd⟩

/-- The line `dy/dx` has a derivation, but not with a blank behind it. -/
theorem ofLine_unknown_blank :
    (∃ d, ofLine ['d', 'y', '/', 'd', 'x'] 'x' = .ok d) ∧
      ∀ d, ofLine ([] ++ ['d', 'y', '/', 'd', 'x'] ++ [' ']) 'x' ≠ .ok d := by
  have h : Heading.Unfinished (Text.trimStart ['d', 'y', '/', 'd', 'x']) :=
    ⟨'y', 'x', rfl, rfl, rfl⟩
  have hblank : Text.isBlank ' ' = true := rfl
  refine ⟨exists_ofLine_of_unfinished h 'x', fun d => ?_⟩
  exact ofLine_unfinished_ne_ok (List.forall_mem_nil _) (List.forall_mem_singleton.mpr hblank)
    (List.cons_ne_nil _ _) h 'x' d

end Derivation

end Fluxion
