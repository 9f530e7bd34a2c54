import Fluxion.Proofs.Words

/-!
# A minus between two expressions

Two texts that are read, with a minus between them, are read as one expression,
and it makes no difference whether blanks stand around the minus. There is one
exception. Without a blank behind it, the minus is taken into the number or name
that follows, to be split off again because an operand is complete in front of it;
but in front of an unknown derivative such as `dy/dx` it is taken into a name `-dy`
that was none, and what is split off is the name `dy`, which means nothing.

Everything is said about words. The first text ends where an operand is complete
(`Token.words_tokenize_append`), and behind one the words of a minus and a text are
the minus and the words of the text (`Token.words_splitSigns_minus`). A sum, a minus
and a sum make a sum, though not with the second sum as its right operand: the
minus takes only the first product of it (`Phrase.exists_subtract`).
-/

namespace Fluxion

open Text (Stops stops_nil stops_cons)
open Token (Leads Word words wordsOf word scan splitSigns tokenize visible next isSpace isNameChar
  runLength signLength decimalLength numberLength nameLength leibnizLength)

namespace Token

/-! ## A minus in front of a text -/

theorem decimalLength_of_not_isDigit {c : Char} (hc : c.isDigit = false) (cs : List Char) :
    decimalLength (c :: cs) = 0 := by
  have hrun : runLength Char.isDigit (c :: cs) = 0 := runLength_of_stops (stops_cons hc cs)
  simp only [decimalLength, hrun, List.drop_zero, true_or, if_true]
  split <;> rfl

theorem signLength_of_ne {c : Char} (hc : c ≠ '-') (cs : List Char) : signLength (c :: cs) = 0 := by
  unfold signLength
  split
  · next heq =>
      cases heq
      exact absurd rfl hc
  · rfl

theorem numberLength_minus {cs : List Char} (h : signLength cs = 0) :
    numberLength ('-' :: cs) = if numberLength cs = 0 then 0 else numberLength cs + 1 := by
  simp only [numberLength, h, show signLength ('-' :: cs) = 1 from rfl, List.drop_zero,
    List.drop_one, List.tail_cons, Nat.zero_add]
  by_cases hzero : decimalLength cs = 0
  · simp [hzero]
  · simp [hzero, Nat.add_comm]

theorem nameLength_minus {cs : List Char} (h : signLength cs = 0) :
    nameLength ('-' :: cs) = if nameLength cs = 0 then 0 else nameLength cs + 1 := by
  simp only [nameLength, h, show signLength ('-' :: cs) = 1 from rfl, List.drop_zero,
    Nat.zero_add, Nat.add_comm 1 (decimalLength cs), List.drop_succ_cons]
  cases cs.drop (decimalLength cs) with
  | nil => rfl
  | cons c rest =>
      by_cases halpha : c.isAlpha = true
      · simp only [halpha, if_true]
        rw [if_neg (by omega)]
        omega
      · simp [halpha]

/-- Behind a minus, numbers begin with a digit, and names with a digit or a letter. -/
theorem lengths_minus_of_not_lead {c : Char} (hdigit : c.isDigit = false)
    (halpha : c.isAlpha = false) (cs : List Char) :
    numberLength ('-' :: c :: cs) = 0 ∧ nameLength ('-' :: c :: cs) = 0 := by
  have hdecimal := decimalLength_of_not_isDigit hdigit cs
  simp [numberLength, nameLength, show signLength ('-' :: c :: cs) = 1 from rfl, hdecimal, halpha]

/-- A minus is taken into the number or name behind it, or else it is an operator,
unless a derivative follows. -/
theorem next_minus_cases {cs : List Char} (hleibniz : leibnizLength cs = 0) :
    (∃ kind n, (kind = .number ∨ kind = .name) ∧ cs ≠ [] ∧ next cs = ⟨kind, n⟩ ∧
      next ('-' :: cs) = ⟨kind, n + 1⟩) ∨ next ('-' :: cs) = ⟨.operator .sub, 1⟩ := by
  have hminus : leibnizLength ('-' :: cs) = 0 := leibnizLength_of_ne (by decide) cs
  match cs with
  | [] => exact Or.inr (next_minus rfl rfl)
  | c :: cs =>
      by_cases hc : c.isDigit = true ∨ c.isAlpha = true
      · have hlead : Leads c := hc.imp id Or.inl
        have hne : c ≠ '-' := by
          rintro rfl
          rcases hc with hc | hc <;> cases hc
        have hsign := signLength_of_ne hne cs
        have hnumber := numberLength_minus hsign
        have hname := nameLength_minus hsign
        have hlead' : Leads '-' := Or.inr (Or.inr rfl)
        -- Where a name begins, a number that begins there too is shorter.
        by_cases hzero : nameLength (c :: cs) = 0
        · rw [if_pos hzero] at hname
          by_cases hnone : numberLength (c :: cs) = 0
          · rw [if_pos hnone] at hnumber
            exact Or.inr (next_minus hnumber hname)
          · rw [if_neg hnone] at hnumber
            have hpos : numberLength ('-' :: c :: cs) ≠ 0 := by omega
            refine Or.inl ⟨.number, numberLength (c :: cs), Or.inl rfl, List.cons_ne_nil c cs,
              next_of_numberLength hlead hleibniz hzero hnone, ?_⟩
            rw [next_of_numberLength hlead' hminus hname hpos, hnumber]
        · rw [if_neg hzero] at hname
          have hpos : nameLength ('-' :: c :: cs) ≠ 0 := by omega
          refine Or.inl ⟨.name, nameLength (c :: cs), Or.inr rfl, List.cons_ne_nil c cs,
            next_of_nameLength hlead hleibniz hzero, ?_⟩
          rw [next_of_nameLength hlead' hminus hpos, hname]
      · obtain ⟨hdigit, halpha⟩ := not_or.mp hc
        obtain ⟨hnumber, hname⟩ :=
          lengths_minus_of_not_lead (by simpa using hdigit) (by simpa using halpha) cs
        exact Or.inr (next_minus hnumber hname)

/-! ## Signs behind an operand -/

/-- The words of a text behind a text that is read: its signs are settled as they
are behind an operand. -/
theorem words_tokenize_append {cs rest : List Char} {e : Expr} (hread : Expr.read cs = .ok e)
    (h : Breaks rest) :
    words (tokenize (cs ++ rest)) = words (tokenize cs) ++ words (splitSigns true (scan rest)) := by
  have hscan : words (scan (cs ++ rest)) = words (scan cs ++ scan rest) := by
    rw [words, words, visible_append, List.map_append]
    exact wordsOf_append h
  have hbehind : operandBehind false (splitSigns false (scan cs)) = true := by
    obtain ⟨p, htok, -⟩ := Expr.read_eq_ok.mp hread
    rw [← operandBehind_visible, visible_splitSigns, ← htok]
    exact p.operandBehind_tokens false
  rw [tokenize, words_splitSigns false hscan, splitSigns_append, hbehind, words, visible_append,
    List.map_append]
  rfl

/-- A minus that is an operator, and what follows it. -/
theorem words_splitSigns_operator {cs rest : List Char}
    (h : wordsOf cs = ⟨.operator .sub, ['-']⟩ :: wordsOf rest) (before : Bool) :
    words (splitSigns before (scan cs)) =
      ⟨.operator .sub, ['-']⟩ :: words (tokenize rest) := by
  have hscan : words (scan cs) = words (⟨.operator .sub, .point 0, ['-']⟩ :: scan rest) := h
  rw [words_splitSigns before hscan, splitSigns_cons (Or.inr rfl), words_cons]
  rfl

/-- A minus in a number or name comes off behind an operand. -/
theorem words_splitSigns_signed {cs rest : List Char} {kind : Kind} {lexeme : List Char}
    (hkind : kind = .number ∨ kind = .name)
    (h : wordsOf cs = ⟨kind, '-' :: lexeme⟩ :: wordsOf rest) :
    words (splitSigns true (scan cs)) = ⟨.operator .sub, ['-']⟩ :: ⟨kind, lexeme⟩ ::
      words (splitSigns (Token.mk kind (.point 0) lexeme).endsOperand (scan rest)) := by
  have hblank : kind ≠ .blank := by rcases hkind with rfl | rfl <;> decide
  have hscan : words (scan cs) = words (⟨kind, .point 0, '-' :: lexeme⟩ :: scan rest) := by
    rw [words_cons, if_neg (by simpa [isBlank] using hblank)]
    exact h
  rw [words_splitSigns true hscan, splitSigns_split (unsign?_of_minus hkind rfl), words_cons,
    words_cons, if_neg (by simp [isBlank]), if_neg (by simpa [isBlank] using hblank)]
  rfl

/-- Behind an operand, a minus in front of a text is one word more, unless the text
begins with a derivative. -/
theorem words_splitSigns_minus {cs : List Char} (h : leibnizLength cs = 0) :
    words (splitSigns true (scan ('-' :: cs))) =
      ⟨.operator .sub, ['-']⟩ :: words (tokenize cs) := by
  have hcons : '-' :: cs ≠ [] := List.cons_ne_nil '-' cs
  rcases next_minus_cases h with ⟨kind, n, hkind, hne, hnext, hminus⟩ | hminus
  · have hblank : kind ≠ .blank := by rcases hkind with rfl | rfl <;> decide
    have hwords := wordsOf_of_next hne hnext hblank
    have hwords' := wordsOf_of_next hcons hminus hblank
    rw [List.take_succ_cons, List.drop_succ_cons] at hwords'
    have hscan : words (scan cs) =
        words (⟨kind, .point 0, cs.take n⟩ :: scan (cs.drop n)) := by
      rw [words_cons, if_neg (by simpa [isBlank] using hblank)]
      exact hwords
    rw [words_splitSigns_signed hkind hwords', tokenize, words_splitSigns false hscan,
      splitSigns_cons (Or.inl rfl), words_cons, if_neg (by simpa [isBlank] using hblank),
      if_neg (by simpa [isBlank] using hblank)]
    rfl
  · exact words_splitSigns_operator (wordsOf_of_next hcons hminus (by decide)) true

theorem words_splitSigns_spaced (cs : List Char) :
    words (splitSigns true (scan (' ' :: '-' :: ' ' :: cs))) =
      ⟨.operator .sub, ['-']⟩ :: words (tokenize cs) := by
  have hnext : next ('-' :: ' ' :: cs) = ⟨.operator .sub, 1⟩ := next_operator .sub cs
  refine words_splitSigns_operator ?_ true
  rw [wordsOf_cons_of_isSpace rfl, wordsOf_of_next (List.cons_ne_nil _ _) hnext (by decide)]
  exact congrArg _ (wordsOf_cons_of_isSpace rfl cs)

/-- A derivative behind a minus loses its first two letters to a name. -/
theorem words_splitSigns_leibniz {of : Char} (hof : of.isAlpha = true) (rest : List Char) :
    ⟨.name, ['d', of]⟩ ∈ words (splitSigns true (scan ('-' :: 'd' :: of :: '/' :: rest))) := by
  have hname : nameLength ('-' :: 'd' :: of :: '/' :: rest) = 3 := by
    rw [nameLength_minus (signLength_of_ne (by decide) _), nameLength_leibniz hof]
    rfl
  have hnext : next ('-' :: 'd' :: of :: '/' :: rest) = ⟨.name, 3⟩ := by
    rw [← hname]
    exact next_of_nameLength (Or.inr (Or.inr rfl)) (leibnizLength_of_ne (by decide) _)
      (by rw [hname]; decide)
  have hwords : wordsOf ('-' :: 'd' :: of :: '/' :: rest) =
      ⟨.name, '-' :: ['d', of]⟩ :: wordsOf ('/' :: rest) :=
    wordsOf_of_next (List.cons_ne_nil _ _) hnext (by decide)
  rw [words_splitSigns_signed (Or.inr rfl) hwords]
  exact List.mem_cons_of_mem _ List.mem_cons_self

/-- Two letters that begin a derivative are no name. -/
theorem not_meaningful_of_leibniz {t : Token} {of : Char} (h : t.word = ⟨.name, ['d', of]⟩) :
    ¬ t.Meaningful := by
  have hkind : t.kind = .name := congrArg Word.kind h
  have hlexeme : t.lexeme = ['d', of] := congrArg Word.lexeme h
  have hsplit : SplitName.ofFinite? ['d', of] = some ⟨none, ['d', of]⟩ := rfl
  have hfunc : Func.ofName? ['d', of] = none := by
    simp [Func.ofName?, Func.plain, Func.name, Func.logarithm?]
  have hcall : CallName.ofName? ['d', of] = none := by simp [CallName.ofName?, hsplit, hfunc]
  have hconst : Constant.ofName? ['d', of] = none := by
    simp [Constant.ofName?, Constant.all, Constant.name]
  have hleaf : Leaf.ofName? ['d', of] = none := by simp [Leaf.ofName?, hconst, hsplit]
  simp [Meaningful, operand?, call?, hkind, hlexeme, hcall, hleaf]

end Token

/-! ## Reading a difference -/

/-- A minus between two sums makes a sum. -/
theorem Phrase.exists_subtract (p : Phrase .sum) {t : Token} (ht : t.kind = .operator .sub) :
    (q : Phrase .sum) → ∃ r : Phrase .sum, r.tokens = p.tokens ++ t :: q.tokens
  | .ofProduct q => ⟨.add p .sub t q (Or.inr rfl) ht, rfl⟩
  | .add lhs op t' rhs hop ht' => by
      obtain ⟨r, hr⟩ := exists_subtract p ht lhs
      exact ⟨.add r op t' rhs hop ht', by simp [tokens, hr]⟩

namespace Expr

variable {a b : List Char} {ea eb : Expr}

/-- The words of two texts with a minus between them are an expression. -/
theorem exists_of_words_subtract (ha : read a = .ok ea) (hb : read b = .ok eb) {ts : List Token}
    (h : words ts = words (tokenize a) ++ ⟨.operator .sub, ['-']⟩ :: words (tokenize b)) :
    ∃ e, ofTokens ts = .ok e := by
  obtain ⟨p, hp, -⟩ := ofTokens_eq_ok.mp ha
  obtain ⟨q, hq, -⟩ := ofTokens_eq_ok.mp hb
  obtain ⟨r, hr⟩ := p.exists_subtract (t := ⟨.operator .sub, .point 0, ['-']⟩) rfl q
  have hmap : (visible ts).map word = r.tokens.map word := by
    rw [hr, hp, hq, List.map_append, List.map_cons]
    exact h
  obtain ⟨s, hs, -⟩ := r.exists_of_map_word hmap
  exact ⟨s.tree, ofTokens_eq_ok.mpr ⟨s, hs, rfl⟩⟩

theorem words_spaced (ha : read a = .ok ea) (b : List Char) :
    words (tokenize (a ++ ' ' :: '-' :: ' ' :: b)) =
      words (tokenize a) ++ ⟨.operator .sub, ['-']⟩ :: words (tokenize b) := by
  rw [Token.words_tokenize_append ha (stops_cons rfl _), Token.words_splitSigns_spaced]

theorem words_tight (ha : read a = .ok ea) (hleibniz : leibnizLength b = 0) :
    words (tokenize (a ++ '-' :: b)) =
      words (tokenize a) ++ ⟨.operator .sub, ['-']⟩ :: words (tokenize b) := by
  rw [Token.words_tokenize_append ha (stops_cons rfl _), Token.words_splitSigns_minus hleibniz]

theorem read_tight_ne_ok (ha : read a = .ok ea) (hleibniz : leibnizLength b ≠ 0) (e : Expr) :
    read (a ++ '-' :: b) ≠ .ok e := by
  intro hread
  obtain ⟨of, wrt, rest, rfl, hof, -⟩ := Token.exists_of_leibnizLength hleibniz
  have hmem := Token.words_splitSigns_leibniz hof ('d' :: wrt :: rest)
  obtain ⟨p, htok, -⟩ := ofTokens_eq_ok.mp hread
  have hword : ⟨.name, ['d', of]⟩ ∈
      words (tokenize (a ++ '-' :: 'd' :: of :: '/' :: 'd' :: wrt :: rest)) := by
    rw [Token.words_tokenize_append ha (stops_cons rfl _)]
    exact List.mem_append_right _ hmem
  obtain ⟨t, ht, hw⟩ := List.mem_map.mp hword
  rw [← htok] at ht
  exact Token.not_meaningful_of_leibniz hw (p.meaningful_of_mem t ht)

/-- Two texts that are read make one expression with a minus and blanks between
them. Without the blanks they make the same one, unless the second begins with an
unknown derivative, and then none. -/
theorem read_minus_iff (ha : read a = .ok ea) (hb : read b = .ok eb) :
    ∃ e, read (a ++ ' ' :: '-' :: ' ' :: b) = .ok e ∧
      ∀ e', read (a ++ '-' :: b) = .ok e' ↔ leibnizLength b = 0 ∧ e' = e := by
  have hspaced := words_spaced ha b
  obtain ⟨e, he⟩ := exists_of_words_subtract ha hb hspaced
  have htight : leibnizLength b = 0 → read (a ++ '-' :: b) = .ok e := fun hleibniz =>
    ofTokens_of_words_eq (hspaced.trans (words_tight ha hleibniz).symm) he
  refine ⟨e, he, fun e' => ⟨fun hread => ?_, ?_⟩⟩
  · have hleibniz : leibnizLength b = 0 := by
      by_contra hleibniz
      exact read_tight_ne_ok ha hleibniz e' hread
    rw [htight hleibniz] at hread
    cases hread
    exact ⟨hleibniz, rfl⟩
  · rintro ⟨hleibniz, rfl⟩
    exact htight hleibniz

/-- In `x-sin(y)` the name of the function has the minus. -/
theorem read_minus_sin :
    ∃ e, read (['x'] ++ ' ' :: '-' :: ' ' :: ['s', 'i', 'n', '(', 'y', ')']) = .ok e ∧
      read (['x'] ++ '-' :: ['s', 'i', 'n', '(', 'y', ')']) = .ok e := by
  obtain ⟨ea, ha, -⟩ := read_of_prints (prints_text (e := var none 'x') (by decide))
  obtain ⟨eb, hb, -⟩ := read_of_prints (prints_text (e := apply .sin (var none 'y')) (by decide))
  obtain ⟨e, he, hiff⟩ := read_minus_iff ha hb
  exact ⟨e, he, (hiff e).mpr ⟨rfl, rfl⟩⟩

/-- The texts `x` and `dy/dx` are read, and so is `x - dy/dx`, but not `x-dy/dx`. -/
theorem read_minus_leibniz_ne_ok :
    (∃ e, read ['x'] = .ok e) ∧ (∃ e, read ['d', 'y', '/', 'd', 'x'] = .ok e) ∧
      (∃ e, read (['x'] ++ ' ' :: '-' :: ' ' :: ['d', 'y', '/', 'd', 'x']) = .ok e) ∧
        ∀ e, read (['x'] ++ '-' :: ['d', 'y', '/', 'd', 'x']) ≠ .ok e := by
  obtain ⟨ea, ha, -⟩ := read_of_prints (prints_text (e := var none 'x') (by decide))
  obtain ⟨eb, hb, -⟩ := read_of_prints (prints_text (e := leibniz 'y' 'x') (by decide))
  exact ⟨⟨ea, ha⟩, ⟨eb, hb⟩, exists_of_words_subtract ha hb (words_spaced ha _),
    read_tight_ne_ok ha (by decide)⟩

end Expr

end Fluxion
