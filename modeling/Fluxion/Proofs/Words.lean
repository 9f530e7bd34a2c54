import Fluxion.Proofs.RoundTrip

/-!
# What reading sees of a text

Where a token stands and which blanks lie around it make no difference to what
is read. What does is the row of its words: the kinds and lexemes of the tokens
that are not blank (`Expr.ofTokens_congr`). So two texts with the same words
before the signs are settled read as the same expression, or neither reads as
any (`Expr.read_congr`).

With that, the words of two texts one behind the other are those of the first and
then those of the second, as long as the second begins with no character that a
token of the first could go on with (`Token.wordsOf_append`). A blank is such a
character although two runs of blanks do run together, because a blank is no
word; and a minus is one too, because no token has a minus but in front.

The signs are settled from left to right, and all that is carried along is whether
an operand is complete. Behind an expression one is (`Phrase.operandBehind_tokens`).
-/

namespace Fluxion

open Text (Stops stops_nil stops_cons)

namespace Token

/-- What a token is, wherever it stands. -/
structure Word where
  kind : Kind
  lexeme : List Char
deriving DecidableEq, Repr

def word (t : Token) : Word :=
  ⟨t.kind, t.lexeme⟩

/-- The words of a list of tokens. A blank is none. -/
def words (ts : List Token) : List Word :=
  (visible ts).map word

/-- The words of a text, with every minus left where the patterns put it. -/
def wordsOf (cs : List Char) : List Word :=
  words (scan cs)

theorem kind_eq_of_word_eq {t u : Token} (h : t.word = u.word) : t.kind = u.kind :=
  congrArg Word.kind h

theorem lexeme_eq_of_word_eq {t u : Token} (h : t.word = u.word) : t.lexeme = u.lexeme :=
  congrArg Word.lexeme h

theorem isBlank_congr {t u : Token} (h : t.word = u.word) : t.isBlank = u.isBlank := by
  rw [isBlank, isBlank, kind_eq_of_word_eq h]

theorem endsOperand_congr {t u : Token} (h : t.word = u.word) :
    t.endsOperand = u.endsOperand := by
  simp only [endsOperand, kind_eq_of_word_eq h, lexeme_eq_of_word_eq h]

theorem operand?_congr {t u : Token} (h : t.word = u.word) : t.operand? = u.operand? := by
  simp only [operand?, kind_eq_of_word_eq h, lexeme_eq_of_word_eq h]

theorem call?_congr {t u : Token} (h : t.word = u.word) : t.call? = u.call? := by
  simp only [call?, kind_eq_of_word_eq h, lexeme_eq_of_word_eq h]

@[simp] theorem visible_nil : visible [] = [] := rfl

theorem visible_cons (t : Token) (ts : List Token) :
    visible (t :: ts) = if t.isBlank then visible ts else t :: visible ts := by
  cases h : t.isBlank <;> simp [visible, h]

/-- Words are what is left of all tokens taken as words. -/
theorem words_eq_filter (ts : List Token) :
    words ts = (ts.map word).filter (fun w => w.kind != .blank) := by
  rw [words, visible, List.filter_map]
  rfl

theorem words_congr {ts us : List Token} (h : ts.map word = us.map word) : words ts = words us := by
  rw [words_eq_filter, words_eq_filter, h]

end Token

open Token (visible words wordsOf word scanFrom splitSigns isSpace isNameChar next runLength)

/-! ## Reading words -/

theorem Token.exists_of_map_word_append {ts us vs : List Token} {t : Token}
    (h : vs.map word = (ts ++ t :: us).map word) :
    ∃ ts' t' us', vs = ts' ++ t' :: us' ∧ ts'.map word = ts.map word ∧ t'.word = t.word ∧
      us'.map word = us.map word := by
  rw [List.map_append, List.map_cons] at h
  obtain ⟨ts', rest, rfl, hts, hrest⟩ := List.map_eq_append_iff.mp h
  obtain ⟨t', us', rfl, ht, hus⟩ := List.map_eq_cons_iff.mp hrest
  exact ⟨ts', t', us', rfl, hts, ht, hus⟩

/-- A phrase can be written with any tokens that have the same words. -/
theorem Phrase.exists_of_map_word {l : Level} (p : Phrase l) {us : List Token}
    (h : us.map word = p.tokens.map word) :
    ∃ q : Phrase l, q.tokens = us ∧ q.tree = p.tree := by
  induction p generalizing us with
  | operand t l ht =>
      obtain ⟨u, rest, rfl, hu, hnil⟩ := List.map_eq_cons_iff.mp h
      obtain rfl := List.map_eq_nil_iff.mp hnil
      exact ⟨.operand u l ((Token.operand?_congr hu).trans ht), rfl, rfl⟩
  | group o p c ho hc ih =>
      obtain ⟨o', rest, rfl, hko, hrest⟩ := List.map_eq_cons_iff.mp h
      obtain ⟨us, c', vs, rfl, hus, hkc, hnil⟩ := Token.exists_of_map_word_append hrest
      obtain rfl := List.map_eq_nil_iff.mp hnil
      obtain ⟨q, rfl, htree⟩ := ih hus
      exact ⟨.group o' q c' ((Token.kind_eq_of_word_eq hko).trans ho)
        ((Token.kind_eq_of_word_eq hkc).trans hc), rfl, htree⟩
  | call n f o p c hn ho hc ih =>
      obtain ⟨n', rest, rfl, hkn, hrest⟩ := List.map_eq_cons_iff.mp h
      obtain ⟨o', rest, rfl, hko, hrest⟩ := List.map_eq_cons_iff.mp hrest
      obtain ⟨us, c', vs, rfl, hus, hkc, hnil⟩ := Token.exists_of_map_word_append hrest
      obtain rfl := List.map_eq_nil_iff.mp hnil
      obtain ⟨q, rfl, htree⟩ := ih hus
      exact ⟨.call n' f o' q c' ((Token.call?_congr hkn).trans hn)
        ((Token.kind_eq_of_word_eq hko).trans ho) ((Token.kind_eq_of_word_eq hkc).trans hc), rfl,
        congrArg (Expr.call f.coefficient f.func) htree⟩
  | ofAtom a ih =>
      obtain ⟨q, htok, htree⟩ := ih h
      exact ⟨.ofAtom q, htok, htree⟩
  | ofPower p ih =>
      obtain ⟨q, htok, htree⟩ := ih h
      exact ⟨.ofPower q, htok, htree⟩
  | ofProduct p ih =>
      obtain ⟨q, htok, htree⟩ := ih h
      exact ⟨.ofProduct q, htok, htree⟩
  | raise a t b ht iha ihb =>
      obtain ⟨us, t', vs, rfl, hus, hkt, hvs⟩ := Token.exists_of_map_word_append h
      obtain ⟨q, rfl, htree⟩ := iha hus
      obtain ⟨q', rfl, htree'⟩ := ihb hvs
      exact ⟨.raise q t' q' ((Token.kind_eq_of_word_eq hkt).trans ht), rfl,
        congrArg₂ _ htree htree'⟩
  | multiply a op t b hop ht iha ihb =>
      obtain ⟨us, t', vs, rfl, hus, hkt, hvs⟩ := Token.exists_of_map_word_append h
      obtain ⟨q, rfl, htree⟩ := iha hus
      obtain ⟨q', rfl, htree'⟩ := ihb hvs
      exact ⟨.multiply q op t' q' hop ((Token.kind_eq_of_word_eq hkt).trans ht), rfl,
        congrArg₂ _ htree htree'⟩
  | add a op t b hop ht iha ihb =>
      obtain ⟨us, t', vs, rfl, hus, hkt, hvs⟩ := Token.exists_of_map_word_append h
      obtain ⟨q, rfl, htree⟩ := iha hus
      obtain ⟨q', rfl, htree'⟩ := ihb hvs
      exact ⟨.add q op t' q' hop ((Token.kind_eq_of_word_eq hkt).trans ht), rfl,
        congrArg₂ _ htree htree'⟩

theorem Expr.ofTokens_of_words_eq {ts us : List Token} {e : Expr} (h : words ts = words us)
    (hread : ofTokens ts = .ok e) : ofTokens us = .ok e := by
  obtain ⟨p, htok, rfl⟩ := ofTokens_eq_ok.mp hread
  have hmap : (visible us).map word = p.tokens.map word := by
    rw [htok]
    exact h.symm
  exact ofTokens_eq_ok.mpr (p.exists_of_map_word hmap)

/-- Reading depends on nothing but the words. -/
theorem Expr.ofTokens_congr {ts us : List Token} (h : words ts = words us) (e : Expr) :
    ofTokens ts = .ok e ↔ ofTokens us = .ok e :=
  ⟨ofTokens_of_words_eq h, ofTokens_of_words_eq h.symm⟩

namespace Token

/-! ## Settling the signs of words -/

/-- A number or name with a minus in front comes apart behind the minus. -/
theorem unsign?_of_minus {t : Token} {rest : List Char} (hk : t.kind = .number ∨ t.kind = .name)
    (hl : t.lexeme = '-' :: rest) :
    t.unsign? = some (⟨.operator .sub, ⟨t.span.start, t.span.start + 1⟩, ['-']⟩,
      ⟨t.kind, ⟨t.span.start + 1, t.span.stop⟩, rest⟩) := by
  rw [unsign?]
  rcases hk with hk | hk <;> simp only [hk, hl]

theorem minus_of_unsign? {t minus rest : Token} (h : t.unsign? = some (minus, rest)) :
    (t.kind = .number ∨ t.kind = .name) ∧ t.lexeme = '-' :: rest.lexeme ∧
      minus.word = ⟨.operator .sub, ['-']⟩ ∧ rest.kind = t.kind := by
  rw [unsign?] at h
  split at h
  · next hk hl =>
      cases h
      exact ⟨Or.inl hk, hl, rfl, rfl⟩
  · next hk hl =>
      cases h
      exact ⟨Or.inr hk, hl, rfl, rfl⟩
  · cases h

theorem unsign?_of_isBlank {t : Token} (h : t.isBlank = true) : t.unsign? = none := by
  have hkind : t.kind = .blank := by simpa [isBlank] using h
  rw [unsign?, hkind]

theorem isBlank_of_unsign? {t minus rest : Token} (h : t.unsign? = some (minus, rest)) :
    minus.isBlank = false ∧ rest.isBlank = false := by
  obtain ⟨hk, -, hminus, hrest⟩ := minus_of_unsign? h
  have hsub : minus.kind = .operator .sub := congrArg Word.kind hminus
  rw [isBlank, isBlank, hrest, hsub]
  rcases hk with hk | hk <;> rw [hk] <;> exact ⟨rfl, rfl⟩

theorem unsign?_congr {t u minus rest : Token} (hword : t.word = u.word)
    (h : t.unsign? = some (minus, rest)) :
    ∃ minus' rest', u.unsign? = some (minus', rest') ∧ minus.word = minus'.word ∧
      rest.word = rest'.word := by
  have hkind := kind_eq_of_word_eq hword
  obtain ⟨hk, hl, hminus, hrest⟩ := minus_of_unsign? h
  rw [hkind] at hk
  rw [lexeme_eq_of_word_eq hword] at hl
  refine ⟨_, _, unsign?_of_minus hk hl, hminus, ?_⟩
  rw [word, word, hrest, hkind]

theorem splitSigns_nil (before : Bool) : splitSigns before [] = [] := by
  rw [splitSigns]

theorem splitSigns_split {t minus rest : Token} (h : t.unsign? = some (minus, rest))
    (ts : List Token) :
    splitSigns true (t :: ts) = minus :: rest :: splitSigns rest.endsOperand ts := by
  rw [splitSigns.eq_def]
  simp only [h]

/-- A token is split, or else it is kept. -/
theorem splitSigns_cases (before : Bool) (t : Token) :
    (before = true ∧ ∃ minus rest, t.unsign? = some (minus, rest)) ∨
      (before = false ∨ t.unsign? = none) := by
  cases before with
  | false => exact Or.inr (Or.inl rfl)
  | true =>
      cases h : t.unsign? with
      | none => exact Or.inr (Or.inr rfl)
      | some parts => exact Or.inl ⟨rfl, parts.1, parts.2, rfl⟩

/-- Blanks do not matter to signs. -/
theorem visible_splitSigns (before : Bool) (ts : List Token) :
    visible (splitSigns before ts) = splitSigns before (visible ts) := by
  induction ts generalizing before with
  | nil => simp only [splitSigns_nil, visible_nil]
  | cons t ts ih =>
      cases hblank : t.isBlank with
      | true =>
          rw [splitSigns_cons (Or.inr (unsign?_of_isBlank hblank)), visible_cons, visible_cons]
          simp only [hblank, if_true]
          exact ih before
      | false =>
          rcases splitSigns_cases before t with ⟨rfl, minus, rest, h⟩ | h
          · obtain ⟨hminus, hrest⟩ := isBlank_of_unsign? h
            simp only [splitSigns_split h, visible_cons, hblank, hminus, hrest, ih,
              Bool.false_eq_true, if_false]
          · simp only [splitSigns_cons h, visible_cons, hblank, ih, Bool.false_eq_true, if_false]

theorem map_word_splitSigns {ts us : List Token} (before : Bool)
    (h : ts.map word = us.map word) :
    (splitSigns before ts).map word = (splitSigns before us).map word := by
  induction ts generalizing before us with
  | nil =>
      obtain rfl := List.map_eq_nil_iff.mp h.symm
      rfl
  | cons t ts ih =>
      obtain ⟨u, us, rfl, hu, hus⟩ := List.map_eq_cons_iff.mp h.symm
      rcases splitSigns_cases before t with ⟨rfl, minus, rest, hsplit⟩ | hkeep
      · obtain ⟨minus', rest', hsplit', hminus, hrest⟩ := unsign?_congr hu.symm hsplit
        rw [splitSigns_split hsplit, splitSigns_split hsplit']
        simp only [List.map_cons, hminus, hrest, endsOperand_congr hrest, ih _ hus.symm]
      · have hkeep' : before = false ∨ u.unsign? = none := by
          refine hkeep.imp id fun hnone => ?_
          cases hsplit : u.unsign? with
          | none => rfl
          | some parts =>
              obtain ⟨minus, rest⟩ := parts
              obtain ⟨_, _, hsome, -⟩ := unsign?_congr hu hsplit
              rw [hnone] at hsome
              cases hsome
        rw [splitSigns_cons hkeep, splitSigns_cons hkeep', isBlank_congr hu.symm,
          endsOperand_congr hu.symm]
        simp only [List.map_cons, hu, ih _ hus.symm]

theorem words_splitSigns {ts us : List Token} (before : Bool) (h : words ts = words us) :
    words (splitSigns before ts) = words (splitSigns before us) := by
  rw [words, words, visible_splitSigns, visible_splitSigns]
  exact map_word_splitSigns before h

/-- Whether an operand is complete behind some tokens. -/
def operandBehind (before : Bool) (ts : List Token) : Bool :=
  ts.foldl (fun flag t => if t.isBlank then flag else t.endsOperand) before

theorem splitSigns_append (before : Bool) (ts us : List Token) :
    splitSigns before (ts ++ us) =
      splitSigns before ts ++ splitSigns (operandBehind before (splitSigns before ts)) us := by
  induction ts generalizing before with
  | nil => simp only [splitSigns_nil, List.nil_append, operandBehind, List.foldl_nil]
  | cons t ts ih =>
      rw [List.cons_append]
      rcases splitSigns_cases before t with ⟨rfl, minus, rest, h⟩ | h
      · obtain ⟨hminus, hrest⟩ := isBlank_of_unsign? h
        simp only [splitSigns_split h, ih, List.cons_append, operandBehind, List.foldl_cons,
          hrest, Bool.false_eq_true, if_false]
      · simp only [splitSigns_cons h, ih, List.cons_append, operandBehind, List.foldl_cons]

theorem operandBehind_visible (before : Bool) (ts : List Token) :
    operandBehind before (visible ts) = operandBehind before ts := by
  induction ts generalizing before with
  | nil => rfl
  | cons t ts ih =>
      rw [visible_cons]
      cases hblank : t.isBlank <;> simp [operandBehind, hblank] <;> exact ih _

/-- A token that cannot be split is kept. -/
theorem mem_splitSigns {before : Bool} {t : Token} {ts : List Token} (h : t ∈ ts)
    (hkeep : t.unsign? = none) : t ∈ splitSigns before ts := by
  obtain ⟨us, vs, rfl⟩ := List.append_of_mem h
  rw [splitSigns_append, splitSigns_cons (Or.inr hkeep)]
  exact List.mem_append_right _ List.mem_cons_self

/-- A token that an expression can contain. -/
def Meaningful (t : Token) : Prop :=
  t.operand?.isSome = true ∨ t.call?.isSome = true ∨ t.kind = .openParen ∨
    t.kind = .closeParen ∨ ∃ op, t.kind = .operator op

theorem not_meaningful_of_symbol {t : Token} (h : t.kind = .symbol) : ¬ t.Meaningful := by
  simp [Meaningful, operand?, call?, h]

end Token

namespace Phrase

open Token (Meaningful operandBehind)

theorem meaningful_of_mem {l : Level} (p : Phrase l) : ∀ t ∈ p.tokens, t.Meaningful := by
  have hbinary : ∀ {ts us : List Token} {t : Token} {op : Operator}, t.kind = .operator op →
      (∀ u ∈ ts, u.Meaningful) → (∀ u ∈ us, u.Meaningful) → ∀ u ∈ ts ++ t :: us, u.Meaningful := by
    intro ts us t op ht hts hus
    rw [List.forall_mem_append, List.forall_mem_cons]
    exact ⟨hts, Or.inr (Or.inr (Or.inr (Or.inr ⟨op, ht⟩))), hus⟩
  induction p with
  | operand t l ht =>
      intro u hu
      obtain rfl := List.mem_singleton.mp hu
      exact Or.inl (Option.isSome_iff_exists.mpr ⟨l, ht⟩)
  | group o p c ho hc ih =>
      rw [tokens, List.forall_mem_cons, List.forall_mem_append, List.forall_mem_singleton]
      exact ⟨Or.inr (Or.inr (Or.inl ho)), ih, Or.inr (Or.inr (Or.inr (Or.inl hc)))⟩
  | call n f o p c hn ho hc ih =>
      rw [tokens, List.forall_mem_cons, List.forall_mem_cons, List.forall_mem_append,
        List.forall_mem_singleton]
      exact ⟨Or.inr (Or.inl (Option.isSome_iff_exists.mpr ⟨f, hn⟩)), Or.inr (Or.inr (Or.inl ho)), ih,
        Or.inr (Or.inr (Or.inr (Or.inl hc)))⟩
  | ofAtom a ih | ofPower p ih | ofProduct p ih => exact ih
  | raise a t b ht iha ihb => exact hbinary ht iha ihb
  | multiply a op t b hop ht iha ihb | add a op t b hop ht iha ihb => exact hbinary ht iha ihb

/-- Behind a phrase an operand is complete. -/
theorem operandBehind_tokens {l : Level} (p : Phrase l) (before : Bool) :
    operandBehind before p.tokens = true := by
  have hclosed : ∀ {flag : Bool} (ts : List Token) {c : Token}, c.kind = .closeParen →
      operandBehind flag (ts ++ [c]) = true := by
    intro flag ts c hc
    simp [operandBehind, Token.isBlank, Token.endsOperand, hc]
  have hbinary : ∀ {flag : Bool} {ts us : List Token} {t : Token},
      (∀ flag, operandBehind flag us = true) → operandBehind flag (ts ++ t :: us) = true := by
    intro flag ts us t hus
    rw [operandBehind, List.foldl_append, List.foldl_cons]
    exact hus _
  induction p generalizing before with
  | operand t l ht =>
      obtain ⟨hends, hblank⟩ := Token.endsOperand_of_operand? ht
      simp [tokens, operandBehind, hends, hblank]
  | group o p c ho hc ih => exact hclosed (o :: p.tokens) hc
  | call n f o p c hn ho hc ih => exact hclosed (n :: o :: p.tokens) hc
  | ofAtom a ih | ofPower p ih | ofProduct p ih => exact ih before
  | raise a t b ht iha ihb => exact hbinary ihb
  | multiply a op t b hop ht iha ihb | add a op t b hop ht iha ihb => exact hbinary ihb

end Phrase

namespace Token

/-! ## Patterns at a boundary -/

/-- A character that some token other than a blank could go on with, if it is not
the first one of the token. -/
def goesOn (c : Char) : Bool :=
  isNameChar c || c == '/'

/-- A text that goes on with no token but a blank in front of it. -/
abbrev Breaks (cs : List Char) : Prop :=
  Stops goesOn cs

theorem Breaks.stops {p : Char → Bool} {cs : List Char} (h : Breaks cs)
    (hp : ∀ c, p c = true → goesOn c = true) : Stops p cs := by
  intro c hc
  by_contra hpc
  have hgoes := hp c (by simpa using hpc)
  rw [h c hc] at hgoes
  cases hgoes

theorem goesOn_of_isNameChar {c : Char} (h : isNameChar c = true) : goesOn c = true := by
  rw [goesOn, h, Bool.true_or]

theorem goesOn_of_isDigit {c : Char} (h : c.isDigit = true) : goesOn c = true :=
  goesOn_of_isNameChar (by simp [isNameChar, Char.isAlphanum, h])

theorem goesOn_of_isAlpha {c : Char} (h : c.isAlpha = true) : goesOn c = true :=
  goesOn_of_isNameChar (by simp [isNameChar, Char.isAlphanum, h])

theorem takeWhile_append_of_breaks {p : Char → Bool} {rest : List Char} (h : Stops p rest)
    (cs : List Char) : (cs ++ rest).takeWhile p = cs.takeWhile p := by
  induction cs with
  | nil =>
      cases rest with
      | nil => rfl
      | cons c rest => exact List.takeWhile_cons_of_neg (by simp [h c rfl])
  | cons c cs ih =>
      rw [List.cons_append, List.takeWhile_cons, List.takeWhile_cons, ih]

theorem runLength_append_of_stops {p : Char → Bool} {rest : List Char} (h : Stops p rest)
    (cs : List Char) : runLength p (cs ++ rest) = runLength p cs := by
  rw [runLength, takeWhile_append_of_breaks h, runLength]

theorem runLength_le (p : Char → Bool) (cs : List Char) : runLength p cs ≤ cs.length :=
  (List.takeWhile_prefix p).length_le

theorem signLength_le (cs : List Char) : signLength cs ≤ cs.length := by
  unfold signLength
  split
  · exact Nat.succ_pos _
  · exact Nat.zero_le _

theorem decimalLength_le (cs : List Char) : decimalLength cs ≤ cs.length := by
  have hwhole := runLength_le Char.isDigit cs
  simp only [decimalLength]
  split
  · next rest hrest =>
      have hpart := runLength_le Char.isDigit rest
      have hlen := congrArg List.length hrest
      rw [List.length_drop, List.length_cons] at hlen
      split <;> omega
  · exact hwhole

theorem decimalLength_append_of_breaks {rest : List Char} (h : Breaks rest) (cs : List Char) :
    decimalLength (cs ++ rest) = decimalLength cs := by
  have hdigit : Stops Char.isDigit rest := h.stops fun _ => goesOn_of_isDigit
  have hdrop : (cs ++ rest).drop (runLength Char.isDigit cs) =
      cs.drop (runLength Char.isDigit cs) ++ rest :=
    List.drop_append_of_le_length (runLength_le Char.isDigit cs)
  simp only [decimalLength, runLength_append_of_stops hdigit, hdrop]
  cases hcs : cs.drop (runLength Char.isDigit cs) with
  | nil =>
      cases rest with
      | nil => rfl
      | cons c rest =>
          have hpoint : c ≠ '.' := by
            rintro rfl
            exact absurd (h '.' rfl) (by decide)
          simp [hpoint]
  | cons c more =>
      by_cases hpoint : c = '.'
      · subst hpoint
        simp only [List.cons_append, runLength_append_of_stops hdigit]
      · simp [hpoint]

theorem signLength_append {cs : List Char} (hne : cs ≠ []) (rest : List Char) :
    signLength (cs ++ rest) = signLength cs := by
  obtain ⟨c, cs, rfl⟩ := List.exists_cons_of_ne_nil hne
  rw [List.cons_append]
  unfold signLength
  split
  · next heq =>
      cases heq
      rfl
  · next hminus =>
      split
      · next heq =>
          cases heq
          exact absurd rfl (hminus _)
      · rfl

theorem front_le (cs : List Char) :
    signLength cs + decimalLength (cs.drop (signLength cs)) ≤ cs.length := by
  have hsign := signLength_le cs
  have hdecimal := decimalLength_le (cs.drop (signLength cs))
  rw [List.length_drop] at hdecimal
  omega

theorem numberLength_append_of_breaks {cs rest : List Char} (hne : cs ≠ []) (h : Breaks rest) :
    numberLength (cs ++ rest) = numberLength cs := by
  simp only [numberLength, signLength_append hne,
    List.drop_append_of_le_length (signLength_le cs), decimalLength_append_of_breaks h]

theorem nameLength_append_of_breaks {cs rest : List Char} (hne : cs ≠ []) (h : Breaks rest) :
    nameLength (cs ++ rest) = nameLength cs := by
  simp only [nameLength, signLength_append hne, List.drop_append_of_le_length (signLength_le cs),
    decimalLength_append_of_breaks h, List.drop_append_of_le_length (front_le cs)]
  have hname : Stops isNameChar rest := h.stops fun _ => goesOn_of_isNameChar
  cases cs.drop (signLength cs + decimalLength (cs.drop (signLength cs))) with
  | cons c more => simp only [List.cons_append, runLength_append_of_stops hname]
  | nil =>
      cases rest with
      | nil => rfl
      | cons c rest =>
          have halpha : c.isAlpha = false := h.stops (fun _ => goesOn_of_isAlpha) c rfl
          simp [halpha]

theorem exists_of_leibnizLength {cs : List Char} (h : leibnizLength cs ≠ 0) :
    ∃ of wrt rest, cs = 'd' :: of :: '/' :: 'd' :: wrt :: rest ∧ of.isAlpha = true ∧
      wrt.isAlpha = true := by
  unfold leibnizLength at h
  split at h
  · next of wrt rest =>
      split at h
      · next halpha => exact ⟨of, wrt, rest, rfl, Bool.and_eq_true_iff.mp halpha⟩
      · exact absurd rfl h
  · exact absurd rfl h

/-- The letters and the slash of a derivative all go on with it. -/
theorem exists_of_leibnizLength_append {cs rest : List Char} (hne : cs ≠ []) (h : Breaks rest)
    (hpos : leibnizLength (cs ++ rest) ≠ 0) : leibnizLength cs = 5 := by
  obtain ⟨of, wrt, more, heq, hof, hwrt⟩ := exists_of_leibnizLength hpos
  have hbreak : ∀ {c : Char} {more : List Char}, rest = c :: more → goesOn c = false := by
    rintro c more rfl
    exact h c rfl
  match cs, hne with
  | [x], _ =>
      have hc := hbreak (List.cons.inj heq).2
      rw [goesOn_of_isAlpha hof] at hc
      cases hc
  | [x, y], _ => cases hbreak (List.cons.inj (List.cons.inj heq).2).2
  | [x, y, z], _ => cases hbreak (List.cons.inj (List.cons.inj (List.cons.inj heq).2).2).2
  | [x, y, z, u], _ =>
      have hc := hbreak (List.cons.inj (List.cons.inj (List.cons.inj (List.cons.inj heq).2).2).2).2
      rw [goesOn_of_isAlpha hwrt] at hc
      cases hc
  | x :: y :: z :: u :: v :: cs, _ =>
      simp only [List.cons_append, List.cons.injEq] at heq
      obtain ⟨rfl, rfl, rfl, rfl, rfl, -⟩ := heq
      exact leibnizLength_eq_five hof hwrt cs

theorem leibnizLength_append_of_breaks {cs rest : List Char} (hne : cs ≠ []) (h : Breaks rest) :
    leibnizLength (cs ++ rest) = leibnizLength cs := by
  by_cases hzero : leibnizLength cs = 0
  · rw [hzero]
    by_contra hpos
    rw [exists_of_leibnizLength_append hne h hpos] at hzero
    cases hzero
  · obtain ⟨of, wrt, more, rfl, hof, hwrt⟩ := exists_of_leibnizLength hzero
    rw [leibnizLength_eq_five hof hwrt]
    exact leibnizLength_eq_five hof hwrt (more ++ rest)

/-! ## Words of texts one behind the other -/

theorem longest_congr {cs ds : List Char} {best : Match} {kinds : List Kind}
    (h : ∀ k ∈ kinds, k.matchLength cs = k.matchLength ds) :
    longest cs best kinds = longest ds best kinds := by
  induction kinds generalizing best with
  | nil => rfl
  | cons k kinds ih =>
      rw [longest, longest, h k List.mem_cons_self]
      exact ih fun k' hk' => h k' (List.mem_cons_of_mem k hk')

theorem next_congr {cs ds : List Char} (h : ∀ k : Kind, k.matchLength cs = k.matchLength ds) :
    next cs = next ds := by
  rw [next, next, longest_congr fun k _ => h k]

theorem charLength_append {cs : List Char} (hne : cs ≠ []) (c : Char) (rest : List Char) :
    charLength c (cs ++ rest) = charLength c cs := by
  obtain ⟨d, cs, rfl⟩ := List.exists_cons_of_ne_nil hne
  rfl

/-- The next token does not reach beyond a boundary, unless it is a blank. -/
theorem next_append_of_breaks {c : Char} {cs rest : List Char} (hc : isSpace c = false)
    (h : Breaks rest) : next (c :: cs ++ rest) = next (c :: cs) := by
  have hne : c :: cs ≠ [] := List.cons_ne_nil c cs
  refine next_congr fun k => ?_
  cases k with
  | blank =>
      rw [Kind.matchLength, Kind.matchLength, List.cons_append,
        runLength_of_stops (stops_cons hc _), runLength_of_stops (stops_cons hc _)]
  | operator op => exact charLength_append hne op.symbol rest
  | openParen => exact charLength_append hne '(' rest
  | closeParen => exact charLength_append hne ')' rest
  | number => exact numberLength_append_of_breaks hne h
  | name => exact nameLength_append_of_breaks hne h
  | leibniz => exact leibnizLength_append_of_breaks hne h
  | symbol => rfl

theorem charLength_le (c : Char) {cs : List Char} (hne : cs ≠ []) : charLength c cs ≤ cs.length := by
  obtain ⟨d, cs, rfl⟩ := List.exists_cons_of_ne_nil hne
  rw [charLength]
  split
  · exact Nat.succ_pos _
  · exact Nat.zero_le _

theorem numberLength_le_length (cs : List Char) : numberLength cs ≤ cs.length := by
  have hfront := front_le cs
  simp only [numberLength]
  split <;> omega

theorem nameLength_le_length (cs : List Char) : nameLength cs ≤ cs.length := by
  have hfront := front_le cs
  simp only [nameLength]
  split
  · next c rest hrest =>
      have hrun := runLength_le isNameChar rest
      have hlen := congrArg List.length hrest
      rw [List.length_drop, List.length_cons] at hlen
      split <;> omega
  · exact Nat.zero_le _

theorem leibnizLength_le_length (cs : List Char) : leibnizLength cs ≤ cs.length := by
  by_cases h : leibnizLength cs = 0
  · rw [h]
    exact Nat.zero_le _
  · obtain ⟨of, wrt, rest, rfl, hof, hwrt⟩ := exists_of_leibnizLength h
    rw [leibnizLength_eq_five hof hwrt]
    simp

theorem matchLength_le_length (k : Kind) {cs : List Char} (hne : cs ≠ []) :
    k.matchLength cs ≤ cs.length := by
  cases k with
  | blank => exact runLength_le isSpace cs
  | operator op => exact charLength_le op.symbol hne
  | openParen => exact charLength_le '(' hne
  | closeParen => exact charLength_le ')' hne
  | number => exact numberLength_le_length cs
  | name => exact nameLength_le_length cs
  | leibniz => exact leibnizLength_le_length cs
  | symbol => exact Nat.zero_le _

/-- A token lies inside the text. -/
theorem next_length_le {cs : List Char} (hne : cs ≠ []) : (next cs).length ≤ cs.length := by
  simp only [next]
  split
  · exact List.length_pos_iff.mpr hne
  · rcases longest_cases cs ⟨.symbol, 0⟩ Kind.patterns with h | ⟨k, -, h⟩
    · rw [h]
      exact Nat.zero_le _
    · rw [h]
      exact matchLength_le_length k hne

theorem map_word_scanFrom (offset offset' : Nat) (cs : List Char) :
    (scanFrom offset cs).map word = (scanFrom offset' cs).map word := by
  induction offset, cs using scanFrom.induct generalizing offset' with
  | case1 offset => rw [scanFrom, scanFrom]
  | case2 offset c rest m lexeme stop ih =>
      rw [scanFrom, scanFrom, List.map_cons, List.map_cons, ih]
      rfl

theorem words_scanFrom (offset : Nat) (cs : List Char) : words (scanFrom offset cs) = wordsOf cs :=
  words_congr (map_word_scanFrom offset 0 cs)

@[simp] theorem wordsOf_nil : wordsOf [] = [] := by
  rw [wordsOf, scan, scanFrom]
  rfl

theorem words_cons (t : Token) (ts : List Token) :
    words (t :: ts) = if t.isBlank then words ts else t.word :: words ts := by
  rw [words, visible_cons]
  split <;> rfl

theorem wordsOf_eq {cs : List Char} (hne : cs ≠ []) :
    wordsOf cs = (if (next cs).kind == .blank then [] else
      [⟨(next cs).kind, cs.take (next cs).length⟩]) ++ wordsOf (cs.drop (next cs).length) := by
  obtain ⟨c, cs, rfl⟩ := List.exists_cons_of_ne_nil hne
  rw [wordsOf, scan, scanFrom, words_cons, words_scanFrom]
  cases hblank : (next (c :: cs)).kind == .blank <;> simp [isBlank, word, hblank]

/-- A blank at the start of a text is no word. -/
theorem wordsOf_of_blank {cs : List Char} {n : Nat} (hne : cs ≠ []) (h : next cs = ⟨.blank, n⟩) :
    wordsOf cs = wordsOf (cs.drop n) := by
  rw [wordsOf_eq hne, h]
  rfl

/-- Any other token at the start of a text is its first word. -/
theorem wordsOf_of_next {cs : List Char} {kind : Kind} {n : Nat} (hne : cs ≠ [])
    (h : next cs = ⟨kind, n⟩) (hkind : kind ≠ .blank) :
    wordsOf cs = ⟨kind, cs.take n⟩ :: wordsOf (cs.drop n) := by
  rw [wordsOf_eq hne, h, if_neg (by simpa using hkind)]
  rfl

/-! ## Blanks between texts -/

/-- A character that begins no token but a blank or a symbol. -/
structure Idle (c : Char) : Prop where
  inFront : inFront c = false
  isAlpha : c.isAlpha = false
  ne_open : c ≠ '('
  ne_close : c ≠ ')'
  ne_symbol : ∀ op : Operator, c ≠ op.symbol

theorem Idle.matchLength {c : Char} (h : Idle c) {k : Kind} (hk : k ≠ .blank) (cs : List Char) :
    k.matchLength (c :: cs) = 0 := by
  have hstop : Stops Token.inFront (c :: cs) := stops_cons h.inFront cs
  cases k with
  | blank => exact absurd rfl hk
  | operator op => exact if_neg (h.ne_symbol op)
  | openParen => exact if_neg h.ne_open
  | closeParen => exact if_neg h.ne_close
  | number => exact Nat.le_zero.mp (numberLength_le (Or.inl rfl) hstop)
  | name => exact nameLength_of_stops (Or.inl rfl) hstop (stops_cons h.isAlpha cs)
  | leibniz =>
      refine leibnizLength_of_ne ?_ cs
      rintro rfl
      exact absurd h.isAlpha (by decide)
  | symbol => rfl

theorem toNat_of_isAlpha {c : Char} (h : c.isAlpha = true) : 65 ≤ c.toNat ∧ c.toNat ≤ 122 := by
  simp only [Char.isAlpha, Char.isUpper, Char.isLower, Bool.or_eq_true, Bool.and_eq_true,
    decide_eq_true_eq, ge_iff_le, UInt32.le_iff_toNat_le] at h
  rcases h with ⟨hlow, hhigh⟩ | ⟨hlow, hhigh⟩
  · exact ⟨hlow, Nat.le_trans hhigh (by decide)⟩
  · exact ⟨Nat.le_trans (by decide) hlow, hhigh⟩

/-- Blanks keep clear of the printable part of ASCII. -/
theorem toNat_of_isBlank {c : Char} (h : Text.isBlank c = true) : c.toNat ≤ 32 ∨ 133 ≤ c.toNat := by
  simp only [Text.isBlank, Text.blankRanges, List.any_cons, List.any_nil, Bool.or_false,
    Bool.or_eq_true, Bool.and_eq_true, decide_eq_true_eq] at h
  omega

theorem ne_of_isBlank {c d : Char} (h : Text.isBlank c = true) (hd : 32 < d.toNat ∧ d.toNat < 133) :
    c ≠ d := by
  rintro rfl
  have := toNat_of_isBlank h
  omega

theorem isAlpha_of_isBlank {c : Char} (h : Text.isBlank c = true) : c.isAlpha = false := by
  by_contra halpha
  have := toNat_of_isAlpha (by simpa using halpha)
  have := toNat_of_isBlank h
  omega

theorem isDigit_of_isBlank {c : Char} (h : Text.isBlank c = true) : c.isDigit = false := by
  by_contra hdigit
  have := Char.isDigit_iff_toNat.mp (by simpa using hdigit)
  have := toNat_of_isBlank h
  simp at *
  omega

theorem Leads.isBlank {c : Char} (h : Leads c) : Text.isBlank c = false := by
  by_contra hblank
  have hblank : Text.isBlank c = true := by simpa using hblank
  rcases h with hdigit | halpha | rfl
  · rw [isDigit_of_isBlank hblank] at hdigit
    cases hdigit
  · rw [isAlpha_of_isBlank hblank] at halpha
    cases halpha
  · cases hblank

theorem idle_of_isBlank {c : Char} (h : Text.isBlank c = true) : Idle c where
  inFront := by
    simp [inFront, SplitName.isNumeric, isDigit_of_isBlank h, ne_of_isBlank h (d := '.') (by decide),
      ne_of_isBlank h (d := '-') (by decide)]
  isAlpha := isAlpha_of_isBlank h
  ne_open := ne_of_isBlank h (by decide)
  ne_close := ne_of_isBlank h (by decide)
  ne_symbol op := ne_of_isBlank h (by cases op <;> decide)

theorem goesOn_of_isBlank {c : Char} (h : Text.isBlank c = true) : goesOn c = false := by
  simp [goesOn, isNameChar, Char.isAlphanum, isAlpha_of_isBlank h, isDigit_of_isBlank h,
    ne_of_isBlank h (d := '_') (by decide), ne_of_isBlank h (d := '.') (by decide),
    ne_of_isBlank h (d := '/') (by decide)]

theorem isBlank_of_isSpace {c : Char} (h : isSpace c = true) : Text.isBlank c = true := by
  simp only [isSpace, Bool.or_eq_true, beq_iff_eq] at h
  rcases h with ((rfl | rfl) | rfl) | rfl <;> decide

theorem next_of_isSpace {c : Char} (h : isSpace c = true) (cs : List Char) :
    next (c :: cs) = ⟨.blank, runLength isSpace (c :: cs)⟩ := by
  have hpos : 0 < runLength isSpace (c :: cs) := by
    rw [runLength, List.takeWhile_cons_of_pos h]
    exact Nat.succ_pos _
  refine next_of_max (by decide) hpos fun k _ hk => ?_
  rw [(idle_of_isBlank (isBlank_of_isSpace h)).matchLength hk]
  exact hpos

/-- A blank that is none inside an expression is a symbol there. -/
theorem next_of_isBlank {c : Char} (h : Text.isBlank c = true) (hspace : isSpace c = false)
    (cs : List Char) : next (c :: cs) = ⟨.symbol, 1⟩ := by
  have hnone : ∀ k ∈ Kind.patterns, k.matchLength (c :: cs) ≤ (Match.mk .symbol 0).length := by
    intro k _
    by_cases hk : k = .blank
    · rw [hk, Kind.matchLength, runLength_of_stops (stops_cons hspace cs)]
    · rw [(idle_of_isBlank h).matchLength hk]
  rw [next, longest_of_le hnone]
  rfl

theorem drop_runLength (p : Char → Bool) (cs : List Char) :
    cs.drop (runLength p cs) = cs.dropWhile p := by
  have hdrop : (cs.takeWhile p ++ cs.dropWhile p).drop (cs.takeWhile p).length = cs.dropWhile p :=
    List.drop_left
  rwa [List.takeWhile_append_dropWhile] at hdrop

theorem wordsOf_dropWhile (cs : List Char) : wordsOf (cs.dropWhile isSpace) = wordsOf cs := by
  cases cs with
  | nil => rfl
  | cons c cs =>
      cases hc : isSpace c with
      | false => rw [List.dropWhile_cons_of_neg (by simp [hc])]
      | true =>
          rw [wordsOf_of_blank (List.cons_ne_nil c cs) (next_of_isSpace hc cs), drop_runLength]

theorem wordsOf_cons_of_isSpace {c : Char} (h : isSpace c = true) (cs : List Char) :
    wordsOf (c :: cs) = wordsOf cs := by
  rw [← wordsOf_dropWhile (c :: cs), List.dropWhile_cons_of_pos h, wordsOf_dropWhile]

/-- The words of two texts one behind the other, if no token of the first goes on
in the second. -/
theorem wordsOf_append {cs rest : List Char} (h : Breaks rest) :
    wordsOf (cs ++ rest) = wordsOf cs ++ wordsOf rest := by
  -- Blanks are taken off one by one: a run of them may go on in `rest`, and then
  -- `next` is not the same with `rest` as without.
  induction hn : cs.length using Nat.strong_induction_on generalizing cs with
  | _ n ih =>
      cases cs with
      | nil => simp
      | cons c cs =>
          have hne : c :: cs ≠ [] := List.cons_ne_nil c cs
          cases hc : isSpace c with
          | true =>
              rw [List.cons_append, wordsOf_cons_of_isSpace hc, wordsOf_cons_of_isSpace hc]
              exact ih cs.length (by simp at hn; omega) rfl
          | false =>
              have hpos := next_length_pos (c :: cs)
              have hle := next_length_le hne
              rw [wordsOf_eq hne, wordsOf_eq (by simp), next_append_of_breaks hc h,
                List.take_append_of_le_length hle, List.drop_append_of_le_length hle,
                ih _ (by simp at hn hpos ⊢; omega) rfl, List.append_assoc]

/-- A text of blanks has no words but symbols. -/
theorem kind_of_mem_wordsOf_blanks {cs : List Char} (h : ∀ c ∈ cs, Text.isBlank c = true) :
    ∀ w ∈ wordsOf cs, w.kind = .symbol := by
  induction cs with
  | nil => simp
  | cons c cs ih =>
      obtain ⟨hc, hcs⟩ := List.forall_mem_cons.mp h
      cases hspace : isSpace c with
      | true =>
          rw [wordsOf_cons_of_isSpace hspace]
          exact ih hcs
      | false =>
          rw [wordsOf_of_next (List.cons_ne_nil c cs) (next_of_isBlank hc hspace cs) (by decide),
            List.forall_mem_cons]
          exact ⟨rfl, ih hcs⟩

theorem breaks_of_blanks {cs : List Char} (h : ∀ c ∈ cs, Text.isBlank c = true) : Breaks cs := by
  match cs with
  | [] => exact stops_nil goesOn
  | c :: cs => exact stops_cons (goesOn_of_isBlank (h c List.mem_cons_self)) cs

theorem wordsOf_spaces {cs : List Char} (h : ∀ c ∈ cs, isSpace c = true) : wordsOf cs = [] := by
  rw [← wordsOf_dropWhile cs, List.dropWhile_eq_nil_iff.mpr h, wordsOf_nil]

end Token

/-! ## Reading texts behind one another -/

namespace Expr

variable {cs rest : List Char} {e : Expr}

/-- Reading a text depends on nothing but its words. -/
theorem read_congr {cs ds : List Char} (h : wordsOf cs = wordsOf ds) (e : Expr) :
    read cs = .ok e ↔ read ds = .ok e :=
  ofTokens_congr (Token.words_splitSigns false h) e

/-- What is read is a phrase of the words of the text, once their signs are
settled. -/
theorem read_eq_ok : read cs = .ok e ↔
    ∃ p : Phrase .sum, p.tokens = splitSigns false (visible (Token.scan cs)) ∧ p.tree = e := by
  rw [← Token.visible_splitSigns]
  exact ofTokens_eq_ok

theorem kind_ne_symbol_of_read (h : read cs = .ok e) : ∀ w ∈ wordsOf cs, w.kind ≠ .symbol := by
  obtain ⟨p, htok, -⟩ := read_eq_ok.mp h
  intro w hw hsymbol
  obtain ⟨t, ht, rfl⟩ := List.mem_map.mp hw
  have hkeep : t.unsign? = none := by
    have hkind : t.kind = .symbol := hsymbol
    rw [Token.unsign?, hkind]
  have hmem : t ∈ p.tokens := by
    rw [htok]
    exact Token.mem_splitSigns ht hkeep
  exact Token.not_meaningful_of_symbol hsymbol (p.meaningful_of_mem t hmem)

theorem wordsOf_ne_nil_of_read (h : read cs = .ok e) : wordsOf cs ≠ [] := by
  obtain ⟨p, htok, -⟩ := read_eq_ok.mp h
  intro hnil
  rw [List.map_eq_nil_iff.mp hnil, Token.splitSigns_nil] at htok
  exact p.tokens_ne_nil htok

/-- Nothing but blanks is no expression. -/
theorem read_blanks_ne_ok (h : ∀ c ∈ cs, Text.isBlank c = true) : read cs ≠ .ok e := by
  intro hread
  obtain ⟨w, hw⟩ := List.exists_mem_of_ne_nil _ (wordsOf_ne_nil_of_read hread)
  exact kind_ne_symbol_of_read hread w hw (Token.kind_of_mem_wordsOf_blanks h w hw)

/-- Blanks behind a text that is read are blanks inside an expression, and the
text is read without them. -/
theorem read_of_read_append_blanks (h : ∀ c ∈ rest, Text.isBlank c = true)
    (hread : read (cs ++ rest) = .ok e) : read cs = .ok e := by
  have happend : wordsOf (cs ++ rest) = wordsOf cs ++ wordsOf rest :=
    Token.wordsOf_append (Token.breaks_of_blanks h)
  have hnone : wordsOf rest = [] := by
    refine List.eq_nil_iff_forall_not_mem.mpr fun w hw => ?_
    have hmem : w ∈ wordsOf (cs ++ rest) := by
      rw [happend]
      exact List.mem_append_right _ hw
    exact kind_ne_symbol_of_read hread w hmem (Token.kind_of_mem_wordsOf_blanks h w hw)
  rw [hnone, List.append_nil] at happend
  exact (read_congr happend e).mp hread

theorem read_append_spaces (h : ∀ c ∈ rest, isSpace c = true) (e : Expr) :
    read (cs ++ rest) = .ok e ↔ read cs = .ok e := by
  refine read_congr ?_ e
  rw [Token.wordsOf_append (Token.breaks_of_blanks fun c hc => Token.isBlank_of_isSpace (h c hc)),
    Token.wordsOf_spaces h, List.append_nil]

end Expr

end Fluxion
