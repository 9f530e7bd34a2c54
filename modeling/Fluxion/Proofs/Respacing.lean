import Fluxion.Proofs.Patterns

/-!
# One blank between any two words

The words of a text can be written anew with a single blank between any two of them
(`respaced`), and are the words of the text that this makes. Two things are behind it.

The text of a token is cut into that token when it stands alone. For a token as it
was cut this is maximal munch, and the two parts of a token that has come apart
behind its minus begin nothing else either (`standsAlone_of_mem_tokenize`). A blank
behind a word makes no difference, since a blank is what no word goes on with.

Signs are settled anew along the new tokens, with the same context for each of them as
before. But no sign is left that would be split off, so all of them are kept
(`splitSigns_of_signsSettled`).
-/

namespace Fluxion

open Text (stops_cons)

namespace Token

/-! ## Tokens on their own -/

/-- The text of a token begins with the token itself. -/
def StandsAlone (t : Token) : Prop :=
  Munches t.lexeme t.kind t.lexeme

theorem standsAlone_of_next {kind : Kind} {lexeme : List Char} (hne : lexeme ≠ [])
    (h : next lexeme = ⟨kind, lexeme.length⟩) (span : Span) :
    StandsAlone ⟨kind, span, lexeme⟩ := by
  have hmunch := munches_next hne
  rwa [h, List.take_length] at hmunch

theorem standsAlone_of_mem_tokenize {cs : List Char} : ∀ t ∈ tokenize cs, t.StandsAlone := by
  refine forall_mem_tokenize ?_ ?_ ?_
  · exact forall_mem_scanFrom (fun cs span hne => (munches_next hne).alone) 0 cs
  · exact standsAlone_of_next (List.cons_ne_nil _ _) (by decide)
  · intro kind span rest hrest
    have hnext : next (rest ++ []) = ⟨kind, rest.length⟩ := next_unsigned hrest trivial
    obtain ⟨c, more, rfl, -⟩ := hrest.exists_cons
    rw [List.append_nil] at hnext
    exact standsAlone_of_next (List.cons_ne_nil c more) hnext span

theorem Munches.ne_nil {cs lexeme : List Char} {kind : Kind} (h : Munches cs kind lexeme) :
    lexeme ≠ [] := by
  cases h with
  | fits hne hstart hfits hlongest => exact hne
  | symbol hcs hnone => exact List.cons_ne_nil _ _

/-- The text of a token that is not blank has one word. -/
theorem StandsAlone.wordsOf_lexeme {t : Token} (h : t.StandsAlone) (hblank : t.isBlank = false) :
    wordsOf t.lexeme = [t.word] := by
  have hne := h.ne_nil
  obtain ⟨hkind, hlexeme⟩ := (munches_next hne).unique h
  have hrest : t.lexeme.drop (next t.lexeme).length = [] := by
    have hsplit := List.take_append_drop (next t.lexeme).length t.lexeme
    rw [hlexeme] at hsplit
    exact List.append_right_eq_self.mp hsplit
  have hword : ((next t.lexeme).kind == .blank) = false := by rwa [hkind]
  rw [wordsOf_eq hne, hword, hkind, hlexeme, hrest, wordsOf_nil]
  rfl

/-! ## Words with blanks between them -/

/-- The lexemes of some tokens, with a blank between any two of them. -/
def spaced (ts : List Token) : List Char :=
  List.intercalate [' '] (ts.map (·.lexeme))

theorem wordsOf_spaced {ts : List Token} (halone : ∀ t ∈ ts, t.StandsAlone)
    (hblank : ∀ t ∈ ts, t.isBlank = false) : wordsOf (spaced ts) = ts.map word := by
  induction ts with
  | nil => exact wordsOf_nil
  | cons t ts ih =>
      obtain ⟨ht, hts⟩ := List.forall_mem_cons.mp halone
      obtain ⟨hb, hbs⟩ := List.forall_mem_cons.mp hblank
      have hword := ht.wordsOf_lexeme hb
      cases ts with
      | nil =>
          rw [spaced, List.map_singleton, List.intercalate_singleton, hword]
          rfl
      | cons u ts =>
          have hcut : spaced (t :: u :: ts) = t.lexeme ++ ' ' :: spaced (u :: ts) := by
            simp [spaced, List.intercalate]
          rw [hcut, wordsOf_append (stops_cons rfl _), wordsOf_cons_of_isSpace rfl, hword,
            ih hts hbs]
          rfl

/-! ## Settled signs -/

/-- Where no sign is left behind an operand, none is split off. -/
theorem splitSigns_of_signsSettled {behind : Bool} {ts : List Token} (h : SignsSettled behind ts) :
    splitSigns behind ts = ts := by
  induction ts generalizing behind with
  | nil => exact splitSigns_nil behind
  | cons t ts ih =>
      have hkeep : settle behind t = [t] := by
        rcases settle_cases behind t with ⟨hbehind, rest, hk, hl, -⟩ | ⟨hsettle, -⟩
        · have hnone := h [] t ts rfl (isSigned_iff.mpr ⟨hk, rest, hl⟩)
          exact absurd (hbehind.symm.trans hnone) (by decide)
        · exact hsettle
      have hrest : SignsSettled (operandBehind behind [t]) ts := by
        rintro before u after rfl hsigned
        exact h (t :: before) u after rfl hsigned
      rw [splitSigns_eq_settle, hkeep, ih hrest]
      rfl

/-- The words of a text, written with a blank between any two of them. -/
def respaced (cs : List Char) : List Char :=
  spaced (visible (tokenize cs))

theorem words_tokenize_respaced (cs : List Char) :
    words (tokenize (respaced cs)) = words (tokenize cs) := by
  have hsettled : SignsSettled false (tokenize cs) :=
    signsSettled_splitSigns wellSigned_of_mem_scan false
  have hscan : words (scan (respaced cs)) = words (tokenize cs) := by
    refine wordsOf_spaced (fun t ht => ?_) (fun t ht => ?_)
    · exact standsAlone_of_mem_tokenize t (List.mem_of_mem_filter ht)
    · simpa using List.of_mem_filter ht
  calc words (tokenize (respaced cs))
    _ = words (splitSigns false (scan (respaced cs))) := rfl
    _ = words (splitSigns false (tokenize cs)) := words_splitSigns false hscan
    _ = words (tokenize cs) := by rw [splitSigns_of_signsSettled hsettled]

end Token

/-- A text and the same words with single blanks between them have the same words as
tokens, and the one is read as an expression just when the other is. -/
theorem Expr.words_and_read_respaced (cs : List Char) :
    Token.words (Token.tokenize (Token.respaced cs)) = Token.words (Token.tokenize cs) ∧
      ∀ e, read cs = .ok e ↔ read (Token.respaced cs) = .ok e :=
  ⟨Token.words_tokenize_respaced cs, ofTokens_congr (Token.words_tokenize_respaced cs).symm⟩

-- The minus that has come off is a word of its own, and the blanks keep it one.
example : Token.respaced ['x', '-', '1'] = ['x', ' ', '-', ' ', '1'] := by cbv

end Fluxion
