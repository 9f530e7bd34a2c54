import Fluxion.Proofs.NameText

/-!
# An expression reads back from its text

A well-formed expression has two texts, with and without parentheses around an
operator at its top, and reads back from both.

The text of a part is followed by more text, and how it is cut into tokens must
not depend on that. It does not as long as a blank or a parenthesis comes first,
which is all that ever follows a part (`Token.Ends`). The minus of a negative
number must not be taken for an operator either, so what is carried along is also
which way the signs were settled: a part begins where an operand is expected,
and behind it an operand is complete. `Piece` is a stretch of text with both, and
`Prints` says that the text of a part is such a stretch, whose tokens have a
derivation.
-/

namespace Fluxion

open Text (Stops stops_nil stops_cons)
open Token (Ends Front isNameChar isSpace Leads next scanFrom splitSigns)

namespace Token

/-- In front of `rest`, the text `cs` is cut into the tokens `ts`, which keep their
signs; the flag `before` says that an operand is complete in front of them, and
`behind` that one is complete behind them. -/
structure Piece (start : Nat) (before : Bool) (cs rest : List Char) (ts : List Token)
    (stop : Nat) (behind : Bool) : Prop where
  scan : scanFrom start (cs ++ rest) = ts ++ scanFrom stop rest
  signs : ∀ us, splitSigns before (ts ++ us) = ts ++ splitSigns behind us

theorem Piece.append {start middle stop : Nat} {a b c : Bool} {cs cs' rest : List Char}
    {ts ts' : List Token} (h : Piece start a cs (cs' ++ rest) ts middle b)
    (h' : Piece middle b cs' rest ts' stop c) :
    Piece start a (cs ++ cs') rest (ts ++ ts') stop c where
  scan := by rw [List.append_assoc, h.scan, h'.scan, List.append_assoc]
  signs us := by rw [List.append_assoc, h.signs, h'.signs, List.append_assoc]

/-- A token keeps its sign unless an operand is complete in front of it. -/
theorem splitSigns_cons {before : Bool} {t : Token} {us : List Token}
    (h : before = false ∨ t.unsign? = none) :
    splitSigns before (t :: us) =
      t :: splitSigns (if t.isBlank then before else t.endsOperand) us := by
  rw [splitSigns.eq_def]
  simp only
  split
  · next hsplit =>
      rcases h with h | h
      · cases h
      · rw [h] at hsplit
        cases hsplit
  · rfl

/-- One token is a piece of its own. -/
theorem exists_piece {lexeme rest : List Char} {kind : Kind} {before : Bool} (start : Nat)
    (hne : lexeme ≠ []) (hnext : next (lexeme ++ rest) = ⟨kind, lexeme.length⟩)
    (hsign : ∀ span, before = false ∨ (Token.mk kind span lexeme).unsign? = none) :
    ∃ span stop, Piece start before lexeme rest [⟨kind, span, lexeme⟩] stop
      (if (Token.mk kind span lexeme).isBlank then before
        else (Token.mk kind span lexeme).endsOperand) := by
  obtain ⟨c, more, rfl⟩ := List.exists_cons_of_ne_nil hne
  refine ⟨⟨start, start + Text.byteLength (c :: more)⟩, start + Text.byteLength (c :: more), ?_, ?_⟩
  · rw [List.cons_append, scanFrom]
    rw [List.cons_append] at hnext
    simp only [hnext]
    rw [← List.cons_append, List.take_left, List.drop_left]
    rfl
  · intro us
    exact splitSigns_cons (hsign _)

theorem endsOperand_of_operand? {t : Token} {l : Leaf} (h : t.operand? = some l) :
    t.endsOperand = true ∧ t.isBlank = false := by
  rw [operand?] at h
  split at h
  · next hk => simp [endsOperand, isBlank, hk]
  · next hk => simp [endsOperand, isBlank, hk]
  · next hk =>
      split at h
      · cases h
      · next hcall =>
          simp only [endsOperand, isBlank, hk]
          exact ⟨by simpa using hcall, rfl⟩
  · cases h

theorem visible_append (ts us : List Token) : visible (ts ++ us) = visible ts ++ visible us :=
  List.filter_append ..

end Token

open Token (Piece exists_piece visible visible_append)

/-- The text `cs` reads as `e`, whatever part of a larger text it is. -/
def Prints (l : Level) (cs : List Char) (e : Expr) : Prop :=
  ∀ start rest, Ends rest → ∃ ts stop, Piece start false cs rest ts stop true ∧
    ∃ p : Phrase l, p.tokens = visible ts ∧ (p.tree == e) = true

/-! ## Leaves -/

/-- A leaf whose text is one token that means the leaf. -/
theorem prints_leaf {l : Leaf} {cs : List Char} {kind : Token.Kind} (hne : cs ≠ [])
    (hnext : ∀ rest, Ends rest → next (cs ++ rest) = ⟨kind, cs.length⟩)
    (hread : ∀ span, ∃ l', (Token.mk kind span cs).operand? = some l' ∧ (l' == l) = true) :
    Prints .atom cs (.leaf l) := by
  intro start rest hend
  obtain ⟨span, stop, hpiece⟩ :=
    exists_piece start hne (hnext rest hend) fun _ => Or.inl (Eq.refl false)
  obtain ⟨l', hop, heq⟩ := hread span
  obtain ⟨hends, hblank⟩ := Token.endsOperand_of_operand? hop
  simp only [hends, hblank, Bool.false_eq_true, if_false] at hpiece
  refine ⟨_, stop, hpiece, .operand _ l' hop, ?_, heq⟩
  simp [Phrase.tokens, visible, hblank]

theorem prints_number {n : Float} (h : n.isFinite = true) :
    Prints .atom (Decimal.text n) (.number n) := by
  have hsigned := Decimal.signed_text h
  refine prints_leaf hsigned.ne_sign.1 (fun rest => Token.next_number hsigned) fun span => ?_
  obtain ⟨y, hy, heq⟩ := Decimal.read?_text h
  have hfin := Decimal.isFinite_of_beq heq h
  exact ⟨.number y, by simp only [Token.operand?, hy, Option.filter_some, hfin, if_true,
    Option.map_some], heq⟩

theorem prints_constant (c : Constant) : Prints .atom c.name (.constant c) := by
  have hread := Leaf.ofName?_constant c
  have hop : ∀ span, (Token.mk .name span c.name).operand? = some (.constant c) := by
    intro span
    simp only [Token.operand?, hread.1, hread.2, Option.isSome_none, Bool.false_eq_true, if_false]
  have hself : (Leaf.constant c == Leaf.constant c) = true := by cases c <;> rfl
  have hword := Constant.isWord_name c
  refine prints_leaf (by cases c <;> simp [Constant.name]) (fun rest hend => ?_)
    fun span => ⟨_, hop span, hself⟩
  have hnext := Token.next_name (Or.inl rfl) hword hend
  rwa [List.nil_append] at hnext

theorem prints_var {c : Option Float} {letter : Char} (hc : c.all Float.isFinite = true)
    (hl : Leaf.isVariableName letter = true) :
    Prints .atom (coefficientText c ++ [letter]) (.var c letter) := by
  obtain ⟨c', hread, heq, hcall⟩ := Leaf.ofName?_var hc hl
  have hop : ∀ span, (Token.mk .name span (coefficientText c ++ [letter])).operand? =
      some (.var c' letter) := by
    intro span
    simp only [Token.operand?, hread, hcall, Option.isSome_none, Bool.false_eq_true, if_false]
  refine prints_leaf (by simp) (fun rest => ?_) fun span => ⟨_, hop span, ?_⟩
  · exact Token.next_name (SplitName.front_coefficientText hc) (Leaf.isWord_letter hl)
  · change (c' == c && letter == letter) = true
    rw [heq, beq_self_eq_true, Bool.and_self]

theorem prints_leibniz {of wrt : Char} (hof : of.isAlpha = true) (hwrt : wrt.isAlpha = true) :
    Prints .atom ['d', of, '/', 'd', wrt] (.leibniz of wrt) := by
  have hop : ∀ span, (Token.mk .leibniz span ['d', of, '/', 'd', wrt]).operand? =
      some (.leibniz of wrt) := by
    intro span
    simp only [Token.operand?, Leaf.ofLeibniz?, hof, hwrt, Bool.and_self, if_true]
  refine prints_leaf (List.cons_ne_nil _ _) (fun rest _ => Token.next_leibniz hof hwrt rest)
    fun span => ⟨_, hop span, ?_⟩
  change (of == of && wrt == wrt) = true
  rw [beq_self_eq_true, beq_self_eq_true, Bool.and_self]

theorem Leaf.prints {l : Leaf} (h : l.WellFormed) : Prints .atom l.text (.leaf l) := by
  match l with
  | number n => exact prints_number h
  | constant c => exact prints_constant c
  | var c letter => exact prints_var h.1 h.2
  | leibniz of wrt => exact prints_leibniz h.1 h.2

/-! ## Parentheses, functions and operators -/

/-- A token of one character that is no number and no name. -/
theorem exists_piece_char {c : Char} {rest : List Char} {kind : Token.Kind} (start : Nat)
    (before : Bool) (hnext : next (c :: rest) = ⟨kind, 1⟩) (hnumber : kind ≠ .number)
    (hname : kind ≠ .name) :
    ∃ span stop, Piece start before [c] rest [⟨kind, span, [c]⟩] stop
      (if (Token.mk kind span [c]).isBlank then before else
        (Token.mk kind span [c]).endsOperand) := by
  refine exists_piece start (List.cons_ne_nil _ _) hnext fun span => Or.inr ?_
  rw [Token.unsign?]
  split
  · next hk _ => exact absurd hk hnumber
  · next hk _ => exact absurd hk hname
  · rfl

theorem exists_openParen (start : Nat) (rest : List Char) :
    ∃ span stop, Piece start false ['('] rest [⟨.openParen, span, ['(']⟩] stop false :=
  exists_piece_char start false (Token.next_openParen rest) (by decide) (by decide)

theorem exists_closeParen (start : Nat) (rest : List Char) :
    ∃ span stop, Piece start true [')'] rest [⟨.closeParen, span, [')']⟩] stop true :=
  exists_piece_char start true (Token.next_closeParen rest) (by decide) (by decide)

theorem exists_blank (start : Nat) (flag : Bool) {rest : List Char} (h : Stops isSpace rest) :
    ∃ span stop, Piece start flag [' '] rest [⟨.blank, span, [' ']⟩] stop flag :=
  exists_piece_char start flag (Token.next_blank h) (by decide) (by decide)

theorem exists_operator (start : Nat) (op : Operator) (rest : List Char) :
    ∃ span stop, Piece start true [op.symbol] (' ' :: rest)
      [⟨.operator op, span, [op.symbol]⟩] stop false :=
  exists_piece_char start true (Token.next_operator op rest) (by simp) (by simp)

namespace Prints

theorem mono {l l' : Level} {cs : List Char} {e : Expr} (h : Prints l cs e)
    (hle : l.rank ≤ l'.rank) : Prints l' cs e := by
  intro start rest hend
  obtain ⟨ts, stop, hpiece, p, htok, heq⟩ := h start rest hend
  obtain ⟨p', htok', htree⟩ := p.exists_of_rank_le hle
  exact ⟨ts, stop, hpiece, p', htok'.trans htok, htree ▸ heq⟩

/-- Parentheses around a text change nothing. -/
theorem group {cs : List Char} {e : Expr} (h : Prints .sum cs e) :
    Prints .atom ('(' :: (cs ++ [')'])) e := by
  intro start rest _
  obtain ⟨so, stop₁, ho⟩ := exists_openParen start (cs ++ [')'] ++ rest)
  obtain ⟨ts, stop₂, hbody, p, htok, heq⟩ := h stop₁ ([')'] ++ rest) (Or.inr (Or.inr rfl))
  obtain ⟨sc, stop₃, hc⟩ := exists_closeParen stop₂ rest
  refine ⟨_, stop₃, ho.append (hbody.append hc),
    .group ⟨.openParen, so, ['(']⟩ p ⟨.closeParen, sc, [')']⟩ rfl rfl, ?_, heq⟩
  rw [visible_append, visible_append, ← htok]
  rfl

theorem call {c : Option Float} {f : Func} {cs : List Char} {arg : Expr}
    (hc : c.all Float.isFinite = true) (hf : f.WellFormed) (h : Prints .sum cs arg) :
    Prints .atom (coefficientText c ++ f.name ++ '(' :: (cs ++ [')'])) (.call c f arg) := by
  intro start rest _
  obtain ⟨called, hread, hcoefficient, hfunc⟩ := CallName.ofName?_name hc hf
  have hword := Func.isWord_name hf
  have hname : coefficientText c ++ f.name ≠ [] := by
    obtain ⟨first, tail, hcons, -⟩ := hword
    simp [hcons]
  have hends : Ends ('(' :: (cs ++ [')']) ++ rest) := Or.inr (Or.inl rfl)
  obtain ⟨sn, stop₀, hn⟩ := exists_piece start hname
    (Token.next_name (SplitName.front_coefficientText hc) hword hends)
    fun _ => Or.inl (Eq.refl false)
  have hflag : ∀ span, (Token.mk .name span (coefficientText c ++ f.name)).endsOperand = false := by
    intro span
    simp only [Token.endsOperand, hread, Option.isNone_some]
  rw [hflag, ite_self] at hn
  obtain ⟨so, stop₁, ho⟩ := exists_openParen stop₀ (cs ++ [')'] ++ rest)
  obtain ⟨ts, stop₂, hbody, p, htok, heq⟩ := h stop₁ ([')'] ++ rest) (Or.inr (Or.inr rfl))
  obtain ⟨sc, stop₃, hclose⟩ := exists_closeParen stop₂ rest
  refine ⟨_, stop₃, hn.append (ho.append (hbody.append hclose)),
    .call ⟨.name, sn, coefficientText c ++ f.name⟩ called ⟨.openParen, so, ['(']⟩ p
      ⟨.closeParen, sc, [')']⟩ hread rfl rfl, ?_, ?_⟩
  · rw [visible_append, visible_append, visible_append, ← htok]
    rfl
  · change (called.coefficient == c && (called.func == f && p.tree == arg)) = true
    rw [hcoefficient, hfunc, heq]
    rfl

theorem binary {op : Operator} {cs cs' : List Char} {lhs rhs : Expr} (hl : Prints .atom cs lhs)
    (hr : Prints .atom cs' rhs) (hspace : ∀ rest, Stops isSpace (cs' ++ rest)) :
    Prints op.level (cs ++ ' ' :: op.symbol :: ' ' :: cs') (.binary op lhs rhs) := by
  intro start rest hend
  obtain ⟨ts, stop₁, hlhs, p, htok, heq⟩ :=
    hl start ([' '] ++ ([op.symbol] ++ ([' '] ++ cs')) ++ rest) (Or.inl rfl)
  have hsymbol : Stops isSpace ([op.symbol] ++ ([' '] ++ cs') ++ rest) := by
    cases op <;> exact stops_cons rfl _
  obtain ⟨sb, stop₂, hblank⟩ := exists_blank stop₁ true hsymbol
  obtain ⟨so, stop₃, hop⟩ := exists_operator stop₂ op (cs' ++ rest)
  obtain ⟨sb', stop₄, hblank'⟩ := exists_blank stop₃ false (hspace rest)
  obtain ⟨ts', stop₅, hrhs, p', htok', heq'⟩ := hr stop₄ rest hend
  obtain ⟨q, hqtok, hqtree⟩ := p.exists_of_rank_le (Nat.zero_le op.leftLevel.rank)
  obtain ⟨q', hqtok', hqtree'⟩ := p'.exists_of_rank_le (Nat.zero_le op.rightLevel.rank)
  have hkind : (Token.mk (.operator op) so [op.symbol]).kind = .operator op := rfl
  obtain ⟨whole, hwhole, htree⟩ := Phrase.exists_binary q hkind q'
  refine ⟨_, stop₅, hlhs.append (hblank.append (hop.append (hblank'.append hrhs))), whole, ?_, ?_⟩
  · rw [hwhole, hqtok, hqtok', htok, htok']
    simp only [visible_append]
    rfl
  · rw [htree, hqtree, hqtree']
    change (op == op && (p.tree == lhs && p'.tree == rhs)) = true
    rw [heq, heq', beq_self_eq_true, Bool.and_self, Bool.and_self]

end Prints

namespace Expr

/-- The text of a part begins with a number, a letter, a minus or a parenthesis. -/
theorem exists_cons_inner {e : Expr} (h : e.WellFormed) :
    ∃ c rest, e.inner = c :: rest ∧ (Leads c ∨ c = '(') := by
  have hname : ∀ {front word : List Char}, Front front → Token.IsWord word → ∀ more,
      ∃ c rest, front ++ word ++ more = c :: rest ∧ (Leads c ∨ c = '(') := by
    rintro front word hfront ⟨c, tail, rfl, hc, -⟩ more
    obtain ⟨first, others, heq, hlead⟩ := Token.exists_lead hfront hc (tail ++ more)
    rw [List.append_assoc, List.cons_append, heq]
    exact ⟨first, others, rfl, Or.inl hlead⟩
  match e with
  | number n =>
      obtain ⟨c, tail, hcons, hlead, -⟩ := Token.exists_cons_of_signed (Decimal.signed_text h)
      exact ⟨c, tail, hcons, Or.inl hlead⟩
  | constant c =>
      have hcons := hname (Or.inl rfl) (Constant.isWord_name c) []
      rwa [List.append_nil] at hcons
  | var c letter =>
      have hcons := hname (SplitName.front_coefficientText h.1) (Leaf.isWord_letter h.2) []
      rwa [List.append_nil] at hcons
  | leibniz of wrt => exact ⟨'d', _, rfl, Or.inl (Or.inr (Or.inl rfl))⟩
  | call c f arg => exact hname (SplitName.front_coefficientText h.1) (Func.isWord_name h.2.1) _
  | binary op lhs rhs => exact ⟨'(', _, rfl, Or.inr rfl⟩

theorem stops_inner {e : Expr} (h : e.WellFormed) (rest : List Char) :
    Stops isSpace (e.inner ++ rest) := by
  obtain ⟨c, more, heq, hc⟩ := exists_cons_inner h
  rw [heq, List.cons_append]
  refine stops_cons ?_ _
  rcases hc with hlead | rfl
  · exact hlead.isSpace
  · rfl

theorem prints_inner {e : Expr} (h : e.WellFormed) : Prints .atom e.inner e := by
  induction e with
  | leaf l => exact Leaf.prints h
  | call c f arg ih => exact Prints.call h.1 h.2.1 ((ih h.2.2).mono (by decide))
  | binary op lhs rhs ihl ihr =>
      have hbinary : Prints op.level (binary op lhs rhs).text (binary op lhs rhs) :=
        (ihl h.1).binary (ihr h.2) (stops_inner h.2)
      rw [inner_binary]
      exact (hbinary.mono (by cases op <;> decide)).group

/-- The text of an expression reads as the expression. -/
theorem prints_text {e : Expr} (h : e.WellFormed) : Prints .sum e.text e := by
  match e with
  | leaf l => exact (Leaf.prints h).mono (by decide)
  | call c f arg => exact (prints_inner h).mono (by decide)
  | binary op lhs rhs =>
      refine Prints.mono ((prints_inner h.1).binary (prints_inner h.2) (stops_inner h.2)) ?_
      cases op <;> decide

theorem read_of_prints {cs : List Char} {e : Expr} (h : Prints .sum cs e) :
    ∃ e', read cs = .ok e' ∧ (e' == e) = true := by
  obtain ⟨ts, stop, hpiece, p, htok, heq⟩ := h 0 [] trivial
  refine ⟨p.tree, ofTokens_eq_ok.mpr ⟨p, ?_, rfl⟩, heq⟩
  have hscan := hpiece.scan
  have hsigns := hpiece.signs []
  rw [scanFrom, List.append_nil, List.append_nil] at hscan
  rw [List.append_nil] at hsigns
  rw [Token.tokenize, Token.scan, hscan, hsigns, htok]
  simp [splitSigns]

/-- Reading gives well-formed expressions, and a well-formed expression reads
back from both of its texts. -/
theorem wellFormed_of_read_and_read_text :
    (∀ cs e, read cs = .ok e → e.WellFormed) ∧
      ∀ e : Expr, e.WellFormed →
        (∃ e', read e.text = .ok e' ∧ (e' == e) = true) ∧
        ∃ e', read e.inner = .ok e' ∧ (e' == e) = true := by
  refine ⟨fun cs e h => wellFormed_of_read h, fun e h => ⟨?_, ?_⟩⟩
  · exact read_of_prints (prints_text h)
  · exact read_of_prints ((prints_inner h).mono (by decide))

/-- `2x - sin(-3)` has minuses of both kinds. -/
theorem read_text_of_minuses :
    ∃ e', read (var (some 2) 'x' - apply .sin (number (-3))).text = .ok e' ∧
      (e' == var (some 2) 'x' - apply .sin (number (-3))) = true ∧ e'.WellFormed := by
  obtain ⟨⟨e', hread, heq⟩, -⟩ := wellFormed_of_read_and_read_text.2
    (var (some 2) 'x' - apply .sin (number (-3))) (by decide)
  exact ⟨e', hread, heq, wellFormed_of_read_and_read_text.1 _ e' hread⟩

end Expr

end Fluxion
