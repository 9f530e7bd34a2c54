import Fluxion.Proofs.DecimalText
import Fluxion.Token.Lexer

/-!
# The next token

What the longest match is where it is known what is written. A number, a name
and an unknown derivative are cut off whole if what follows them goes on with
no character that any of the three could take in (`Ends`); a minus in front
belongs to them. Operators and parentheses are cut off alone.

The patterns compete, and each lemma about a token has to rule the others out.
Most of them match one character at most and only certain ones (`Dull`); what is
left is the contest between numbers, names and derivatives.

In the other direction, a name that has been cut off has no minus but in front
(`no_minus_in_name`), and what stands behind the minus of a number or a name is one
that has no sign (`isUnsigned_of_next`). It is cut off whole on its own as well
(`next_unsigned`).
-/

namespace Fluxion.Token

open Decimal (Plain)
open Text (Stops stops_nil stops_cons takeWhile_append_of_stops dropWhile_append_of_stops)

/-! ## The longest match -/

theorem longest_of_le {cs : List Char} {best : Match} {kinds : List Kind}
    (h : ∀ k ∈ kinds, k.matchLength cs ≤ best.length) : longest cs best kinds = best := by
  induction kinds with
  | nil => rfl
  | cons k kinds ih =>
      have hk := h k List.mem_cons_self
      rw [longest, if_neg (Nat.not_lt.mpr hk)]
      exact ih fun k' hk' => h k' (List.mem_cons_of_mem k hk')

/-- A kind that matches more than any other gives the longest match. -/
theorem longest_of_max {cs : List Char} {best : Match} {k : Kind} {kinds : List Kind}
    (hk : k ∈ kinds) (hbest : best.length < k.matchLength cs)
    (hmax : ∀ k' ∈ kinds, k' ≠ k → k'.matchLength cs < k.matchLength cs) :
    longest cs best kinds = ⟨k, k.matchLength cs⟩ := by
  induction kinds generalizing best with
  | nil => cases hk
  | cons k₁ kinds ih =>
      have hrest : ∀ k' ∈ kinds, k' ≠ k → k'.matchLength cs < k.matchLength cs :=
        fun k' hk' => hmax k' (List.mem_cons_of_mem k₁ hk')
      rw [longest]
      by_cases heq : k₁ = k
      · subst heq
        rw [if_pos hbest]
        refine longest_of_le fun k' hk' => ?_
        by_cases hsame : k' = k₁
        · exact Nat.le_of_eq (by rw [hsame])
        · exact Nat.le_of_lt (hrest k' hk' hsame)
      · have hmem := (List.mem_cons.mp hk).resolve_left (Ne.symm heq)
        refine ih hmem ?_ hrest
        split
        · exact hmax k₁ List.mem_cons_self heq
        · exact hbest

theorem next_of_max {cs : List Char} {k : Kind} (hk : k ∈ Kind.patterns)
    (hpos : 0 < k.matchLength cs)
    (hmax : ∀ k' ∈ Kind.patterns, k' ≠ k → k'.matchLength cs < k.matchLength cs) :
    next cs = ⟨k, k.matchLength cs⟩ := by
  rw [next, longest_of_max hk hpos hmax]
  exact if_neg (Nat.ne_of_gt hpos)

theorem longest_cases (cs : List Char) (best : Match) (kinds : List Kind) :
    longest cs best kinds = best ∨
      ∃ k ∈ kinds, longest cs best kinds = ⟨k, k.matchLength cs⟩ := by
  induction kinds generalizing best with
  | nil => exact Or.inl rfl
  | cons k kinds ih =>
      rw [longest]
      rcases ih (if best.length < k.matchLength cs then ⟨k, k.matchLength cs⟩ else best) with h | h
      · rw [h]
        split
        · exact Or.inr ⟨k, List.mem_cons_self, rfl⟩
        · exact Or.inl rfl
      · obtain ⟨k', hk', h⟩ := h
        exact Or.inr ⟨k', List.mem_cons_of_mem k hk', h⟩

/-- The next token is as long as what its pattern matches. -/
theorem length_next {cs : List Char} (h : (next cs).kind ≠ .symbol) :
    (next cs).length = (next cs).kind.matchLength cs := by
  unfold next at h ⊢
  simp only at h ⊢
  split at h
  · exact absurd rfl h
  · next hne =>
      rw [if_neg hne]
      rcases longest_cases cs ⟨.symbol, 0⟩ Kind.patterns with hl | ⟨k, -, hl⟩
      · rw [hl] at hne
        exact absurd rfl hne
      · rw [hl]

/-! ## The lengths of patterns -/

/-- Nothing follows, or a blank or a parenthesis. -/
def Ends : List Char → Prop
  | [] => True
  | c :: _ => c = ' ' ∨ c = '(' ∨ c = ')'

theorem Ends.stops {rest : List Char} (h : Ends rest) {p : Char → Bool} (hb : p ' ' = false)
    (ho : p '(' = false) (hc : p ')' = false) : Stops p rest := by
  match rest with
  | [] => exact stops_nil p
  | c :: rest =>
      refine stops_cons ?_ rest
      rcases h with h | h | h <;> rw [h] <;> assumption

theorem runLength_append {p : Char → Bool} {cs rest : List Char} (h : ∀ c ∈ cs, p c = true)
    (hstop : Stops p rest) : runLength p (cs ++ rest) = cs.length := by
  rw [runLength, takeWhile_append_of_stops h hstop]

theorem runLength_of_stops {p : Char → Bool} {cs : List Char} (h : Stops p cs) :
    runLength p cs = 0 :=
  runLength_append (fun _ hc => absurd hc List.not_mem_nil) h

theorem take_runLength (p : Char → Bool) (cs : List Char) :
    cs.take (runLength p cs) = cs.takeWhile p :=
  (List.prefix_iff_eq_take.mp (List.takeWhile_prefix p)).symm

theorem stops_isDigit {cs : List Char} (h : Stops SplitName.isNumeric cs) :
    Stops Char.isDigit cs := by
  intro c hc
  have := h c hc
  simp only [SplitName.isNumeric, Bool.or_eq_false_iff] at this
  exact this.1

/-- Digits with neither a digit nor a point behind them. -/
theorem decimalLength_digits {ds rest : List Char} (hd : ∀ c ∈ ds, c.isDigit = true)
    (hstop : Stops SplitName.isNumeric rest) : decimalLength (ds ++ rest) = ds.length := by
  simp only [decimalLength, runLength_append hd (stops_isDigit hstop), List.drop_left]
  split
  · next fs => exact absurd (hstop '.' rfl) (by decide)
  · rfl

theorem decimalLength_append {cs rest : List Char} (h : Plain cs)
    (hstop : Stops SplitName.isNumeric rest) : decimalLength (cs ++ rest) = cs.length := by
  cases h with
  | whole hne hd => exact decimalLength_digits hd hstop
  | @pointed ds fs hne hd hfne hf =>
      have hpoint : Stops Char.isDigit ('.' :: (fs ++ rest)) := stops_cons (by decide) _
      have hds := List.length_pos_iff.mpr hne
      have hfs := List.length_pos_iff.mpr hfne
      rw [List.append_assoc, List.cons_append]
      simp only [decimalLength, runLength_append hd hpoint, List.drop_left,
        runLength_append hf (stops_isDigit hstop)]
      rw [if_neg (by omega), List.length_append, List.length_cons]
      omega

/-- What may stand in front of a name. -/
def Front (front : List Char) : Prop :=
  front = [] ∨ Decimal.Signed front

/-- The characters that a front may begin or go on with. -/
def inFront (c : Char) : Bool :=
  SplitName.isNumeric c || c == '-'

theorem signLength_of_stops {cs : List Char} (h : Stops inFront cs) : signLength cs = 0 := by
  unfold signLength
  split
  · exact absurd (h '-' rfl) (by decide)
  · rfl

theorem signLength_of_plain {cs : List Char} (h : Plain cs) (rest : List Char) :
    signLength (cs ++ rest) = 0 := by
  obtain ⟨d, cs, rfl, hd⟩ := h.exists_cons
  unfold signLength
  split
  · next heq =>
      cases heq
      cases hd
  · rfl

theorem stops_isNumeric {cs : List Char} (h : Stops inFront cs) :
    Stops SplitName.isNumeric cs := by
  intro c hc
  have := h c hc
  simp only [inFront, Bool.or_eq_false_iff] at this
  exact this.1

/-- Sign and digits in front of a name are found as they are. -/
theorem length_front {front rest : List Char} (h : Front front) (hstop : Stops inFront rest) :
    signLength (front ++ rest) +
      decimalLength ((front ++ rest).drop (signLength (front ++ rest))) = front.length := by
  have hnum := stops_isNumeric hstop
  rcases h with rfl | h | h
  · rw [List.nil_append, signLength_of_stops hstop, List.drop_zero, Nat.zero_add]
    exact decimalLength_digits (fun _ hc => absurd hc List.not_mem_nil) hnum
  · rw [signLength_of_plain h, List.drop_zero, decimalLength_append h hnum, Nat.zero_add]
  · rw [List.cons_append, signLength, List.drop_one, List.tail_cons, decimalLength_append h hnum,
      List.length_cons, Nat.add_comm]

theorem isDigit_of_isAlpha {c : Char} (h : c.isAlpha = true) : c.isDigit = false := by
  simp only [Char.isAlpha, Char.isUpper, Char.isLower, Bool.or_eq_true, Bool.and_eq_true,
    decide_eq_true_eq, ge_iff_le, UInt32.le_iff_toNat_le] at h
  rw [Bool.eq_false_iff]
  intro hd
  have hle := (Char.isDigit_iff_toNat.mp hd).2
  have hupper : 'A'.val.toNat ≤ c.val.toNat := by
    rcases h with h | h
    · exact h.1
    · exact Nat.le_trans (by decide) h.1
  exact absurd (Nat.le_trans hupper hle) (by decide)

theorem inFront_of_isAlpha {c : Char} (h : c.isAlpha = true) : inFront c = false := by
  simp only [inFront, SplitName.isNumeric, isDigit_of_isAlpha h, Bool.false_or,
    Bool.or_eq_false_iff, beq_eq_false_iff_ne]
  constructor <;> rintro rfl <;> cases h

theorem numberLength_append {cs rest : List Char} (h : Decimal.Signed cs)
    (hstop : Stops inFront rest) : numberLength (cs ++ rest) = cs.length := by
  have hlen := length_front (Or.inr h) hstop
  have hbody : decimalLength ((cs ++ rest).drop (signLength (cs ++ rest))) ≠ 0 := by
    have hnum := stops_isNumeric hstop
    cases h with
    | plain h =>
        obtain ⟨d, ds, rfl, -⟩ := id h.exists_cons
        rw [signLength_of_plain h, List.drop_zero, decimalLength_append h hnum]
        exact Nat.succ_ne_zero _
    | @minus ds h =>
        obtain ⟨d, ds, rfl, -⟩ := id h.exists_cons
        rw [List.cons_append, signLength, List.drop_one, List.tail_cons,
          decimalLength_append h hnum]
        exact Nat.succ_ne_zero _
  simp only [numberLength]
  rw [if_neg hbody, hlen]

/-- Only the front of a name looks like a number. -/
theorem numberLength_le {front rest : List Char} (h : Front front) (hstop : Stops inFront rest) :
    numberLength (front ++ rest) ≤ front.length := by
  have hlen := length_front h hstop
  simp only [numberLength]
  split <;> omega

theorem nameLength_append {front rest : List Char} {c : Char} (h : Front front)
    (hc : c.isAlpha = true) :
    nameLength (front ++ c :: rest) = front.length + 1 + runLength isNameChar rest := by
  have hstop : Stops inFront (c :: rest) := stops_cons (inFront_of_isAlpha hc) rest
  simp only [nameLength, length_front h hstop, List.drop_left, hc, if_true]

theorem nameLength_of_stops {front rest : List Char} (h : Front front) (hstop : Stops inFront rest)
    (halpha : Stops Char.isAlpha rest) : nameLength (front ++ rest) = 0 := by
  simp only [nameLength, length_front h hstop, List.drop_left]
  match rest with
  | [] => rfl
  | c :: rest => exact if_neg (by simp [halpha c rfl])

/-! ## Cutting one token off -/

/-- A character that a number, a name or a derivative may begin with. -/
def Leads (c : Char) : Prop :=
  c.isDigit = true ∨ c.isAlpha = true ∨ c = '-'

theorem Leads.ne {c d : Char} (h : Leads c) (hdigit : d.isDigit = false)
    (halpha : d.isAlpha = false) (hminus : d ≠ '-') : c ≠ d := by
  rintro rfl
  rcases h with h | h | h
  · rw [hdigit] at h
    cases h
  · rw [halpha] at h
    cases h
  · exact hminus h

theorem Leads.isSpace {c : Char} (h : Leads c) : isSpace c = false := by
  simp only [Token.isSpace, Bool.or_eq_false_iff, beq_eq_false_iff_ne]
  exact ⟨⟨⟨h.ne rfl rfl (by decide), h.ne rfl rfl (by decide)⟩, h.ne rfl rfl (by decide)⟩,
    h.ne rfl rfl (by decide)⟩

/-- Of the other patterns, only the minus matches where one of these three may. -/
theorem matchLength_le_signLength {c : Char} {rest : List Char} {k : Kind} (hc : Leads c)
    (hnumber : k ≠ .number) (hname : k ≠ .name) (hleibniz : k ≠ .leibniz) :
    k.matchLength (c :: rest) ≤ signLength (c :: rest) := by
  cases k with
  | number => exact absurd rfl hnumber
  | name => exact absurd rfl hname
  | leibniz => exact absurd rfl hleibniz
  | symbol => exact Nat.zero_le _
  | blank =>
      rw [Kind.matchLength, runLength_of_stops (stops_cons hc.isSpace rest)]
      exact Nat.zero_le _
  | openParen =>
      rw [Kind.matchLength, charLength, if_neg (hc.ne rfl rfl (by decide))]
      exact Nat.zero_le _
  | closeParen =>
      rw [Kind.matchLength, charLength, if_neg (hc.ne rfl rfl (by decide))]
      exact Nat.zero_le _
  | operator op =>
      rw [Kind.matchLength, charLength]
      split
      · next heq =>
          cases op with
          | sub =>
              rw [heq]
              exact Nat.le_refl 1
          | add => exact absurd heq (hc.ne rfl rfl (by decide))
          | mul => exact absurd heq (hc.ne rfl rfl (by decide))
          | div => exact absurd heq (hc.ne rfl rfl (by decide))
          | pow => exact absurd heq (hc.ne rfl rfl (by decide))
      · exact Nat.zero_le _

/-- A number or front that is not empty begins with a digit or a minus. -/
theorem exists_cons_of_signed {cs : List Char} (h : Decimal.Signed cs) :
    ∃ c rest, cs = c :: rest ∧ Leads c ∧ c.isAlpha = false := by
  cases h with
  | plain h =>
      obtain ⟨d, rest, rfl, hd⟩ := h.exists_cons
      refine ⟨d, rest, rfl, Or.inl hd, Bool.eq_false_iff.mpr fun ha => ?_⟩
      rw [isDigit_of_isAlpha ha] at hd
      cases hd
  | @minus cs h => exact ⟨'-', cs, rfl, Or.inr (Or.inr rfl), rfl⟩

theorem leibnizLength_of_ne {c : Char} (h : c ≠ 'd') (rest : List Char) :
    leibnizLength (c :: rest) = 0 := by
  unfold leibnizLength
  split
  · next heq =>
      cases heq
      exact absurd rfl h
  · rfl

theorem leibnizLength_of_signed {cs : List Char} (h : Decimal.Signed cs) (rest : List Char) :
    leibnizLength (cs ++ rest) = 0 := by
  obtain ⟨c, cs, rfl, -, halpha⟩ := exists_cons_of_signed h
  refine leibnizLength_of_ne ?_ _
  rintro rfl
  cases halpha

theorem lengths_lt_nameLength {cs : List Char} (h : nameLength cs ≠ 0) :
    signLength cs < nameLength cs ∧ numberLength cs < nameLength cs := by
  have hnumber : numberLength cs ≤ signLength cs + decimalLength (cs.drop (signLength cs)) := by
    simp only [numberLength]
    split <;> omega
  simp only [nameLength] at h ⊢
  split
  · next c rest hrest =>
      rw [hrest] at h
      cases hc : c.isAlpha with
      | false => simp [hc] at h
      | true =>
          simp only [if_true]
          omega
  · next hrest =>
      rw [hrest] at h
      exact absurd rfl h

theorem signLength_lt_numberLength {cs : List Char} (h : numberLength cs ≠ 0) :
    signLength cs < numberLength cs := by
  simp only [numberLength] at h ⊢
  split
  · next hzero => rw [if_pos hzero] at h; exact absurd rfl h
  · omega

/-- Where a name fits it is the next token, unless an unknown derivative fits too. -/
theorem next_of_nameLength {c : Char} {cs : List Char} (hc : Leads c)
    (hleibniz : leibnizLength (c :: cs) = 0) (h : nameLength (c :: cs) ≠ 0) :
    next (c :: cs) = ⟨.name, nameLength (c :: cs)⟩ := by
  obtain ⟨hsign, hnumber⟩ := lengths_lt_nameLength h
  refine next_of_max (k := .name) (by decide) (Nat.pos_of_ne_zero h) fun k _ hk => ?_
  by_cases h₁ : k = .number
  · rw [h₁]
    exact hnumber
  · by_cases h₂ : k = .leibniz
    · rw [h₂, show Kind.leibniz.matchLength (c :: cs) = 0 from hleibniz]
      exact Nat.pos_of_ne_zero h
    · exact Nat.lt_of_le_of_lt (matchLength_le_signLength hc h₁ hk h₂) hsign

/-- Where a number fits and no name does, the number is the next token. -/
theorem next_of_numberLength {c : Char} {cs : List Char} (hc : Leads c)
    (hleibniz : leibnizLength (c :: cs) = 0) (hname : nameLength (c :: cs) = 0)
    (h : numberLength (c :: cs) ≠ 0) : next (c :: cs) = ⟨.number, numberLength (c :: cs)⟩ := by
  refine next_of_max (k := .number) (by decide) (Nat.pos_of_ne_zero h) fun k _ hk => ?_
  by_cases h₁ : k = .name
  · rw [h₁, show Kind.name.matchLength (c :: cs) = 0 from hname]
    exact Nat.pos_of_ne_zero h
  · by_cases h₂ : k = .leibniz
    · rw [h₂, show Kind.leibniz.matchLength (c :: cs) = 0 from hleibniz]
      exact Nat.pos_of_ne_zero h
    · exact Nat.lt_of_le_of_lt (matchLength_le_signLength hc hk h₁ h₂)
        (signLength_lt_numberLength h)

theorem next_number {cs rest : List Char} (h : Decimal.Signed cs) (hend : Ends rest) :
    next (cs ++ rest) = ⟨.number, cs.length⟩ := by
  have hstop : Stops inFront rest := hend.stops rfl rfl rfl
  have hlen : numberLength (cs ++ rest) = cs.length := numberLength_append h hstop
  have hname : nameLength (cs ++ rest) = 0 :=
    nameLength_of_stops (Or.inr h) hstop (hend.stops rfl rfl rfl)
  have hleibniz : leibnizLength (cs ++ rest) = 0 := leibnizLength_of_signed h rest
  obtain ⟨c, cs', rfl, hlead, -⟩ := exists_cons_of_signed h
  have hpos : numberLength (c :: cs' ++ rest) ≠ 0 := by
    rw [hlen]
    exact Nat.succ_ne_zero _
  rw [← hlen]
  exact next_of_numberLength hlead hleibniz hname hpos

theorem exists_lead {front : List Char} {c : Char} (h : Front front) (hc : c.isAlpha = true)
    (rest : List Char) : ∃ first more, front ++ c :: rest = first :: more ∧ Leads first := by
  rcases h with rfl | h
  · exact ⟨c, rest, rfl, Or.inr (Or.inl hc)⟩
  · obtain ⟨x, front, rfl, hx, -⟩ := exists_cons_of_signed h
    exact ⟨x, front ++ c :: rest, rfl, hx⟩

/-- No derivative begins where a name does. -/
theorem leibnizLength_of_name {front tail rest : List Char} {c : Char} (h : Front front)
    (htail : ∀ x ∈ tail, isNameChar x = true) (hend : Ends rest) :
    leibnizLength (front ++ c :: (tail ++ rest)) = 0 := by
  rcases h with rfl | h
  · unfold leibnizLength
    split
    · next of wrt more heq =>
        rw [List.nil_append] at heq
        match tail with
        | [] =>
            cases heq
            rcases hend with h | h | h <;> rw [h] <;> rfl
        | [x] =>
            cases heq
            rcases hend with h | h | h <;> cases h
        | x :: y :: tail =>
            simp only [List.cons_append, List.cons.injEq] at heq
            obtain ⟨-, -, rfl, -⟩ := heq
            exact absurd (htail '/' (by simp)) (by decide)
    · rfl
  · exact leibnizLength_of_signed h _

/-- A letter, and characters that a name may go on with. -/
def IsWord (cs : List Char) : Prop :=
  ∃ c tail, cs = c :: tail ∧ c.isAlpha = true ∧ ∀ x ∈ tail, isNameChar x = true

theorem IsWord.stops {word : List Char} (h : IsWord word) : Stops inFront word := by
  obtain ⟨c, tail, rfl, hc, -⟩ := h
  exact stops_cons (inFront_of_isAlpha hc) tail

theorem leibnizLength_of_word {front word rest : List Char} (h : Front front)
    (hword : IsWord word) (hend : Ends rest) : leibnizLength (front ++ word ++ rest) = 0 := by
  obtain ⟨c, tail, rfl, -, htail⟩ := hword
  rw [List.append_assoc, List.cons_append]
  exact leibnizLength_of_name h htail hend

/-- A name is cut off whole, with the number in front of it. -/
theorem next_name {front word rest : List Char} (h : Front front) (hword : IsWord word)
    (hend : Ends rest) : next (front ++ word ++ rest) = ⟨.name, (front ++ word).length⟩ := by
  have hleibniz := leibnizLength_of_word h hword hend
  obtain ⟨c, tail, rfl, hc, htail⟩ := hword
  have hlen : nameLength (front ++ c :: tail ++ rest) = (front ++ c :: tail).length := by
    rw [List.append_assoc, List.cons_append, nameLength_append h hc,
      runLength_append htail (hend.stops rfl rfl rfl), List.length_append, List.length_cons]
    omega
  obtain ⟨first, more, hfirst, hlead⟩ := exists_lead h hc (tail ++ rest)
  rw [← List.cons_append, ← List.append_assoc] at hfirst
  have hpos : nameLength (front ++ c :: tail ++ rest) ≠ 0 := by
    rw [hlen]
    simp
  rw [← hlen]
  rw [hfirst] at hleibniz hpos ⊢
  exact next_of_nameLength hlead hleibniz hpos

/-- The letters in front of the slash of a derivative could be a name. -/
theorem nameLength_leibniz {of : Char} (hof : of.isAlpha = true) (rest : List Char) :
    nameLength ('d' :: of :: '/' :: rest) = 2 := by
  have hname : nameLength ([] ++ 'd' :: ([of] ++ '/' :: rest)) = _ :=
    nameLength_append (Or.inl rfl) rfl
  have hrun : runLength isNameChar ([of] ++ '/' :: rest) = [of].length :=
    runLength_append (by simp [isNameChar, Char.isAlphanum, hof]) (stops_cons rfl _)
  rw [hrun] at hname
  exact hname

theorem leibnizLength_eq_five {of wrt : Char} (hof : of.isAlpha = true) (hwrt : wrt.isAlpha = true)
    (rest : List Char) : leibnizLength ('d' :: of :: '/' :: 'd' :: wrt :: rest) = 5 := by
  simp only [leibnizLength, hof, hwrt, Bool.and_self, if_true]

/-- A derivative is cut off whole, though it begins like a name. -/
theorem next_leibniz {of wrt : Char} (hof : of.isAlpha = true) (hwrt : wrt.isAlpha = true)
    (rest : List Char) : next ('d' :: of :: '/' :: 'd' :: wrt :: rest) = ⟨.leibniz, 5⟩ := by
  have hlen : Kind.leibniz.matchLength ('d' :: of :: '/' :: 'd' :: wrt :: rest) = 5 :=
    leibnizLength_eq_five hof hwrt rest
  have hname := nameLength_leibniz hof ('d' :: wrt :: rest)
  have hnumber : numberLength ([] ++ 'd' :: of :: '/' :: 'd' :: wrt :: rest) ≤ 0 :=
    numberLength_le (Or.inl rfl) (stops_cons rfl _)
  rw [← hlen]
  refine next_of_max (by decide) (by rw [hlen]; omega) fun k _ hk => ?_
  rw [hlen]
  by_cases h₁ : k = .number
  · rw [h₁, Kind.matchLength]
    exact Nat.lt_of_le_of_lt hnumber (by decide)
  · by_cases h₂ : k = .name
    · rw [h₂, Kind.matchLength, hname]
      decide
    · exact Nat.lt_of_le_of_lt
        (matchLength_le_signLength (Or.inr (Or.inl rfl)) h₁ h₂ hk) (Nat.succ_pos 4)

/-! The tokens of one character leave the other patterns nothing to match. -/

theorem next_blank {rest : List Char} (hstop : Stops isSpace rest) :
    next (' ' :: rest) = ⟨.blank, 1⟩ := by
  have hrun : (([' '] ++ rest).takeWhile isSpace).length = 1 := by
    rw [takeWhile_append_of_stops (List.all_eq_true.mp rfl) hstop]
    rfl
  rw [List.singleton_append] at hrun
  simp [next, longest, Kind.patterns, Operator.all, Kind.matchLength, hrun, charLength,
    Operator.symbol, numberLength, nameLength, leibnizLength, signLength, decimalLength, runLength]

theorem next_operator (op : Operator) (rest : List Char) :
    next (op.symbol :: ' ' :: rest) = ⟨.operator op, 1⟩ := by
  cases op <;> simp [next, longest, Kind.patterns, Operator.all, Kind.matchLength, charLength,
    Operator.symbol, runLength, isSpace, numberLength, nameLength, leibnizLength, signLength,
    decimalLength]

theorem next_openParen (rest : List Char) : next ('(' :: rest) = ⟨.openParen, 1⟩ := by
  simp [next, longest, Kind.patterns, Operator.all, Kind.matchLength, charLength,
    Operator.symbol, runLength, isSpace, numberLength, nameLength, leibnizLength, signLength,
    decimalLength]

theorem next_closeParen (rest : List Char) : next (')' :: rest) = ⟨.closeParen, 1⟩ := by
  simp [next, longest, Kind.patterns, Operator.all, Kind.matchLength, charLength,
    Operator.symbol, runLength, isSpace, numberLength, nameLength, leibnizLength, signLength,
    decimalLength]

/-- A minus that neither a number nor a name takes in is an operator. -/
theorem next_minus {cs : List Char} (hnumber : numberLength ('-' :: cs) = 0)
    (hname : nameLength ('-' :: cs) = 0) : next ('-' :: cs) = ⟨.operator .sub, 1⟩ := by
  refine next_of_max (k := .operator .sub) (by decide) Nat.one_pos fun k _ hk => ?_
  cases k with
  | blank => exact Nat.succ_pos 0
  | operator op => cases op <;> first | exact absurd rfl hk | exact Nat.succ_pos 0
  | openParen => exact Nat.succ_pos 0
  | closeParen => exact Nat.succ_pos 0
  | number => exact Nat.lt_of_le_of_lt (Nat.le_of_eq hnumber) Nat.one_pos
  | name => exact Nat.lt_of_le_of_lt (Nat.le_of_eq hname) Nat.one_pos
  | leibniz => exact Nat.succ_pos 0
  | symbol => exact Nat.succ_pos 0

/-! ## What a name looks like -/

theorem of_mem_take_runLength {cs : List Char} {p : Char → Bool} {x : Char}
    (h : x ∈ cs.take (runLength p cs)) : p x = true := by
  rw [take_runLength] at h
  exact List.all_eq_true.mp List.all_takeWhile x h

theorem isNumeric_of_mem_take_decimalLength {cs : List Char} {x : Char}
    (h : x ∈ cs.take (decimalLength cs)) : SplitName.isNumeric x = true := by
  have hdigits : ∀ {ds : List Char}, x ∈ ds.take (runLength Char.isDigit ds) →
      SplitName.isNumeric x = true := by
    intro ds hx
    simp [SplitName.isNumeric, of_mem_take_runLength hx]
  simp only [decimalLength] at h
  split at h
  · next rest hrest =>
      split at h
      · exact hdigits h
      · rw [Nat.add_assoc, List.take_add, hrest, List.mem_append] at h
        rcases h with h | h
        · exact hdigits h
        · rw [Nat.add_comm, List.take_succ_cons] at h
          rcases List.mem_cons.mp h with rfl | h
          · rfl
          · exact hdigits h
  · exact hdigits h

theorem ne_minus_of_isNumeric {x : Char} (h : SplitName.isNumeric x = true) : x ≠ '-' := by
  rintro rfl
  cases h

theorem signLength_cases (cs : List Char) :
    (∃ rest, cs = '-' :: rest ∧ signLength cs = 1) ∨ signLength cs = 0 := by
  unfold signLength
  split
  · next rest => exact Or.inl ⟨rest, rfl, rfl⟩
  · exact Or.inr rfl

/-- A name has no minus but in front. -/
theorem no_minus_in_name (cs : List Char) : '-' ∉ (cs.take (nameLength cs)).tail := by
  simp only [nameLength]
  generalize hsign : signLength cs = sign
  split
  · next c rest hrest =>
      split
      · next hc =>
          have hbody : '-' ∉ (cs.drop sign).take
              (decimalLength (cs.drop sign) + (1 + runLength isNameChar rest)) := by
            rw [List.take_add, List.drop_drop, hrest, Nat.add_comm 1, List.take_succ_cons,
              List.mem_append]
            rintro (h | h)
            · exact ne_minus_of_isNumeric (isNumeric_of_mem_take_decimalLength h) rfl
            · rcases List.mem_cons.mp h with rfl | h
              · cases hc
              · cases of_mem_take_runLength h
          rw [Nat.add_assoc, Nat.add_assoc, List.take_add]
          rcases signLength_cases cs with ⟨rest', rfl, h⟩ | h
          · rw [← hsign, h] at hbody ⊢
            exact hbody
          · rw [← hsign, h] at hbody ⊢
            exact fun hm => hbody (List.mem_of_mem_tail hm)
      · simp
  · simp

/-! ## What a number or a name is without its minus -/

theorem plain_take_decimalLength {cs : List Char} (h : decimalLength cs ≠ 0) :
    Plain (cs.take (decimalLength cs)) := by
  have hdigits (ds : List Char) : ∀ c ∈ ds.take (runLength Char.isDigit ds), c.isDigit = true :=
    fun _ => of_mem_take_runLength
  have hne {ds : List Char} (h : runLength Char.isDigit ds ≠ 0) :
      ds.take (runLength Char.isDigit ds) ≠ [] := by
    rw [take_runLength]
    exact List.ne_nil_of_length_pos (Nat.pos_of_ne_zero h)
  revert h
  simp only [decimalLength]
  split
  · next rest hrest =>
      split
      · exact fun h => .whole (hne h) (hdigits cs)
      · next hsome =>
          obtain ⟨hwhole, hpart⟩ := not_or.mp hsome
          rw [Nat.add_assoc, List.take_add, hrest, Nat.add_comm 1, List.take_succ_cons]
          exact fun _ => .pointed (hne hwhole) (hdigits cs) (hne hpart) (hdigits rest)
  · exact fun h => .whole (hne h) (hdigits cs)

/-- A number or a name that has no sign. -/
def IsUnsigned : Kind → List Char → Prop
  | .number, cs => Plain cs
  | .name, cs => ∃ front word, cs = front ++ word ∧ (front = [] ∨ Plain front) ∧ IsWord word
  | _, _ => False

theorem isUnsigned_number {more rest : List Char}
    (h : ('-' :: more).take (numberLength ('-' :: more)) = '-' :: rest) :
    IsUnsigned .number rest := by
  have hlen : numberLength ('-' :: more) =
      if decimalLength more = 0 then 0 else 1 + decimalLength more := rfl
  rw [hlen] at h
  split at h
  · cases h
  · next hne =>
      rw [Nat.add_comm, List.take_succ_cons] at h
      rw [← (List.cons.inj h).2]
      exact plain_take_decimalLength hne

theorem isUnsigned_name {more rest : List Char}
    (h : ('-' :: more).take (nameLength ('-' :: more)) = '-' :: rest) :
    IsUnsigned .name rest := by
  simp only [nameLength, show signLength ('-' :: more) = 1 from rfl, List.drop_succ_cons,
    List.drop_zero, Nat.add_comm 1 (decimalLength more)] at h
  split at h
  · next c tail htail =>
      split at h
      · next hc =>
          have hlen : decimalLength more + 1 + 1 + runLength isNameChar tail =
              decimalLength more + (runLength isNameChar tail + 1) + 1 := by omega
          rw [hlen, List.take_succ_cons] at h
          have hrest := (List.cons.inj h).2
          rw [List.take_add, htail, List.take_succ_cons] at hrest
          refine ⟨_, _, hrest.symm, ?_, c, _, rfl, hc, fun x => of_mem_take_runLength⟩
          by_cases hzero : decimalLength more = 0
          · rw [hzero]
            exact Or.inl rfl
          · exact Or.inr (plain_take_decimalLength hzero)
      · cases h
  · cases h

/-- Behind its minus, a number or name is one without a sign. -/
theorem isUnsigned_of_next {cs rest : List Char}
    (hkind : (next cs).kind = .number ∨ (next cs).kind = .name)
    (h : cs.take (next cs).length = '-' :: rest) : IsUnsigned (next cs).kind rest := by
  have hlen : (next cs).length = (next cs).kind.matchLength cs :=
    length_next (by rcases hkind with hk | hk <;> rw [hk] <;> decide)
  obtain ⟨more, rfl⟩ : ∃ more, cs = '-' :: more := by
    have hpos := next_length_pos cs
    obtain ⟨n, hn⟩ := Nat.exists_eq_succ_of_ne_zero (Nat.ne_of_gt hpos)
    rw [hn] at h
    cases cs with
    | nil => cases h
    | cons c cs => exact ⟨cs, congrArg (· :: cs) (List.cons.inj h).1⟩
  rw [hlen] at h
  rcases hkind with hk | hk
  · rw [hk] at h ⊢
    exact isUnsigned_number h
  · rw [hk] at h ⊢
    exact isUnsigned_name h

/-- A number or a name without a sign is cut off whole. -/
theorem next_unsigned {kind : Kind} {cs rest : List Char} (h : IsUnsigned kind cs)
    (hend : Ends rest) : next (cs ++ rest) = ⟨kind, cs.length⟩ := by
  match kind with
  | .number => exact next_number (.plain h) hend
  | .name =>
      obtain ⟨front, word, rfl, hfront, hword⟩ := h
      exact next_name (hfront.imp id Decimal.Signed.plain) hword hend

theorem IsUnsigned.exists_cons {kind : Kind} {cs : List Char} (h : IsUnsigned kind cs) :
    ∃ c rest, cs = c :: rest ∧ c ≠ '-' := by
  have hdigit {c : Char} (hc : c.isDigit = true) : c ≠ '-' := by
    rintro rfl
    cases hc
  match kind with
  | .number =>
      obtain ⟨c, rest, rfl, hc⟩ := Plain.exists_cons h
      exact ⟨c, rest, rfl, hdigit hc⟩
  | .name =>
      obtain ⟨front, word, rfl, rfl | hfront, c, tail, rfl, hc, -⟩ := h
      · refine ⟨c, tail, rfl, ?_⟩
        rintro rfl
        cases hc
      · obtain ⟨d, rest, rfl, hd⟩ := hfront.exists_cons
        exact ⟨d, rest ++ c :: tail, rfl, hdigit hd⟩

/-! ## All tokens of a text -/

/-- What holds wherever a token is cut off holds of all tokens of a text. -/
theorem forall_mem_scanFrom {P : Token → Prop}
    (h : ∀ cs span, cs ≠ [] → P ⟨(next cs).kind, span, cs.take (next cs).length⟩) (offset : Nat)
    (cs : List Char) : ∀ t ∈ scanFrom offset cs, P t := by
  induction offset, cs using scanFrom.induct with
  | case1 offset =>
      rw [scanFrom]
      exact fun t ht => absurd ht List.not_mem_nil
  | case2 offset c rest m lexeme stop ih =>
      rw [scanFrom, List.forall_mem_cons]
      exact ⟨h (c :: rest) _ (List.cons_ne_nil c rest), ih⟩

end Fluxion.Token
