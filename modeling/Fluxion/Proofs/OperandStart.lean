import Fluxion.Proofs.Refusals
import Fluxion.Proofs.Tiling

/-!
# Where an operand may start

Signs are settled by a look back at one token, reading goes by a flag that every
token it takes can change. Both say where an operand may start, and they agree: a
reading that has taken some tokens expects an operand unless the last of them that is
not blank ends one (`Reading.expectsOperand_behind`). What each token does to the flag
is known from the ways in which it can be taken (`Reading.Takes.expectsOperand`).

So a text is never refused because of a sign where an operator is missing. Behind an
operand the token that begins with a minus is the operator, as no signed token is left
there, and taking an operator behind an operand cannot fail: all that waits and has to
be merged finds its operands (`Reading.Holds.exists_mergeWhile`).
-/

namespace Fluxion

open Token (visible endSpan afterOperand operandBehind Kind tokenize)

namespace Token

/-! ## A minus behind an operand -/

theorem kind_next_minus (cs : List Char) :
    (next ('-' :: cs)).kind = .operator .sub ∨ (next ('-' :: cs)).kind = .number ∨
      (next ('-' :: cs)).kind = .name := by
  have hlead : Leads '-' := Or.inr (Or.inr rfl)
  have hleibniz : leibnizLength ('-' :: cs) = 0 := leibnizLength_of_ne (by decide) cs
  by_cases hname : nameLength ('-' :: cs) = 0
  · by_cases hnumber : numberLength ('-' :: cs) = 0
    · exact Or.inl (congrArg Match.kind (next_minus hnumber hname))
    · have hnext := next_of_numberLength hlead hleibniz hname hnumber
      exact Or.inr (Or.inl (congrArg Match.kind hnext))
  · exact Or.inr (Or.inr (congrArg Match.kind (next_of_nameLength hlead hleibniz hname)))

/-- A token that begins with a minus is an operator if it is no signed number or name. -/
def MinusSubtracts (t : Token) : Prop :=
  t.lexeme.head? = some '-' → t.isSigned = false → t.kind = .operator .sub

theorem minusSubtracts_of_mem_scan {cs : List Char} : ∀ t ∈ scan cs, t.MinusSubtracts := by
  refine forall_mem_scanFrom (fun cs span hne hhead hsigned => ?_) 0 cs
  obtain ⟨c, cs, rfl⟩ := List.exists_cons_of_ne_nil hne
  obtain ⟨n, hn⟩ := Nat.exists_eq_succ_of_ne_zero (Nat.ne_of_gt (next_length_pos (c :: cs)))
  rw [hn, List.take_succ_cons] at hhead hsigned
  obtain rfl : c = '-' := Option.some.inj hhead
  refine (kind_next_minus cs).resolve_right fun hk => ?_
  rw [isSigned_iff.mpr ⟨hk, _, rfl⟩] at hsigned
  cases hsigned

theorem minusSubtracts_of_mem_tokenize {cs : List Char} : ∀ t ∈ tokenize cs, t.MinusSubtracts := by
  refine forall_mem_tokenize minusSubtracts_of_mem_scan (fun _ _ _ => rfl) ?_
  intro kind span rest hrest hhead
  obtain ⟨c, more, rfl, hc⟩ := hrest.exists_cons
  exact absurd (Option.some.inj hhead) hc

/-- Behind an operand, what begins with a minus is the operator. -/
theorem kind_of_minus_behind {cs : List Char} {before after : List Token} {t : Token}
    (h : tokenize cs = before ++ t :: after) (hbehind : afterOperand before = true)
    (hminus : t.lexeme.head? = some '-') : t.kind = .operator .sub := by
  have hmem : t ∈ tokenize cs := by simp [h]
  refine minusSubtracts_of_mem_tokenize t hmem hminus (Bool.eq_false_iff.mpr fun hsigned => ?_)
  have hnone := signsSettled_splitSigns wellSigned_of_mem_scan false before t after h hsigned
  rw [operandBehind_false, hbehind] at hnone
  cases hnone

theorem Covers.lexeme_eq {t u : Token} {text : String} (ht : t.Covers text) (hu : u.Covers text)
    (h : t.span = u.span) : t.lexeme = u.lexeme := by
  have hbytes : (String.ofList t.lexeme).toByteArray = (String.ofList u.lexeme).toByteArray := by
    rw [← ht.slice, ← hu.slice, h]
  exact String.ofList_injective (String.toByteArray_inj.mp hbytes)

theorem exists_of_visible_eq {ts front rest : List Token} {t : Token}
    (h : visible ts = front ++ t :: rest) :
    ∃ before after, ts = before ++ t :: after ∧ visible before = front ∧
      visible (t :: after) = t :: rest := by
  obtain ⟨before, ts', rfl, hbefore, hrest⟩ := List.filter_eq_append_iff.mp h
  obtain ⟨blanks, after, rfl, hblanks, ht, hafter⟩ := List.filter_eq_cons_iff.mp hrest
  refine ⟨before ++ blanks, after, by simp, ?_, ?_⟩
  · rw [visible, List.filter_append, hbefore, List.filter_eq_nil_iff.mpr hblanks, List.append_nil]
  · have hblank : t.isBlank = false := by simpa using ht
    rw [visible_cons, hblank, if_neg Bool.false_ne_true, visible, hafter]

end Token

namespace Reading

/-! ## The tokens at the front -/

theorem takeFront_append (r : Reading) (eof : Span) (after ts us : List Token) :
    r.takeFront eof after (ts ++ us) =
      (r.takeFront eof (us ++ after) ts).bind fun r' => r'.takeFront eof after us := by
  induction ts generalizing r with
  | nil => rfl
  | cons t ts ih =>
      simp only [List.cons_append, takeFront, List.append_assoc]
      cases r.take eof t ((ts ++ (us ++ after)).head?.map (·.kind)) with
      | error fault => rfl
      | ok r' => exact ih r'

/-- A reading that goes wrong does so at some token, and has taken those in front. -/
theorem exists_of_takeFront_error {r : Reading} {eof : Span} {after ts : List Token}
    {fault : Located Fault} (h : r.takeFront eof after ts = .error fault) :
    ∃ front t rest r', ts = front ++ t :: rest ∧
      r.takeFront eof (t :: rest ++ after) front = .ok r' ∧
      r'.take eof t ((rest ++ after).head?.map (·.kind)) = .error fault := by
  induction ts generalizing r with
  | nil => cases h
  | cons t ts ih =>
      rw [takeFront] at h
      cases ht : r.take eof t ((ts ++ after).head?.map (·.kind)) with
      | error f =>
          rw [ht] at h
          cases h
          exact ⟨[], t, ts, r, rfl, rfl, ht⟩
      | ok r₁ =>
          rw [ht] at h
          obtain ⟨front, u, rest, r', rfl, hfront, hu⟩ := ih h
          refine ⟨t :: front, u, rest, r', rfl, ?_, hu⟩
          rw [List.append_assoc] at ht
          rw [takeFront, ht]
          exact hfront

/-- A reading that has taken the tokens in front of others. -/
def behind (before after : List Token) : Except (Located Fault) Reading :=
  start.takeFront (endSpan (before ++ after)) (visible after) (visible before)

/-- A list of tokens is read part by part. -/
theorem ofTokens_append (before after : List Token) :
    Expr.ofTokens (before ++ after) = (behind before after).bind fun r =>
      (r.takeAll (endSpan (before ++ after)) (visible after)).bind fun r' =>
        r'.finish (endSpan (before ++ after)) := by
  have hvisible : visible (before ++ after) = visible before ++ visible after :=
    List.filter_append ..
  rw [Expr.ofTokens_eq, hvisible, takeFront_append, List.append_nil, behind]
  cases start.takeFront (endSpan (before ++ after)) (visible after) (visible before) with
  | error fault => rfl
  | ok r =>
      simp only [Except.bind, takeAll_eq_takeFront]

theorem ofTokens_eq_behind (ts : List Token) :
    Expr.ofTokens ts = (behind ts []).bind fun r => r.finish (endSpan ts) := by
  rw [Expr.ofTokens_eq, behind, List.append_nil]
  rfl

/-- Where tokens are no expression, either one of them is refused behind those in
front of it, or the end comes too early. -/
theorem exists_of_ofTokens_error {ts : List Token} {fault : Located Fault}
    (h : Expr.ofTokens ts = .error fault) :
    (∃ before t after r, ts = before ++ t :: after ∧ t.kind ≠ .blank ∧
      behind before (t :: after) = .ok r ∧
      r.take (endSpan ts) t ((visible after).head?.map (·.kind)) = .error fault) ∨
    ∃ r, behind ts [] = .ok r ∧ r.finish (endSpan ts) = .error fault := by
  rw [ofTokens_eq_behind] at h
  cases hr : behind ts [] with
  | ok r =>
      rw [hr] at h
      exact Or.inr ⟨r, rfl, h⟩
  | error fault' =>
      rw [hr] at h
      cases h
      rw [behind, List.append_nil] at hr
      obtain ⟨front, t, rest, r, hvisible, hfront, ht⟩ := exists_of_takeFront_error hr
      obtain ⟨before, after, rfl, rfl, hafter⟩ := Token.exists_of_visible_eq hvisible
      have hmem : t ∈ visible (t :: after) := by simp [hafter]
      have hblank : t.kind ≠ .blank := Token.kind_ne_blank_of_mem_visible hmem
      have hrest : visible after = rest := by
        rw [Token.visible_cons, if_neg (by simpa [Token.isBlank] using hblank)] at hafter
        exact (List.cons.inj hafter).2
      rw [show visible [] = [] from rfl, List.append_nil] at hfront ht
      rw [← hafter] at hfront
      rw [← hrest] at ht
      exact Or.inl ⟨before, t, after, r, rfl, hblank, hfront, ht⟩

/-! ## Whether an operand may start -/

theorem Takes.expectsOperand {r r' : Reading} {t : Token} {upcoming : Option Kind}
    (h : Takes r t upcoming r') : r'.expectsOperand = !t.endsOperand := by
  cases h with
  | leaf h => rw [(Token.endsOperand_of_operand? h).1]; rfl
  | call h =>
      have hk := Token.kind_of_call? h
      simp only [Token.call?, hk] at h
      simp [Token.endsOperand, hk, h]
  | opening h => simp [Token.endsOperand, h]
  | closing h hm hc => simp [Token.endsOperand, h]
  | operator h hm => simp [Token.endsOperand, h]

theorem expectsOperand_takeFront {r r' : Reading} {eof : Span} {after ts : List Token}
    (hb : ∀ t ∈ ts, t.kind ≠ .blank) (h : r.takeFront eof after ts = .ok r') :
    r'.expectsOperand = !operandBehind (!r.expectsOperand) ts := by
  induction ts generalizing r with
  | nil =>
      cases h
      exact (Bool.not_not _).symm
  | cons t ts ih =>
      obtain ⟨ht, hts⟩ := List.forall_mem_cons.mp hb
      rw [takeFront] at h
      cases hr : r.take eof t ((ts ++ after).head?.map (·.kind)) with
      | error f => rw [hr] at h; cases h
      | ok r₁ =>
          rw [hr] at h
          have htakes := (take_eq_ok_iff ht).mp hr
          rw [ih hts h, htakes.expectsOperand, Bool.not_not]
          simp [operandBehind, Token.isBlank, ht]

/-- The flag of a reading says what a look back at the tokens says. -/
theorem expectsOperand_behind {before after : List Token} {r : Reading}
    (h : behind before after = .ok r) : r.expectsOperand = !afterOperand before := by
  have hflag := expectsOperand_takeFront (fun _ => Token.kind_ne_blank_of_mem_visible) h
  rw [hflag, Token.operandBehind_visible]
  exact congrArg _ (Token.operandBehind_false before)

/-- A token is taken behind those in front of it. -/
theorem behind_append_singleton {before after : List Token} {t : Token} {r : Reading}
    (ht : t.isBlank = false) (h : behind before (t :: after) = .ok r) :
    behind (before ++ [t]) after =
      r.take (endSpan (before ++ t :: after)) t ((visible after).head?.map (·.kind)) := by
  have hafter : visible (t :: after) = [t] ++ visible after := by simp [Token.visible_cons, ht]
  have hbefore : visible (before ++ [t]) = visible before ++ [t] := by
    rw [visible, List.filter_append, ← visible]
    simp [ht]
  rw [behind, hafter] at h
  rw [behind, List.append_assoc, List.singleton_append, hbefore, takeFront_append, h]
  simp only [Except.bind, takeFront, List.nil_append]
  cases r.take (endSpan (before ++ t :: after)) t ((visible after).head?.map (·.kind)) <;> rfl

/-! ## Where an operator is missing -/

/-- Behind an operand, an operator is taken. -/
theorem Follows.exists_take_operator {ts : List Token} {r : Reading} {t : Token} {op : Operator}
    (h : Follows ts r) (hr : r.expectsOperand = false) (ht : t.kind = .operator op) (eof : Span)
    (upcoming : Option Kind) :
    ∃ s : Stacks, r.take eof t upcoming =
      .ok ⟨⟨s.operands, .operator op t.span :: s.pending⟩, true⟩ := by
  obtain ⟨s, expects⟩ := r
  simp only at hr
  subst hr
  obtain ⟨s', hm⟩ := Holds.exists_mergeWhile (q := Pending.yieldsTo op) (fun _ => rfl) h
  exact ⟨s', take_operator ht eof upcoming hm⟩

theorem missing_ne_missingOperator (eof span : Span) (ps : List Pending) :
    Pending.missing eof ps ≠ ⟨.missingOperator, span⟩ := by
  unfold Pending.missing
  split <;> exact fun h => by cases h

theorem Follows.take_missingOperator {ts : List Token} {r : Reading} {eof : Span} {t : Token}
    {upcoming : Option Kind} {span : Span} (h : Follows ts r) (hb : t.kind ≠ .blank)
    (ht : r.take eof t upcoming = .error ⟨.missingOperator, span⟩) :
    r.expectsOperand = false ∧ t.span = span ∧ t.Starts := by
  have hrefuses := h.refuses_of_take hb ht
  generalize hfault : (⟨.missingOperator, span⟩ : Located Fault) = fault at hrefuses
  cases hrefuses with
  | unjoined hstarts =>
      cases hfault
      exact ⟨rfl, rfl, hstarts⟩
  | unfinished _ => exact absurd hfault.symm (missing_ne_missingOperator eof span _)
  | outOfRange _ | unexpected _ | meaningless _ _ _ _ | uncalled _ _ | unopened _ _
  | operator _ => cases hfault

/-- Nor is an operator missing at the end. -/
theorem Follows.finish_ne_missingOperator {ts : List Token} {r : Reading} (h : Follows ts r)
    (eof span : Span) : r.finish eof ≠ .error ⟨.missingOperator, span⟩ := by
  intro heq
  rcases h.finish_cases eof with hf | ⟨o, hf⟩ | ⟨p, -, hf⟩
  · exact missing_ne_missingOperator eof span r.pending (Except.error.inj (hf.symm.trans heq))
  · rw [hf] at heq
    cases heq
  · rw [hf] at heq
    cases heq

/-- Where an operator is missing, an operand is complete and no operator stands. -/
theorem exists_of_ofTokens_missingOperator {ts : List Token} {span : Span}
    (h : Expr.ofTokens ts = .error ⟨.missingOperator, span⟩) :
    ∃ before t after, ts = before ++ t :: after ∧ t.span = span ∧ afterOperand before = true ∧
      ∀ op, t.kind ≠ .operator op := by
  rcases exists_of_ofTokens_error h with
    ⟨before, t, after, r, rfl, hblank, hr, ht⟩ | ⟨r, hr, hfinish⟩
  · obtain ⟨hexpects, hspan, hstarts⟩ := (follows_visible hr).take_missingOperator hblank ht
    rw [expectsOperand_behind hr, Bool.not_eq_false'] at hexpects
    exact ⟨before, t, after, rfl, hspan, hexpects, fun op => hstarts.kind_ne_operator op⟩
  · exact absurd hfinish ((follows_visible hr).finish_ne_missingOperator (endSpan ts) span)

/-- A list of tokens is read part by part, and behind each front part of it an operand
may start unless the last token of the part that is not blank ends one. So what
is pointed at where an operator is missing never begins with a minus, and a minus
behind an operand is taken as a subtraction. -/
theorem expectsOperand_iff_and_minus_subtracts :
    (∀ before after, Expr.ofTokens (before ++ after) = (behind before after).bind fun r =>
      (r.takeAll (endSpan (before ++ after)) (visible after)).bind fun r' =>
        r'.finish (endSpan (before ++ after))) ∧
    (∀ before after r, behind before after = .ok r →
      (r.expectsOperand = true ↔
        ∀ t, (visible before).getLast? = some t → t.endsOperand = false)) ∧
    (∀ cs span, Expr.read cs = .error ⟨.missingOperator, span⟩ →
      (∃ t ∈ tokenize cs, t.span = span) ∧
        ∀ t ∈ tokenize cs, t.span = span → t.lexeme.head? ≠ some '-') ∧
    (∀ cs before t after r, tokenize cs = before ++ t :: after →
      behind before (t :: after) = .ok r → afterOperand before = true →
      t.lexeme.head? = some '-' → ∃ s : Stacks,
        behind (before ++ [t]) after =
          .ok ⟨⟨s.operands, .operator .sub t.span :: s.pending⟩, true⟩) := by
  refine ⟨ofTokens_append, ?_, ?_, ?_⟩
  · intro before after r h
    rw [expectsOperand_behind h, afterOperand]
    cases (visible before).getLast? <;> simp
  · intro cs span h
    obtain ⟨before, t, after, htokens, rfl, hbehind, hop⟩ := exists_of_ofTokens_missingOperator h
    have hmem : t ∈ tokenize cs := by simp [htokens]
    refine ⟨⟨t, hmem, rfl⟩, fun u hu hspan hminus => ?_⟩
    have hlexeme := (Token.covers_of_mem_tokenize hu).lexeme_eq
      (Token.covers_of_mem_tokenize hmem) hspan
    rw [hlexeme] at hminus
    exact hop .sub (Token.kind_of_minus_behind htokens hbehind hminus)
  · intro cs before t after r htokens hr hbehind hminus
    have hkind := Token.kind_of_minus_behind htokens hbehind hminus
    have hexpects : r.expectsOperand = false := by rw [expectsOperand_behind hr, hbehind]; rfl
    have hblank : t.isBlank = false := by simp [Token.isBlank, hkind]
    rw [behind_append_singleton hblank hr]
    exact (follows_visible hr).exists_take_operator hexpects hkind _ _

/-- In `x x` an operator is missing at the second letter. In `x-1` none is missing: no
operand may start behind `x`, and so the minus is no sign of the number. -/
theorem expectsOperand_iff_and_minus_subtracts_letters :
    (Expr.read ['x', ' ', 'x'] = .error ⟨.missingOperator, ⟨2, 3⟩⟩ ∧
      (∃ t ∈ tokenize ['x', ' ', 'x'], t.span = ⟨2, 3⟩) ∧
        ∀ t ∈ tokenize ['x', ' ', 'x'], t.span = ⟨2, 3⟩ → t.lexeme.head? ≠ some '-') ∧
    ∃ before t after r, tokenize ['x', '-', '1'] = before ++ t :: after ∧ t.span = ⟨1, 2⟩ ∧
      t.lexeme.head? = some '-' ∧ behind before (t :: after) = .ok r ∧
      r.expectsOperand = false ∧ ∃ s : Stacks,
        behind (before ++ [t]) after =
          .ok ⟨⟨s.operands, .operator .sub t.span :: s.pending⟩, true⟩ := by
  obtain ⟨-, hflag, hmissing, hminus⟩ := expectsOperand_iff_and_minus_subtracts
  have hread : Expr.read ['x', ' ', 'x'] = .error ⟨.missingOperator, ⟨2, 3⟩⟩ := by cbv
  have htokens : tokenize ['x', '-', '1'] =
      [⟨.name, ⟨0, 1⟩, ['x']⟩] ++ ⟨.operator .sub, ⟨1, 2⟩, ['-']⟩ ::
        [⟨.number, ⟨2, 3⟩, ['1']⟩] := by cbv
  have hbehind : behind [⟨.name, ⟨0, 1⟩, ['x']⟩]
      [⟨.operator .sub, ⟨1, 2⟩, ['-']⟩, ⟨.number, ⟨2, 3⟩, ['1']⟩] =
        .ok ⟨⟨[.var none 'x'], []⟩, false⟩ := by cbv
  have hends : Token.endsOperand ⟨.name, ⟨0, 1⟩, ['x']⟩ = true := by cbv
  refine ⟨⟨hread, hmissing _ _ hread⟩, _, _, _, _, htokens, rfl, rfl, hbehind, ?_,
    hminus _ _ _ _ _ htokens hbehind hends rfl⟩
  refine Bool.eq_false_iff.mpr fun hexpects => ?_
  have hnone := (hflag _ _ _ hbehind).mp hexpects _ rfl
  cases hends.symm.trans hnone

end Reading

end Fluxion
