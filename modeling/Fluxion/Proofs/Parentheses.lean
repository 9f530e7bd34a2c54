import Fluxion.Proofs.OperandStart

/-!
# Parentheses that do not match

A text whose parentheses do not match is no expression, and where the complaint is
about a parenthesis it points at the right one: the first that is closed without
having been opened, or the last that is opened and stays open.

Which parentheses match is said without a stack. Tokens are `Balanced` if they close
what they open and nothing else, and a parenthesis is closed by the first closing one
behind it with balanced tokens in between. The stack of a reading is told by the same
notion: between the open parentheses that wait on it, and in front of the first of
them, all tokens are balanced (`LeavesOpen`). Every token that is taken keeps that
up, whatever operators and functions it merges, because merging stops at an open
parenthesis. So a closing parenthesis that finds none has balanced tokens in front of
it, and the parenthesis that is found at the end is the last one to stay open.
-/

namespace Fluxion

open Token (visible endSpan depth tokenize)

namespace Token

/-! ## Matching parentheses -/

/-- No parenthesis is closed that was not opened: up to any place, the tokens close at
most as many as they open. -/
def NoneUnopened (ts : List Token) : Prop :=
  ∀ front, front <+: ts → 0 ≤ depth front

/-- Every parenthesis that is opened is closed, and no other is. -/
structure Balanced (ts : List Token) : Prop where
  noneUnopened : NoneUnopened ts
  depth_eq : depth ts = 0

/-- A parenthesis that is opened in front of the tokens is closed by none of them. -/
def StaysOpen (after : List Token) : Prop :=
  ∀ inside c rest, after = inside ++ c :: rest → Balanced inside → c.kind ≠ .closeParen

theorem opens_cases (t : Token) :
    (t.kind = .openParen ∧ t.opens = 1) ∨ (t.kind = .closeParen ∧ t.opens = -1) ∨
      (t.kind ≠ .openParen ∧ t.kind ≠ .closeParen ∧ t.opens = 0) := by
  by_cases ho : t.kind = .openParen
  · exact Or.inl ⟨ho, opens_of_openParen ho⟩
  · by_cases hc : t.kind = .closeParen
    · exact Or.inr (Or.inl ⟨hc, opens_of_closeParen hc⟩)
    · refine Or.inr (Or.inr ⟨ho, hc, ?_⟩)
      unfold opens
      split
      · next hk => exact absurd hk ho
      · next hk => exact absurd hk hc
      · rfl

theorem NoneUnopened.of_prefix {ts us : List Token} (h : NoneUnopened us) (hpre : ts <+: us) :
    NoneUnopened ts :=
  fun front hfront => h front (hfront.trans hpre)

theorem noneUnopened_nil : NoneUnopened [] := by
  intro front h
  rw [List.prefix_nil.mp h]
  exact Int.le_refl 0

/-- The last token may close what the tokens in front of it leave open. -/
theorem NoneUnopened.concat {ts : List Token} {t : Token} (h : NoneUnopened ts)
    (ht : 0 ≤ depth ts + t.opens) : NoneUnopened (ts ++ [t]) := by
  intro front hfront
  rcases List.prefix_concat_iff.mp hfront with rfl | hfront
  · simpa using ht
  · exact h front hfront

theorem NoneUnopened.append {ts us : List Token} (h : NoneUnopened ts) (h' : NoneUnopened us) :
    NoneUnopened (ts ++ us) := by
  induction us using List.reverseRecOn with
  | nil => rwa [List.append_nil]
  | append_singleton us t ih =>
      have hts := h ts (List.prefix_refl ts)
      have hus := h' (us ++ [t]) (List.prefix_refl _)
      simp only [depth_append, depth_cons, depth_nil] at hus
      rw [← List.append_assoc]
      refine (ih (h'.of_prefix (List.prefix_append us [t]))).concat ?_
      rw [depth_append]
      omega

/-- The first parenthesis that is closed without having been opened stands behind
balanced tokens. -/
theorem exists_of_not_noneUnopened {ts : List Token} (h : ¬ NoneUnopened ts) :
    ∃ inside c rest, ts = inside ++ c :: rest ∧ Balanced inside ∧ c.kind = .closeParen := by
  induction ts using List.reverseRecOn with
  | nil => exact absurd noneUnopened_nil h
  | append_singleton ts t ih =>
      by_cases hts : NoneUnopened ts
      · have hdepth := hts ts (List.prefix_refl ts)
        have ht : ¬ 0 ≤ depth ts + t.opens := fun hle => h (hts.concat hle)
        rcases opens_cases t with ⟨-, hopens⟩ | ⟨hk, hopens⟩ | ⟨-, -, hopens⟩
        · omega
        · exact ⟨ts, t, [], rfl, ⟨hts, by omega⟩, hk⟩
        · omega
      · obtain ⟨inside, c, rest, rfl, hinside, hc⟩ := ih hts
        exact ⟨inside, c, rest ++ [t], by simp, hinside, hc⟩

theorem balanced_nil : Balanced [] :=
  ⟨noneUnopened_nil, rfl⟩

theorem balanced_singleton {t : Token} (h : t.opens = 0) : Balanced [t] :=
  ⟨noneUnopened_nil.concat (by simp [h]), by simp [h]⟩

theorem Balanced.append {ts us : List Token} (h : Balanced ts) (h' : Balanced us) :
    Balanced (ts ++ us) :=
  ⟨h.noneUnopened.append h'.noneUnopened, by rw [depth_append, h.depth_eq, h'.depth_eq]; rfl⟩

theorem Balanced.enclose {inside : List Token} {o c : Token} (h : Balanced inside)
    (ho : o.kind = .openParen) (hc : c.kind = .closeParen) : Balanced (o :: inside ++ [c]) := by
  have hopen : NoneUnopened [o] := noneUnopened_nil.concat (by simp [opens_of_openParen ho])
  refine ⟨(hopen.append h.noneUnopened).concat ?_, ?_⟩ <;>
    simp [opens_of_openParen ho, opens_of_closeParen hc, h.depth_eq]

/-- In balanced tokens, every parenthesis that is opened is closed. -/
theorem Balanced.not_staysOpen {front rest : List Token} {o : Token}
    (h : Balanced (front ++ o :: rest)) (ho : o.kind = .openParen) : ¬ StaysOpen rest := by
  intro hopen
  have hfront : 0 ≤ depth front := h.noneUnopened front (List.prefix_append _ _)
  have hdepth := h.depth_eq
  rw [depth_append, depth_cons, opens_of_openParen ho] at hdepth
  have hrest : ¬ NoneUnopened rest := by
    intro hrest
    have := hrest rest (List.prefix_refl rest)
    omega
  obtain ⟨inside, c, more, rfl, hinside, hc⟩ := exists_of_not_noneUnopened hrest
  exact hopen inside c more rfl hinside hc

/-- A parenthesis in front of balanced tokens is not closed by any of them. -/
theorem Balanced.staysOpen {after : List Token} (h : Balanced after) : StaysOpen after := by
  rintro inside c rest rfl hinside hc
  have hdepth := h.noneUnopened (inside ++ [c]) (by simp)
  simp [hinside.depth_eq, opens_of_closeParen hc] at hdepth

/-! ## Open parentheses -/

/-- Behind the tokens, the parentheses at these places are open, the last one first. -/
inductive LeavesOpen : List Token → List Span → Prop
  | nothing {ts : List Token} (h : Balanced ts) : LeavesOpen ts []
  | paren {ts inside : List Token} {o : Token} {spans : List Span} (h : LeavesOpen ts spans)
      (ho : o.kind = .openParen) (hinside : Balanced inside) :
      LeavesOpen (ts ++ o :: inside) (o.span :: spans)

namespace LeavesOpen

variable {ts us : List Token} {span : Span} {spans : List Span} {t : Token}

theorem append (h : LeavesOpen ts spans) (hus : Balanced us) : LeavesOpen (ts ++ us) spans := by
  cases h with
  | nothing h => exact .nothing (h.append hus)
  | paren h ho hinside =>
      rw [List.append_assoc, List.cons_append]
      exact .paren h ho (hinside.append hus)

/-- A token that is no parenthesis leaves open what was open. -/
theorem other (h : LeavesOpen ts spans) (ht : t.opens = 0) : LeavesOpen (ts ++ [t]) spans :=
  h.append (balanced_singleton ht)

theorem opening (h : LeavesOpen ts spans) (ht : t.kind = .openParen) :
    LeavesOpen (ts ++ [t]) (t.span :: spans) :=
  .paren h ht balanced_nil

theorem closing (h : LeavesOpen ts (span :: spans)) (ht : t.kind = .closeParen) :
    LeavesOpen (ts ++ [t]) spans := by
  cases h with
  | paren h ho hinside =>
      rw [List.append_assoc]
      exact h.append (hinside.enclose ho ht)

theorem balanced (h : LeavesOpen ts []) : Balanced ts := by
  cases h with
  | nothing h => exact h

theorem noneUnopened (h : LeavesOpen ts spans) : NoneUnopened ts := by
  induction h with
  | nothing h => exact h.noneUnopened
  | @paren ts inside o spans h ho hinside ih =>
      have hopen : NoneUnopened [o] := noneUnopened_nil.concat (by simp [opens_of_openParen ho])
      exact ih.append (hopen.append hinside.noneUnopened)

/-- The first of the places is that of the last parenthesis to stay open. -/
theorem exists_last (h : LeavesOpen ts (span :: spans)) :
    ∃ before o after, ts = before ++ o :: after ∧ o.kind = .openParen ∧ o.span = span ∧
      StaysOpen after ∧ ∀ front o' rest, after = front ++ o' :: rest → o'.kind = .openParen →
        ¬ StaysOpen rest := by
  cases h with
  | @paren before after o _ h ho hinside =>
      refine ⟨before, o, after, rfl, ho, rfl, hinside.staysOpen, ?_⟩
      rintro front o' rest rfl ho'
      exact hinside.not_staysOpen ho'

end LeavesOpen

end Token

/-! ## Parentheses on the stack -/

namespace Pending

/-- Where the parenthesis is that waits to be closed, if one does. -/
def openSpan? : Pending → Option Span
  | paren span => some span
  | operator _ _ | func _ _ _ => none

end Pending

/-- Where the parentheses are that wait to be closed, the last one first. -/
def openSpans (ps : List Pending) : List Span :=
  ps.filterMap Pending.openSpan?

namespace Stacks

theorem openSpans_mergeWhile {q : Pending → Bool} (hq : ∀ span, q (.paren span) = false)
    {ops : List Expr} {ps : List Pending} {s : Stacks} (h : mergeWhile q ops ps = .ok s) :
    openSpans s.pending = openSpans ps := by
  induction ps generalizing ops with
  | nil =>
      cases h
      rfl
  | cons p ps ih =>
      rw [mergeWhile] at h
      split at h
      · next hp =>
          have hparen : p.openSpan? = none := by
            cases p with
            | paren span =>
                rw [hq] at hp
                cases hp
            | operator op span | func call name span => rfl
          cases hm : p.merge ops with
          | error f => rw [hm] at h; cases h
          | ok ops' =>
              rw [hm] at h
              rw [ih h, openSpans, openSpans, List.filterMap_cons_none hparen]
      · cases h
        rfl

theorem openSpans_closeCall {s s' : Stacks} (h : s.closeCall = .ok s') :
    openSpans s'.pending = openSpans s.pending := by
  obtain ⟨ops, ps⟩ := s
  match ps with
  | [] | .operator _ _ :: _ | .paren _ :: _ =>
      cases h
      rfl
  | .func call name span :: ps =>
      match ops with
      | [] => cases h
      | arg :: ops =>
          cases h
          rfl

end Stacks

namespace Reading

open Token (LeavesOpen Balanced NoneUnopened StaysOpen)

variable {ts us after : List Token} {r r' : Reading} {eof : Span} {t : Token}

/-- A token that is taken opens a parenthesis, closes the last one, or leaves all as
they are. -/
theorem Takes.openSpans_cases {upcoming : Option Token.Kind} (h : Takes r t upcoming r') :
    (t.kind = .openParen ∧ openSpans r'.pending = t.span :: openSpans r.pending) ∨
      (t.kind = .closeParen ∧ ∃ span, openSpans r.pending = span :: openSpans r'.pending) ∨
      t.opens = 0 ∧ openSpans r'.pending = openSpans r.pending := by
  cases h with
  | leaf h => exact Or.inr (Or.inr ⟨Token.opens_of_operand? h, rfl⟩)
  | call h => exact Or.inr (Or.inr ⟨Token.opens_of_call? h, rfl⟩)
  | opening h => exact Or.inl ⟨h, rfl⟩
  | @closing s t upcoming ops span ps closed h hm hc =>
      have hspans := Stacks.openSpans_mergeWhile (fun _ => rfl) hm
      refine Or.inr (Or.inl ⟨h, span, ?_⟩)
      rw [Stacks.openSpans_closeCall hc, ← hspans]
      rfl
  | @operator s s' t op upcoming h hm =>
      have hspans := Stacks.openSpans_mergeWhile (q := Pending.yieldsTo op) (fun _ => rfl) hm
      exact Or.inr (Or.inr ⟨Token.opens_of_operator h, hspans⟩)

theorem Takes.leavesOpen {upcoming : Option Token.Kind} (h : Takes r t upcoming r')
    (hts : LeavesOpen ts (openSpans r.pending)) :
    LeavesOpen (ts ++ [t]) (openSpans r'.pending) := by
  rcases h.openSpans_cases with ⟨hk, hspans⟩ | ⟨hk, span, hspans⟩ | ⟨hopens, hspans⟩
  · rw [hspans]
    exact hts.opening hk
  · rw [hspans] at hts
    exact hts.closing hk
  · rw [hspans]
    exact hts.other hopens

theorem leavesOpen_takeFront (hts : LeavesOpen ts (openSpans r.pending))
    (h : r.takeFront eof after (visible us) = .ok r') :
    LeavesOpen (ts ++ us) (openSpans r'.pending) := by
  induction us generalizing ts r with
  | nil =>
      cases h
      rwa [List.append_nil]
  | cons u us ih =>
      rw [Token.visible_cons] at h
      rw [← List.singleton_append, ← List.append_assoc]
      split at h
      · next hblank =>
          have hkind : u.kind = .blank := by simpa [Token.isBlank] using hblank
          exact ih (hts.other (by simp only [Token.opens, hkind])) h
      · next hblank =>
          rw [takeFront] at h
          cases hu : r.take eof u ((visible us ++ after).head?.map (·.kind)) with
          | error fault => rw [hu] at h; cases h
          | ok r₁ =>
              rw [hu] at h
              have htakes := (take_eq_ok_iff (by simpa [Token.isBlank] using hblank)).mp hu
              exact ih (htakes.leavesOpen hts) h

/-- What waits to be closed in a reading is what its tokens leave open. -/
theorem leavesOpen_behind {before after : List Token} (h : behind before after = .ok r) :
    LeavesOpen before (openSpans r.pending) := by
  have hstart : LeavesOpen [] (openSpans start.pending) := .nothing Token.balanced_nil
  rw [← List.nil_append before]
  exact leavesOpen_takeFront hstart h

end Reading

/-! ## Complaints about parentheses -/

/-- Whether a complaint is about a parenthesis that matches no other. -/
def Fault.isUnmatched : Fault → Bool
  | unclosedParenthesis | unopenedParenthesis => true
  | missingOperand _ | missingOperator | unknownSymbol _ | unexpectedToken _ | numberOutOfRange _
  | emptyExpression => false

theorem Pending.isUnmatched_missing (eof : Span) (ps : List Pending) :
    (missing eof ps).value.isUnmatched = false := by
  unfold missing
  split <;> rfl

namespace Reading

open Token (LeavesOpen Balanced NoneUnopened StaysOpen)

variable {r : Reading} {eof : Span} {t : Token} {fault : Located Fault}

/-- The only token that is refused as a parenthesis is a closing one behind which none
is left to close. -/
theorem Refuses.unmatched {upcoming : Option Token.Kind} (h : Refuses eof r t upcoming fault)
    (hf : fault.value.isUnmatched = true) :
    fault = ⟨.unopenedParenthesis, t.span⟩ ∧ t.kind = .closeParen ∧ openSpans r.pending = [] := by
  cases h with
  | unopened hk hm =>
      exact ⟨rfl, hk, (Stacks.openSpans_mergeWhile (fun _ => rfl) hm).symm⟩
  | unfinished hk =>
      rw [Pending.isUnmatched_missing] at hf
      cases hf
  | outOfRange _ | unexpected _ | meaningless _ _ _ _ | uncalled _ _ | unjoined _
  | operator _ => cases hf

/-- With its last operand complete, a reading merges back to the last parenthesis that
is open, or to the bottom of the stack. -/
theorem Follows.merges {ts : List Token} {s : Stacks} (h : Follows ts ⟨s, false⟩) :
    ∃ ops, (∃ span ps, openSpans s.pending = span :: openSpans ps ∧
        Stacks.mergeWhile (fun p => !p.isParen) s.operands s.pending =
          .ok ⟨ops, .paren span :: ps⟩) ∨
      openSpans s.pending = [] ∧
        Stacks.mergeWhile (fun p => !p.isParen) s.operands s.pending = .ok ⟨ops, []⟩ := by
  obtain ⟨⟨ops, pending⟩, hm⟩ :=
    Holds.exists_mergeWhile (q := fun p => !p.isParen) (fun _ => rfl) h
  have hspans := Stacks.openSpans_mergeWhile (fun _ => rfl) hm
  rcases mergeWhile_paren_cases hm with rfl | ⟨span, ps, rfl⟩
  · exact ⟨ops, Or.inr ⟨hspans.symm, hm⟩⟩
  · exact ⟨ops, Or.inl ⟨span, ps, hspans.symm, hm⟩⟩

/-- Behind a complete operand, the end finds the last parenthesis that is open, or a
phrase if none is. -/
theorem Holds.finish_openSpans {ts : List Token} {s : Stacks} (h : Holds .atom ts s)
    (eof : Span) :
    (∃ span spans, openSpans s.pending = span :: spans ∧
      finish ⟨s, false⟩ eof = .error ⟨.unclosedParenthesis, span⟩) ∨
    openSpans s.pending = [] ∧
      ∃ p : Phrase .sum, p.tokens = ts ∧ finish ⟨s, false⟩ eof = .ok p.tree := by
  have hfollows : Follows ts ⟨s, false⟩ := h
  obtain ⟨ops, ⟨span, ps, hspans, hm⟩ | ⟨hspans, hm⟩⟩ := hfollows.merges
  · refine Or.inl ⟨span, openSpans ps, hspans, ?_⟩
    simp only [finish, Bool.false_eq_true, if_false, hm, bind, Except.bind]
  · refine Or.inr ⟨hspans, ?_⟩
    rcases h.finish_cases eof with ⟨span, hfinish⟩ | hphrase
    · simp only [finish, Bool.false_eq_true, if_false, hm, bind, Except.bind] at hfinish
      rcases ops with _ | ⟨e, _ | ⟨e', ops⟩⟩ <;> cases hfinish
    · exact hphrase

theorem Follows.openSpans_of_finish {ts : List Token} {e : Expr} (h : Follows ts r)
    (hfinish : r.finish eof = .ok e) : openSpans r.pending = [] := by
  obtain ⟨s, expects⟩ := r
  cases expects with
  | true => cases hfinish
  | false =>
      rcases Holds.finish_openSpans h eof with ⟨span, spans, -, hopen⟩ | ⟨hspans, -⟩
      · rw [hopen] at hfinish
        cases hfinish
      · exact hspans

/-- At the end, the complaint about a parenthesis is about the last one that is open. -/
theorem Follows.finish_unmatched {ts : List Token} (h : Follows ts r)
    (hfinish : r.finish eof = .error fault) (hf : fault.value.isUnmatched = true) :
    ∃ span spans, fault = ⟨.unclosedParenthesis, span⟩ ∧
      openSpans r.pending = span :: spans := by
  obtain ⟨s, expects⟩ := r
  cases expects with
  | true =>
      cases hfinish
      rw [Pending.isUnmatched_missing] at hf
      cases hf
  | false =>
      rcases Holds.finish_openSpans h eof with ⟨span, spans, hspans, hopen⟩ | ⟨-, p, -, hok⟩
      · rw [hopen] at hfinish
        cases hfinish
        exact ⟨span, spans, rfl, hspans⟩
      · rw [hok] at hfinish
        cases hfinish

end Reading

namespace Expr

open Token (Balanced NoneUnopened StaysOpen)

variable {ts : List Token} {fault : Located Fault}

theorem balanced_of_ofTokens {e : Expr} (h : ofTokens ts = .ok e) : Balanced ts := by
  rw [Reading.ofTokens_eq_behind] at h
  cases hr : Reading.behind ts [] with
  | error fault => rw [hr] at h; cases h
  | ok r =>
      rw [hr] at h
      have hopen := Reading.leavesOpen_behind hr
      rw [(Reading.follows_visible hr).openSpans_of_finish h] at hopen
      exact hopen.balanced

theorem exists_of_ofTokens_unmatched (h : ofTokens ts = .error fault)
    (hf : fault.value.isUnmatched = true) :
    (∃ before t after, ts = before ++ t :: after ∧ fault = ⟨.unopenedParenthesis, t.span⟩ ∧
      t.kind = .closeParen ∧ Balanced before) ∨
    ∃ span spans, fault = ⟨.unclosedParenthesis, span⟩ ∧ Token.LeavesOpen ts (span :: spans) := by
  rcases Reading.exists_of_ofTokens_error h with
    ⟨before, t, after, r, rfl, hblank, hr, ht⟩ | ⟨r, hr, hfinish⟩
  · have hrefuses := (Reading.follows_visible hr).refuses_of_take hblank ht
    obtain ⟨hfault, hk, hspans⟩ := hrefuses.unmatched hf
    have hopen := Reading.leavesOpen_behind hr
    rw [hspans] at hopen
    exact Or.inl ⟨before, t, after, rfl, hfault, hk, hopen.balanced⟩
  · obtain ⟨span, spans, hfault, hspans⟩ :=
      (Reading.follows_visible hr).finish_unmatched hfinish hf
    have hopen := Reading.leavesOpen_behind hr
    rw [hspans] at hopen
    exact Or.inr ⟨span, spans, hfault, hopen⟩

/-- A text that is read has balanced parentheses. Where it is refused for a closing
parenthesis, that is the first one that closes nothing; where it is refused for an open
one, that is the last one to stay open, and none is closed that was not opened. -/
theorem parentheses_of_read (cs : List Char) :
    (∀ e, read cs = .ok e → Balanced (tokenize cs)) ∧
    (∀ span, read cs = .error ⟨.unopenedParenthesis, span⟩ →
      ∃ before t after, tokenize cs = before ++ t :: after ∧ t.kind = .closeParen ∧
        t.span = span ∧ NoneUnopened before ∧ depth (before ++ [t]) < 0) ∧
    ∀ span, read cs = .error ⟨.unclosedParenthesis, span⟩ →
      NoneUnopened (tokenize cs) ∧
      ∃ before t after, tokenize cs = before ++ t :: after ∧ t.kind = .openParen ∧
        t.span = span ∧ StaysOpen after ∧
        ∀ front o rest, after = front ++ o :: rest → o.kind = .openParen → ¬ StaysOpen rest := by
  refine ⟨fun e h => balanced_of_ofTokens h, fun span h => ?_, fun span h => ?_⟩
  · rcases exists_of_ofTokens_unmatched h rfl with
      ⟨before, t, after, htokens, hfault, hk, hbefore⟩ | ⟨_, _, hfault, -⟩
    · cases hfault
      refine ⟨before, t, after, htokens, hk, rfl, hbefore.noneUnopened, ?_⟩
      simp [hbefore.depth_eq, Token.opens_of_closeParen hk]
    · cases hfault
  · rcases exists_of_ofTokens_unmatched h rfl with ⟨_, _, _, -, hfault, -⟩ | ⟨_, _, hfault, hopen⟩
    · cases hfault
    · cases hfault
      exact ⟨hopen.noneUnopened, hopen.exists_last⟩

/-- Of the two parentheses of `((x)` it is the first that stays open, and in `(x))` the
last closes nothing. -/
theorem parentheses_of_read_two :
    (read ['(', '(', 'x', ')'] = .error ⟨.unclosedParenthesis, ⟨0, 1⟩⟩ ∧
      NoneUnopened (tokenize ['(', '(', 'x', ')'])) ∧
    read ['(', 'x', ')', ')'] = .error ⟨.unopenedParenthesis, ⟨3, 4⟩⟩ ∧
      ∃ before t after, tokenize ['(', 'x', ')', ')'] = before ++ t :: after ∧
        t.kind = .closeParen ∧ t.span = ⟨3, 4⟩ ∧ NoneUnopened before ∧
        depth (before ++ [t]) < 0 := by
  have hopen : read ['(', '(', 'x', ')'] = .error ⟨.unclosedParenthesis, ⟨0, 1⟩⟩ := by cbv
  have hclose : read ['(', 'x', ')', ')'] = .error ⟨.unopenedParenthesis, ⟨3, 4⟩⟩ := by cbv
  exact ⟨⟨hopen, ((parentheses_of_read _).2.2 _ hopen).1⟩, hclose,
    (parentheses_of_read _).2.1 _ hclose⟩

end Expr

end Fluxion
