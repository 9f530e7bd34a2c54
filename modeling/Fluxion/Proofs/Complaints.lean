import Fluxion.Proofs.Parentheses
import Fluxion.Proofs.Respacing

/-!
# What a complaint is about

A complaint about some tokens points at one of them and quotes nothing but its text.
There are two exceptions. An open parenthesis with nothing behind it is pointed at, but
if it belongs to a function then the name in front of it is quoted; and that there is no
expression is said of the end of the text (`Fault.PointsAt`). A token that is refused is
pointed at itself, or the complaint is about what waits on top of the stack
(`Pending.missing`). What waits there has come from a token, and an open parenthesis on
top of a function has come right behind its name (`Reading.Opened.pointsAt_missing`).

That nothing waits where an operand is missing means that nothing has been read
(`Reading.Opened.eq_nil`). So a text is called empty if all of it is blank, and in one
other case: if it begins with a closing parenthesis. A parenthesis that closes nothing is
complained about as such only behind a complete operand.
-/

namespace Fluxion

open Token (visible endSpan afterOperand tokenize Balanced)

/-! ## Complaints and tokens -/

namespace Token

/-- The operators and the open parenthesis are written in one way only. -/
structure Spelled (t : Token) : Prop where
  operator : ∀ op, t.kind = .operator op → t.lexeme = [op.symbol]
  openParen : t.kind = .openParen → t.lexeme = ['(']

theorem StandsAlone.spelled {t : Token} (h : t.StandsAlone) : t.Spelled := by
  obtain ⟨kind, span, lexeme⟩ := t
  cases h with
  | fits _ _ hfits _ =>
      constructor
      · rintro op ⟨⟩
        exact hfits
      · rintro ⟨⟩
        exact hfits
  | symbol _ _ => exact ⟨nofun, nofun⟩

theorem spelled_of_mem_tokenize {cs : List Char} : ∀ t ∈ tokenize cs, t.Spelled :=
  fun t ht => (standsAlone_of_mem_tokenize t ht).spelled

/-- The name of a function stands in front of an open parenthesis, which is the next
token. -/
def CallsAt (ts : List Token) (name : List Char) (span : Span) : Prop :=
  ∃ before n o after, ts = before ++ n :: o :: after ∧ n.call?.isSome = true ∧ n.lexeme = name ∧
    o.kind = .openParen ∧ o.span = span

end Token

namespace Fault

/-- What a complaint quotes. -/
def quoted? : Fault → Option (List Char)
  | missingOperand text | unknownSymbol text | unexpectedToken text | numberOutOfRange text =>
    some text
  | unclosedParenthesis | unopenedParenthesis | missingOperator | emptyExpression => none

/-- What a complaint about the tokens `ts` is about. The text ends at `eof`. -/
inductive PointsAt (eof : Span) (ts : List Token) : Located Fault → Prop
  | token {t : Token} {fault : Fault} (ht : t ∈ ts)
      (hquoted : ∀ cs, fault.quoted? = some cs → cs = t.lexeme) : PointsAt eof ts ⟨fault, t.span⟩
  | argument {name : List Char} {span : Span} (h : Token.CallsAt ts name span) :
      PointsAt eof ts ⟨.missingOperand name, span⟩
  | nothing : PointsAt eof ts ⟨.emptyExpression, eof⟩

variable {eof : Span} {ts us : List Token} {t : Token} {fault : Located Fault}

theorem PointsAt.append (h : PointsAt eof ts fault) (us : List Token) :
    PointsAt eof (ts ++ us) fault := by
  cases h with
  | token ht hquoted => exact .token (List.mem_append_left us ht) hquoted
  | argument h =>
      obtain ⟨before, n, o, after, rfl, h⟩ := h
      exact .argument ⟨before, n, o, after ++ us, by simp, h⟩
  | nothing => exact .nothing

/-- A complaint that quotes the text of a token and points at it. -/
theorem pointsAt_self {fault : Fault} (h : fault.quoted? = some t.lexeme) :
    PointsAt eof (ts ++ [t]) ⟨fault, t.span⟩ :=
  .token (by simp) fun _ hcs => Option.some.inj (hcs.symm.trans h)

/-- A complaint that quotes nothing and points at a token. -/
theorem pointsAt_of_quoted?_eq_none {fault : Fault} (ht : t ∈ ts) (h : fault.quoted? = none) :
    PointsAt eof ts ⟨fault, t.span⟩ :=
  .token ht fun cs hcs => by rw [h] at hcs; cases hcs

end Fault

namespace Reading

open Fault (PointsAt pointsAt_self pointsAt_of_quoted?_eq_none)

variable {ts : List Token} {ops : List Expr} {ps : List Pending} {r : Reading} {eof span : Span}
  {t : Token} {fault : Located Fault}

/-- Where nothing waits for an operand, nothing has been read. -/
theorem Opened.eq_nil (h : Opened ts ops []) : ts = [] := by
  cases h
  rfl

/-- What waits on top has come from a token, which the complaint about it is about. -/
theorem Opened.pointsAt_missing (h : Opened ts ops ps) (hts : ∀ t ∈ ts, t.Spelled) (eof : Span) :
    PointsAt eof ts (Pending.missing eof ps) := by
  cases h with
  | start => exact .nothing
  | @operator ts ops ps op t h hfits lhs ht =>
      rw [← List.append_assoc] at hts ⊢
      have hlexeme : t.lexeme = [op.symbol] := (hts t (by simp)).operator op ht
      exact pointsAt_self (congrArg some hlexeme.symm)
  | func h hfits ht => exact pointsAt_self rfl
  | @paren ts ops ps t h ht =>
      have hlexeme : t.lexeme = ['('] := (hts t (by simp)).openParen ht
      cases h with
      | start | operator _ _ _ _ | paren _ _ => exact pointsAt_self (congrArg some hlexeme.symm)
      | @func ts _ _ n c _ _ hn =>
          exact .argument ⟨ts, n, t, [], by simp, by rw [hn]; rfl, rfl, ht, rfl⟩

/-- A token that is refused is what the complaint is about, or one in front of it is. -/
theorem Refuses.pointsAt {upcoming : Option Token.Kind} (h : Refuses eof r t upcoming fault)
    (hr : Follows ts r) (hts : ∀ t ∈ ts, t.Spelled) (ht : t.Spelled) :
    PointsAt eof (ts ++ [t]) fault := by
  cases h with
  | outOfRange _ | unexpected _ | meaningless _ _ _ _ | uncalled _ _ => exact pointsAt_self rfl
  | unjoined _ | unopened _ _ => exact pointsAt_of_quoted?_eq_none (by simp) rfl
  | unfinished _ => exact (Opened.pointsAt_missing hr hts eof).append [t]
  | operator hk => exact pointsAt_self (congrArg some (ht.operator _ hk).symm)

/-- At the end an operand is missing, or a parenthesis is open that was opened by one of
the tokens. -/
theorem Follows.pointsAt_of_finish (h : Follows ts r) (hts : ∀ t ∈ ts, t.Spelled)
    (hopen : ∀ span ∈ openSpans r.pending, ∃ o ∈ ts, o.span = span)
    (hfinish : r.finish eof = .error fault) : PointsAt eof ts fault := by
  obtain ⟨s, expects⟩ := r
  cases expects with
  | true =>
      cases hfinish
      exact Opened.pointsAt_missing h hts eof
  | false =>
      rcases Holds.finish_openSpans h eof with ⟨span, spans, hspans, herror⟩ | ⟨-, p, -, hok⟩
      · rw [herror] at hfinish
        cases hfinish
        obtain ⟨o, ho, rfl⟩ := hopen span (by simp [hspans])
        exact pointsAt_of_quoted?_eq_none ho rfl
      · rw [hok] at hfinish
        cases hfinish

end Reading

namespace Token

/-- A parenthesis that is left open was opened by one of the tokens. -/
theorem LeavesOpen.exists_mem {ts : List Token} {spans : List Span} (h : LeavesOpen ts spans) :
    ∀ span ∈ spans, ∃ o ∈ ts, o.kind = .openParen ∧ o.span = span := by
  induction h with
  | nothing _ => exact fun span hspan => absurd hspan List.not_mem_nil
  | @paren ts inside o spans h ho _ ih =>
      refine List.forall_mem_cons.mpr ⟨⟨o, by simp, ho, rfl⟩, fun span hspan => ?_⟩
      obtain ⟨o', ho', hkind⟩ := ih span hspan
      exact ⟨o', List.mem_append_left _ ho', hkind⟩

/-- Behind balanced tokens, no parenthesis is open. -/
theorem LeavesOpen.eq_nil {ts : List Token} {spans : List Span} (h : LeavesOpen ts spans)
    (hts : Balanced ts) : spans = [] := by
  cases spans with
  | nil => rfl
  | cons span spans =>
      obtain ⟨before, o, after, rfl, ho, -, hafter, -⟩ := h.exists_last
      exact absurd hafter (hts.not_staysOpen ho)

end Token

namespace Reading

variable {before after : List Token} {r : Reading} {t : Token} {fault : Located Fault}

/-- A token that is refused behind those in front of it is what reading ends with. -/
theorem ofTokens_of_refused (hblank : t.isBlank = false)
    (hr : behind before (t :: after) = .ok r)
    (ht : r.take (endSpan (before ++ t :: after)) t ((visible after).head?.map (·.kind)) =
      .error fault) : Expr.ofTokens (before ++ t :: after) = .error fault := by
  rw [ofTokens_append, hr, Token.visible_cons, hblank, if_neg Bool.false_ne_true]
  simp only [Except.bind, takeAll, ht, bind]

end Reading

namespace Pending

/-- Whatever waits is what an operand is missing for. -/
theorem exists_missing (eof : Span) {ps : List Pending} (h : ps ≠ []) :
    ∃ waiting span, missing eof ps = ⟨.missingOperand waiting, span⟩ := by
  unfold missing
  split
  · exact ⟨_, _, rfl⟩
  · exact ⟨_, _, rfl⟩
  · exact ⟨_, _, rfl⟩
  · exact ⟨_, _, rfl⟩
  · exact absurd rfl h

theorem missing_eq_emptyExpression {eof span : Span} {ps : List Pending}
    (h : missing eof ps = ⟨.emptyExpression, span⟩) : ps = [] ∧ span = eof := by
  by_cases hps : ps = []
  · subst hps
    cases h
    exact ⟨rfl, rfl⟩
  · obtain ⟨waiting, span', hmissing⟩ := exists_missing eof hps
    rw [hmissing] at h
    cases h

end Pending

namespace Token

theorem visible_eq_nil_iff {ts : List Token} : visible ts = [] ↔ ∀ t ∈ ts, t.isBlank = true := by
  simp [visible, List.filter_eq_nil_iff]

theorem mem_visible_of_kind {ts : List Token} {t : Token} (ht : t ∈ ts) (h : t.kind ≠ .blank) :
    t ∈ visible ts :=
  List.mem_filter.mpr ⟨ht, by simpa [isBlank] using h⟩

/-- The first token that is not blank closes a parenthesis. -/
def BeginsClosing (ts : List Token) : Prop :=
  ∃ blanks t after, ts = blanks ++ t :: after ∧ (∀ b ∈ blanks, b.isBlank = true) ∧
    t.kind = .closeParen

end Token

namespace Expr

open Fault (PointsAt)
open Token (BeginsClosing)

variable {ts before after : List Token} {t : Token} {r : Reading} {span : Span}
  {fault : Located Fault}

theorem pointsAt_of_ofTokens (hts : ∀ t ∈ ts, t.Spelled) (h : ofTokens ts = .error fault) :
    PointsAt (endSpan ts) (visible ts) fault := by
  have hvisible : ∀ t ∈ visible ts, t.Spelled := fun t ht => hts t (List.mem_filter.mp ht).1
  rcases Reading.exists_of_ofTokens_error h with
    ⟨before, t, after, r, rfl, hblank, hr, ht⟩ | ⟨r, hr, hfinish⟩
  · have hsplit : visible (before ++ t :: after) = visible before ++ [t] ++ visible after := by
      rw [visible, List.filter_append, ← visible, ← visible, Token.visible_cons,
        if_neg (by simpa [Token.isBlank] using hblank)]
      simp
    have hfollows := Reading.follows_visible hr
    have hrefuses := hfollows.refuses_of_take hblank ht
    rw [hsplit] at hvisible ⊢
    refine (hrefuses.pointsAt hfollows (fun u hu => hvisible u (by simp [hu])) ?_).append _
    exact hvisible t (by simp)
  · refine (Reading.follows_visible hr).pointsAt_of_finish hvisible (fun span hspan => ?_) hfinish
    obtain ⟨o, ho, hkind, hspan⟩ := (Reading.leavesOpen_behind hr).exists_mem span hspan
    exact ⟨o, Token.mem_visible_of_kind ho (by simp [hkind]), hspan⟩

/-! ## Nothing to read -/

/-- That there is no expression is found out at the end of blanks, or at a closing
parenthesis with nothing in front of it. -/
theorem beginsClosing_of_ofTokens (h : ofTokens ts = .error ⟨.emptyExpression, span⟩) :
    (∀ t ∈ ts, t.isBlank = true) ∨ BeginsClosing ts := by
  rcases Reading.exists_of_ofTokens_error h with
    ⟨before, t, after, r, rfl, hblank, hr, ht⟩ | ⟨r, hr, hfinish⟩
  · have hfollows := Reading.follows_visible hr
    have hrefuses := hfollows.refuses_of_take hblank ht
    generalize hfault : (⟨.emptyExpression, span⟩ : Located Fault) = fault at hrefuses
    cases hrefuses with
    | @unfinished s t upcoming hk =>
        obtain ⟨hnil, -⟩ := Pending.missing_eq_emptyExpression hfault.symm
        have hopened : Reading.Opened (visible before) s.operands s.pending := hfollows
        rw [hnil] at hopened
        exact Or.inr ⟨before, t, after, rfl, Token.visible_eq_nil_iff.mp hopened.eq_nil, hk⟩
    | outOfRange _ | unexpected _ | meaningless _ _ _ _ | uncalled _ _ | unjoined _
    | unopened _ _ | operator _ => cases hfault
  · have hfollows := Reading.follows_visible hr
    obtain ⟨s, expects⟩ := r
    cases expects with
    | true =>
        obtain ⟨hnil, -⟩ := Pending.missing_eq_emptyExpression (Except.error.inj hfinish)
        have hopened : Reading.Opened (visible ts) s.operands s.pending := hfollows
        rw [hnil] at hopened
        exact Or.inl (Token.visible_eq_nil_iff.mp hopened.eq_nil)
    | false =>
        rcases Reading.Holds.finish_cases hfollows (endSpan ts) with ⟨p, hf⟩ | ⟨p, -, hf⟩
        · rw [hf] at hfinish
          cases hfinish
        · rw [hf] at hfinish
          cases hfinish

theorem ofTokens_of_blank (h : ∀ t ∈ ts, t.isBlank = true) :
    ofTokens ts = .error ⟨.emptyExpression, endSpan ts⟩ := by
  rw [ofTokens, Token.visible_eq_nil_iff.mpr h]

theorem ofTokens_of_beginsClosing (h : BeginsClosing ts) :
    ofTokens ts = .error ⟨.emptyExpression, endSpan ts⟩ := by
  obtain ⟨blanks, t, after, rfl, hblanks, hk⟩ := h
  have hblank : t.isBlank = false := by simp [Token.isBlank, hk]
  have hr : Reading.behind blanks (t :: after) = .ok Reading.start := by
    rw [Reading.behind, Token.visible_eq_nil_iff.mpr hblanks]
    rfl
  exact Reading.ofTokens_of_refused hblank hr (Reading.take_eq_takeClose hk)

/-- Where something has been read and an operand may start, it is clear what for. -/
theorem exists_missing_of_behind (hr : Reading.behind before after = .ok r)
    (hsome : ∃ u ∈ before, u.isBlank = false) (hopen : afterOperand before = false) (eof : Span) :
    r.expectsOperand = true ∧
      ∃ waiting span, Pending.missing eof r.pending = ⟨.missingOperand waiting, span⟩ := by
  obtain ⟨u, hu, hublank⟩ := hsome
  have hexpects : r.expectsOperand = true := by rw [Reading.expectsOperand_behind hr, hopen]; rfl
  refine ⟨hexpects, Pending.exists_missing eof fun hnil => ?_⟩
  have hopened : Reading.Opened (visible before) r.operands r.pending := by
    have hfollows := Reading.follows_visible hr
    rwa [Reading.Follows, if_pos hexpects] at hfollows
  rw [hnil] at hopened
  rw [Token.visible_eq_nil_iff.mp hopened.eq_nil u hu] at hublank
  cases hublank

/-- With a closing parenthesis no operand starts, so one is missing if it is due. -/
theorem exists_missingOperand_of_closing (hk : t.kind = .closeParen)
    (hr : Reading.behind before (t :: after) = .ok r)
    (hsome : ∃ u ∈ before, u.isBlank = false) (hopen : afterOperand before = false) :
    ∃ waiting span, ofTokens (before ++ t :: after) = .error ⟨.missingOperand waiting, span⟩ := by
  have hblank : t.isBlank = false := by simp [Token.isBlank, hk]
  obtain ⟨hexpects, waiting, span, hmissing⟩ :=
    exists_missing_of_behind hr hsome hopen (endSpan (before ++ t :: after))
  refine ⟨waiting, span, Reading.ofTokens_of_refused hblank hr ?_⟩
  rw [Reading.take_eq_takeClose hk, Reading.takeClose, if_pos hexpects, hmissing]

theorem exists_missingOperand_of_end (hr : Reading.behind ts [] = .ok r)
    (hsome : ∃ u ∈ ts, u.isBlank = false) (hopen : afterOperand ts = false) :
    ∃ waiting span, ofTokens ts = .error ⟨.missingOperand waiting, span⟩ := by
  obtain ⟨hexpects, waiting, span, hmissing⟩ :=
    exists_missing_of_behind hr hsome hopen (endSpan ts)
  refine ⟨waiting, span, ?_⟩
  rw [Reading.ofTokens_eq_behind, hr, Except.bind, Reading.finish, if_pos hexpects, hmissing]

/-- Behind a complete operand with all parentheses closed, another closing one is one too
many. -/
theorem ofTokens_of_unopened (hk : t.kind = .closeParen)
    (hr : Reading.behind before (t :: after) = .ok r) (hcomplete : afterOperand before = true)
    (hbalanced : Balanced before) :
    ofTokens (before ++ t :: after) = .error ⟨.unopenedParenthesis, t.span⟩ := by
  have hblank : t.isBlank = false := by simp [Token.isBlank, hk]
  have hexpects : r.expectsOperand = false := by
    rw [Reading.expectsOperand_behind hr, hcomplete]
    rfl
  have hspans := (Reading.leavesOpen_behind hr).eq_nil hbalanced
  have hfollows := Reading.follows_visible hr
  obtain ⟨s, expects⟩ := r
  obtain rfl : expects = false := hexpects
  refine Reading.ofTokens_of_refused hblank hr ?_
  obtain ⟨ops, ⟨span, ps, hopen, -⟩ | ⟨-, hm⟩⟩ := hfollows.merges
  · rw [hopen] at hspans
    cases hspans
  · rw [Reading.take_eq_takeClose hk]
    simp only [Reading.takeClose, Bool.false_eq_true, if_false, hm, bind, Except.bind]

/-- A text is called empty if all of it is blank, and also if the first of its tokens is a
closing parenthesis. Elsewhere, such a parenthesis is where an operand is missing or
closes nothing, and so is the end of the text. -/
theorem read_emptyExpression_iff (cs : List Char) :
    ((∃ span, read cs = .error ⟨.emptyExpression, span⟩) ↔
      (∀ t ∈ tokenize cs, t.isBlank = true) ∨ BeginsClosing (tokenize cs)) ∧
    (∀ before t after r, tokenize cs = before ++ t :: after → t.kind = .closeParen →
      Reading.behind before (t :: after) = .ok r → (∃ u ∈ before, u.isBlank = false) →
      (afterOperand before = false →
        ∃ waiting span, read cs = .error ⟨.missingOperand waiting, span⟩) ∧
      (afterOperand before = true → Balanced before →
        read cs = .error ⟨.unopenedParenthesis, t.span⟩)) ∧
    ∀ r, Reading.behind (tokenize cs) [] = .ok r → (∃ u ∈ tokenize cs, u.isBlank = false) →
      afterOperand (tokenize cs) = false →
        ∃ waiting span, read cs = .error ⟨.missingOperand waiting, span⟩ := by
  refine ⟨⟨fun ⟨span, h⟩ => beginsClosing_of_ofTokens h, ?_⟩, ?_, fun r hr hsome hopen => ?_⟩
  · rintro (hblank | hclosing)
    · exact ⟨_, ofTokens_of_blank hblank⟩
    · exact ⟨_, ofTokens_of_beginsClosing hclosing⟩
  · intro before t after r htokens hk hr hsome
    rw [read, htokens]
    exact ⟨exists_missingOperand_of_closing hk hr hsome, ofTokens_of_unopened hk hr⟩
  · exact exists_missingOperand_of_end hr hsome hopen

/-- The closing parenthesis of `x*)` is where an operand is missing, that of `x)` closes
nothing. -/
theorem read_closing_behind_operator_and_operand :
    (∃ waiting span, read ['x', '*', ')'] = .error ⟨.missingOperand waiting, span⟩) ∧
      read ['x', ')'] = .error ⟨.unopenedParenthesis, ⟨1, 2⟩⟩ := by
  have hproduct : tokenize ['x', '*', ')'] =
      [⟨.name, ⟨0, 1⟩, ['x']⟩, ⟨.operator .mul, ⟨1, 2⟩, ['*']⟩] ++
        [⟨.closeParen, ⟨2, 3⟩, [')']⟩] := by cbv
  have hletter : tokenize ['x', ')'] =
      [⟨.name, ⟨0, 1⟩, ['x']⟩] ++ [⟨.closeParen, ⟨1, 2⟩, [')']⟩] := by cbv
  have hbalanced : Balanced [⟨.name, ⟨0, 1⟩, ['x']⟩] := Token.balanced_singleton rfl
  constructor
  · have hclosing := (read_emptyExpression_iff _).2.1 _ _ _ _ hproduct rfl rfl
    exact (hclosing ⟨_, List.mem_cons_self, rfl⟩).1 rfl
  · have hclosing := (read_emptyExpression_iff _).2.1 _ _ _ _ hletter rfl rfl
    exact (hclosing ⟨_, List.mem_cons_self, rfl⟩).2 rfl hbalanced

/-- Of the text `)`, the one token is no blank, and it is called empty. -/
theorem read_closing_eq_emptyExpression :
    read [')'] = .error ⟨.emptyExpression, ⟨1, 1⟩⟩ ∧
      ¬ ∀ t ∈ tokenize [')'], t.isBlank = true := by
  have htokens : tokenize [')'] = [⟨.closeParen, ⟨0, 1⟩, [')']⟩] := by cbv
  refine ⟨by cbv, fun hblank => ?_⟩
  have := hblank ⟨.closeParen, ⟨0, 1⟩, [')']⟩ (by simp [htokens])
  cases this

end Expr

end Fluxion
