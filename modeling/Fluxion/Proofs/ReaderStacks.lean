import Fluxion.Proofs.OperandStart

/-!
# What waits finds its operands

The two stacks of a reading fit together. Between any two tokens there are as many
operands as operators wait, and one more if an operand has just been completed
(`Reading.WellStacked`). A function waits directly below its parenthesis, or its
parenthesis is the next token; and an operator that waits on top of another one is
tighter, or both are powers.

That a reading keeps its stacks like this is known from the phrases that they hold
(`Reading.Follows.wellStacked`). What follows from it needs no phrases, only the count:
whatever is merged, an operator takes two operands and gives one back, a function takes
one for one, so the operands never run out before the operators do, and once nothing
waits there is one left (`Stacks.exists_mergeWhile_of_length`). So the only thing that
the end can find amiss behind a complete operand is a parenthesis that is still open.
-/

namespace Fluxion

open Token (visible Kind tokenize)

theorem Operator.precedence_lt_of_level_le_rightLevel {first next : Operator}
    (h : next.level.rank ≤ first.rightLevel.rank) :
    first.precedence < next.precedence ∨ first = .pow ∧ next = .pow := by
  revert h
  cases first <;> cases next <;> decide

namespace Pending

/-- Whether one thing may wait directly on top of another: only its parenthesis on a
function, and only a tighter operator on an operator, unless both are powers. -/
def StandsOn : Pending → Pending → Prop
  | paren _, _ => True
  | _, func _ _ _ => False
  | operator next _, operator first _ =>
    first.precedence < next.precedence ∨ first = .pow ∧ next = .pow
  | _, _ => True

theorem standsOn_of_fits {op : Operator} {span : Span} {ps : List Pending}
    (h : op.level.Fits ps) : ∀ below ∈ ps.head?, (operator op span).StandsOn below := by
  intro below hbelow
  obtain ⟨rest, rfl⟩ := List.head?_eq_some_iff.mp hbelow
  cases below with
  | operator first _ => exact Operator.precedence_lt_of_level_le_rightLevel h
  | func _ _ _ => exact False.elim h
  | paren _ => exact trivial

theorem func_standsOn_of_fits {call : CallName} {name : List Char} {span : Span}
    {ps : List Pending} (h : Level.atom.Fits ps) :
    ∀ below ∈ ps.head?, (func call name span).StandsOn below := by
  intro below hbelow
  obtain ⟨rest, rfl⟩ := List.head?_eq_some_iff.mp hbelow
  cases below with
  | func _ _ _ => exact False.elim h
  | operator _ _ | paren _ => exact trivial

theorem StandsOn.exists_paren {above : Pending} {call : CallName} {name : List Char}
    {span : Span} (h : above.StandsOn (func call name span)) :
    ∃ span', above = paren span' := by
  cases above with
  | paren span' => exact ⟨span', rfl⟩
  | operator _ _ | func _ _ _ => exact False.elim h

end Pending

namespace Reading

variable {ts : List Token} {ops : List Expr} {ps : List Pending} {r : Reading}
  {upcoming : Option Kind}

/-! ## How the stacks look -/

/-- How the stacks of a reading look in front of a token of the kind `upcoming`. -/
structure WellStacked (r : Reading) (upcoming : Option Kind) : Prop where
  length_operands : r.operands.length =
    r.pending.countP Pending.isOperator + if r.expectsOperand then 0 else 1
  func_below_paren : ∀ above call name span below,
    r.pending = above ++ .func call name span :: below →
      (∃ higher span', above = higher ++ [.paren span']) ∨
        above = [] ∧ upcoming = some .openParen
  tighter_on_top : ∀ above next span first span' below,
    r.pending = above ++ .operator next span :: .operator first span' :: below →
      first.precedence < next.precedence ∨ first = .pow ∧ next = .pow

theorem Opened.isChain (h : Opened ts ops ps) : ps.IsChain Pending.StandsOn := by
  induction h with
  | start => exact .nil
  | operator h hfits lhs ht ih => exact ih.cons (Pending.standsOn_of_fits hfits)
  | func h hfits ht ih => exact ih.cons (Pending.func_standsOn_of_fits hfits)
  | paren h ht ih => exact ih.cons fun _ _ => trivial

/-- Of the operands of a reading, one is the phrase that has just been completed, if an
operator is due, and the others belong to what waits. -/
theorem Follows.exists_opened (h : Follows ts r) :
    ∃ ts' ops, Opened ts' ops r.pending ∧
      r.operands.length = ops.length + if r.expectsOperand then 0 else 1 := by
  obtain ⟨s, expects⟩ := r
  cases expects with
  | true => exact ⟨ts, s.operands, h, rfl⟩
  | false =>
      obtain ⟨ts', ops, l, p, hopen, -, -, -, hops⟩ := h
      exact ⟨ts', ops, hopen, congrArg List.length hops⟩

theorem Follows.wellStacked {after : List Token} (h : Follows ts r)
    (hfunc : FuncMeetsParen r after) : r.WellStacked (after.head?.map (·.kind)) := by
  obtain ⟨ts', ops, hopen, hlength⟩ := h.exists_opened
  have hchain := hopen.isChain
  refine ⟨by rw [hlength, hopen.length_eq], ?_, ?_⟩
  · intro above call name span below hpending
    rcases List.eq_nil_or_concat above with rfl | ⟨higher, top, rfl⟩
    · refine Or.inr ⟨rfl, hfunc fun hfits => ?_⟩
      rw [hpending] at hfits
      exact hfits
    · rw [hpending, List.concat_eq_append, List.append_assoc] at hchain
      obtain ⟨span', rfl⟩ := (List.isChain_append_cons_cons.mp hchain).2.1.exists_paren
      exact Or.inl ⟨higher, span', List.concat_eq_append⟩
  · intro above next span first span' below hpending
    rw [hpending] at hchain
    exact (List.isChain_append_cons_cons.mp hchain).2.1

theorem wellStacked_behind {before after : List Token} (h : behind before after = .ok r) :
    r.WellStacked ((visible after).head?.map (·.kind)) := by
  obtain ⟨hfollows, hmeets⟩ := follows_and_meets_visible h
  exact hfollows.wellStacked hmeets

/-! ## What merging comes to -/

/-- What waits in a reading finds its operands. Wherever merging stops, every operator has
found two, and there is an operand more than operators are left. So a function whose
parenthesis is closed finds one, and one is left where nothing waits any more. -/
structure Served (r : Reading) : Prop where
  merges : ∀ q : Pending → Bool, (∀ span, q (.paren span) = false) →
    ∃ s, Stacks.mergeWhile q r.operands r.pending = .ok s ∧
      s.operands.length = s.pending.countP Pending.isOperator + 1
  calls : ∀ ops span ps,
    Stacks.mergeWhile (fun p => !p.isParen) r.operands r.pending = .ok ⟨ops, .paren span :: ps⟩ →
      ∃ closed, Stacks.closeCall ⟨ops, ps⟩ = .ok closed
  drains : ∀ ops,
    Stacks.mergeWhile (fun p => !p.isParen) r.operands r.pending = .ok ⟨ops, []⟩ →
      ∃ e, ops = [e]

theorem WellStacked.served (h : r.WellStacked upcoming) (hr : r.expectsOperand = false) :
    r.Served := by
  have hlength : r.operands.length = r.pending.countP Pending.isOperator + 1 := by
    simpa only [hr, Bool.false_eq_true, if_false] using h.length_operands
  have hmerged : ∀ {s}, Stacks.mergeWhile (fun p => !p.isParen) r.operands r.pending = .ok s →
      s.operands.length = s.pending.countP Pending.isOperator + 1 := by
    intro s hs
    obtain ⟨s', hs', hcount⟩ :=
      Stacks.exists_mergeWhile_of_length (q := fun p => !p.isParen) (fun _ => rfl) hlength
    cases Except.ok.inj (hs.symm.trans hs')
    exact hcount
  refine ⟨fun q hq => Stacks.exists_mergeWhile_of_length hq hlength, fun ops span ps hs => ?_,
    fun ops hs => List.length_eq_one_iff.mp (hmerged hs)⟩
  obtain ⟨arg, ops, rfl⟩ := List.exists_cons_of_length_eq_add_one (hmerged hs)
  exact exists_closeCall arg ops ps

/-- With all that waits served, the end finds an open parenthesis, or one expression. -/
theorem Served.finish_cases (h : r.Served) (hr : r.expectsOperand = false) (eof : Span) :
    (∃ span, r.finish eof = .error ⟨.unclosedParenthesis, span⟩) ∨ ∃ e, r.finish eof = .ok e := by
  obtain ⟨⟨ops, pending⟩, hs, -⟩ := h.merges (fun p => !p.isParen) fun _ => rfl
  simp only [finish, hr, Bool.false_eq_true, if_false, hs, bind, Except.bind]
  rcases mergeWhile_paren_cases hs with rfl | ⟨span, ps, rfl⟩
  · obtain ⟨e, rfl⟩ := h.drains ops hs
    exact Or.inr ⟨e, rfl⟩
  · exact Or.inl ⟨span, rfl⟩

/-- A token is refused for an operand that is missing only where an operand is due, and
never because a merge has run out of them. -/
theorem Follows.expectsOperand_of_take_missing {eof span : Span} {t : Token}
    {waiting : List Char} (h : Follows ts r)
    (ht : r.take eof t upcoming = .error ⟨.missingOperand waiting, span⟩) :
    r.expectsOperand = true := by
  by_cases hblank : t.kind = .blank
  · simp [take, Token.isOutOfRange, hblank] at ht
  · have hrefuses := h.refuses_of_take hblank ht
    generalize hfault : (⟨.missingOperand waiting, span⟩ : Located Fault) = fault at hrefuses
    cases hrefuses with
    | unfinished _ | operator _ => rfl
    | outOfRange _ | unexpected _ | meaningless _ _ _ _ | uncalled _ _ | unjoined _
    | unopened _ _ => cases hfault

/-- Between any two tokens there are as many operands as operators wait, and one more if
one has just been completed; a function waits directly below its parenthesis, or on top
with its parenthesis to come; and of two operators on top of one another the upper is
tighter, unless both are powers. So where anything is merged nothing runs out of operands,
and the end finds an open parenthesis or exactly one expression. -/
theorem wellStacked_and_served {before after : List Token} (h : behind before after = .ok r) :
    r.WellStacked ((visible after).head?.map (·.kind)) ∧
      (r.expectsOperand = false → r.Served ∧
        ∀ eof, (∃ span, r.finish eof = .error ⟨.unclosedParenthesis, span⟩) ∨
          ∃ e, r.finish eof = .ok e) ∧
      ∀ eof t next waiting span,
        r.take eof t next = .error ⟨.missingOperand waiting, span⟩ → r.expectsOperand = true := by
  have hstacks := wellStacked_behind h
  refine ⟨hstacks, fun hr => ?_, fun eof t next waiting span ht => ?_⟩
  · have hserved := hstacks.served hr
    exact ⟨hserved, fun eof => hserved.finish_cases hr eof⟩
  · exact (follows_visible h).expectsOperand_of_take_missing ht

/-- Behind `x+y*sin` the function waits for its parenthesis on two operators. Behind
`x*(y+z^x^y` four operators wait, the last three inside the parenthesis, and five
operands. -/
theorem wellStacked_and_served_powers :
    (∃ r, behind (tokenize ['x', '+', 'y', '*', 's', 'i', 'n']) (tokenize ['(', 'z', ')']) = .ok r ∧
      r.pending = [.func ⟨none, .sin⟩ ['s', 'i', 'n'] ⟨4, 7⟩, .operator .mul ⟨3, 4⟩,
        .operator .add ⟨1, 2⟩] ∧
      r.WellStacked (some .openParen)) ∧
    ∃ r, behind (tokenize ['x', '*', '(', 'y', '+', 'z', '^', 'x', '^', 'y']) [] = .ok r ∧
      r.pending = [.operator .pow ⟨8, 9⟩, .operator .pow ⟨6, 7⟩, .operator .add ⟨4, 5⟩,
        .paren ⟨2, 3⟩, .operator .mul ⟨1, 2⟩] ∧
      r.operands.length = 5 ∧ r.WellStacked none ∧ r.expectsOperand = false ∧ r.Served := by
  have hcall : behind (tokenize ['x', '+', 'y', '*', 's', 'i', 'n']) (tokenize ['(', 'z', ')']) =
      .ok ⟨⟨[.var none 'y', .var none 'x'], [.func ⟨none, .sin⟩ ['s', 'i', 'n'] ⟨4, 7⟩,
        .operator .mul ⟨3, 4⟩, .operator .add ⟨1, 2⟩]⟩, true⟩ := by cbv
  have hpowers : behind (tokenize ['x', '*', '(', 'y', '+', 'z', '^', 'x', '^', 'y']) [] =
      .ok ⟨⟨[.var none 'y', .var none 'x', .var none 'z', .var none 'y', .var none 'x'],
        [.operator .pow ⟨8, 9⟩, .operator .pow ⟨6, 7⟩, .operator .add ⟨4, 5⟩, .paren ⟨2, 3⟩,
        .operator .mul ⟨1, 2⟩]⟩, false⟩ := by cbv
  have hnext : (visible (tokenize ['(', 'z', ')'])).head?.map (·.kind) = some .openParen := by cbv
  refine ⟨⟨_, hcall, rfl, hnext ▸ (wellStacked_and_served hcall).1⟩, _, hpowers, rfl, rfl,
    (wellStacked_and_served hpowers).1, rfl, ((wellStacked_and_served hpowers).2.1 rfl).1⟩

end Reading

end Fluxion
