import Fluxion.Proofs.Parentheses
import Fluxion.Proofs.Parts

/-!
# Other operators in the same places

Which operators stand in a list of tokens decides how its expression hangs together,
and no more than that. With others in their places, the tokens are refused at the same
place and for the same reason, or they are read as an expression with the same leaves
in the same order and with as many nodes.

Two readings of such tokens do not keep the same stacks, because an operator is merged
as soon as a looser one comes, and what is loose in one reading is tight in the other.
They are compared by what a token can be refused for. All that `Reading.Refuses` asks
of a reading is whether an operand may start, which parentheses are open, and what an
operand is missing for. The first is told by the token in front and the second by the
parentheses, which no merging touches (`Takes.openSpans_cases`); the third is asked
only where an operand is due, and there it is told by the last two tokens
(`Opened.missing_eq`). So readings that are `InStep` take the same tokens and stay in
step.

That nothing is lost or put in another order has been shown for each reading alone:
what is read is a phrase with these tokens, and its leaves are its operands from left
to right (`Phrase.leaves_tree`).
-/

namespace Fluxion

open Token (visible endSpan)

namespace Token

/-- Two tokens are the same, or they are two operators in the same place. -/
inductive UpToOperator (t : Token) : Token → Prop
  | same : UpToOperator t t
  | operators {u : Token} {op op' : Operator} (ht : t.kind = .operator op)
      (hu : u.kind = .operator op') (hspan : t.span = u.span) : UpToOperator t u

namespace UpToOperator

variable {t u : Token} {ts us : List Token}

theorem symm (h : UpToOperator t u) : UpToOperator u t := by
  cases h with
  | same => exact .same
  | operators ht hu hspan => exact .operators hu ht hspan.symm

theorem span_eq (h : UpToOperator t u) : t.span = u.span := by
  cases h with
  | same => rfl
  | operators ht hu hspan => exact hspan

/-- What is one thing for all operators does not tell the two tokens apart. -/
theorem apply_eq {α : Type} {f : Token → α} (h : UpToOperator t u) (a : α)
    (hf : ∀ (v : Token) (op : Operator), v.kind = .operator op → f v = a) : f t = f u := by
  cases h with
  | same => rfl
  | operators ht hu hspan => rw [hf t _ ht, hf u _ hu]

theorem isBlank_eq (h : UpToOperator t u) : t.isBlank = u.isBlank :=
  h.apply_eq false fun _ _ hv => by rw [isBlank, hv]; rfl

theorem operand?_eq (h : UpToOperator t u) : t.operand? = u.operand? :=
  h.apply_eq none fun _ _ hv => by simp only [operand?, hv]

theorem endsOperand_eq (h : UpToOperator t u) : t.endsOperand = u.endsOperand :=
  h.apply_eq false fun _ _ hv => by simp only [endsOperand, hv]

/-- Whatever kind one of the tokens is of, the other one is of it too, unless they are
operators. -/
theorem kind_eq_iff (h : UpToOperator t u) {k : Kind} (hk : ∀ op, k ≠ .operator op) :
    t.kind = k ↔ u.kind = k := by
  have hne : ∀ (v : Token) (op : Operator), v.kind = .operator op → (v.kind = k) = False :=
    fun v op hv => eq_false fun heq => hk op (heq.symm.trans hv)
  exact iff_of_eq (h.apply_eq False hne)

/-- What does not tell one operator from another is the same all along the two lists. -/
theorem map_eq {α : Type} {f : Token → α} (hf : ∀ {t u : Token}, UpToOperator t u → f t = f u)
    (h : List.Forall₂ UpToOperator ts us) : ts.map f = us.map f := by
  induction h with
  | nil => rfl
  | cons ht _ ih => rw [List.map_cons, List.map_cons, hf ht, ih]

theorem visible (h : List.Forall₂ UpToOperator ts us) :
    List.Forall₂ UpToOperator (visible ts) (visible us) := by
  induction h with
  | nil => exact .nil
  | @cons t u ts us ht _ ih =>
      rw [visible_cons, visible_cons, ht.isBlank_eq]
      split
      · exact ih
      · exact .cons ht ih

theorem endSpan_eq (h : List.Forall₂ UpToOperator ts us) : endSpan ts = endSpan us := by
  have hspans (ts : List Token) :
      endSpan ts = .point ((ts.map (·.span)).getLast?.elim 0 (·.stop)) := by
    rw [endSpan, List.getLast?_map]
    cases ts.getLast? <;> rfl
  rw [hspans ts, hspans us, map_eq span_eq h]

theorem head?_openParen_iff (h : List.Forall₂ UpToOperator ts us) :
    ts.head?.map (·.kind) = some .openParen ↔ us.head?.map (·.kind) = some .openParen := by
  cases h with
  | nil => rfl
  | cons ht _ => simpa using ht.kind_eq_iff (by simp)

end UpToOperator

/-! ## What an expression is made of -/

def isParen (t : Token) : Bool :=
  match t.kind with
  | .openParen | .closeParen => true
  | _ => false

theorem UpToOperator.isParen_eq {t u : Token} (h : UpToOperator t u) : t.isParen = u.isParen :=
  h.apply_eq false fun _ _ hv => by simp only [isParen, hv]

theorem operand?_eq_none_of_call? {t : Token} {c : CallName} (h : t.call? = some c) :
    t.operand? = none := by
  refine Option.eq_none_iff_forall_ne_some.mpr fun l hl => ?_
  rw [call?_eq_none_of_operand? hl] at h
  cases h

end Token

namespace Phrase

variable {l : Level}

/-- The leaves of an expression are its operands as they are written. -/
theorem leaves_tree (p : Phrase l) : p.tree.leaves = p.tokens.filterMap Token.operand? := by
  induction p with
  | operand t l ht => simp [tree, tokens, Expr.leaves, ht]
  | group o p c ho hc ih => simp [tree, tokens, Token.operand?, ho, hc, ih]
  | call n f o p c hn ho hc ih =>
      have hname := Token.operand?_eq_none_of_call? hn
      have hopen : o.operand? = none := by simp only [Token.operand?, ho]
      have hclose : c.operand? = none := by simp only [Token.operand?, hc]
      simp [tree, tokens, Expr.leaves, hname, hopen, hclose, ih]
  | ofAtom p ih | ofPower p ih | ofProduct p ih => exact ih
  | raise a t e ht iha ihe => simp [tree, tokens, Expr.leaves, Token.operand?, ht, iha, ihe]
  | multiply a op t e _ ht iha ihe | add a op t e _ ht iha ihe =>
      simp [tree, tokens, Expr.leaves, Token.operand?, ht, iha, ihe]

/-- Each token of a phrase is a node of its expression, but for the parentheses. -/
theorem size_tree (p : Phrase l) : p.tree.size = p.tokens.countP (!·.isParen) := by
  induction p with
  | operand t l ht =>
      rcases Token.kind_of_operand? ht with hk | hk | hk <;>
        simp [tree, tokens, Expr.size, Token.isParen, hk]
  | group o p c ho hc ih => simp [tree, tokens, Token.isParen, ho, hc, ih]
  | call n f o p c hn ho hc ih =>
      simp [tree, tokens, Expr.size, Token.isParen, Token.kind_of_call? hn, ho, hc, ih]
  | ofAtom p ih | ofPower p ih | ofProduct p ih => exact ih
  | raise a t e ht iha ihe =>
      simp [tree, tokens, Expr.size, Token.isParen, ht, iha, ihe, Nat.add_assoc]
  | multiply a op t e _ ht iha ihe | add a op t e _ ht iha ihe =>
      simp [tree, tokens, Expr.size, Token.isParen, ht, iha, ihe, Nat.add_assoc]

/-- With other operators in the same places, a phrase has the same leaves and as many
nodes. -/
theorem leaves_and_nodeCount_tree {l' : Level} {p : Phrase l} {p' : Phrase l'}
    (h : List.Forall₂ Token.UpToOperator p.tokens p'.tokens) :
    p.tree.leaves = p'.tree.leaves ∧ p.tree.nodeCount = p'.tree.nodeCount := by
  constructor
  · have hoperands := Token.UpToOperator.map_eq Token.UpToOperator.operand?_eq h
    have hleaves := congrArg (List.filterMap id) hoperands
    rw [List.filterMap_map, List.filterMap_map] at hleaves
    rw [leaves_tree, leaves_tree]
    exact hleaves
  · have hparens := Token.UpToOperator.map_eq Token.UpToOperator.isParen_eq h
    have hcount := congrArg (List.countP (!·)) hparens
    rw [List.countP_map, List.countP_map] at hcount
    rw [Expr.nodeCount_eq_size, Expr.nodeCount_eq_size, size_tree, size_tree]
    exact hcount

end Phrase

/-! ## Complaints -/

/-- Two complaints are the same, or an operand is missing in the same place for two
operators. -/
inductive Fault.UpToOperator (fault : Located Fault) : Located Fault → Prop
  | same : UpToOperator fault fault
  | operators {span : Span} {op op' : Operator} (h : fault = ⟨.missingOperand [op.symbol], span⟩) :
      UpToOperator fault ⟨.missingOperand [op'.symbol], span⟩

/-- Two readings both come to a result, and `R` relates the two, or both end with the same
complaint, up to the operator it is about. -/
inductive Agree {α : Type} (R : α → α → Prop) :
    Except (Located Fault) α → Except (Located Fault) α → Prop
  | ok {a b : α} (h : R a b) : Agree R (.ok a) (.ok b)
  | error {fault fault' : Located Fault} (h : Fault.UpToOperator fault fault') :
      Agree R (.error fault) (.error fault')

theorem Agree.bind {α β : Type} {R : α → α → Prop} {S : β → β → Prop}
    {x y : Except (Located Fault) α} {f g : α → Except (Located Fault) β} (h : Agree R x y)
    (hfg : ∀ a b, R a b → Agree S (f a) (g b)) : Agree S (x.bind f) (y.bind g) := by
  cases h with
  | ok h => exact hfg _ _ h
  | error h => exact .error h

namespace Token

/-- What an operand is missing for behind a token and those in front of it, the last of
them first. An open parenthesis stands for the function it belongs to. -/
def waiting (t : Token) (front : List Token) : List Char :=
  match t.kind with
  | .operator op => [op.symbol]
  | .openParen => (front.head?.bind fun n => n.call?.map fun _ => n.lexeme).getD ['(']
  | _ => t.lexeme

/-- What is wrong if an operand is missing behind the tokens, the last of them first. -/
def missingBehind (eof : Span) : List Token → Located Fault
  | [] => ⟨.emptyExpression, eof⟩
  | t :: front => ⟨.missingOperand (t.waiting front), t.span⟩

theorem UpToOperator.missingBehind {ts us : List Token} (h : List.Forall₂ UpToOperator ts us)
    (eof : Span) : Fault.UpToOperator (missingBehind eof ts) (missingBehind eof us) := by
  cases h with
  | nil => exact .same
  | @cons t u front front' ht hfront =>
      cases ht with
      | operators ht hu hspan =>
          simp only [Token.missingBehind, waiting, ht, hu, hspan]
          exact .operators rfl
      | same =>
          have hwaiting : t.waiting front = t.waiting front' := by
            cases hfront with
            | nil => rfl
            | cons hn _ =>
                cases hn with
                | same => rfl
                | operators hn hn' _ => simp [waiting, call?, hn, hn']
          rw [Token.missingBehind, Token.missingBehind, hwaiting]
          exact .same

end Token

namespace Reading

open Token (UpToOperator)

variable {ts us : List Token} {ops : List Expr} {ps : List Pending} {r r' : Reading}
  {eof : Span} {t u : Token} {upcoming upcoming' : Option Token.Kind} {fault : Located Fault}

/-- The operand that is due is missing for what the last tokens say. -/
theorem Opened.missing_eq (h : Opened ts ops ps) (eof : Span) :
    Pending.missing eof ps = Token.missingBehind eof ts.reverse := by
  cases h with
  | start => rfl
  | operator h hfits lhs ht =>
      simp [Pending.missing, Token.missingBehind, Token.waiting, ht]
  | func h hfits ht =>
      simp [Pending.missing, Token.missingBehind, Token.waiting, Token.kind_of_call? ht]
  | paren h ht =>
      cases h with
      | start => simp [Pending.missing, Token.missingBehind, Token.waiting, ht]
      | operator h hfits lhs hn | paren h hn =>
          simp [Pending.missing, Token.missingBehind, Token.waiting, ht, Token.call?, hn]
      | func h hfits hn => simp [Pending.missing, Token.missingBehind, Token.waiting, ht, hn]

/-! ## Two readings side by side -/

/-- Two readings have taken tokens with their operators in the same places. They have in
common what the next token can be refused for. -/
structure InStep (ts us : List Token) (r r' : Reading) : Prop where
  tokens : List.Forall₂ UpToOperator ts us
  follows : Follows ts r
  follows' : Follows us r'
  expectsOperand : r.expectsOperand = r'.expectsOperand
  openSpans : openSpans r.pending = openSpans r'.pending

theorem InStep.symm (h : InStep ts us r r') : InStep us ts r' r where
  tokens := h.tokens.flip.imp fun _ _ ht => ht.symm
  follows := h.follows'
  follows' := h.follows
  expectsOperand := h.expectsOperand.symm
  openSpans := h.openSpans.symm

theorem inStep_start : InStep [] [] start start :=
  ⟨.nil, follows_start, follows_start, rfl, rfl⟩

/-- Where an operand is due, both readings miss it for the same. -/
theorem InStep.missing (h : InStep ts us r r') (hr : r.expectsOperand = true) (eof : Span) :
    Fault.UpToOperator (Pending.missing eof r.pending) (Pending.missing eof r'.pending) := by
  have hleft : Opened ts r.operands r.pending := by
    simpa only [Follows, hr, if_true] using h.follows
  have hright : Opened us r'.operands r'.pending := by
    simpa only [Follows, ← h.expectsOperand, hr, if_true] using h.follows'
  rw [hleft.missing_eq, hright.missing_eq]
  exact UpToOperator.missingBehind (List.forall₂_reverse_iff.mpr h.tokens) eof

/-- An operator is refused for nothing but the operand that is due. -/
theorem Refuses.of_operator {op : Operator} (h : Refuses eof r t upcoming fault)
    (ht : t.kind = .operator op) :
    r.expectsOperand = true ∧ fault = ⟨.missingOperand [op.symbol], t.span⟩ := by
  cases h with
  | outOfRange hrange => simp [Token.isOutOfRange, ht] at hrange
  | meaningless hk _ _ _ => simp [ht] at hk
  | uncalled hc _ => simp [Token.kind_of_call? hc] at ht
  | unjoined hstarts => exact absurd ht (hstarts.kind_ne_operator op)
  | unexpected hk | unfinished hk | unopened hk _ => simp [ht] at hk
  | operator hk =>
      rw [ht] at hk
      cases hk
      exact ⟨rfl, rfl⟩

/-- A token that both readings meet is refused by both for the same. -/
theorem InStep.refuses_same (h : InStep ts us r r')
    (hup : upcoming = some .openParen ↔ upcoming' = some .openParen)
    (hr : Refuses eof r t upcoming fault) :
    ∃ fault', Refuses eof r' t upcoming' fault' ∧ Fault.UpToOperator fault fault' := by
  obtain ⟨s', expects⟩ := r'
  have hexpects : r.expectsOperand = expects := h.expectsOperand
  cases hr with
  | outOfRange hrange => exact ⟨_, .outOfRange hrange, .same⟩
  | unexpected hk => exact ⟨_, .unexpected hk, .same⟩
  | meaningless hk hrange hcall hnone => exact ⟨_, .meaningless hk hrange hcall hnone, .same⟩
  | uncalled hc hnext =>
      subst hexpects
      exact ⟨_, .uncalled hc fun heq => hnext (hup.mpr heq), .same⟩
  | unjoined hstarts =>
      subst hexpects
      exact ⟨_, .unjoined hstarts, .same⟩
  | unfinished hk =>
      subst hexpects
      exact ⟨_, .unfinished hk, h.missing rfl eof⟩
  | unopened hk hm =>
      subst hexpects
      have hspans : Fluxion.openSpans s'.pending = [] :=
        h.openSpans.symm.trans (Stacks.openSpans_mergeWhile (fun _ => rfl) hm).symm
      obtain ⟨ops', ⟨span, ps, hopen, -⟩ | ⟨-, hm'⟩⟩ := h.follows'.merges
      · rw [hspans] at hopen
        cases hopen
      · exact ⟨_, .unopened hk hm', .same⟩
  | operator hk =>
      subst hexpects
      exact ⟨_, .operator hk, .same⟩

/-- What one of two readings in step refuses, the other one refuses too. -/
theorem InStep.refuses (h : InStep ts us r r') (ht : UpToOperator t u)
    (hup : upcoming = some .openParen ↔ upcoming' = some .openParen)
    (hr : Refuses eof r t upcoming fault) :
    ∃ fault', Refuses eof r' u upcoming' fault' ∧ Fault.UpToOperator fault fault' := by
  cases ht with
  | same => exact h.refuses_same hup hr
  | operators ht hu hspan =>
      obtain ⟨hexpects, rfl⟩ := hr.of_operator ht
      obtain ⟨s', expects⟩ := r'
      obtain rfl : true = expects := hexpects.symm.trans h.expectsOperand
      rw [hspan]
      exact ⟨_, .operator hu, .operators rfl⟩

/-- Where the parentheses are that are open behind a token, if those in front of it are
open. -/
def openAfter (t : Token) (spans : List Span) : List Span :=
  match t.kind with
  | .openParen => t.span :: spans
  | .closeParen => spans.tail
  | _ => spans

theorem Takes.openSpans_eq (h : Takes r t upcoming r') :
    openSpans r'.pending = openAfter t (openSpans r.pending) := by
  rcases h.openSpans_cases with ⟨hk, hspans⟩ | ⟨hk, span, hspans⟩ | ⟨hopens, hspans⟩
  · simp only [openAfter, hk, hspans]
  · simp only [openAfter, hk, hspans, List.tail_cons]
  · rw [hspans, openAfter]
    split
    · next hk => simp [Token.opens_of_openParen hk] at hopens
    · next hk => simp [Token.opens_of_closeParen hk] at hopens
    · rfl

/-- Two readings in step that both take a token are in step behind it. -/
theorem InStep.takes {r₁ r₁' : Reading} (h : InStep ts us r r') (ht : UpToOperator t u)
    (hr : Takes r t upcoming r₁) (hr' : Takes r' u upcoming' r₁')
    (hfollows : Follows (ts ++ [t]) r₁) (hfollows' : Follows (us ++ [u]) r₁') :
    InStep (ts ++ [t]) (us ++ [u]) r₁ r₁' where
  tokens := List.rel_append h.tokens (.cons ht .nil)
  follows := hfollows
  follows' := hfollows'
  expectsOperand := by rw [hr.expectsOperand, hr'.expectsOperand, ht.endsOperand_eq]
  openSpans := by
    have hafter : openAfter t = openAfter u :=
      ht.apply_eq id fun _ _ hv => by funext spans; simp only [openAfter, hv, id]
    rw [hr.openSpans_eq, hr'.openSpans_eq, h.openSpans, hafter]

/-- Of two readings in step, both take the next token and stay in step, or both refuse
it. -/
theorem InStep.take {rest rest' : List Token} (h : InStep ts us r r') (ht : UpToOperator t u)
    (hb : t.kind ≠ .blank) (hrest : List.Forall₂ UpToOperator rest rest')
    (hfunc : FuncMeetsParen r (t :: rest)) (hfunc' : FuncMeetsParen r' (u :: rest'))
    (eof : Span) :
    Agree (fun r₁ r₁' => InStep (ts ++ [t]) (us ++ [u]) r₁ r₁' ∧ FuncMeetsParen r₁ rest ∧
        FuncMeetsParen r₁' rest')
      (r.take eof t (rest.head?.map (·.kind))) (r'.take eof u (rest'.head?.map (·.kind))) := by
  have hup := UpToOperator.head?_openParen_iff hrest
  have hb' : u.kind ≠ .blank := fun hk => hb ((ht.kind_eq_iff (by simp)).mpr hk)
  cases hr : r.take eof t (rest.head?.map (·.kind)) with
  | error fault =>
      obtain ⟨fault', hrefuses, hfault⟩ := h.refuses ht hup (h.follows.refuses_of_take hb hr)
      rw [hrefuses.take_eq]
      exact .error hfault
  | ok r₁ =>
      cases hr' : r'.take eof u (rest'.head?.map (·.kind)) with
      | error fault' =>
          obtain ⟨fault, hrefuses, -⟩ :=
            h.symm.refuses ht.symm hup.symm (h.follows'.refuses_of_take hb' hr')
          rw [hrefuses.take_eq] at hr
          cases hr
      | ok r₁' =>
          have htakes := (take_eq_ok_iff hb).mp hr
          have htakes' := (take_eq_ok_iff hb').mp hr'
          obtain ⟨hfollows, hmeets⟩ := h.follows.takes (fun hn => by simpa using hfunc hn) htakes
          obtain ⟨hfollows', hmeets'⟩ :=
            h.follows'.takes (fun hn => by simpa using hfunc' hn) htakes'
          exact .ok ⟨h.takes ht htakes htakes' hfollows hfollows', hmeets, hmeets'⟩

theorem InStep.takeAll {more more' : List Token} (h : InStep ts us r r')
    (hmore : List.Forall₂ UpToOperator more more') (hb : ∀ t ∈ more, t.kind ≠ .blank)
    (hfunc : FuncMeetsParen r more) (hfunc' : FuncMeetsParen r' more') (eof : Span) :
    Agree (InStep (ts ++ more) (us ++ more')) (r.takeAll eof more) (r'.takeAll eof more') := by
  induction hmore generalizing ts us r r' with
  | nil =>
      rw [List.append_nil, List.append_nil]
      exact .ok h
  | @cons t u more more' ht hmore ih =>
      obtain ⟨hbt, hbmore⟩ := List.forall_mem_cons.mp hb
      refine (h.take ht hbt hmore hfunc hfunc' eof).bind fun r₁ r₁' hnext => ?_
      obtain ⟨hstep, hmeets, hmeets'⟩ := hnext
      have hrest := ih hstep hbmore hmeets hmeets'
      rwa [List.append_assoc, List.append_assoc] at hrest

/-- Two readings in step end with expressions of the same leaves and as many nodes, or with
the same complaint. -/
theorem InStep.finish (h : InStep ts us r r') (eof : Span) :
    Agree (fun e e' => e.leaves = e'.leaves ∧ e.nodeCount = e'.nodeCount)
      (r.finish eof) (r'.finish eof) := by
  obtain ⟨s, expects⟩ := r
  obtain ⟨s', expects'⟩ := r'
  obtain rfl : expects = expects' := h.expectsOperand
  cases expects with
  | true => exact .error (h.missing rfl eof)
  | false =>
      have hspans : Fluxion.openSpans s.pending = Fluxion.openSpans s'.pending := h.openSpans
      rcases Holds.finish_openSpans h.follows eof with
        ⟨span, spans, hopen, hfinish⟩ | ⟨hopen, p, htokens, hfinish⟩ <;>
      rcases Holds.finish_openSpans h.follows' eof with
        ⟨span', spans', hopen', hfinish'⟩ | ⟨hopen', p', htokens', hfinish'⟩ <;>
      rw [hopen, hopen'] at hspans
      · cases hspans
        rw [hfinish, hfinish']
        exact .error .same
      · cases hspans
      · cases hspans
      · subst htokens htokens'
        rw [hfinish, hfinish']
        exact .ok (Phrase.leaves_and_nodeCount_tree h.tokens)

end Reading

namespace Expr

open Token (UpToOperator)

/-- With other operators in the same places, tokens are refused in the same place and for
the same reason, and only the operator that an operand is missing for may be another; or
they are read, as an expression with the same leaves in the same order and as many
nodes. -/
theorem ofTokens_agree (ts us : List Token) (h : List.Forall₂ UpToOperator ts us) :
    Agree (fun e e' => e.leaves = e'.leaves ∧ e.nodeCount = e'.nodeCount)
      (ofTokens ts) (ofTokens us) := by
  have hvisible := UpToOperator.visible h
  have hmeets : ∀ more, Reading.FuncMeetsParen Reading.start more :=
    fun _ hn => absurd trivial hn
  rw [ofTokens_eq, ofTokens_eq, UpToOperator.endSpan_eq h, ← Reading.takeAll_eq_takeFront,
    ← Reading.takeAll_eq_takeFront]
  refine Agree.bind (Reading.inStep_start.takeAll hvisible ?_ (hmeets _) (hmeets _) _) ?_
  · exact fun t => Token.kind_ne_blank_of_mem_visible
  · exact fun r r' hr => hr.finish _

/-- `x - y ^ z` and `x * y + z` are grouped the other way round and have the same leaves;
behind `x +` and behind `x ^` an operand is missing. -/
theorem ofTokens_agree_sub_pow :
    (read ['x', '-', 'y', '^', 'z'] = .ok (var none 'x' - var none 'y' ^ var none 'z') ∧
      read ['x', '*', 'y', '+', 'z'] = .ok (var none 'x' * var none 'y' + var none 'z') ∧
      Agree (fun e e' => e.leaves = e'.leaves ∧ e.nodeCount = e'.nodeCount)
        (read ['x', '-', 'y', '^', 'z']) (read ['x', '*', 'y', '+', 'z'])) ∧
    read ['x', '+'] = .error ⟨.missingOperand ['+'], ⟨1, 2⟩⟩ ∧
      read ['x', '^'] = .error ⟨.missingOperand ['^'], ⟨1, 2⟩⟩ ∧
      Agree (fun e e' => e.leaves = e'.leaves ∧ e.nodeCount = e'.nodeCount)
        (read ['x', '+']) (read ['x', '^']) := by
  refine ⟨⟨by cbv, by cbv, ofTokens_agree _ _ ?_⟩, by cbv, by cbv, ofTokens_agree _ _ ?_⟩
  · have hsub : Token.tokenize ['x', '-', 'y', '^', 'z'] =
        [⟨.name, ⟨0, 1⟩, ['x']⟩, ⟨.operator .sub, ⟨1, 2⟩, ['-']⟩, ⟨.name, ⟨2, 3⟩, ['y']⟩,
          ⟨.operator .pow, ⟨3, 4⟩, ['^']⟩, ⟨.name, ⟨4, 5⟩, ['z']⟩] := by cbv
    have hmul : Token.tokenize ['x', '*', 'y', '+', 'z'] =
        [⟨.name, ⟨0, 1⟩, ['x']⟩, ⟨.operator .mul, ⟨1, 2⟩, ['*']⟩, ⟨.name, ⟨2, 3⟩, ['y']⟩,
          ⟨.operator .add, ⟨3, 4⟩, ['+']⟩, ⟨.name, ⟨4, 5⟩, ['z']⟩] := by cbv
    rw [hsub, hmul]
    exact .cons .same (.cons (.operators rfl rfl rfl) (.cons .same
      (.cons (.operators rfl rfl rfl) (.cons .same .nil))))
  · have hadd : Token.tokenize ['x', '+'] =
        [⟨.name, ⟨0, 1⟩, ['x']⟩, ⟨.operator .add, ⟨1, 2⟩, ['+']⟩] := by cbv
    have hpow : Token.tokenize ['x', '^'] =
        [⟨.name, ⟨0, 1⟩, ['x']⟩, ⟨.operator .pow, ⟨1, 2⟩, ['^']⟩] := by cbv
    rw [hadd, hpow]
    exact .cons .same (.cons (.operators rfl rfl rfl) .nil)

end Expr

end Fluxion
