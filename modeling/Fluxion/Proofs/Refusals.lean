import Fluxion.Proofs.ReaderGrammar

/-!
# Why a token is refused

A token that is not blank is taken in five ways (`Reading.Takes`). Here are the ways
in which it is refused, each with the complaint and the place it points at: with the
two lists, everything is said about what one token does to a reading.

Merging is not among the reasons. What waits in a reading that has got somewhere has
its operands, so a closing parenthesis fails for want of an open one and for nothing
else, and behind an operand an operator does not fail at all.
-/

namespace Fluxion

open Token (Kind)

namespace Token

/-- A token that an operand can begin with. -/
def Starts (t : Token) : Prop :=
  t.operand?.isSome = true ∨ t.call?.isSome = true ∨ t.kind = .openParen

theorem Starts.kind_ne_operator {t : Token} (h : t.Starts) (op : Operator) :
    t.kind ≠ .operator op := by
  rcases h with h | h | h
  · obtain ⟨l, hl⟩ := Option.isSome_iff_exists.mp h
    rcases kind_of_operand? hl with hk | hk | hk <;> simp [hk]
  · obtain ⟨c, hc⟩ := Option.isSome_iff_exists.mp h
    simp [kind_of_call? hc]
  · simp [h]

end Token

namespace Reading

/-- What a token that is not blank can be refused for. The text ends at `eof`. -/
inductive Refuses (eof : Span) : Reading → Token → Option Kind → Located Fault → Prop
  | outOfRange {r : Reading} {t : Token} {upcoming : Option Kind} (h : t.isOutOfRange = true) :
      Refuses eof r t upcoming ⟨.numberOutOfRange t.lexeme, t.span⟩
  | unexpected {r : Reading} {t : Token} {upcoming : Option Kind} (h : t.kind = .symbol) :
      Refuses eof r t upcoming ⟨.unexpectedToken t.lexeme, t.span⟩
  | meaningless {r : Reading} {t : Token} {upcoming : Option Kind}
      (hk : t.kind = .number ∨ t.kind = .leibniz ∨ t.kind = .name)
      (hrange : t.isOutOfRange = false) (hcall : t.call? = none) (h : t.operand? = none) :
      Refuses eof r t upcoming ⟨.unknownSymbol t.lexeme, t.span⟩
  | uncalled {s : Stacks} {t : Token} {c : CallName} {upcoming : Option Kind}
      (h : t.call? = some c) (hup : upcoming ≠ some .openParen) :
      Refuses eof ⟨s, true⟩ t upcoming ⟨.unknownSymbol t.lexeme, t.span⟩
  | unjoined {s : Stacks} {t : Token} {upcoming : Option Kind} (h : t.Starts) :
      Refuses eof ⟨s, false⟩ t upcoming ⟨.missingOperator, t.span⟩
  | unfinished {s : Stacks} {t : Token} {upcoming : Option Kind} (h : t.kind = .closeParen) :
      Refuses eof ⟨s, true⟩ t upcoming (Pending.missing eof s.pending)
  | unopened {s : Stacks} {t : Token} {upcoming : Option Kind} {ops : List Expr}
      (h : t.kind = .closeParen)
      (hm : Stacks.mergeWhile (fun p => !p.isParen) s.operands s.pending = .ok ⟨ops, []⟩) :
      Refuses eof ⟨s, false⟩ t upcoming ⟨.unopenedParenthesis, t.span⟩
  | operator {s : Stacks} {t : Token} {op : Operator} {upcoming : Option Kind}
      (h : t.kind = .operator op) :
      Refuses eof ⟨s, true⟩ t upcoming ⟨.missingOperand [op.symbol], t.span⟩

variable {ts : List Token} {r : Reading} {eof : Span} {t : Token} {upcoming : Option Kind}
  {fault : Located Fault}

theorem take_eq_takeLeaf (hk : t.kind = .number ∨ t.kind = .leibniz ∨ t.kind = .name)
    (hrange : t.isOutOfRange = false) (hcall : t.call? = none) :
    r.take eof t upcoming = r.takeLeaf t := by
  rw [take, hrange, if_neg Bool.false_ne_true]
  rcases hk with hk | hk | hk
  · simp only [hk]
  · simp only [hk]
  · simp only [Token.call?, hk] at hcall
    simp only [hk, hcall]

theorem take_eq_takeCall {c : CallName} (hc : t.call? = some c) :
    r.take eof t upcoming = r.takeCall t c upcoming := by
  have hk := Token.kind_of_call? hc
  rw [take, Token.isOutOfRange_of_call? hc, if_neg Bool.false_ne_true]
  simp only [Token.call?, hk] at hc
  simp only [hk, hc]

theorem take_eq_takeOpen (ht : t.kind = .openParen) : r.take eof t upcoming = r.takeOpen t := by
  simp only [take, Token.isOutOfRange, ht, Bool.false_eq_true, if_false]

theorem take_eq_takeClose (ht : t.kind = .closeParen) :
    r.take eof t upcoming = r.takeClose eof t := by
  simp only [take, Token.isOutOfRange, ht, Bool.false_eq_true, if_false]

theorem take_eq_takeOperator {op : Operator} (ht : t.kind = .operator op) :
    r.take eof t upcoming = r.takeOperator t op := by
  simp only [take, Token.isOutOfRange, ht, Bool.false_eq_true, if_false]

theorem takeLeaf_of_starts {s : Stacks} {l : Leaf} (h : t.leaf? = some l) :
    takeLeaf ⟨s, false⟩ t = .error ⟨.missingOperator, t.span⟩ := by
  rw [takeLeaf, h]
  rfl

theorem refuses_of_takeLeaf
    (hk : t.kind = .number ∨ t.kind = .leibniz ∨ t.kind = .name)
    (hrange : t.isOutOfRange = false) (hcall : t.call? = none)
    (h : r.takeLeaf t = .error fault) : Refuses eof r t upcoming fault := by
  have hop := Token.operand?_eq_leaf? hk hrange hcall
  obtain ⟨s, expects⟩ := r
  rw [takeLeaf] at h
  split at h
  · next hleaf =>
      cases h
      exact .meaningless hk hrange hcall (hop.trans hleaf)
  · next l hleaf =>
      cases expects with
      | true => cases h
      | false =>
          cases h
          exact .unjoined (Or.inl (by rw [hop, hleaf]; rfl))

theorem refuses_of_takeCall {c : CallName} (hc : t.call? = some c)
    (h : r.takeCall t c upcoming = .error fault) : Refuses eof r t upcoming fault := by
  obtain ⟨s, expects⟩ := r
  cases expects with
  | false =>
      cases h
      exact .unjoined (Or.inr (Or.inl (by rw [hc]; rfl)))
  | true =>
      simp only [takeCall, Bool.not_true, Bool.false_eq_true, if_false] at h
      split at h
      · next hup =>
          cases h
          exact .uncalled hc hup
      · cases h

theorem exists_closeCall (arg : Expr) (ops : List Expr) (ps : List Pending) :
    ∃ closed, Stacks.closeCall ⟨arg :: ops, ps⟩ = .ok closed := by
  cases ps with
  | nil => exact ⟨_, rfl⟩
  | cons top ps => cases top <;> exact ⟨_, rfl⟩

theorem Follows.refuses_of_takeClose (h : Follows ts r) (ht : t.kind = .closeParen)
    (herror : r.takeClose eof t = .error fault) : Refuses eof r t upcoming fault := by
  obtain ⟨s, expects⟩ := r
  cases expects with
  | true =>
      cases herror
      exact .unfinished ht
  | false =>
      obtain ⟨⟨ops, pending⟩, hm⟩ :=
        Holds.exists_mergeWhile (q := fun p => !p.isParen) (fun _ => rfl) h
      obtain ⟨_, ops, l, p, -, -, -, -, rfl⟩ := Holds.toParen h hm
      simp only [takeClose, Bool.false_eq_true, if_false, hm, bind, Except.bind] at herror
      rcases mergeWhile_paren_cases hm with rfl | ⟨span, ps, rfl⟩
      · cases herror
        exact .unopened ht hm
      · obtain ⟨closed, hclosed⟩ := exists_closeCall p.tree ops ps
        simp only [hclosed] at herror
        cases herror

theorem Follows.refuses_of_takeOperator {op : Operator} (h : Follows ts r)
    (ht : t.kind = .operator op) (herror : r.takeOperator t op = .error fault) :
    Refuses eof r t upcoming fault := by
  obtain ⟨s, expects⟩ := r
  cases expects with
  | true =>
      cases herror
      exact .operator ht
  | false =>
      obtain ⟨s', hm⟩ := Holds.exists_mergeWhile (q := Pending.yieldsTo op) (fun _ => rfl) h
      simp only [takeOperator, Bool.false_eq_true, if_false, hm, bind, Except.bind] at herror
      cases herror

/-- A token that is refused is refused for one of these reasons. -/
theorem Follows.refuses_of_take (h : Follows ts r) (hb : t.kind ≠ .blank)
    (herror : r.take eof t upcoming = .error fault) : Refuses eof r t upcoming fault := by
  rw [take] at herror
  split at herror
  · next hrange =>
      cases herror
      exact .outOfRange hrange
  · next hrange =>
      have hrange : t.isOutOfRange = false := by simpa using hrange
      split at herror
      · next hk =>
          exact refuses_of_takeLeaf (Or.inl hk) hrange (by simp only [Token.call?, hk]) herror
      · next hk =>
          exact refuses_of_takeLeaf (Or.inr (Or.inl hk)) hrange (by simp only [Token.call?, hk])
            herror
      · next hk =>
          split at herror
          · next c hc => exact refuses_of_takeCall (by simp only [Token.call?, hk, hc]) herror
          · next hc =>
              exact refuses_of_takeLeaf (Or.inr (Or.inr hk)) hrange
                (by simp only [Token.call?, hk, hc]) herror
      · next hk =>
          obtain ⟨s, expects⟩ := r
          cases expects with
          | true => cases herror
          | false =>
              cases herror
              exact .unjoined (Or.inr (Or.inr hk))
      · next hk => exact h.refuses_of_takeClose hk herror
      · next op hk => exact h.refuses_of_takeOperator hk herror
      · next hk =>
          cases herror
          exact .unexpected hk
      · next hk => exact absurd hk hb

/-- And for each of these reasons a token is refused. -/
theorem Refuses.take_eq (h : Refuses eof r t upcoming fault) :
    r.take eof t upcoming = .error fault := by
  cases h with
  | outOfRange hrange => rw [take, if_pos hrange]
  | unexpected hk => simp only [take, Token.isOutOfRange, hk, Bool.false_eq_true, if_false]
  | meaningless hk hrange hcall hnone =>
      rw [Token.operand?_eq_leaf? hk hrange hcall] at hnone
      rw [take_eq_takeLeaf hk hrange hcall, takeLeaf, hnone]
  | uncalled hc hup =>
      rw [take_eq_takeCall hc]
      simp [takeCall, hup]
  | @unjoined s t upcoming hstarts =>
      rcases hstarts with hl | hc | hk
      · obtain ⟨l, hl⟩ := Option.isSome_iff_exists.mp hl
        rw [take_eq_takeLeaf (Token.kind_of_operand? hl) (Token.isOutOfRange_of_operand? hl)
          (Token.call?_eq_none_of_operand? hl)]
        exact takeLeaf_of_starts (Token.leaf?_of_operand? hl)
      · obtain ⟨c, hc⟩ := Option.isSome_iff_exists.mp hc
        rw [take_eq_takeCall hc]
        rfl
      · rw [take_eq_takeOpen hk]
        rfl
  | unfinished hk =>
      rw [take_eq_takeClose hk]
      rfl
  | unopened hk hm =>
      rw [take_eq_takeClose hk]
      simp only [takeClose, Bool.false_eq_true, if_false, hm, bind, Except.bind]
  | operator hk =>
      rw [take_eq_takeOperator hk]
      rfl

end Reading

end Fluxion
