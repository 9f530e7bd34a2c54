import Mathlib.Algebra.Ring.Int.Defs
import Fluxion.Proofs.Grammar

/-!
# A list of tokens has one derivation

Two phrases of one level that are written with the same tokens are the same
phrase, and not only phrases with the same expression: `Phrase.eq_of_tokens_eq`.

The argument counts parentheses. A phrase opens as many as it closes and never
closes one it has not opened, so an operator inside of parentheses is told from
one outside by the depth in front of it. Outside of all parentheses a phrase has
no operator looser than its level. That fixes the operator at which a sum, a
product or a power comes apart: for a sum the last `+` or `-` outside of
parentheses, since the product behind it has none, and for a power the first
`^`, since the atom in front of it has none.
-/

namespace Fluxion

namespace Token

/-- How many parentheses a token opens. -/
def opens (t : Token) : Int :=
  match t.kind with
  | .openParen => 1
  | .closeParen => -1
  | _ => 0

/-- How many parentheses are open behind some tokens. -/
def depth (ts : List Token) : Int :=
  (ts.map opens).sum

@[simp] theorem depth_nil : depth [] = 0 := rfl

@[simp] theorem depth_cons (t : Token) (ts : List Token) :
    depth (t :: ts) = t.opens + depth ts := by
  simp [depth]

@[simp] theorem depth_append (ts us : List Token) :
    depth (ts ++ us) = depth ts + depth us := by
  simp [depth]

theorem opens_of_openParen {t : Token} (h : t.kind = .openParen) : t.opens = 1 := by
  simp only [opens, h]

theorem opens_of_closeParen {t : Token} (h : t.kind = .closeParen) : t.opens = -1 := by
  simp only [opens, h]

theorem opens_of_operator {t : Token} {op : Operator} (h : t.kind = .operator op) :
    t.opens = 0 := by
  simp only [opens, h]

theorem kind_of_operand? {t : Token} {l : Leaf} (h : t.operand? = some l) :
    t.kind = .number ∨ t.kind = .leibniz ∨ t.kind = .name := by
  rw [operand?] at h
  split at h <;> simp_all

theorem kind_of_call? {t : Token} {c : CallName} (h : t.call? = some c) : t.kind = .name := by
  rw [call?] at h
  split at h <;> simp_all

theorem opens_of_operand? {t : Token} {l : Leaf} (h : t.operand? = some l) : t.opens = 0 := by
  rcases kind_of_operand? h with h | h | h <;> simp only [opens, h]

theorem opens_of_call? {t : Token} {c : CallName} (h : t.call? = some c) : t.opens = 0 := by
  simp only [opens, kind_of_call? h]

theorem call?_eq_none_of_operand? {t : Token} {l : Leaf} (h : t.operand? = some l) :
    t.call? = none := by
  rw [operand?] at h
  rw [call?]
  split at h <;> simp_all

end Token

namespace Phrase

open Token

theorem depth_tokens {l : Level} (p : Phrase l) : depth p.tokens = 0 := by
  induction p with
  | operand t l ht => simp [tokens, opens_of_operand? ht]
  | group o p c ho hc ih =>
      simp [tokens, ih, opens_of_openParen ho, opens_of_closeParen hc]
  | call n f o p c hn ho hc ih =>
      simp [tokens, ih, opens_of_call? hn, opens_of_openParen ho, opens_of_closeParen hc]
  | ofAtom a ih => exact ih
  | raise a t e ht iha ihe => simp [tokens, iha, ihe, opens_of_operator ht]
  | ofPower p ih => exact ih
  | multiply a op t e _ ht iha ihe => simp [tokens, iha, ihe, opens_of_operator ht]
  | ofProduct p ih => exact ih
  | add a op t e _ ht iha ihe => simp [tokens, iha, ihe, opens_of_operator ht]

/-- What is in front of a token of a phrase never closes more than it opens, and
an operator outside of all parentheses is no looser than the phrase. -/
def Guarded (bound : Nat) (ts : List Token) : Prop :=
  ∀ u t v, ts = u ++ t :: v → 0 ≤ depth u ∧
    ∀ op, depth u = 0 → t.kind = .operator op → op.level.rank ≤ bound

theorem Guarded.mono {m n : Nat} {ts : List Token} (h : Guarded m ts) (hle : m ≤ n) :
    Guarded n ts := by
  intro u t v heq
  refine ⟨(h u t v heq).1, fun op hu ht => ?_⟩
  have := (h u t v heq).2 op hu ht
  omega

theorem guarded_singleton {n : Nat} {t : Token} (h : ∀ op, t.kind ≠ .operator op) :
    Guarded n [t] := by
  intro u t' v heq
  rcases u with _ | ⟨x, u⟩
  · simp only [List.nil_append, List.cons.injEq] at heq
    exact ⟨Int.le_refl 0, fun op _ ht => absurd (heq.1 ▸ ht) (h op)⟩
  · simp at heq

theorem Guarded.append {n : Nat} {ts us : List Token} (hts : Guarded n ts)
    (hd : depth ts = 0) (hus : Guarded n us) : Guarded n (ts ++ us) := by
  intro u t v heq
  rcases List.append_eq_append_iff.mp heq with ⟨w, rfl, hw⟩ | ⟨w, hw, htv⟩
  · have h := hus w t v hw
    rw [depth_append, hd, Int.zero_add]
    exact h
  · rcases w with _ | ⟨x, w⟩
    · rw [List.append_nil] at hw
      subst hw
      rw [List.nil_append] at htv
      have h := hus [] t v htv.symm
      rw [hd]
      exact h
    · simp only [List.cons_append, List.cons.injEq] at htv
      obtain ⟨rfl, -⟩ := htv
      exact hts u t w hw

/-- An operator between two guarded lists of tokens that close what they open. -/
theorem Guarded.operator {n : Nat} {ts us : List Token} {t : Token} {op : Operator}
    (hts : Guarded n ts) (hd : depth ts = 0) (ht : t.kind = .operator op)
    (hop : op.level.rank ≤ n) (hus : Guarded n us) : Guarded n (ts ++ t :: us) := by
  refine hts.append hd ?_
  intro u t' v heq
  rcases u with _ | ⟨x, u⟩
  · simp only [List.nil_append, List.cons.injEq] at heq
    obtain ⟨rfl, -⟩ := heq
    refine ⟨Int.le_refl 0, fun op' _ ht' => ?_⟩
    rw [ht, Kind.operator.injEq] at ht'
    exact ht' ▸ hop
  · simp only [List.cons_append, List.cons.injEq] at heq
    obtain ⟨rfl, heq⟩ := heq
    rw [depth_cons, opens_of_operator ht, Int.zero_add]
    exact hus u t' v heq

/-- Inside of parentheses every operator may stand. -/
theorem Guarded.group {m n : Nat} {ts : List Token} {o c : Token} (hts : Guarded m ts)
    (hd : depth ts = 0) (ho : o.kind = .openParen) (hc : c.kind = .closeParen) :
    Guarded n (o :: (ts ++ [c])) := by
  have hinside : Guarded m (ts ++ [c]) :=
    hts.append hd (guarded_singleton (by simp [hc]))
  intro u t v heq
  rcases u with _ | ⟨x, u⟩
  · simp only [List.nil_append, List.cons.injEq] at heq
    refine ⟨Int.le_refl 0, fun op _ ht => ?_⟩
    rw [← heq.1, ho] at ht
    cases ht
  · simp only [List.cons_append, List.cons.injEq] at heq
    obtain ⟨rfl, heq⟩ := heq
    have h := (hinside u t v heq).1
    rw [depth_cons, opens_of_openParen ho]
    exact ⟨by omega, fun op hzero => by omega⟩

theorem guarded_tokens {l : Level} (p : Phrase l) : Guarded l.rank p.tokens := by
  induction p with
  | operand t l ht =>
      refine guarded_singleton fun op h => ?_
      rcases kind_of_operand? ht with h' | h' | h' <;> simp [h'] at h
  | group o p c ho hc ih => exact ih.group p.depth_tokens ho hc
  | call n f o p c hn ho hc ih =>
      have hname : Guarded Level.atom.rank [n] :=
        guarded_singleton (by simp [kind_of_call? hn])
      have hdepth : depth [n] = 0 := by simp [opens_of_call? hn]
      exact hname.append hdepth (ih.group p.depth_tokens ho hc)
  | ofAtom a ih => exact ih.mono (by decide)
  | raise a t e ht iha ihe =>
      exact (iha.mono (by decide)).operator a.depth_tokens ht (by decide) ihe
  | ofPower p ih => exact ih.mono (by decide)
  | multiply a op t e hop ht iha ihe =>
      refine iha.operator a.depth_tokens ht ?_ (ihe.mono (by decide))
      rcases hop with rfl | rfl <;> decide
  | ofProduct p ih => exact ih.mono (by decide)
  | add a op t e hop ht iha ihe =>
      refine iha.operator a.depth_tokens ht ?_ (ihe.mono (by decide))
      rcases hop with rfl | rfl <;> decide

/-- An operator outside of all parentheses is no looser than the phrase. -/
theorem level_rank_le_of_tokens_eq {l : Level} (p : Phrase l) {u v : List Token} {t : Token}
    {op : Operator} (h : p.tokens = u ++ t :: v) (hu : depth u = 0)
    (ht : t.kind = .operator op) : op.level.rank ≤ l.rank :=
  (p.guarded_tokens u t v h).2 op hu ht

/-! ## Where a phrase comes apart

Two ways to cut a list of tokens at an operator either cut at the same place, or
one of the operators lies in a part of the other cut: behind its operator, if
that cut is the earlier one, and in front of it otherwise. -/

theorem append_cons_cases {u u' v v' : List Token} {t t' : Token}
    (h : u ++ t :: v = u' ++ t' :: v') :
    (u = u' ∧ t = t' ∧ v = v') ∨
      (∃ w, v = w ++ t' :: v' ∧ u' = u ++ t :: w) ∨
      (∃ w, v' = w ++ t :: v ∧ u = u' ++ t' :: w) := by
  rcases List.append_eq_append_iff.mp h with ⟨w, hu, hv⟩ | ⟨w, hu, hv⟩
  · rcases w with _ | ⟨x, w⟩
    · simp only [List.nil_append, List.cons.injEq] at hv
      exact Or.inl ⟨by simp [hu], hv.1, hv.2⟩
    · simp only [List.cons_append, List.cons.injEq] at hv
      obtain ⟨rfl, hv⟩ := hv
      exact Or.inr (Or.inl ⟨w, hv, hu⟩)
  · rcases w with _ | ⟨x, w⟩
    · simp only [List.nil_append, List.cons.injEq] at hv
      exact Or.inl ⟨by simp [hu], hv.1.symm, hv.2.symm⟩
    · simp only [List.cons_append, List.cons.injEq] at hv
      obtain ⟨rfl, hv⟩ := hv
      exact Or.inr (Or.inr ⟨w, hv, hu⟩)

/-- What lies between two operators outside of all parentheses closes what it
opens. -/
theorem depth_between {u w : List Token} {t : Token} {op : Operator} (hu : depth u = 0)
    (ht : t.kind = .operator op) (h : depth (u ++ t :: w) = 0) : depth w = 0 := by
  rw [depth_append, depth_cons, opens_of_operator ht, hu] at h
  omega

/-- The cut of a left-grouping operator is the last one possible, since no
operator as loose stands behind it. -/
theorem cut_left {l l' r : Level} {a : Phrase l} {a' : Phrase l'} {b b' : Phrase r}
    {t t' : Token} {op op' : Operator} (ht : t.kind = .operator op)
    (ht' : t'.kind = .operator op') (hop : r.rank < op.level.rank)
    (hop' : r.rank < op'.level.rank)
    (h : a.tokens ++ t :: b.tokens = a'.tokens ++ t' :: b'.tokens) :
    a.tokens = a'.tokens ∧ t = t' ∧ b.tokens = b'.tokens := by
  rcases append_cons_cases h with h | ⟨w, hv, hu⟩ | ⟨w, hv, hu⟩
  · exact h
  · have hw : depth w = 0 := depth_between a.depth_tokens ht (hu ▸ a'.depth_tokens)
    have := b.level_rank_le_of_tokens_eq hv hw ht'
    omega
  · have hw : depth w = 0 := depth_between a'.depth_tokens ht' (hu ▸ a.depth_tokens)
    have := b'.level_rank_le_of_tokens_eq hv hw ht
    omega

/-- The cut of a right-grouping operator is the first one possible, since no
operator as loose stands in front of it. -/
theorem cut_right {l r r' : Level} {a a' : Phrase l} {b : Phrase r} {b' : Phrase r'}
    {t t' : Token} {op op' : Operator} (ht : t.kind = .operator op)
    (ht' : t'.kind = .operator op') (hop : l.rank < op.level.rank)
    (hop' : l.rank < op'.level.rank)
    (h : a.tokens ++ t :: b.tokens = a'.tokens ++ t' :: b'.tokens) :
    a.tokens = a'.tokens ∧ t = t' ∧ b.tokens = b'.tokens := by
  rcases append_cons_cases h with h | ⟨w, -, hu⟩ | ⟨w, -, hu⟩
  · exact h
  · have := a'.level_rank_le_of_tokens_eq hu a.depth_tokens ht
    omega
  · have := a.level_rank_le_of_tokens_eq hu a'.depth_tokens ht'
    omega

/-- A phrase of a tighter level is written like no operator of a looser one. -/
theorem tokens_ne_binary {l m r : Level} (p : Phrase l) (a : Phrase m) (b : Phrase r)
    {t : Token} {op : Operator} (ht : t.kind = .operator op) (hop : l.rank < op.level.rank) :
    p.tokens ≠ a.tokens ++ t :: b.tokens := by
  intro h
  have := p.level_rank_le_of_tokens_eq h a.depth_tokens ht
  omega

theorem group_tokens_inj {a b : Phrase .sum} {o o' c c' : Token}
    (h : o :: (a.tokens ++ [c]) = o' :: (b.tokens ++ [c'])) :
    o = o' ∧ a.tokens = b.tokens ∧ c = c' := by
  simp only [List.cons.injEq] at h
  obtain ⟨htokens, hclosing⟩ := List.append_inj' h.2 rfl
  exact ⟨h.1, htokens, by simpa using hclosing⟩

/-- A list of tokens has at most one derivation at each level. -/
theorem eq_of_tokens_eq {l : Level} (p q : Phrase l) (h : p.tokens = q.tokens) : p = q := by
  induction p with
  | operand t l ht =>
      cases q with
      | operand t' l' ht' =>
          simp only [tokens, List.cons.injEq, and_true] at h
          subst h
          rw [ht, Option.some.injEq] at ht'
          subst ht'
          rfl
      | group o b c ho hc => simp [tokens] at h
      | call n f o b c hn ho hc => simp [tokens] at h
  | group o a c ho hc ih =>
      cases q with
      | operand t' l' ht' => simp [tokens] at h
      | group o' b c' ho' hc' =>
          obtain ⟨rfl, hin, rfl⟩ := group_tokens_inj h
          rw [ih b hin]
      | call n f o' b c' hn ho' hc' =>
          simp only [tokens, List.cons.injEq] at h
          rw [← h.1] at hn
          rw [kind_of_call? hn] at ho
          cases ho
  | call n f o a c hn ho hc ih =>
      cases q with
      | operand t' l' ht' => simp [tokens] at h
      | group o' b c' ho' hc' =>
          simp only [tokens, List.cons.injEq] at h
          rw [h.1] at hn
          rw [kind_of_call? hn] at ho'
          cases ho'
      | call n' f' o' b c' hn' ho' hc' =>
          simp only [tokens, List.cons.injEq] at h
          obtain ⟨rfl, hrest⟩ := h
          obtain ⟨rfl, hin, rfl⟩ := group_tokens_inj (List.cons.injEq _ _ _ _ ▸ hrest)
          rw [hn, Option.some.injEq] at hn'
          subst hn'
          rw [ih b hin]
  | ofAtom a ih =>
      cases q with
      | ofAtom b => rw [ih b h]
      | raise b t e ht => exact absurd h (a.tokens_ne_binary b e ht (by decide))
  | raise a t e ht iha ihe =>
      cases q with
      | ofAtom b => exact absurd h.symm (b.tokens_ne_binary a e ht (by decide))
      | raise b t' e' ht' =>
          obtain ⟨hbase, rfl, hexp⟩ := cut_right ht ht' (by decide) (by decide) h
          rw [iha b hbase, ihe e' hexp]
  | ofPower a ih =>
      cases q with
      | ofPower b => rw [ih b h]
      | multiply b op t e hop ht =>
          exact absurd h (a.tokens_ne_binary b e ht (by rcases hop with rfl | rfl <;> decide))
  | multiply a op t e hop ht iha ihe =>
      have hlevel : Level.power.rank < op.level.rank := by rcases hop with rfl | rfl <;> decide
      cases q with
      | ofPower b => exact absurd h.symm (b.tokens_ne_binary a e ht hlevel)
      | multiply b op' t' e' hop' ht' =>
          obtain ⟨hlhs, rfl, hrhs⟩ := cut_left ht ht' hlevel
            (by rcases hop' with rfl | rfl <;> decide) h
          rw [ht, Kind.operator.injEq] at ht'
          subst ht'
          rw [iha b hlhs, ihe e' hrhs]
  | ofProduct a ih =>
      cases q with
      | ofProduct b => rw [ih b h]
      | add b op t e hop ht =>
          exact absurd h (a.tokens_ne_binary b e ht (by rcases hop with rfl | rfl <;> decide))
  | add a op t e hop ht iha ihe =>
      have hlevel : Level.product.rank < op.level.rank := by rcases hop with rfl | rfl <;> decide
      cases q with
      | ofProduct b => exact absurd h.symm (b.tokens_ne_binary a e ht hlevel)
      | add b op' t' e' hop' ht' =>
          obtain ⟨hlhs, rfl, hrhs⟩ := cut_left ht ht' hlevel
            (by rcases hop' with rfl | rfl <;> decide) h
          rw [ht, Kind.operator.injEq] at ht'
          subst ht'
          rw [iha b hlhs, ihe e' hrhs]

end Phrase

end Fluxion
