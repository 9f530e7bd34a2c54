import Fluxion.Expr.Reader
import Fluxion.Proofs.GrammarUnique

/-!
# The reader follows the grammar

`Expr.ofTokens` reads exactly the lists of tokens that have a derivation as a
sum, and gives the expression of that derivation.

Both directions are about what is deferred. A phrase that has just been read is
not yet one operand: its operators wait on the stack until something looser
comes. `Deferred` says that they wait for nothing but to be merged, and a phrase
read on top of any fitting stack ends in such a state (`Reading.reads`). So
whatever comes next, an operator, a closing parenthesis or the end, finds the
phrase complete.

Backwards, `Opened` describes the stacks of a reading that expects an operand:
every operator that waits has a phrase of its left level in front of it, and
operators on top of one another wait in the order of their levels. An operand
that has been read is a phrase of some level that fits on the stack, and merging
an operator makes a phrase of the operator's level out of two phrases, which fits
on what lies below (`Holds.mergeWhile`). That merging does not run out of operands takes
no more than a count of them (`Stacks.exists_mergeWhile_of_length`).
-/

namespace Fluxion

/-- A phrase of a level may be read on top of what waits: an operator on top
takes phrases of the level behind it, and a function waits for its parenthesis. -/
def Level.Fits (l : Level) : List Pending → Prop
  | [] | .paren _ :: _ => True
  | .func _ _ _ :: _ => False
  | .operator op _ :: _ => l.rank ≤ op.rightLevel.rank

theorem Level.Fits.mono {l l' : Level} {ps : List Pending} (h : l.Fits ps)
    (hle : l'.rank ≤ l.rank) : l'.Fits ps := by
  unfold Level.Fits at *
  split at h <;> first | trivial | exact Nat.le_trans hle h

/-- What fits at all lets an atom in. -/
theorem Level.Fits.atom {l : Level} {ps : List Pending} (h : l.Fits ps) : Level.atom.Fits ps :=
  h.mono (Nat.zero_le _)

def Pending.isOperator : Pending → Bool
  | operator _ _ => true
  | _ => false

/-- An operator that is no looser than a level. -/
def Pending.WithinLevel (l : Level) : Pending → Prop
  | operator op _ => op.level.rank ≤ l.rank
  | _ => False

namespace Stacks

@[simp] theorem mergeWhile_nil (q : Pending → Bool) (ops : List Expr) :
    mergeWhile q ops [] = .ok ⟨ops, []⟩ := rfl

theorem mergeWhile_stop {q : Pending → Bool} {ops : List Expr} {top : Pending}
    {ps : List Pending} (h : q top = false) :
    mergeWhile q ops (top :: ps) = .ok ⟨ops, top :: ps⟩ := by
  simp only [mergeWhile, h, Bool.false_eq_true, if_false]

theorem mergeWhile_operator {q : Pending → Bool} {lhs rhs : Expr} {ops : List Expr}
    {op : Operator} {span : Span} {ps : List Pending} (h : q (.operator op span) = true) :
    mergeWhile q (rhs :: lhs :: ops) (.operator op span :: ps) =
      mergeWhile q (.binary op lhs rhs :: ops) ps := by
  rw [mergeWhile, if_pos h]
  rfl

/-- With an operand more than operators, every merge finds what it takes, and there is
still an operand more than operators behind it. -/
theorem exists_mergeWhile_of_length {q : Pending → Bool} (hq : ∀ span, q (.paren span) = false)
    {ops : List Expr} {ps : List Pending} (h : ops.length = ps.countP Pending.isOperator + 1) :
    ∃ s, mergeWhile q ops ps = .ok s ∧
      s.operands.length = s.pending.countP Pending.isOperator + 1 := by
  induction ps generalizing ops with
  | nil => exact ⟨_, rfl, h⟩
  | cons top ps ih =>
      cases hqt : q top with
      | false => exact ⟨_, mergeWhile_stop hqt, h⟩
      | true =>
          cases top with
          | operator op span =>
              rw [List.countP_cons_of_pos rfl] at h
              obtain ⟨rhs, lhs, ops, rfl⟩ : ∃ rhs lhs ops', ops = rhs :: lhs :: ops' := by
                match ops, h with
                | rhs :: lhs :: ops, _ => exact ⟨rhs, lhs, ops, rfl⟩
              rw [mergeWhile_operator hqt]
              exact ih (Nat.succ.inj h)
          | func call name span =>
              rw [List.countP_cons_of_neg (by simp [Pending.isOperator])] at h
              obtain ⟨arg, ops, rfl⟩ := List.exists_cons_of_length_eq_add_one h
              rw [mergeWhile, if_pos hqt]
              exact ih h
          | paren span =>
              rw [hq] at hqt
              cases hqt

/-- Everything that fits lets a coming operator of the level stop on it. -/
theorem mergeWhile_of_fits {op : Operator} {ops : List Expr} {ps : List Pending}
    (h : op.level.Fits ps) :
    mergeWhile (Pending.yieldsTo op) ops ps = .ok ⟨ops, ps⟩ := by
  match ps with
  | [] => rfl
  | .paren span :: ps => exact mergeWhile_stop rfl
  | .func c name span :: ps => exact absurd h (by simp [Level.Fits])
  | .operator top span :: ps =>
      refine mergeWhile_stop ?_
      simp only [Pending.yieldsTo, decide_eq_false_iff_not]
      exact Operator.not_before_of_fits h

/-- The stacks hold the phrase with expression `e` on top of `ops` and `ps`, with
some of its operators not yet merged. -/
def Deferred (l : Level) (e : Expr) (ops : List Expr) (ps : List Pending) (s : Stacks) : Prop :=
  ∃ front, s.pending = front ++ ps ∧ (∀ x ∈ front, x.WithinLevel l) ∧
    ∀ q : Pending → Bool, (∀ x ∈ front, q x = true) →
      mergeWhile q s.operands s.pending = mergeWhile q (e :: ops) ps

theorem Deferred.complete (l : Level) (e : Expr) (ops : List Expr) (ps : List Pending) :
    Deferred l e ops ps ⟨e :: ops, ps⟩ :=
  ⟨[], rfl, fun _ h => absurd h List.not_mem_nil, fun _ _ => rfl⟩

theorem Deferred.mono {l l' : Level} {e : Expr} {ops : List Expr} {ps : List Pending}
    {s : Stacks} (h : Deferred l e ops ps s) (hle : l.rank ≤ l'.rank) :
    Deferred l' e ops ps s := by
  obtain ⟨front, hp, hin, hm⟩ := h
  refine ⟨front, hp, fun x hx => ?_, hm⟩
  have := hin x hx
  unfold Pending.WithinLevel at this ⊢
  split at this
  · exact Nat.le_trans this hle
  · exact False.elim this

/-- Behind an operator, the phrase defers that operator too. -/
theorem Deferred.operator {op : Operator} {r : Level} {lhs rhs : Expr} {ops : List Expr}
    {ps : List Pending} {span : Span} {s : Stacks} (hr : r.rank ≤ op.level.rank)
    (h : Deferred r rhs (lhs :: ops) (.operator op span :: ps) s) :
    Deferred op.level (.binary op lhs rhs) ops ps s := by
  obtain ⟨front, hp, hin, hm⟩ := h.mono hr
  refine ⟨front ++ [.operator op span], by simp [hp], ?_, ?_⟩
  · intro x hx
    rcases List.mem_append.mp hx with hx | hx
    · exact hin x hx
    · rw [List.mem_singleton.mp hx]
      exact Nat.le_refl _
  · intro q hq
    rw [hm q fun x hx => hq x (List.mem_append_left _ hx)]
    exact mergeWhile_operator (hq _ (List.mem_append_right _ (List.mem_singleton_self _)))

/-- A coming operator finds a phrase of its left level complete. -/
theorem Deferred.yieldsTo {op : Operator} {l : Level} {e : Expr} {ops : List Expr}
    {ps : List Pending} {s : Stacks} (h : Deferred l e ops ps s)
    (hl : l.rank ≤ op.leftLevel.rank) (hfits : op.level.Fits ps) :
    mergeWhile (Pending.yieldsTo op) s.operands s.pending = .ok ⟨e :: ops, ps⟩ := by
  obtain ⟨front, hp, hin, hm⟩ := h.mono hl
  rw [hm, mergeWhile_of_fits hfits]
  intro x hx
  have := hin x hx
  match x with
  | .operator top _ => exact decide_eq_true (Operator.before_of_level_le this)
  | .func _ _ _ | .paren _ => exact False.elim this

/-- A closing parenthesis and the end of the text find every phrase complete. -/
theorem Deferred.toParen {l : Level} {e : Expr} {ops : List Expr} {ps : List Pending}
    {s : Stacks} (h : Deferred l e ops ps s) :
    mergeWhile (fun p => !p.isParen) s.operands s.pending =
      mergeWhile (fun p => !p.isParen) (e :: ops) ps := by
  obtain ⟨front, hp, hin, hm⟩ := h
  refine hm _ fun x hx => ?_
  have := hin x hx
  match x with
  | .operator _ _ => rfl
  | .func _ _ _ | .paren _ => exact False.elim this

end Stacks

/-! ## What a token does -/

namespace Token

theorem kind_ne_blank_of_mem_visible {t : Token} {ts : List Token} (h : t ∈ visible ts) :
    t.kind ≠ .blank := by
  simpa [isBlank] using (List.mem_filter.mp h).2

theorem isOutOfRange_of_operand? {t : Token} {l : Leaf} (h : t.operand? = some l) :
    t.isOutOfRange = false := by
  rw [operand?] at h
  rw [isOutOfRange]
  split at h
  · next hk =>
      obtain ⟨n, hn, -⟩ := Option.map_eq_some_iff.mp h
      obtain ⟨hread, hfin⟩ := Option.filter_eq_some_iff.mp hn
      simp only [hk, hread, Option.any_some, hfin, Bool.not_true]
  · next hk => simp only [hk]
  · next hk =>
      split at h
      · cases h
      · simp only [hk]
        rcases Leaf.ofName?_cases h with ⟨c, hc, -⟩ | ⟨_, _, hs, -, -⟩
        · rw [hc]
          cases c <;> rfl
        · exact SplitName.any_not_isFinite_of_ofFinite? hs
  · cases h

theorem isOutOfRange_of_call? {t : Token} {c : CallName} (h : t.call? = some c) :
    t.isOutOfRange = false := by
  have hk := kind_of_call? h
  simp only [call?, hk] at h
  obtain ⟨s, hs, -⟩ := CallName.exists_ofFinite? h
  simp only [isOutOfRange, hk]
  exact SplitName.any_not_isFinite_of_ofFinite? hs

/-- A token that starts an operand and passes the range check is read as the
leaf it is, or refused as one. -/
theorem operand?_eq_leaf? {t : Token} (hk : t.kind = .number ∨ t.kind = .leibniz ∨ t.kind = .name)
    (hrange : t.isOutOfRange = false) (hcall : t.call? = none) : t.operand? = t.leaf? := by
  rcases hk with hk | hk | hk
  · simp only [isOutOfRange, hk] at hrange
    simp only [operand?, leaf?, hk]
    cases hread : Decimal.read? t.lexeme with
    | none => rfl
    | some n =>
        simp only [hread, Option.any_some, Bool.not_eq_false'] at hrange
        simp [hrange]
  · simp only [operand?, leaf?, hk]
  · simp only [call?, hk] at hcall
    simp [operand?, leaf?, hk, hcall]

theorem leaf?_of_operand? {t : Token} {l : Leaf} (h : t.operand? = some l) :
    t.leaf? = some l := by
  rw [← operand?_eq_leaf? (kind_of_operand? h) (isOutOfRange_of_operand? h)
    (call?_eq_none_of_operand? h), h]

end Token

namespace Reading

open Token

theorem take_operand {t : Token} {l : Leaf} (h : t.operand? = some l) (s : Stacks)
    (eof : Span) (upcoming : Option Kind) :
    take ⟨s, true⟩ eof t upcoming = .ok ⟨⟨.leaf l :: s.operands, s.pending⟩, false⟩ := by
  have hleaf : takeLeaf ⟨s, true⟩ t = .ok ⟨⟨.leaf l :: s.operands, s.pending⟩, false⟩ := by
    simp only [takeLeaf, leaf?_of_operand? h, if_true]
  have hcall := call?_eq_none_of_operand? h
  rw [take]
  rw [isOutOfRange_of_operand? h]
  rcases kind_of_operand? h with hk | hk | hk
  · simpa only [hk, Bool.false_eq_true, if_false] using hleaf
  · simpa only [hk, Bool.false_eq_true, if_false] using hleaf
  · simp only [call?, hk] at hcall
    simpa only [hk, hcall, Bool.false_eq_true, if_false] using hleaf

theorem take_call {t : Token} {c : CallName} (h : t.call? = some c) (s : Stacks) (eof : Span) :
    take ⟨s, true⟩ eof t (some .openParen) =
      .ok ⟨⟨s.operands, .func c t.lexeme t.span :: s.pending⟩, true⟩ := by
  have hk := kind_of_call? h
  have hname := h
  simp only [call?, hk] at hname
  simp only [take, isOutOfRange_of_call? h, hk, hname, takeCall]
  rfl

theorem take_openParen {t : Token} (h : t.kind = .openParen) (s : Stacks) (eof : Span)
    (upcoming : Option Kind) :
    take ⟨s, true⟩ eof t upcoming = .ok ⟨⟨s.operands, .paren t.span :: s.pending⟩, true⟩ := by
  simp only [take, isOutOfRange, h, takeOpen]
  rfl

theorem take_closeParen {t : Token} (h : t.kind = .closeParen) {s : Stacks} {ops : List Expr}
    {span : Span} {ps : List Pending} {closed : Stacks} (eof : Span) (upcoming : Option Kind)
    (hm : Stacks.mergeWhile (fun p => !p.isParen) s.operands s.pending =
      .ok ⟨ops, .paren span :: ps⟩)
    (hc : Stacks.closeCall ⟨ops, ps⟩ = .ok closed) :
    take ⟨s, false⟩ eof t upcoming = .ok ⟨closed, false⟩ := by
  simp only [take, isOutOfRange, h, takeClose, hm, Bool.false_eq_true, if_false]
  simp only [bind, Except.bind, hc]
  rfl

theorem take_operator {t : Token} {op : Operator} (h : t.kind = .operator op) {s s' : Stacks}
    (eof : Span) (upcoming : Option Kind)
    (hm : Stacks.mergeWhile (Pending.yieldsTo op) s.operands s.pending = .ok s') :
    take ⟨s, false⟩ eof t upcoming =
      .ok ⟨⟨s'.operands, .operator op t.span :: s'.pending⟩, true⟩ := by
  simp only [take, isOutOfRange, h, takeOperator, hm]
  rfl

/-! ## A phrase is read -/

theorem takeAll_cons {r r' : Reading} {eof : Span} {t : Token} {ts : List Token}
    (h : r.take eof t (ts.head?.map (·.kind)) = .ok r') :
    r.takeAll eof (t :: ts) = r'.takeAll eof ts := by
  rw [takeAll, h]
  rfl

theorem closeCall_of_fits {l : Level} {ops : List Expr} {ps : List Pending} (h : l.Fits ps) :
    Stacks.closeCall ⟨ops, ps⟩ = .ok ⟨ops, ps⟩ := by
  match ps with
  | [] | .paren _ :: _ | .operator _ _ :: _ => rfl
  | .func _ _ _ :: _ => exact False.elim h

/-- Reading the tokens of a phrase on top of fitting stacks leaves the phrase
there, with its last operators deferred. -/
def Reads {l : Level} (p : Phrase l) : Prop :=
  ∀ (eof : Span) (ops : List Expr) (ps : List Pending) (rest : List Token), l.Fits ps →
    ∃ s : Stacks, takeAll ⟨⟨ops, ps⟩, true⟩ eof (p.tokens ++ rest) = takeAll ⟨s, false⟩ eof rest ∧
      s.Deferred l p.tree ops ps

theorem Reads.operator {l r : Level} {lhs : Phrase l} {rhs : Phrase r} {t : Token}
    {op : Operator} (ht : t.kind = .operator op) (hl : l.rank ≤ op.leftLevel.rank)
    (hr : r.rank ≤ op.rightLevel.rank) (hlhs : Reads lhs) (hrhs : Reads rhs) (eof : Span)
    (ops : List Expr) (ps : List Pending) (rest : List Token) (hfits : op.level.Fits ps)
    (hlfits : l.Fits ps) :
    ∃ s : Stacks, takeAll ⟨⟨ops, ps⟩, true⟩ eof (lhs.tokens ++ t :: rhs.tokens ++ rest) =
        takeAll ⟨s, false⟩ eof rest ∧
      s.Deferred op.level (.binary op lhs.tree rhs.tree) ops ps := by
  obtain ⟨s, hs, hdef⟩ := hlhs eof ops ps (t :: (rhs.tokens ++ rest)) hlfits
  obtain ⟨s', hs', hdef'⟩ := hrhs eof (lhs.tree :: ops) (.operator op t.span :: ps) rest hr
  have hlevel : r.rank ≤ op.level.rank := by
    refine Nat.le_trans hr ?_
    cases op <;> decide
  refine ⟨s', ?_, hdef'.operator hlevel⟩
  rw [List.append_assoc, List.cons_append, hs,
    takeAll_cons (take_operator ht eof _ (hdef.yieldsTo hl hfits)), hs']

theorem reads_group {inside : Phrase .sum} {o c : Token} (ho : o.kind = .openParen)
    (hc : c.kind = .closeParen) (ih : Reads inside) (eof : Span) (ops : List Expr)
    (ps : List Pending) (rest : List Token) {closed : Stacks}
    (hclose : Stacks.closeCall ⟨inside.tree :: ops, ps⟩ = .ok closed) :
    takeAll ⟨⟨ops, ps⟩, true⟩ eof (o :: (inside.tokens ++ [c]) ++ rest) =
      takeAll ⟨closed, false⟩ eof rest := by
  obtain ⟨s, hs, hdef⟩ := ih eof ops (.paren o.span :: ps) (c :: rest) trivial
  have hm := hdef.toParen.trans (Stacks.mergeWhile_stop rfl)
  rw [List.cons_append, takeAll_cons (take_openParen ho _ eof _), List.append_assoc,
    List.singleton_append, hs, takeAll_cons (take_closeParen hc eof _ hm hclose)]

theorem reads {l : Level} (p : Phrase l) : Reads p := by
  induction p with
  | operand t l ht =>
      intro eof ops ps rest _
      exact ⟨_, takeAll_cons (take_operand ht _ eof _), Stacks.Deferred.complete _ _ _ _⟩
  | group o p c ho hc ih =>
      intro eof ops ps rest hfits
      exact ⟨_, reads_group ho hc ih eof ops ps rest (closeCall_of_fits hfits),
        Stacks.Deferred.complete _ _ _ _⟩
  | call n f o p c hn ho hc ih =>
      intro eof ops ps rest hfits
      have hup : ((o :: (p.tokens ++ [c] ++ rest)).head?.map (·.kind)) = some .openParen := by
        simp [ho]
      refine ⟨⟨.call f.coefficient f.func p.tree :: ops, ps⟩, ?_,
        Stacks.Deferred.complete _ _ _ _⟩
      have hclose : Stacks.closeCall ⟨p.tree :: ops, .func f n.lexeme n.span :: ps⟩ =
          .ok ⟨.call f.coefficient f.func p.tree :: ops, ps⟩ := rfl
      rw [← reads_group ho hc ih eof ops _ rest hclose]
      exact takeAll_cons (hup ▸ take_call hn _ eof)
  | ofAtom a ih =>
      intro eof ops ps rest hfits
      obtain ⟨s, hs, hdef⟩ := ih eof ops ps rest (hfits.mono (by decide))
      exact ⟨s, hs, hdef.mono (by decide)⟩
  | raise a t e ht iha ihe =>
      intro eof ops ps rest hfits
      exact iha.operator ht (by decide) (by decide) ihe eof ops ps rest hfits hfits.atom
  | ofPower a ih =>
      intro eof ops ps rest hfits
      obtain ⟨s, hs, hdef⟩ := ih eof ops ps rest (hfits.mono (by decide))
      exact ⟨s, hs, hdef.mono (by decide)⟩
  | multiply a op t e hop ht iha ihe =>
      intro eof ops ps rest hfits
      have hlevel : op.level = .product := by rcases hop with rfl | rfl <;> rfl
      have h := iha.operator ht (by rcases hop with rfl | rfl <;> decide)
        (by rcases hop with rfl | rfl <;> decide) ihe eof ops ps rest (hlevel ▸ hfits) hfits
      rwa [hlevel] at h
  | ofProduct a ih =>
      intro eof ops ps rest hfits
      obtain ⟨s, hs, hdef⟩ := ih eof ops ps rest (hfits.mono (by decide))
      exact ⟨s, hs, hdef.mono (by decide)⟩
  | add a op t e hop ht iha ihe =>
      intro eof ops ps rest hfits
      have hlevel : op.level = .sum := by rcases hop with rfl | rfl <;> rfl
      have h := iha.operator ht (by rcases hop with rfl | rfl <;> decide)
        (by rcases hop with rfl | rfl <;> decide) ihe eof ops ps rest (hlevel ▸ hfits) hfits
      rwa [hlevel] at h

/-! ## The tokens at the front -/

/-- Takes tokens, none of them blank, that others stand behind. -/
def takeFront (r : Reading) (eof : Span) (after : List Token) :
    List Token → Except (Located Fault) Reading
  | [] => .ok r
  | t :: ts => do
    let r ← r.take eof t ((ts ++ after).head?.map (·.kind))
    r.takeFront eof after ts

theorem takeAll_eq_takeFront (r : Reading) (eof : Span) (ts : List Token) :
    r.takeAll eof ts = r.takeFront eof [] ts := by
  induction ts generalizing r with
  | nil => rfl
  | cons t ts ih =>
      simp only [takeAll, takeFront, List.append_nil, ih]

/-! ## Everything that is read is a phrase -/

/-- What a token that is not blank can do to a reading. -/
inductive Takes : Reading → Token → Option Kind → Reading → Prop
  | leaf {s : Stacks} {t : Token} {l : Leaf} {upcoming : Option Kind}
      (h : t.operand? = some l) :
      Takes ⟨s, true⟩ t upcoming ⟨⟨.leaf l :: s.operands, s.pending⟩, false⟩
  | call {s : Stacks} {t : Token} {c : CallName} (h : t.call? = some c) :
      Takes ⟨s, true⟩ t (some .openParen)
        ⟨⟨s.operands, .func c t.lexeme t.span :: s.pending⟩, true⟩
  | opening {s : Stacks} {t : Token} {upcoming : Option Kind} (h : t.kind = .openParen) :
      Takes ⟨s, true⟩ t upcoming ⟨⟨s.operands, .paren t.span :: s.pending⟩, true⟩
  | closing {s : Stacks} {t : Token} {upcoming : Option Kind} {ops : List Expr} {span : Span}
      {ps : List Pending} {closed : Stacks} (h : t.kind = .closeParen)
      (hm : Stacks.mergeWhile (fun p => !p.isParen) s.operands s.pending =
        .ok ⟨ops, .paren span :: ps⟩)
      (hc : Stacks.closeCall ⟨ops, ps⟩ = .ok closed) :
      Takes ⟨s, false⟩ t upcoming ⟨closed, false⟩
  | operator {s s' : Stacks} {t : Token} {op : Operator} {upcoming : Option Kind}
      (h : t.kind = .operator op)
      (hm : Stacks.mergeWhile (Pending.yieldsTo op) s.operands s.pending = .ok s') :
      Takes ⟨s, false⟩ t upcoming
        ⟨⟨s'.operands, .operator op t.span :: s'.pending⟩, true⟩

theorem mergeWhile_top {q : Pending → Bool} {ops : List Expr} {ps : List Pending} {s : Stacks}
    (h : Stacks.mergeWhile q ops ps = .ok s) :
    ∀ top rest, s.pending = top :: rest → q top = false := by
  induction ps generalizing ops with
  | nil =>
      intro top rest htop
      cases h
      cases htop
  | cons p ps ih =>
      rw [Stacks.mergeWhile] at h
      split at h
      · cases hm : p.merge ops with
        | error f => rw [hm] at h; cases h
        | ok ops' => rw [hm] at h; exact ih h
      · next hp =>
          intro top rest htop
          cases h
          cases htop
          simpa using hp

/-- Merging back to a parenthesis ends at one, or at the bottom of the stack. -/
theorem mergeWhile_paren_cases {ops : List Expr} {ps : List Pending} {s : Stacks}
    (h : Stacks.mergeWhile (fun p => !p.isParen) ops ps = .ok s) :
    s.pending = [] ∨ ∃ span rest, s.pending = .paren span :: rest := by
  have htop := mergeWhile_top h
  cases hp : s.pending with
  | nil => exact Or.inl rfl
  | cons top rest =>
      cases top with
      | paren span => exact Or.inr ⟨span, rest, rfl⟩
      | operator op span | func call name span => cases htop _ rest hp

theorem takes_of_takeLeaf {r r' : Reading} {t : Token} {upcoming : Option Kind}
    (hop : t.operand? = t.leaf?) (h : r.takeLeaf t = .ok r') : Takes r t upcoming r' := by
  obtain ⟨s, expects⟩ := r
  rw [takeLeaf] at h
  split at h
  · cases h
  · next l hl =>
      cases expects with
      | false => cases h
      | true =>
          cases h
          exact .leaf (hop.trans hl)

theorem takes_of_takeClose {r r' : Reading} {eof : Span} {t : Token} {upcoming : Option Kind}
    (ht : t.kind = .closeParen) (h : r.takeClose eof t = .ok r') : Takes r t upcoming r' := by
  obtain ⟨s, expects⟩ := r
  cases expects with
  | true => cases h
  | false =>
      simp only [takeClose, Bool.false_eq_true, if_false] at h
      cases hm : Stacks.mergeWhile (fun p => !p.isParen) s.operands s.pending with
      | error f => rw [hm] at h; cases h
      | ok merged =>
          obtain ⟨ops, pending⟩ := merged
          rw [hm] at h
          rcases mergeWhile_paren_cases hm with rfl | ⟨span, ps, rfl⟩
          · cases h
          · simp only [bind, Except.bind] at h
            cases hc : Stacks.closeCall ⟨ops, ps⟩ with
            | error f => rw [hc] at h; cases h
            | ok closed =>
                rw [hc] at h
                cases h
                exact .closing ht hm hc

theorem takes_of_takeOperator {r r' : Reading} {t : Token} {op : Operator}
    {upcoming : Option Kind} (ht : t.kind = .operator op) (h : r.takeOperator t op = .ok r') :
    Takes r t upcoming r' := by
  obtain ⟨s, expects⟩ := r
  cases expects with
  | true => cases h
  | false =>
      simp only [takeOperator, Bool.false_eq_true, if_false] at h
      cases hm : Stacks.mergeWhile (Pending.yieldsTo op) s.operands s.pending with
      | error f => rw [hm] at h; cases h
      | ok merged =>
          rw [hm] at h
          cases h
          exact .operator ht hm

theorem takes_of_takeCall {r r' : Reading} {t : Token} {c : CallName} {upcoming : Option Kind}
    (hc : t.call? = some c) (h : r.takeCall t c upcoming = .ok r') : Takes r t upcoming r' := by
  obtain ⟨s, expects⟩ := r
  cases expects with
  | false => cases h
  | true =>
      simp only [takeCall, Bool.not_true, Bool.false_eq_true, if_false] at h
      split at h
      · cases h
      · next hup =>
          cases h
          rw [Decidable.not_not.mp hup]
          exact .call hc

/-- Taking a token that is not blank succeeds in five ways and no other. -/
theorem take_eq_ok_iff {r r' : Reading} {eof : Span} {t : Token} {upcoming : Option Kind}
    (hb : t.kind ≠ .blank) : r.take eof t upcoming = .ok r' ↔ Takes r t upcoming r' := by
  constructor
  · intro h
    rw [take] at h
    split at h
    · cases h
    · next hrange =>
        have hrange : t.isOutOfRange = false := by simpa using hrange
        split at h
        · next hk =>
            exact takes_of_takeLeaf
              (operand?_eq_leaf? (Or.inl hk) hrange (by simp only [call?, hk])) h
        · next hk =>
            exact takes_of_takeLeaf
              (operand?_eq_leaf? (Or.inr (Or.inl hk)) hrange (by simp only [call?, hk])) h
        · next hk =>
            split at h
            · next c hc => exact takes_of_takeCall (by simp only [call?, hk, hc]) h
            · next hc =>
                exact takes_of_takeLeaf (operand?_eq_leaf? (Or.inr (Or.inr hk)) hrange
                  (by simp only [call?, hk, hc])) h
        · next hk =>
            obtain ⟨s, expects⟩ := r
            cases expects with
            | false => cases h
            | true =>
                cases h
                exact .opening hk
        · next hk => exact takes_of_takeClose hk h
        · next op hk => exact takes_of_takeOperator hk h
        · cases h
        · next hk => exact absurd hk hb
  · intro h
    cases h with
    | leaf h => exact take_operand h _ _ _
    | call h => exact take_call h _ _
    | opening h => exact take_openParen h _ _ _
    | closing h hm hc => exact take_closeParen h _ _ hm hc
    | operator h hm => exact take_operator h _ _ hm

/-- The tokens of a reading that expects an operand, and its stacks: what the
operators that wait have in front of them are phrases of their left levels. -/
inductive Opened : List Token → List Expr → List Pending → Prop
  | start : Opened [] [] []
  | operator {ts : List Token} {ops : List Expr} {ps : List Pending} {op : Operator} {t : Token}
      (h : Opened ts ops ps) (hfits : op.level.Fits ps) (lhs : Phrase op.leftLevel)
      (ht : t.kind = .operator op) :
      Opened (ts ++ (lhs.tokens ++ [t])) (lhs.tree :: ops) (.operator op t.span :: ps)
  | func {ts : List Token} {ops : List Expr} {ps : List Pending} {t : Token} {c : CallName}
      (h : Opened ts ops ps) (hfits : Level.atom.Fits ps) (ht : t.call? = some c) :
      Opened (ts ++ [t]) ops (.func c t.lexeme t.span :: ps)
  | paren {ts : List Token} {ops : List Expr} {ps : List Pending} {t : Token}
      (h : Opened ts ops ps) (ht : t.kind = .openParen) :
      Opened (ts ++ [t]) ops (.paren t.span :: ps)

/-- Every operator that waits has one operand, the phrase in front of it. -/
theorem Opened.length_eq {ts : List Token} {ops : List Expr} {ps : List Pending}
    (h : Opened ts ops ps) : ops.length = ps.countP Pending.isOperator := by
  induction h with
  | start => rfl
  | operator h hfits lhs ht ih =>
      rw [List.length_cons, ih, List.countP_cons_of_pos rfl]
  | func h hfits ht ih => rw [ih, List.countP_cons_of_neg (by simp [Pending.isOperator])]
  | paren h ht ih => rw [ih, List.countP_cons_of_neg (by simp [Pending.isOperator])]

/-- The tokens of a reading, and its stacks, with a phrase on top of the operands
that fits on what waits. -/
def Holds (bound : Level) (ts : List Token) (s : Stacks) : Prop :=
  ∃ (ts' : List Token) (ops : List Expr) (l : Level) (p : Phrase l),
    Opened ts' ops s.pending ∧ l.Fits s.pending ∧ l.rank ≤ bound.rank ∧
      ts = ts' ++ p.tokens ∧ s.operands = p.tree :: ops

theorem Holds.mono {l l' : Level} {ts : List Token} {s : Stacks} (h : Holds l ts s)
    (hle : l.rank ≤ l'.rank) : Holds l' ts s := by
  obtain ⟨ts', ops, m, p, hopen, hfits, hm, hts, hops⟩ := h
  exact ⟨ts', ops, m, p, hopen, hfits, Nat.le_trans hm hle, hts, hops⟩

/-- Merging makes phrases of phrases: of an operator, the phrase in front of it
and the one that is complete behind it. Nothing it makes is looser than the
operators that take part. -/
theorem Holds.mergeWhile {q : Pending → Bool} (hq : ∀ span, q (.paren span) = false)
    {bound : Level}
    (hbound : ∀ op span, q (.operator op span) = true → op.level.rank ≤ bound.rank)
    {ts : List Token} {s s' : Stacks} (h : Holds bound ts s)
    (hm : Stacks.mergeWhile q s.operands s.pending = .ok s') : Holds bound ts s' := by
  obtain ⟨ts', ops, l, p, hopen, hfits, hle, hts, hops⟩ := h
  obtain ⟨operands, pending⟩ := s
  simp only at hopen hfits hops hm
  subst hops hts
  induction hopen generalizing l with
  | start =>
      cases hm
      exact ⟨_, _, l, p, .start, trivial, hle, rfl, rfl⟩
  | @operator ts₀ ops₀ ps₀ op t hopen hfits₀ lhs ht ih =>
      cases hqt : q (.operator op t.span) with
      | false =>
          rw [Stacks.mergeWhile_stop hqt] at hm
          cases hm
          exact ⟨_, _, l, p, .operator hopen hfits₀ lhs ht, hfits, hle, rfl, rfl⟩
      | true =>
          rw [Stacks.mergeWhile_operator hqt] at hm
          obtain ⟨rhs, hrtok, hrtree⟩ := p.exists_of_rank_le hfits
          obtain ⟨whole, hwtok, hwtree⟩ := Phrase.exists_binary lhs ht rhs
          rw [← hrtree, ← hwtree] at hm
          have := ih op.level whole (hbound op _ hqt) hfits₀ hm
          rw [hwtok, hrtok] at this
          simpa only [List.append_assoc, List.singleton_append, List.cons_append,
            List.nil_append] using this
  | func hopen hfits₀ ht ih => exact False.elim hfits
  | paren hopen ht ih =>
      rw [Stacks.mergeWhile_stop (hq _)] at hm
      cases hm
      exact ⟨_, _, l, p, .paren hopen ht, trivial, hle, rfl, rfl⟩

theorem Holds.length_eq {bound : Level} {ts : List Token} {s : Stacks} (h : Holds bound ts s) :
    s.operands.length = s.pending.countP Pending.isOperator + 1 := by
  obtain ⟨ts', ops, l, p, hopen, -, -, -, hops⟩ := h
  rw [hops, List.length_cons, hopen.length_eq]

/-- All that waits and has to be merged finds its operands. -/
theorem Holds.exists_mergeWhile {q : Pending → Bool} (hq : ∀ span, q (.paren span) = false)
    {bound : Level} {ts : List Token} {s : Stacks} (h : Holds bound ts s) :
    ∃ s', Stacks.mergeWhile q s.operands s.pending = .ok s' := by
  obtain ⟨s', hs', -⟩ := Stacks.exists_mergeWhile_of_length hq h.length_eq
  exact ⟨s', hs'⟩

/-- A closing parenthesis and the end of the text merge every operator. -/
theorem Holds.toParen {ts : List Token} {s s' : Stacks} (h : Holds .atom ts s)
    (hm : Stacks.mergeWhile (fun p => !p.isParen) s.operands s.pending = .ok s') :
    Holds .sum ts s' :=
  (h.mono (Nat.zero_le _)).mergeWhile (fun _ => rfl) (fun op _ _ => by cases op <;> decide) hm

/-- An operator merges what yields to it, and then has a phrase of its left level
in front of it. -/
theorem Holds.operator {ts : List Token} {s s' : Stacks} {t : Token} {op : Operator}
    (h : Holds .atom ts s) (ht : t.kind = .operator op)
    (hm : Stacks.mergeWhile (Pending.yieldsTo op) s.operands s.pending = .ok s') :
    Opened (ts ++ [t]) s'.operands (.operator op t.span :: s'.pending) := by
  have hheld : Holds op.leftLevel ts s' :=
    (h.mono (Nat.zero_le _)).mergeWhile (fun _ => rfl)
      (fun first _ hy => Operator.level_le_leftLevel_of_before (of_decide_eq_true hy)) hm
  obtain ⟨ts', ops, l, p, hopen, hfits, hle, rfl, hops⟩ := hheld
  obtain ⟨lhs, htok, htree⟩ := p.exists_of_rank_le hle
  have hlevel : op.level.Fits s'.pending := by
    have htop := mergeWhile_top hm
    match hp : s'.pending with
    | [] | .paren _ :: _ => exact trivial
    | .func _ _ _ :: _ => exact False.elim (hp ▸ hfits : l.Fits (.func _ _ _ :: _))
    | .operator first _ :: _ =>
        exact Operator.level_le_rightLevel_of_not_before (of_decide_eq_false (htop _ _ hp))
  rw [hops, ← htree, ← htok, List.append_assoc]
  exact .operator hopen hlevel lhs ht

/-- A closing parenthesis makes an atom of the phrase inside, with the function in
front of the parenthesis if there is one. -/
theorem Holds.closing {ts : List Token} {ops : List Expr} {span : Span} {ps : List Pending}
    {t : Token} {closed : Stacks} (h : Holds .sum ts ⟨ops, .paren span :: ps⟩)
    (ht : t.kind = .closeParen) (hc : Stacks.closeCall ⟨ops, ps⟩ = .ok closed) :
    Holds .atom (ts ++ [t]) closed := by
  obtain ⟨ts', ops', l, p, hopen, -, hle, rfl, rfl⟩ := h
  obtain ⟨inside, htok, htree⟩ := p.exists_of_rank_le hle
  rw [← htok]
  rw [← htree] at hc
  cases hopen with
  | @paren ts₀ _ _ o hopen ho =>
      by_cases hfits : Level.atom.Fits ps
      · rw [closeCall_of_fits hfits] at hc
        cases hc
        exact ⟨ts₀, ops', .atom, .group o inside t ho ht, hopen, hfits, Nat.le_refl _,
          by simp [Phrase.tokens], rfl⟩
      · cases hopen with
        | start => exact absurd trivial hfits
        | operator _ _ _ _ => exact absurd (Nat.zero_le _) hfits
        | paren _ _ => exact absurd trivial hfits
        | @func ts₁ _ ps₁ n c hopen hfits₁ hn =>
            cases hc
            exact ⟨ts₁, ops', .atom, .call n c o inside t hn ho ht, hopen, hfits₁,
              Nat.le_refl _, by simp [Phrase.tokens], rfl⟩

/-- The tokens a reading has taken, told by its stacks. -/
def Follows (ts : List Token) (r : Reading) : Prop :=
  if r.expectsOperand then Opened ts r.operands r.pending else Holds .atom ts r.toStacks

/-- A token keeps the stacks in step with the tokens, if a function that waits on
top finds its parenthesis, and leaves a function on top only in front of one. -/
theorem Follows.takes {ts : List Token} {r r' : Reading} {t : Token} {upcoming : Option Kind}
    (h : Follows ts r) (hfunc : ¬ Level.atom.Fits r.pending → t.kind = .openParen)
    (ht : Takes r t upcoming r') :
    Follows (ts ++ [t]) r' ∧ (¬ Level.atom.Fits r'.pending → upcoming = some .openParen) := by
  have hfits : t.kind ≠ .openParen → Level.atom.Fits r.pending :=
    fun hne => Classical.byContradiction fun hn => hne (hfunc hn)
  cases ht with
  | @leaf s t l upcoming hl =>
      have hs : Level.atom.Fits s.pending := by
        refine hfits fun ho => ?_
        rcases kind_of_operand? hl with hk | hk | hk <;> simp [hk] at ho
      exact ⟨⟨ts, s.operands, .atom, .operand t l hl, h, hs, Nat.le_refl _, rfl, rfl⟩,
        fun hn => absurd hs hn⟩
  | @call s t c hc =>
      have hs : Level.atom.Fits s.pending := hfits (by simp [kind_of_call? hc])
      exact ⟨.func h hs hc, fun _ => rfl⟩
  | opening ho => exact ⟨.paren h ho, fun hn => absurd trivial hn⟩
  | @closing s t upcoming ops span ps closed hk hm hc =>
      have hclosed : Holds .atom (ts ++ [t]) closed := (Holds.toParen h hm).closing hk hc
      obtain ⟨_, _, l, p, -, hl, -⟩ := id hclosed
      exact ⟨hclosed, fun hn => absurd hl.atom hn⟩
  | operator hk hm => exact ⟨Holds.operator h hk hm, fun hn => absurd (Nat.zero_le _) hn⟩

/-- What follows a function that waits on top is its parenthesis. -/
def FuncMeetsParen (r : Reading) (ts : List Token) : Prop :=
  ¬ Level.atom.Fits r.pending → ts.head?.map (·.kind) = some .openParen

theorem Follows.takeFront {ts us after : List Token} {r r' : Reading} {eof : Span}
    (h : Follows ts r) (hfunc : FuncMeetsParen r (us ++ after))
    (hb : ∀ u ∈ us, u.kind ≠ .blank) (hr : r.takeFront eof after us = .ok r') :
    Follows (ts ++ us) r' ∧ FuncMeetsParen r' after := by
  induction us generalizing ts r with
  | nil =>
      cases hr
      rw [List.append_nil]
      exact ⟨h, hfunc⟩
  | cons u us ih =>
      rw [Reading.takeFront] at hr
      cases hu : r.take eof u ((us ++ after).head?.map (·.kind)) with
      | error f => rw [hu] at hr; cases hr
      | ok r₁ =>
          rw [hu] at hr
          have htakes := (take_eq_ok_iff (hb u List.mem_cons_self)).mp hu
          obtain ⟨hnext, hmeets⟩ := h.takes (fun hn => by simpa using hfunc hn) htakes
          have := ih hnext hmeets (fun x hx => hb x (List.mem_cons_of_mem u hx)) hr
          rwa [List.append_assoc, List.singleton_append] at this

theorem follows_start : Follows [] start := .start

theorem follows_and_meets_visible {eof : Span} {after ts : List Token} {r : Reading}
    (h : start.takeFront eof after (visible ts) = .ok r) :
    Follows (visible ts) r ∧ FuncMeetsParen r after :=
  follows_start.takeFront (fun hn => absurd trivial hn) (fun _ => kind_ne_blank_of_mem_visible) h

theorem follows_visible {eof : Span} {after ts : List Token} {r : Reading}
    (h : start.takeFront eof after (visible ts) = .ok r) : Follows (visible ts) r :=
  (follows_and_meets_visible h).1

/-- Behind a complete operand, the end finds a phrase, or a parenthesis still open. -/
theorem Holds.finish_cases {ts : List Token} {s : Stacks} (h : Holds .atom ts s) (eof : Span) :
    (∃ span, finish ⟨s, false⟩ eof = .error ⟨.unclosedParenthesis, span⟩) ∨
      ∃ p : Phrase .sum, p.tokens = ts ∧ finish ⟨s, false⟩ eof = .ok p.tree := by
  obtain ⟨⟨operands, pending⟩, hm⟩ :=
    Holds.exists_mergeWhile (q := fun p => !p.isParen) (fun _ => rfl) h
  obtain ⟨ts', ops, l, p, hopen, -, hle, rfl, hops⟩ := Holds.toParen h hm
  obtain ⟨p', htok, htree⟩ := p.exists_of_rank_le hle
  simp only at hopen hops
  subst hops
  simp only [Reading.finish, Bool.false_eq_true, if_false, hm, bind, Except.bind]
  rcases mergeWhile_paren_cases hm with rfl | ⟨span, rest, rfl⟩
  · cases hopen
    rw [← htree]
    exact Or.inr ⟨p', htok, rfl⟩
  · exact Or.inl ⟨span, rfl⟩

/-- What may come of a reading at the end: an operand is missing, or a parenthesis
is still open, or a phrase has been read. -/
theorem Follows.finish_cases {ts : List Token} {r : Reading} (h : Follows ts r) (eof : Span) :
    r.finish eof = .error (Pending.missing eof r.pending) ∨
      (∃ span, r.finish eof = .error ⟨.unclosedParenthesis, span⟩) ∨
      ∃ p : Phrase .sum, p.tokens = ts ∧ r.finish eof = .ok p.tree := by
  obtain ⟨s, expects⟩ := r
  cases expects with
  | true => exact Or.inl rfl
  | false => exact Or.inr (Holds.finish_cases h eof)

end Reading

/-- That there are no tokens is found out at the end at the latest. -/
theorem Expr.ofTokens_eq (ts : List Token) :
    ofTokens ts = (Reading.start.takeFront (Token.endSpan ts) [] (Token.visible ts)).bind
      fun r => r.finish (Token.endSpan ts) := by
  rw [← Reading.takeAll_eq_takeFront, ofTokens]
  split
  · next hnil =>
      rw [hnil]
      rfl
  · rfl

/-- The reader reads what the grammar derives, as what it derives. -/
theorem Expr.ofTokens_eq_ok {ts : List Token} {e : Expr} :
    ofTokens ts = .ok e ↔ ∃ p : Phrase .sum, p.tokens = Token.visible ts ∧ p.tree = e := by
  rw [ofTokens_eq]
  constructor
  · intro h
    cases hr : Reading.start.takeFront (Token.endSpan ts) [] (Token.visible ts) with
    | error f => rw [hr] at h; cases h
    | ok r =>
        rw [hr, Except.bind] at h
        have hfollows := Reading.follows_visible hr
        rcases hfollows.finish_cases (Token.endSpan ts) with hf | ⟨span, hf⟩ | ⟨p, htok, hf⟩
        · rw [hf] at h
          cases h
        · rw [hf] at h
          cases h
        · rw [hf] at h
          cases h
          exact ⟨p, htok, rfl⟩
  · rintro ⟨p, htok, rfl⟩
    obtain ⟨s, hs, hdef⟩ := Reading.reads p (Token.endSpan ts) [] [] [] trivial
    rw [List.append_nil, htok] at hs
    have hm := hdef.toParen
    rw [← Reading.takeAll_eq_takeFront, show Reading.start = ⟨⟨[], []⟩, true⟩ from rfl, hs]
    simp only [Except.bind, Reading.takeAll, Reading.finish, hm]
    rfl

/-- A list of tokens is read exactly if its tokens that are not blank have a
derivation as a sum. There is then only one, and its expression is what is read;
anything else is a fault. -/
theorem Expr.ofTokens_eq_ok_iff_unique_phrase (ts : List Token) :
    (∀ e, ofTokens ts = .ok e ↔
      ∃ p : Phrase .sum, p.tokens = Token.visible ts ∧ p.tree = e ∧
        ∀ q : Phrase .sum, q.tokens = Token.visible ts → q = p) ∧
    ((∃ fault, ofTokens ts = .error fault) ↔
      ∀ p : Phrase .sum, p.tokens ≠ Token.visible ts) := by
  constructor
  · intro e
    rw [ofTokens_eq_ok]
    constructor
    · rintro ⟨p, htok, htree⟩
      exact ⟨p, htok, htree, fun q hq => q.eq_of_tokens_eq p (hq.trans htok.symm)⟩
    · rintro ⟨p, htok, htree, -⟩
      exact ⟨p, htok, htree⟩
  · constructor
    · rintro ⟨fault, hfault⟩ p htok
      have hok : ofTokens ts = .ok p.tree := ofTokens_eq_ok.mpr ⟨p, htok, rfl⟩
      rw [hfault] at hok
      cases hok
    · intro hnone
      cases h : ofTokens ts with
      | error fault => exact ⟨fault, rfl⟩
      | ok e =>
          obtain ⟨p, htok, -⟩ := ofTokens_eq_ok.mp h
          exact absurd htok (hnone p)

end Fluxion
