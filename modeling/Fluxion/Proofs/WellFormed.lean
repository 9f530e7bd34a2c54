import Fluxion.Expr.Printer
import Fluxion.Proofs.Lexing
import Fluxion.Proofs.ReaderGrammar

/-!
# Well-formed expressions

The expressions that have a text to be read from: their numbers are finite, the
base of a logarithm is a constant or a number that is not negative, and their
variables have letters that a variable can have. A name has room for only one
minus, in front of its coefficient, which is why a base has none.

Reading never leaves these expressions, `Expr.wellFormed_of_read`. Where a token
becomes part of an expression its numbers have been checked; what needs an
argument is the base, whose text stands inside a name.
-/

namespace Fluxion

/-- A base that can be written inside a name. -/
def Base.WellFormed : Base → Prop
  | number n => n.isFinite = true ∧ 0 ≤ n
  | constant _ => True

def Func.WellFormed : Func → Prop
  | log (some base) => base.WellFormed
  | _ => True

def Leaf.WellFormed : Leaf → Prop
  | number n => n.isFinite = true
  | constant _ => True
  | var coefficient name => coefficient.all Float.isFinite = true ∧ isVariableName name = true
  | leibniz of wrt => of.isAlpha = true ∧ wrt.isAlpha = true

/-- An expression that can be written and read. -/
def Expr.WellFormed : Expr → Prop
  | leaf l => l.WellFormed
  | call coefficient func arg =>
    coefficient.all Float.isFinite = true ∧ func.WellFormed ∧ arg.WellFormed
  | binary _ lhs rhs => lhs.WellFormed ∧ rhs.WellFormed

instance : DecidablePred Base.WellFormed := fun base =>
  match base with
  | .number n => inferInstanceAs (Decidable (n.isFinite = true ∧ 0 ≤ n))
  | .constant _ => inferInstanceAs (Decidable True)

instance : DecidablePred Func.WellFormed := fun func =>
  match func with
  | .log (some base) => inferInstanceAs (Decidable base.WellFormed)
  | .log none | .abs | .sin | .cos | .tan | .sec | .csc | .cot | .arcsin | .arccos | .arctan
  | .arcsec | .arccsc | .arccot | .ln => inferInstanceAs (Decidable True)

instance : DecidablePred Leaf.WellFormed := fun leaf =>
  match leaf with
  | .number n => inferInstanceAs (Decidable (n.isFinite = true))
  | .constant _ => inferInstanceAs (Decidable True)
  | .var c name =>
    inferInstanceAs (Decidable (c.all Float.isFinite = true ∧ Leaf.isVariableName name = true))
  | .leibniz of wrt => inferInstanceAs (Decidable (of.isAlpha = true ∧ wrt.isAlpha = true))

/-- Well-formedness can be checked. -/
def Expr.decideWellFormed : (e : Expr) → Decidable e.WellFormed
  | leaf l => inferInstanceAs (Decidable l.WellFormed)
  | call c f arg =>
    have := decideWellFormed arg
    inferInstanceAs (Decidable (c.all Float.isFinite = true ∧ f.WellFormed ∧ arg.WellFormed))
  | binary _ lhs rhs =>
    have := decideWellFormed lhs
    have := decideWellFormed rhs
    inferInstanceAs (Decidable (lhs.WellFormed ∧ rhs.WellFormed))

instance : DecidablePred Expr.WellFormed :=
  Expr.decideWellFormed

/-! ## Names that are read -/

namespace Decimal

/-- What has no minus in front reads as no number below zero. -/
theorem zero_le_of_read? {cs : List Char} {n : Float} (h : read? cs = some n)
    (hfin : n.isFinite = true) (hminus : '-' ∉ cs) : 0 ≤ n := by
  have hmag : ∀ {cs : List Char}, magnitude? cs = some n → 0 ≤ n := by
    intro cs h
    rw [magnitude?, Option.or_eq_some_iff] at h
    rcases h with h | ⟨-, h⟩
    · rw [word?] at h
      split at h <;> cases h <;> cases hfin
    · simp only [unsigned?] at h
      split at h
      · cases h
      · obtain ⟨e, -, rfl⟩ := Option.map_eq_some_iff.mp h
        exact zero_le_nearest hfin
  unfold read? at h
  split at h
  · exact absurd List.mem_cons_self hminus
  · exact hmag h
  · exact hmag h

end Decimal

theorem Base.wellFormed_of_ofText? {cs : List Char} {base : Base} (h : ofText? cs = some base)
    (hminus : '-' ∉ cs) : base.WellFormed := by
  rw [ofText?] at h
  split at h
  · cases h
    trivial
  · obtain ⟨n, hn, rfl⟩ := Option.map_eq_some_iff.mp h
    obtain ⟨hread, hfin⟩ := Option.filter_eq_some_iff.mp hn
    exact ⟨hfin, Decimal.zero_le_of_read? hread hfin hminus⟩

theorem Func.wellFormed_of_mem_plain {f : Func} (h : f ∈ plain) : f.WellFormed := by
  match f with
  | log (some base) => exact absurd h (by simp [plain])
  | log none | abs | sin | cos | tan | sec | csc | cot | arcsin | arccos | arctan
  | arcsec | arccsc | arccot | ln => trivial

theorem Func.wellFormed_of_ofName? {cs : List Char} {f : Func} (h : ofName? cs = some f)
    (hminus : '-' ∉ cs) : f.WellFormed := by
  rw [ofName?, Option.or_eq_some_iff] at h
  rcases h with h | ⟨-, h⟩
  · exact wellFormed_of_mem_plain (List.mem_of_find?_eq_some h)
  · unfold logarithm? at h
    split at h
    · cases h
      trivial
    · next base =>
        obtain ⟨b, hb, rfl⟩ := Option.map_eq_some_iff.mp h
        exact Base.wellFormed_of_ofText? hb fun hm => hminus (by simp [hm])
    · cases h

namespace SplitName

theorem rest_of_ofName? {name : List Char} {s : SplitName} (h : ofName? name = some s) :
    s.rest = (cut name).2 := by
  simp only [ofName?] at h
  split at h
  · cases h
    rfl
  · cases h
    rfl
  · obtain ⟨c, -, rfl⟩ := Option.map_eq_some_iff.mp h
    rfl

/-- Behind the coefficient, a name has no minus. -/
theorem no_minus_in_rest {name : List Char} {s : SplitName} (h : ofName? name = some s)
    (hminus : '-' ∉ name.tail) : '-' ∉ s.rest := by
  rw [rest_of_ofName? h]
  unfold cut
  split
  · next cs => exact fun hm => hminus ((List.dropWhile_suffix _).subset hm)
  · next hfirst =>
      intro hm
      have hmem : '-' ∈ name := (List.dropWhile_suffix _).subset hm
      match name with
      | c :: cs =>
          rcases List.mem_cons.mp hmem with rfl | hcs
          · exact hfirst cs rfl
          · exact hminus hcs

end SplitName

/-! ## Tokens that are read -/

namespace Token

/-- A name has no minus but in front. -/
def Tidy (t : Token) : Prop :=
  t.kind = .name → '-' ∉ t.lexeme.tail

theorem tidy_of_mem_scanFrom {offset : Nat} {cs : List Char} {t : Token}
    (h : t ∈ scanFrom offset cs) : t.Tidy := by
  refine forall_mem_scanFrom (fun cs span _ hname => ?_) offset cs t h
  have hname : (next cs).kind = .name := hname
  have hlen := length_next (by rw [hname]; decide : (next cs).kind ≠ .symbol)
  rw [hname] at hlen
  rw [hlen]
  exact no_minus_in_name cs

theorem tidy_of_unsign? {t minus rest : Token} (h : t.unsign? = some (minus, rest))
    (ht : t.Tidy) : minus.Tidy ∧ rest.Tidy := by
  rw [unsign?] at h
  split at h
  · next hkind hlex =>
      cases h
      exact ⟨fun hname => (by cases hname),
        fun hname => absurd (hkind.symm.trans hname) (by decide)⟩
  · next hkind hlex =>
      cases h
      refine ⟨fun hname => (by cases hname), fun hname hm => ht hname ?_⟩
      rw [hlex]
      exact List.mem_of_mem_tail hm
  · cases h

theorem tidy_of_mem_splitSigns {ts : List Token} (hts : ∀ t ∈ ts, t.Tidy) (afterOperand : Bool) :
    ∀ t ∈ splitSigns afterOperand ts, t.Tidy := by
  induction ts generalizing afterOperand with
  | nil =>
      intro t ht
      cases ht
  | cons t ts ih =>
      have hrest := ih fun u hu => hts u (List.mem_cons_of_mem t hu)
      have ht := hts t List.mem_cons_self
      rw [splitSigns.eq_def]
      simp only
      split
      · next minus rest hsplit =>
          obtain ⟨hminus, htail⟩ := tidy_of_unsign? hsplit ht
          intro u hu
          rcases List.mem_cons.mp hu with rfl | hu
          · exact hminus
          · rcases List.mem_cons.mp hu with rfl | hu
            · exact htail
            · exact hrest _ u hu
      · intro u hu
        rcases List.mem_cons.mp hu with rfl | hu
        · exact ht
        · exact hrest _ u hu

theorem tidy_of_mem_tokenize {cs : List Char} {t : Token} (h : t ∈ tokenize cs) : t.Tidy :=
  tidy_of_mem_splitSigns (fun _ => tidy_of_mem_scanFrom) false t h

theorem wellFormed_of_operand? {t : Token} {l : Leaf} (h : t.operand? = some l) :
    l.WellFormed := by
  rw [operand?] at h
  split at h
  · obtain ⟨n, hn, rfl⟩ := Option.map_eq_some_iff.mp h
    exact (Option.filter_eq_some_iff.mp hn).2
  · unfold Leaf.ofLeibniz? at h
    split at h
    · split at h
      · next halpha =>
          cases h
          exact Bool.and_eq_true_iff.mp halpha
      · cases h
    · cases h
  · split at h
    · cases h
    · rcases Leaf.ofName?_cases h with ⟨c, -, rfl⟩ | ⟨c, letter, hs, hv, rfl⟩
      · trivial
      · exact ⟨(SplitName.isFinite_of_ofFinite? hs).2, hv⟩
  · cases h

theorem wellFormed_of_call? {t : Token} {c : CallName} (h : t.call? = some c) (ht : t.Tidy) :
    c.coefficient.all Float.isFinite = true ∧ c.func.WellFormed := by
  rw [call?] at h
  split at h
  · next hkind =>
      obtain ⟨s, hs, hc, hf⟩ := CallName.exists_ofFinite? h
      obtain ⟨hname, hfin⟩ := SplitName.isFinite_of_ofFinite? hs
      rw [← hc]
      exact ⟨hfin, Func.wellFormed_of_ofName? hf (SplitName.no_minus_in_rest hname (ht hkind))⟩
  · cases h

end Token

theorem Phrase.wellFormed_tree {l : Level} (p : Phrase l) (h : ∀ t ∈ p.tokens, t.Tidy) :
    p.tree.WellFormed := by
  induction p with
  | operand t l ht => exact Token.wellFormed_of_operand? ht
  | group o p c ho hc ih => exact ih fun t ht => h t (by simp [tokens, ht])
  | call n f o p c hn ho hc ih =>
      obtain ⟨hfin, hfunc⟩ := Token.wellFormed_of_call? hn (h n (by simp [tokens]))
      exact ⟨hfin, hfunc, ih fun t ht => h t (by simp [tokens, ht])⟩
  | ofAtom a ih | ofPower p ih | ofProduct p ih => exact ih h
  | raise a t b ht iha ihb =>
      exact ⟨iha fun u hu => h u (by simp [tokens, hu]),
        ihb fun u hu => h u (by simp [tokens, hu])⟩
  | multiply a op t b hop ht iha ihb | add a op t b hop ht iha ihb =>
      exact ⟨iha fun u hu => h u (by simp [tokens, hu]),
        ihb fun u hu => h u (by simp [tokens, hu])⟩

/-- What is read can be written. -/
theorem Expr.wellFormed_of_read {cs : List Char} {e : Expr} (h : read cs = .ok e) :
    e.WellFormed := by
  obtain ⟨p, htok, rfl⟩ := ofTokens_eq_ok.mp h
  refine p.wellFormed_tree fun t ht => ?_
  rw [htok] at ht
  exact Token.tidy_of_mem_tokenize (List.mem_filter.mp ht).1

end Fluxion
