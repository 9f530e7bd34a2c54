import Fluxion.Proofs.Words

/-!
# Tokens tile the text

The tokens of a text lie side by side and cover it. Each of them is the part of
the text under its span, none is empty, and every span begins and ends between two
characters of the UTF-8 encoding. Cutting makes such tokens (`Token.cuts_scan`), and
taking one apart behind its minus keeps them so, because something is left behind
the minus and the minus is one byte long (`Token.Cuts.splitSigns`).

Signs are settled with a flag that is carried along. Told without the flag, every
token is settled on its own, by a look back at the nearest token in front of it that
is not blank (`Token.settle`). It makes no difference whether that token has lost
its own sign before it is looked at: `-2x` and `2x` are both operands, `-sin` and
`sin` both are not (`Token.endsOperand_unsigned`). So the look back may be at the
tokens as they were cut, and yet no signed token is left behind an operand among
those that come out.
-/

namespace Fluxion

/-! ## Parts of the encoding -/

namespace Text

theorem utf8ByteSize_ofList (cs : List Char) : (String.ofList cs).utf8ByteSize = byteLength cs := by
  induction cs with
  | nil => rfl
  | cons c cs ih => rw [String.ofList_cons, String.utf8ByteSize_append, ih]; simp

theorem isValid_byteLength (as bs : List Char) :
    String.Pos.Raw.IsValid (String.ofList (as ++ bs)) ⟨byteLength as⟩ := by
  refine String.Pos.Raw.isValid_iff_exists_append.mpr
    ⟨String.ofList as, String.ofList bs, String.ofList_append, ?_⟩
  rw [← utf8ByteSize_ofList]
  rfl

/-- The bytes in the middle of a text are those of the text in its middle. -/
theorem extract_toByteArray (as cs bs : List Char) :
    (String.ofList (as ++ cs ++ bs)).toByteArray.extract (byteLength as)
      (byteLength as + byteLength cs) = (String.ofList cs).toByteArray := by
  have hsize (ds : List Char) : byteLength ds = (String.ofList ds).toByteArray.size :=
    (utf8ByteSize_ofList ds).symm
  rw [String.ofList_append, String.ofList_append, String.toByteArray_append,
    String.toByteArray_append, ByteArray.append_assoc, hsize as, hsize cs]
  have hinner := ByteArray.extract_append_size_add (a := (String.ofList as).toByteArray)
    (b := (String.ofList cs).toByteArray ++ (String.ofList bs).toByteArray) (i := 0)
    (j := (String.ofList cs).toByteArray.size)
  rw [Nat.add_zero] at hinner
  rw [hinner, ByteArray.extract_append_eq_left rfl]

end Text

namespace Token

/-! ## Tokens side by side -/

/-- The tokens lie side by side, from one position to another. -/
def Adjacent : Nat → List Token → Nat → Prop
  | start, [], stop => start = stop
  | start, t :: ts, stop => t.span.start = start ∧ Adjacent t.span.stop ts stop

/-- A token is what stands in a text under its span, which is not empty and begins
and ends between two characters. -/
structure Covers (t : Token) (text : String) : Prop where
  start_lt_stop : t.span.start < t.span.stop
  isValid_start : String.Pos.Raw.IsValid text ⟨t.span.start⟩
  isValid_stop : String.Pos.Raw.IsValid text ⟨t.span.stop⟩
  slice : text.toByteArray.extract t.span.start t.span.stop =
    (String.ofList t.lexeme).toByteArray

/-- The text that begins at a position is cut into the tokens. -/
inductive Cuts : Nat → List Char → List Token → Prop where
  | nil (start : Nat) : Cuts start [] []
  | cons {start stop : Nat} {kind : Kind} {lexeme rest : List Char} {ts : List Token}
      (hne : lexeme ≠ []) (hstop : stop = start + Text.byteLength lexeme)
      (h : Cuts stop rest ts) : Cuts start (lexeme ++ rest) (⟨kind, ⟨start, stop⟩, lexeme⟩ :: ts)

theorem cuts_scan (start : Nat) (cs : List Char) : Cuts start cs (scanFrom start cs) := by
  induction start, cs using scanFrom.induct with
  | case1 start =>
      rw [scanFrom]
      exact .nil start
  | case2 start c rest m lexeme stop ih =>
      have hlexeme : lexeme ≠ [] := by
        have hpos : 0 < m.length := next_length_pos (c :: rest)
        simpa [lexeme] using Nat.ne_of_gt hpos
      have hcut : Cuts start _ (⟨m.kind, ⟨start, stop⟩, lexeme⟩ :: scanFrom stop _) :=
        .cons hlexeme rfl ih
      rw [List.take_append_drop] at hcut
      rw [scanFrom]
      exact hcut

theorem Cuts.adjacent {start : Nat} {cs : List Char} {ts : List Token} (h : Cuts start cs ts) :
    Adjacent start ts (start + Text.byteLength cs) := by
  induction h with
  | nil start => rfl
  | cons hne hstop h ih =>
      subst hstop
      rw [Text.byteLength_append, ← Nat.add_assoc]
      exact ⟨rfl, ih⟩

theorem Cuts.exists_of_mem {start : Nat} {cs : List Char} {ts : List Token} (h : Cuts start cs ts)
    {t : Token} (ht : t ∈ ts) : ∃ as bs, cs = as ++ t.lexeme ++ bs ∧ t.lexeme ≠ [] ∧
      t.span.start = start + Text.byteLength as ∧
      t.span.stop = start + Text.byteLength as + Text.byteLength t.lexeme := by
  induction h with
  | nil start => cases ht
  | @cons start stop kind lexeme rest ts hne hstop h ih =>
      rcases List.mem_cons.mp ht with rfl | ht
      · exact ⟨[], rest, rfl, hne, rfl, hstop⟩
      · obtain ⟨as, bs, rfl, hlexeme, hbegin, hend⟩ := ih ht
        refine ⟨lexeme ++ as, bs, by simp, hlexeme, ?_, ?_⟩
        · rw [hbegin, hstop, Text.byteLength_append, Nat.add_assoc]
        · rw [hend, hstop, Text.byteLength_append, Nat.add_assoc start]

theorem Cuts.covers {cs : List Char} {ts : List Token} (h : Cuts 0 cs ts) {t : Token}
    (ht : t ∈ ts) : t.Covers (String.ofList cs) := by
  obtain ⟨as, bs, rfl, hne, hstart, hstop⟩ := h.exists_of_mem ht
  rw [Nat.zero_add] at hstart hstop
  have hvalid := Text.isValid_byteLength (as ++ t.lexeme) bs
  obtain ⟨c, rest, hlexeme⟩ := List.exists_cons_of_ne_nil hne
  have hpos := c.utf8Size_pos
  constructor
  · rw [hstart, hstop, hlexeme, Text.byteLength_cons]
    omega
  · rw [hstart, List.append_assoc]
    exact Text.isValid_byteLength as (t.lexeme ++ bs)
  · rwa [Text.byteLength_append, ← hstop] at hvalid
  · rw [hstart, hstop]
    exact Text.extract_toByteArray as t.lexeme bs

theorem Cuts.single {t : Token} (hne : t.lexeme ≠ [])
    (hstop : t.span.stop = t.span.start + Text.byteLength t.lexeme) :
    Cuts t.span.start t.lexeme [t] := by
  have h : Cuts t.span.start (t.lexeme ++ []) [t] := .cons hne hstop (.nil t.span.stop)
  rwa [List.append_nil] at h

theorem Cuts.append {start : Nat} {cs ds : List Char} {ts us : List Token} (h : Cuts start cs ts)
    (h' : Cuts (start + Text.byteLength cs) ds us) : Cuts start (cs ++ ds) (ts ++ us) := by
  induction h with
  | nil start => exact h'
  | cons hne hstop h ih =>
      rw [Text.byteLength_append, ← Nat.add_assoc, ← hstop] at h'
      rw [List.append_assoc]
      exact .cons hne hstop (ih h')

/-! ## Signed tokens -/

/-- Whether a token is a number or a name with a minus in front. -/
def isSigned (t : Token) : Bool :=
  (t.kind == .number || t.kind == .name) && t.lexeme.head? == some '-'

theorem isSigned_iff {t : Token} : t.isSigned = true ↔
    (t.kind = .number ∨ t.kind = .name) ∧ ∃ rest, t.lexeme = '-' :: rest := by
  simp [isSigned, List.head?_eq_some_iff]

theorem unsign?_of_not_isSigned {t : Token} (h : t.isSigned = false) : t.unsign? = none := by
  rw [Option.eq_none_iff_forall_ne_some]
  rintro ⟨minus, rest⟩ hsome
  obtain ⟨hk, hl, -⟩ := minus_of_unsign? hsome
  rw [isSigned_iff.mpr ⟨hk, rest.lexeme, hl⟩] at h
  cases h

/-- Behind the minus of a token, if it is signed, stands a number or a name. -/
def WellSigned (t : Token) : Prop :=
  t.isSigned = true → IsUnsigned t.kind t.lexeme.tail

theorem WellSigned.isUnsigned {t : Token} {rest : List Char} (h : t.WellSigned)
    (hk : t.kind = .number ∨ t.kind = .name) (hl : t.lexeme = '-' :: rest) :
    IsUnsigned t.kind rest := by
  simpa [hl] using h (isSigned_iff.mpr ⟨hk, rest, hl⟩)

theorem wellSigned_of_mem_scan {cs : List Char} : ∀ t ∈ scan cs, t.WellSigned := by
  refine forall_mem_scanFrom (fun cs span _ hsigned => ?_) 0 cs
  obtain ⟨hk, rest, hl⟩ := isSigned_iff.mp hsigned
  simp only at hk hl ⊢
  rw [hl]
  exact isUnsigned_of_next hk hl

theorem scan_unsigned {kind : Kind} {cs : List Char} (h : IsUnsigned kind cs) :
    scan cs = [⟨kind, ⟨0, Text.byteLength cs⟩, cs⟩] := by
  have hnext : next (cs ++ []) = ⟨kind, cs.length⟩ := next_unsigned h trivial
  obtain ⟨c, rest, rfl, -⟩ := h.exists_cons
  rw [List.append_nil] at hnext
  rw [scan, scanFrom]
  simp only [hnext, List.take_length, List.drop_length, Nat.zero_add]
  rw [scanFrom]

/-- A sign makes no difference to whether a token ends an operand. -/
theorem endsOperand_unsigned {kind : Kind} {cs : List Char} (h : IsUnsigned kind cs)
    (span span' : Span) :
    endsOperand ⟨kind, span, '-' :: cs⟩ = endsOperand ⟨kind, span', cs⟩ := by
  match kind with
  | .number => rfl
  | .name =>
      obtain ⟨front, word, rfl, hfront, hword⟩ := h
      simp only [endsOperand, ← Option.not_isSome]
      rw [CallName.isSome_ofName?_minus hfront hword.stops]

/-! ## Settling a sign by a look back -/

/-- Looking back, the nearest token that is not blank ends an operand. -/
def afterOperand (before : List Token) : Bool :=
  (visible before).getLast?.any endsOperand

/-- What becomes of a token: the minus in front of it is an operator if it is
`behind` an operand. -/
def settle (behind : Bool) (t : Token) : List Token :=
  if t.isSigned && behind then
    [⟨.operator .sub, ⟨t.span.start, t.span.start + 1⟩, ['-']⟩,
      ⟨t.kind, ⟨t.span.start + 1, t.span.stop⟩, t.lexeme.tail⟩]
  else [t]

/-- Either a sign is split off, or the token is kept. -/
theorem settle_cases (behind : Bool) (t : Token) :
    (behind = true ∧ ∃ rest, (t.kind = .number ∨ t.kind = .name) ∧ t.lexeme = '-' :: rest ∧
      settle behind t = [⟨.operator .sub, ⟨t.span.start, t.span.start + 1⟩, ['-']⟩,
        ⟨t.kind, ⟨t.span.start + 1, t.span.stop⟩, rest⟩]) ∨
    (settle behind t = [t] ∧ (t.isSigned = true → behind = false)) := by
  cases hs : t.isSigned && behind with
  | true =>
      obtain ⟨hsigned, rfl⟩ := Bool.and_eq_true_iff.mp hs
      obtain ⟨hk, rest, hl⟩ := isSigned_iff.mp hsigned
      exact Or.inl ⟨rfl, rest, hk, hl, by rw [settle, hs, hl]; rfl⟩
  | false =>
      refine Or.inr ⟨by rw [settle, hs]; rfl, fun hsigned => ?_⟩
      rwa [hsigned, Bool.true_and] at hs

/-- Signs are settled token by token. What counts for the tokens behind is the
token as it has been settled. -/
theorem splitSigns_eq_settle (behind : Bool) (t : Token) (ts : List Token) :
    splitSigns behind (t :: ts) =
      settle behind t ++ splitSigns (operandBehind behind (settle behind t)) ts := by
  rcases settle_cases behind t with ⟨rfl, rest, hk, hl, hsettle⟩ | ⟨hsettle, hkeep⟩
  · rw [splitSigns_split (unsign?_of_minus hk hl), hsettle]
    rcases hk with hk | hk <;> simp [operandBehind, isBlank, hk]
  · have hunsign : behind = false ∨ t.unsign? = none := by
      cases hsigned : t.isSigned with
      | true => exact Or.inl (hkeep hsigned)
      | false => exact Or.inr (unsign?_of_not_isSigned hsigned)
    rw [splitSigns_cons hunsign, hsettle]
    rfl

theorem Cuts.settle {t : Token} (hne : t.lexeme ≠ [])
    (hstop : t.span.stop = t.span.start + Text.byteLength t.lexeme) (h : t.WellSigned)
    (behind : Bool) : Cuts t.span.start t.lexeme (Token.settle behind t) := by
  rcases settle_cases behind t with ⟨rfl, rest, hk, hl, hsettle⟩ | ⟨hsettle, -⟩
  · obtain ⟨c, more, rfl, -⟩ := (h.isUnsigned hk hl).exists_cons
    have hbytes : t.span.stop = t.span.start + 1 + Text.byteLength (c :: more) := by
      rw [hstop, hl, Text.byteLength_cons, Nat.add_assoc]
      rfl
    have hremainder := Cuts.single (t := ⟨t.kind, ⟨t.span.start + 1, t.span.stop⟩, c :: more⟩)
      (List.cons_ne_nil c more) hbytes
    rw [hsettle, hl]
    exact .cons (List.cons_ne_nil '-' []) rfl hremainder
  · rw [hsettle]
    exact .single hne hstop

theorem Cuts.splitSigns {start : Nat} {cs : List Char} {ts : List Token} (h : Cuts start cs ts)
    (hsigned : ∀ t ∈ ts, t.WellSigned) (behind : Bool) :
    Cuts start cs (Token.splitSigns behind ts) := by
  induction h generalizing behind with
  | nil start =>
      rw [splitSigns_nil]
      exact .nil start
  | cons hne hstop h ih =>
      obtain ⟨ht, hts⟩ := List.forall_mem_cons.mp hsigned
      rw [splitSigns_eq_settle]
      refine (Cuts.settle hne hstop ht behind).append ?_
      rw [← hstop]
      exact ih hts _

theorem isBlank_of_isSigned {t : Token} (h : t.isSigned = true) : t.isBlank = false := by
  obtain ⟨hk, -⟩ := isSigned_iff.mp h
  rcases hk with hk | hk <;> simp [isBlank, hk]

theorem operandBehind_append (behind : Bool) (ts us : List Token) :
    operandBehind behind (ts ++ us) = operandBehind (operandBehind behind ts) us :=
  List.foldl_append

/-- What a token does for those behind it, it does settled or not. -/
theorem operandBehind_settle {t : Token} (h : t.WellSigned) (behind : Bool) :
    operandBehind behind (settle behind t) = operandBehind behind [t] := by
  rcases settle_cases behind t with ⟨rfl, rest, hk, hl, hsettle⟩ | ⟨hsettle, -⟩
  · have hsigned : t.isSigned = true := isSigned_iff.mpr ⟨hk, rest, hl⟩
    have hrest := h.isUnsigned hk hl
    have hends : t.endsOperand = endsOperand ⟨t.kind, ⟨t.span.start + 1, t.span.stop⟩, rest⟩ := by
      obtain ⟨kind, span, lexeme⟩ := t
      simp only at hl
      rw [hl]
      exact endsOperand_unsigned hrest _ _
    rw [hsettle]
    simp only [operandBehind, List.foldl_cons, List.foldl_nil, isBlank_of_isSigned hsigned, hends]
    rcases hk with hk | hk <;> simp [isBlank, hk]
  · rw [hsettle]

theorem operandBehind_splitSigns {ts : List Token} (h : ∀ t ∈ ts, t.WellSigned) (behind : Bool) :
    operandBehind behind (splitSigns behind ts) = operandBehind behind ts := by
  induction ts generalizing behind with
  | nil => rw [splitSigns_nil]
  | cons t ts ih =>
      obtain ⟨ht, hts⟩ := List.forall_mem_cons.mp h
      rw [splitSigns_eq_settle, operandBehind_append, ih hts, operandBehind_settle ht]
      rfl

theorem afterOperand_append_singleton (before : List Token) (t : Token) :
    afterOperand (before ++ [t]) = if t.isBlank then afterOperand before else t.endsOperand := by
  rw [afterOperand, visible, List.filter_append]
  cases hblank : t.isBlank <;> simp [hblank, afterOperand, visible]

/-- The flag that is carried along tells what a look back finds. -/
theorem operandBehind_false (ts : List Token) : operandBehind false ts = afterOperand ts := by
  induction ts using List.reverseRecOn with
  | nil => rfl
  | append_singleton ts t ih =>
      rw [operandBehind_append, ih, afterOperand_append_singleton]
      rfl

/-- Tokens behind others are settled one by one, each by a look back at the tokens
as they were cut. -/
theorem splitSigns_eq_flatMap (before : List Token) {ts : List Token}
    (h : ∀ t ∈ ts, t.WellSigned) :
    splitSigns (afterOperand before) ts = (ts.zipIdx before.length).flatMap fun p =>
      settle (afterOperand ((before ++ ts).take p.2)) p.1 := by
  induction ts generalizing before with
  | nil => rw [splitSigns_nil]; rfl
  | cons t ts ih =>
      obtain ⟨ht, hts⟩ := List.forall_mem_cons.mp h
      have hnext : operandBehind (afterOperand before) [t] = afterOperand (before ++ [t]) :=
        (afterOperand_append_singleton before t).symm
      have hih := ih (before ++ [t]) hts
      rw [List.append_assoc, List.singleton_append, List.length_append, List.length_singleton] at hih
      rw [splitSigns_eq_settle, operandBehind_settle ht, hnext, hih, List.zipIdx_cons,
        List.flatMap_cons, List.take_left]

/-- What holds of tokens as they are cut, and of the parts of those that come apart,
holds of all tokens of a text. -/
theorem forall_mem_tokenize {P : Token → Prop} {cs : List Char} (hkeep : ∀ t ∈ scan cs, P t)
    (hminus : ∀ span, P ⟨.operator .sub, span, ['-']⟩)
    (hrest : ∀ kind span rest, IsUnsigned kind rest → P ⟨kind, span, rest⟩) :
    ∀ t ∈ tokenize cs, P t := by
  have htokens : tokenize cs = _ := splitSigns_eq_flatMap [] wellSigned_of_mem_scan
  rw [htokens]
  intro t ht
  obtain ⟨⟨u, i⟩, hu, ht⟩ := List.mem_flatMap.mp ht
  have hscan : u ∈ scan cs := List.fst_mem_of_mem_zipIdx hu
  rcases settle_cases (afterOperand (([] ++ scan cs).take i)) u with
    ⟨-, rest, hk, hl, hsettle⟩ | ⟨hsettle, -⟩
  · have hunsigned := (wellSigned_of_mem_scan u hscan).isUnsigned hk hl
    rw [hsettle] at ht
    rcases List.mem_pair.mp ht with rfl | rfl
    · exact hminus _
    · exact hrest _ _ _ hunsigned
  · rw [hsettle] at ht
    rw [List.mem_singleton.mp ht]
    exact hkeep u hscan

/-- No token with a sign stands behind an operand. -/
def SignsSettled (behind : Bool) (ts : List Token) : Prop :=
  ∀ before t after, ts = before ++ t :: after → t.isSigned = true →
    operandBehind behind before = false

theorem SignsSettled.nil (behind : Bool) : SignsSettled behind [] := by
  intro before t after h
  exact absurd h.symm (by simp)

theorem SignsSettled.cons {behind : Bool} {t : Token} {ts : List Token}
    (ht : t.isSigned = true → behind = false) (hts : SignsSettled (operandBehind behind [t]) ts) :
    SignsSettled behind (t :: ts) := by
  intro before u after h hsigned
  cases before with
  | nil =>
      obtain rfl := (List.cons.inj h).1
      exact ht hsigned
  | cons first before =>
      obtain ⟨rfl, hrest⟩ := List.cons.inj h
      exact hts before u after hrest hsigned

theorem signsSettled_splitSigns {ts : List Token} (h : ∀ t ∈ ts, t.WellSigned) (behind : Bool) :
    SignsSettled behind (splitSigns behind ts) := by
  induction ts generalizing behind with
  | nil =>
      rw [splitSigns_nil]
      exact .nil behind
  | cons t ts ih =>
      obtain ⟨ht, hts⟩ := List.forall_mem_cons.mp h
      have hrest := ih hts (operandBehind behind (settle behind t))
      rw [splitSigns_eq_settle]
      rcases settle_cases behind t with ⟨rfl, rest, hk, hl, hsettle⟩ | ⟨hsettle, hkeep⟩
      · obtain ⟨c, more, rfl, hc⟩ := (ht.isUnsigned hk hl).exists_cons
        rw [hsettle] at hrest ⊢
        refine .cons (fun hminus => ?_) (.cons (fun hsigned => ?_) hrest)
        · cases hminus
        · obtain ⟨-, _, heq⟩ := isSigned_iff.mp hsigned
          exact absurd (List.cons.inj heq).1 hc
      · rw [hsettle] at hrest ⊢
        exact .cons hkeep hrest

theorem cuts_tokenize (cs : List Char) : Cuts 0 cs (tokenize cs) :=
  (cuts_scan 0 cs).splitSigns wellSigned_of_mem_scan false

theorem covers_of_mem_tokenize {cs : List Char} {t : Token} (h : t ∈ tokenize cs) :
    t.Covers (String.ofList cs) :=
  (cuts_tokenize cs).covers h

/-- The tokens of a text tile it, and they are its tokens as they were cut, each of
them settled. A look back finds the same in both. None is left with a sign behind an
operand, and a token that loses its sign is the one that its rest alone is cut into. -/
theorem tokenize_tiles_and_settles (cs : List Char) :
    Adjacent 0 (tokenize cs) (String.ofList cs).utf8ByteSize ∧
    (∀ t ∈ tokenize cs, t.Covers (String.ofList cs)) ∧
    tokenize cs = ((scan cs).zipIdx.flatMap fun p =>
      settle (afterOperand ((scan cs).take p.2)) p.1) ∧
    (∀ before after, scan cs = before ++ after →
      splitSigns false before <+: tokenize cs ∧
        afterOperand (splitSigns false before) = afterOperand before) ∧
    (∀ before t after, tokenize cs = before ++ t :: after → t.isSigned = true →
      afterOperand before = false) ∧
    ∀ t ∈ scan cs, t.isSigned = true →
      scan t.lexeme.tail = [⟨t.kind, ⟨0, Text.byteLength t.lexeme.tail⟩, t.lexeme.tail⟩] := by
  have hsigned : ∀ t ∈ scan cs, t.WellSigned := wellSigned_of_mem_scan
  refine ⟨?_, fun t ht => covers_of_mem_tokenize ht, splitSigns_eq_flatMap [] hsigned, ?_, ?_,
    fun t ht h => scan_unsigned (hsigned t ht h)⟩
  · have hadjacent := (cuts_tokenize cs).adjacent
    rwa [Nat.zero_add, ← Text.utf8ByteSize_ofList] at hadjacent
  · intro before after heq
    have hbefore : ∀ t ∈ before, t.WellSigned := fun t ht =>
      hsigned t (heq ▸ List.mem_append_left after ht)
    rw [tokenize, heq, splitSigns_append]
    refine ⟨List.prefix_append _ _, ?_⟩
    rw [← operandBehind_false, operandBehind_splitSigns hbefore, operandBehind_false]
  · intro before t after heq h
    rw [← operandBehind_false]
    exact signsSettled_splitSigns hsigned false before t after heq h

end Token

end Fluxion
