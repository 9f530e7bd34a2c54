import Fluxion.Proofs.Complaints
import Fluxion.Proofs.LineText

/-!
# Where the fault of a line is

The place of a fault is found in the body of a line, and told by its distance from the
start of the line. Positions are bytes, so all depends on the offset of the body being
the number of bytes in front of it (`Heading.exists_front`). What is shown under the span
of a token of the body is then shown, further on, in the line (`Span.shows_shift`).

A complaint points at a token, or at the end of the body, which is the end of the line
(`Token.endSpan_tokenize`). So its span lies in the line, begins and ends between two
characters, and shows what is complained about, in the words of the complaint.
-/

namespace Fluxion

open Token (visible endSpan scan tokenize Cuts CallsAt)

/-! ## Spans of a text -/

namespace Span

/-- Under the span, which lies in the text and begins and ends between two characters,
stands `cs`. -/
structure Shows (text : String) (s : Span) (cs : List Char) : Prop where
  start_le_stop : s.start ≤ s.stop
  stop_le : s.stop ≤ text.utf8ByteSize
  isValid_start : String.Pos.Raw.IsValid text ⟨s.start⟩
  isValid_stop : String.Pos.Raw.IsValid text ⟨s.stop⟩
  slice : text.toByteArray.extract s.start s.stop = (String.ofList cs).toByteArray

/-- The span of the middle of a text. -/
theorem shows_middle (as cs bs : List Char) :
    Shows (String.ofList (as ++ cs ++ bs))
      ⟨Text.byteLength as, Text.byteLength as + Text.byteLength cs⟩ cs where
  start_le_stop := Nat.le_add_right _ _
  stop_le := by
    rw [Text.utf8ByteSize_ofList, Text.byteLength_append, Text.byteLength_append]
    exact Nat.le_add_right _ _
  isValid_start := by
    rw [List.append_assoc]
    exact Text.isValid_byteLength as (cs ++ bs)
  isValid_stop := by
    have hvalid := Text.isValid_byteLength (as ++ cs) bs
    rwa [Text.byteLength_append] at hvalid
  slice := Text.extract_toByteArray as cs bs

theorem shows_end (as cs : List Char) :
    Shows (String.ofList (as ++ cs)) ⟨Text.byteLength as, Text.byteLength (as ++ cs)⟩ cs := by
  have hshows := shows_middle as cs []
  rwa [List.append_nil, ← Text.byteLength_append] at hshows

theorem shows_start (cs bs : List Char) :
    Shows (String.ofList (cs ++ bs)) ⟨0, Text.byteLength cs⟩ cs := by
  have hshows := shows_middle [] cs bs
  rwa [List.nil_append, Text.byteLength_nil, Nat.zero_add] at hshows

/-- What a span shows is shown further on where something is put in front. -/
theorem shows_shift (front as cs bs : List Char) :
    Shows (String.ofList (front ++ (as ++ cs ++ bs)))
      (shift (Text.byteLength front)
        ⟨Text.byteLength as, Text.byteLength as + Text.byteLength cs⟩) cs := by
  have hshows := shows_middle (front ++ as) cs bs
  rw [Text.byteLength_append, Nat.add_assoc] at hshows
  rw [← List.append_assoc, ← List.append_assoc]
  exact hshows

end Span

namespace Token

theorem Cuts.getLast?_stop {start : Nat} {cs : List Char} {ts : List Token}
    (h : Cuts start cs ts) :
    ts.getLast?.elim start (·.span.stop) = start + Text.byteLength cs := by
  induction h with
  | nil start => rfl
  | @cons start stop kind lexeme rest ts hne hstop h ih =>
      rw [Text.byteLength_append, ← Nat.add_assoc, ← hstop, ← ih, List.getLast?_cons]
      cases ts.getLast? <;> rfl

/-- The tokens of a text end where the text does. -/
theorem endSpan_tokenize (cs : List Char) :
    endSpan (tokenize cs) = .point (Text.byteLength cs) := by
  have hstop := (cuts_tokenize cs).getLast?_stop
  rw [Nat.zero_add] at hstop
  rw [endSpan, hstop]

/-- All that is cut out of a text while it is read stands in it where it is looked for:
its tokens, the sign in front of a token and what stands behind it, the coefficient in
front of a name and what stands behind that. -/
structure SlicesFit (cs : List Char) : Prop where
  token : ∀ t ∈ scan cs, t.span.Shows (String.ofList cs) t.lexeme
  sign : ∀ t ∈ scan cs, t.isSigned = true → Span.Shows (String.ofList t.lexeme) ⟨0, 1⟩ ['-'] ∧
    Span.Shows (String.ofList t.lexeme) ⟨1, Text.byteLength t.lexeme⟩ t.lexeme.tail
  settled : ∀ t ∈ tokenize cs, t.span.Shows (String.ofList cs) t.lexeme
  name : ∀ t ∈ tokenize cs,
    Span.Shows (String.ofList t.lexeme) ⟨0, Text.byteLength (SplitName.cut t.lexeme).1⟩
      (SplitName.cut t.lexeme).1 ∧
    Span.Shows (String.ofList t.lexeme)
      ⟨Text.byteLength (SplitName.cut t.lexeme).1, Text.byteLength t.lexeme⟩
      (SplitName.cut t.lexeme).2

theorem Cuts.exists_split {cs : List Char} {ts : List Token} (h : Cuts 0 cs ts) {t : Token}
    (ht : t ∈ ts) : ∃ as bs, cs = as ++ t.lexeme ++ bs ∧
      t.span = ⟨Text.byteLength as, Text.byteLength as + Text.byteLength t.lexeme⟩ := by
  obtain ⟨as, bs, hcs, -, hstart, hstop⟩ := h.exists_of_mem ht
  rw [Nat.zero_add] at hstart hstop
  have hspan : t.span = ⟨t.span.start, t.span.stop⟩ := rfl
  rw [hstart, hstop] at hspan
  exact ⟨as, bs, hcs, hspan⟩

theorem Cuts.shows {cs : List Char} {ts : List Token} (h : Cuts 0 cs ts) {t : Token}
    (ht : t ∈ ts) : t.span.Shows (String.ofList cs) t.lexeme := by
  obtain ⟨as, bs, hcs, hspan⟩ := h.exists_split ht
  rw [hcs, hspan]
  exact Span.shows_middle as t.lexeme bs

theorem cut_append (cs : List Char) : (SplitName.cut cs).1 ++ (SplitName.cut cs).2 = cs := by
  unfold SplitName.cut
  split
  · next rest => exact congrArg ('-' :: ·) List.takeWhile_append_dropWhile
  · exact List.takeWhile_append_dropWhile

theorem slicesFit (cs : List Char) : SlicesFit cs where
  token _ ht := (cuts_scan 0 cs).shows ht
  sign t _ h := by
    obtain ⟨-, rest, hl⟩ := isSigned_iff.mp h
    rw [hl]
    exact ⟨Span.shows_start ['-'] rest, Span.shows_end ['-'] rest⟩
  settled _ ht := (cuts_tokenize cs).shows ht
  name t _ := by
    have hstart := Span.shows_start (SplitName.cut t.lexeme).1 (SplitName.cut t.lexeme).2
    have hend := Span.shows_end (SplitName.cut t.lexeme).1 (SplitName.cut t.lexeme).2
    rw [cut_append] at hstart hend
    exact ⟨hstart, hend⟩

end Token

/-! ## The body of a line -/

/-- The body is the end of the line, and its offset is what is in front of it. -/
theorem Heading.exists_front (line : List Char) : ∃ front, line = front ++ (ofLine line).body ∧
    Text.byteLength front = (ofLine line).offset := by
  have hfront : ∃ front, line = front ++ (ofLine line).body := by
    have hline : line = line.takeWhile Text.isBlank ++ Text.trimStart line :=
      List.takeWhile_append_dropWhile.symm
    rw [ofLine]
    rcases ofTrimmed_cases (Text.trimStart line) with
      ⟨of, wrt, blank, body, heq, hof, hwrt, hblank⟩ | hnone
    · rw [heq] at hline ⊢
      rw [ofTrimmed_heading hof hwrt hblank]
      refine ⟨line.takeWhile Text.isBlank ++ ['d', of, '/', 'd', wrt, blank], hline.trans ?_⟩
      simp
    · rw [hnone]
      exact ⟨_, hline⟩
  obtain ⟨front, hline⟩ := hfront
  refine ⟨front, hline, ?_⟩
  have hbytes := byteLength_eq line
  have hsum := congrArg Text.byteLength hline
  rw [Text.byteLength_append] at hsum
  omega

namespace Fault

/-- What a complaint about the tokens of a text points at stands in the text, and is what
the complaint quotes or the parenthesis of the function that it quotes. -/
theorem PointsAt.exists_split {cs : List Char} {fault : Located Fault}
    (h : PointsAt (endSpan (tokenize cs)) (visible (tokenize cs)) fault) :
    ∃ as shown bs, cs = as ++ shown ++ bs ∧
      fault.span = ⟨Text.byteLength as, Text.byteLength as + Text.byteLength shown⟩ ∧
      ∀ text, fault.value.quoted? = some text → shown = text ∨
        fault.value = .missingOperand text ∧ shown = ['('] ∧
          CallsAt (visible (tokenize cs)) text fault.span := by
  have hsplit : ∀ t ∈ visible (tokenize cs), ∃ as bs, cs = as ++ t.lexeme ++ bs ∧
      t.span = ⟨Text.byteLength as, Text.byteLength as + Text.byteLength t.lexeme⟩ :=
    fun t ht => (Token.cuts_tokenize cs).exists_split (List.mem_filter.mp ht).1
  cases h with
  | @token t fault ht hquoted =>
      obtain ⟨as, bs, hcs, hspan⟩ := hsplit t ht
      exact ⟨as, t.lexeme, bs, hcs, hspan, fun text htext => Or.inl (hquoted text htext).symm⟩
  | @argument name span hcalls =>
      obtain ⟨before, n, o, after, htokens, hn, hname, ho, rfl⟩ := id hcalls
      have hmem : o ∈ visible (tokenize cs) := by simp [htokens]
      obtain ⟨as, bs, hcs, hspan⟩ := hsplit o hmem
      have hlexeme : o.lexeme = ['('] :=
        (Token.spelled_of_mem_tokenize o (List.mem_filter.mp hmem).1).openParen ho
      refine ⟨as, o.lexeme, bs, hcs, hspan, fun text htext => Or.inr ?_⟩
      cases htext
      exact ⟨rfl, hlexeme, hcalls⟩
  | nothing =>
      refine ⟨cs, [], [], by simp, ?_, fun text htext => by cases htext⟩
      rw [Token.endSpan_tokenize]
      rfl

end Fault

namespace Derivation

theorem ofLine_unreadable {line : List Char} {default : Char} {fault : Fault} {span : Span}
    (h : ofLine line default = .error ⟨.unreadable fault, span⟩) :
    ∃ s, Expr.read (Heading.ofLine line).body = .error ⟨fault, s⟩ ∧
      span = s.shift (Heading.ofLine line).offset := by
  rw [ofLine] at h
  cases hread : Expr.read (Heading.ofLine line).body with
  | error f =>
      simp only [hread] at h
      cases h
      exact ⟨f.span, rfl, rfl⟩
  | ok e =>
      simp only [hread] at h
      split at h <;> cases h

/-- The body of a line stands in it from its offset on, and whatever is cut out of the
body stands there. Where the body cannot be read, the span of the fault lies in the
line, between characters, and shows what is complained about. A missing operand may
also be shown by the open parenthesis of the function that it is missing for. -/
theorem ofLine_fault_shows (line : List Char) (default : Char) :
    Span.Shows (String.ofList line) ⟨(Heading.ofLine line).offset, Text.byteLength line⟩
      (Heading.ofLine line).body ∧
    Token.SlicesFit (Heading.ofLine line).body ∧
    ∀ fault span, ofLine line default = .error ⟨.unreadable fault, span⟩ →
      ∃ shown, span.Shows (String.ofList line) shown ∧
        (∀ text, fault = .unknownSymbol text ∨ fault = .unexpectedToken text ∨
          fault = .numberOutOfRange text → shown = text) ∧
        ∀ text, fault = .missingOperand text → shown = text ∨ shown = ['('] ∧
          ∃ s, span = s.shift (Heading.ofLine line).offset ∧
            CallsAt (visible (tokenize (Heading.ofLine line).body)) text s := by
  obtain ⟨front, hline, hoffset⟩ := Heading.exists_front line
  refine ⟨?_, Token.slicesFit _, fun fault span h => ?_⟩
  · have hend := Span.shows_end front (Heading.ofLine line).body
    rwa [← hline, hoffset] at hend
  · obtain ⟨s, hread, rfl⟩ := ofLine_unreadable h
    have hpoints := Expr.pointsAt_of_ofTokens Token.spelled_of_mem_tokenize hread
    obtain ⟨as, shown, bs, hbody, hspan, hquoted⟩ := hpoints.exists_split
    simp only at hspan hquoted
    refine ⟨shown, ?_, fun text htext => ?_, fun text htext => ?_⟩
    · have hshift := Span.shows_shift front as shown bs
      rwa [← hbody, ← hline, ← hspan, hoffset] at hshift
    · have htext' : fault.quoted? = some text := by
        rcases htext with rfl | rfl | rfl <;> rfl
      refine (hquoted text htext').resolve_right ?_
      rintro ⟨rfl, -⟩
      rcases htext with h | h | h <;> cases h
    · subst htext
      rcases hquoted text rfl with hshown | ⟨-, hshown, hcalls⟩
      · exact Or.inl hshown
      · exact Or.inr ⟨hshown, s, rfl, hcalls⟩

/-- Behind a blank of three bytes, the complaint about `sin()` points at the parenthesis. -/
theorem ofLine_fault_shows_parenthesis :
    ofLine ['\u3000', 's', 'i', 'n', '(', ')'] 'x' =
        .error ⟨.unreadable (.missingOperand ['s', 'i', 'n']), ⟨6, 7⟩⟩ ∧
      ∃ shown, Span.Shows (String.ofList ['\u3000', 's', 'i', 'n', '(', ')']) ⟨6, 7⟩ shown ∧
        (shown = ['s', 'i', 'n'] ∨ shown = ['(']) := by
  have hfault : ofLine ['\u3000', 's', 'i', 'n', '(', ')'] 'x' =
      .error ⟨.unreadable (.missingOperand ['s', 'i', 'n']), ⟨6, 7⟩⟩ := by cbv
  obtain ⟨shown, hshows, -, hmissing⟩ := (ofLine_fault_shows _ 'x').2.2 _ _ hfault
  exact ⟨hfault, shown, hshows, (hmissing _ rfl).imp_right And.left⟩

end Derivation

end Fluxion
