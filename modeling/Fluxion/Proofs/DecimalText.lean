import Fluxion.Proofs.Nearest

/-!
# A finite number reads back from its text

The text of a finite number is a row of digits, with a point and a second row if
it is not whole, and a minus in front if it is negative: `Signed`, and `Plain`
is the part behind the sign. Read back, the digits are those of the shortest decimal, on
whichever side of the point they stand, and the value is the number the text was
written for. Only the negative zero reads back as another float, its equal.
-/

namespace Fluxion

namespace Text

/-- A text does not begin with a character of a class. -/
def Stops (p : Char → Bool) (cs : List Char) : Prop :=
  ∀ c, cs.head? = some c → p c = false

theorem stops_nil (p : Char → Bool) : Stops p [] := by
  intro c hc
  cases hc

theorem stops_cons {p : Char → Bool} {c : Char} (h : p c = false) (cs : List Char) :
    Stops p (c :: cs) := by
  intro c' hc
  cases hc
  exact h

theorem takeWhile_append_of_stops {p : Char → Bool} {cs rest : List Char}
    (h : ∀ c ∈ cs, p c = true) (hstop : Stops p rest) : (cs ++ rest).takeWhile p = cs := by
  rw [List.takeWhile_append_of_pos h]
  cases rest with
  | nil => exact List.append_nil cs
  | cons c rest => rw [List.takeWhile_cons_of_neg (by simp [hstop c rfl]), List.append_nil]

theorem dropWhile_append_of_stops {p : Char → Bool} {cs rest : List Char}
    (h : ∀ c ∈ cs, p c = true) (hstop : Stops p rest) : (cs ++ rest).dropWhile p = rest := by
  rw [List.dropWhile_append_of_pos h]
  cases rest with
  | nil => rfl
  | cons c rest => exact List.dropWhile_cons_of_neg (by simp [hstop c rfl])

end Text

namespace Decimal

/-- Digits, or digits around a point. -/
inductive Plain : List Char → Prop where
  | whole {ds : List Char} (hne : ds ≠ []) (hd : ∀ c ∈ ds, c.isDigit = true) : Plain ds
  | pointed {ds fs : List Char} (hne : ds ≠ []) (hd : ∀ c ∈ ds, c.isDigit = true)
      (hfne : fs ≠ []) (hf : ∀ c ∈ fs, c.isDigit = true) : Plain (ds ++ '.' :: fs)

theorem Plain.exists_cons {cs : List Char} (h : Plain cs) :
    ∃ d rest, cs = d :: rest ∧ d.isDigit = true := by
  cases h with
  | whole hne hd =>
      obtain ⟨d, rest, rfl⟩ := List.exists_cons_of_ne_nil hne
      exact ⟨d, rest, rfl, hd d List.mem_cons_self⟩
  | @pointed ds fs hne hd hfne hf =>
      obtain ⟨d, rest, rfl⟩ := List.exists_cons_of_ne_nil hne
      exact ⟨d, rest ++ '.' :: fs, rfl, hd d List.mem_cons_self⟩

/-- A plain number with or without a minus in front. -/
inductive Signed : List Char → Prop where
  | plain {cs : List Char} (h : Plain cs) : Signed cs
  | minus {cs : List Char} (h : Plain cs) : Signed ('-' :: cs)

/-! ## Reading plain numbers -/

theorem unsigned?_whole {ds : List Char} (hne : ds ≠ []) (hd : ∀ c ∈ ds, c.isDigit = true) :
    unsigned? ds = some (nearest (value ds) 0) := by
  have htake := Text.takeWhile_append_of_stops hd (Text.stops_nil _)
  have hdrop := Text.dropWhile_append_of_stops hd (Text.stops_nil _)
  rw [List.append_nil] at htake hdrop
  simp only [unsigned?, htake, hdrop, fraction, exponent?, hne, false_and, if_false,
    List.append_nil, List.length_nil]
  rfl

theorem unsigned?_pointed {ds fs : List Char} (hne : ds ≠ []) (hd : ∀ c ∈ ds, c.isDigit = true)
    (hf : ∀ c ∈ fs, c.isDigit = true) :
    unsigned? (ds ++ '.' :: fs) = some (nearest (value (ds ++ fs)) (-fs.length)) := by
  have hstop : Text.Stops Char.isDigit ('.' :: fs) := Text.stops_cons (by decide) fs
  have hfs := Text.takeWhile_append_of_stops hf (Text.stops_nil _)
  have hfs' := Text.dropWhile_append_of_stops hf (Text.stops_nil _)
  rw [List.append_nil] at hfs hfs'
  simp only [unsigned?, Text.takeWhile_append_of_stops hd hstop,
    Text.dropWhile_append_of_stops hd hstop, fraction, List.span_eq_takeWhile_dropWhile, hfs, hfs',
    exponent?, hne, false_and, if_false, Option.map_some, Int.zero_sub]

theorem toLower_of_isDigit {c : Char} (h : c.isDigit = true) : c.toLower = c := by
  have hle := (Char.isDigit_iff_toNat.mp h).2
  refine dif_neg fun hupper => ?_
  have hge : 'A'.toNat ≤ c.toNat := hupper.1
  exact absurd (Nat.le_trans hge hle) (by decide)

theorem word?_of_plain {cs : List Char} (h : Plain cs) : word? cs = none := by
  obtain ⟨d, rest, rfl, hd⟩ := h.exists_cons
  rw [word?]
  rw [List.map_cons, toLower_of_isDigit hd]
  split
  · next heq =>
      rw [(List.cons.inj heq).1] at hd
      cases hd
  · next heq =>
      rw [(List.cons.inj heq).1] at hd
      cases hd
  · next heq =>
      rw [(List.cons.inj heq).1] at hd
      cases hd
  · rfl

/-! ## Positional texts -/

theorem length_leftpad_digits {n places : Nat} (hp : places ≠ 0) (h : n < 10 ^ places) :
    ((digits n).leftpad places '0').length = places := by
  rw [List.length_leftpad]
  exact Nat.max_eq_left ((Nat.length_toDigits_le_iff (by decide) (by omega)).mpr h)

theorem value_append (ds fs : List Char) :
    value (ds ++ fs) = 10 ^ fs.length * value ds + value fs := by
  rw [value, Nat.ofDigitChars_append, Nat.ofDigitChars_eq_ofDigitChars_zero]
  rfl

/-- Zeros in front do not count. -/
theorem value_leftpad (ds : List Char) (places : Nat) :
    value (ds.leftpad places '0') = value ds := by
  rw [List.leftpad, value, Nat.ofDigitChars_append, Nat.ofDigitChars_replicate_zero, Nat.mul_zero]
  rfl

theorem isDigit_of_mem_leftpad {n places : Nat} {c : Char}
    (h : c ∈ (digits n).leftpad places '0') : c.isDigit = true := by
  rw [List.leftpad, List.mem_append] at h
  rcases h with h | h
  · rw [List.eq_of_mem_replicate h]
    rfl
  · exact isDigit_of_mem_digits h

theorem plain_pointed (places n : Nat) : Plain (pointed places n) := by
  rw [pointed]
  split
  · exact .whole (digits_ne_nil n) fun c => isDigit_of_mem_digits
  · next hp =>
      refine .pointed (digits_ne_nil _) (fun c => isDigit_of_mem_digits) ?_
        fun c => isDigit_of_mem_leftpad
      refine List.ne_nil_of_length_pos ?_
      rw [List.length_leftpad]
      omega

/-- Digits are read for what they stand for, on both sides of the point. -/
theorem unsigned?_of_pointed (places n : Nat) :
    unsigned? (pointed places n) = some (nearest n (-places)) := by
  rw [pointed]
  split
  · next hp =>
      rw [unsigned?_whole (digits_ne_nil n) fun c => isDigit_of_mem_digits, value_digits, hp]
      rfl
  · next hp =>
      have hmod : n % 10 ^ places < 10 ^ places := Nat.mod_lt _ (Nat.pow_pos (by decide))
      simp only [Nat.pow_eq]
      rw [unsigned?_pointed (digits_ne_nil _) (fun c => isDigit_of_mem_digits)
        (fun c => isDigit_of_mem_leftpad), value_append, value_leftpad, value_digits, value_digits,
        length_leftpad_digits hp hmod, Nat.div_add_mod]

theorem magnitude?_positional {n : Nat} {e : Int} (hfin : (nearest n e).isFinite = true) :
    magnitude? (positional n e) = some (nearest n e) := by
  rw [magnitude?, positional, word?_of_plain (plain_pointed _ _), unsigned?_of_pointed,
    Option.none_or, Nat.pow_eq]
  rcases Int.le_total 0 e with he | he
  · rw [show (-e).toNat = 0 from by omega, Int.natCast_zero, Int.neg_zero, nearest_mul_pow he hfin]
  · rw [show e.toNat = 0 from by omega, Nat.pow_zero, Nat.mul_one,
      show (-((-e).toNat : Int)) = e from by omega]

/-! ## The text of a number -/

/-- The parts of a finite float are its magnitude and its sign. -/
theorem exists_ofFloat? {x : Float} (hx : x.isFinite = true) :
    ∃ b, Binary.ofFloat? x = some b := by
  rw [isFinite_eq] at hx
  rw [Binary.ofFloat?_eq]
  split
  · exact ⟨_, rfl⟩
  · exact ⟨_, rfl⟩
  · next hp =>
      rw [hp] at hx
      cases hx
  · next hp =>
      rw [hp] at hx
      cases hx

theorem signed_text {x : Float} (hx : x.isFinite = true) : Signed (text x) := by
  obtain ⟨b, hb⟩ := exists_ofFloat? hx
  simp only [text, hb]
  split
  · exact .plain (plain_pointed 0 0)
  · cases isNegative x with
    | true => exact .minus (plain_pointed _ _)
    | false => exact .plain (plain_pointed _ _)

/-- What is plain has no sign for the reader to take off. -/
theorem read?_of_plain {cs : List Char} (h : Plain cs) : read? cs = magnitude? cs := by
  obtain ⟨d, rest, rfl, hd⟩ := h.exists_cons
  unfold read?
  split
  · next heq =>
      cases heq
      cases hd
  · next heq =>
      cases heq
      cases hd
  · rfl

/-- A number reads back from its text. -/
theorem read?_text {x : Float} (hx : x.isFinite = true) :
    ∃ y, read? (text x) = some y ∧ (y == x) = true := by
  obtain ⟨b, hb⟩ := exists_ofFloat? hx
  simp only [text, hb]
  split
  · next hzero =>
      have hmag : magnitude? (positional 0 0) = some (nearest 0 0) := magnitude?_positional rfl
      refine ⟨nearest 0 0, (read?_of_plain (plain_pointed 0 0)).trans hmag,
        beq_iff.mpr (Or.inl ⟨⟨.positive, rfl⟩, ?_⟩)⟩
      rw [Binary.ofFloat?_eq] at hb
      rcases hp : parts x with _ | _ | s | ⟨s, m, e, hm⟩ <;> rw [hp] at hb <;> cases hb
      · exact ⟨s, rfl⟩
      · exact absurd hzero (Nat.ne_of_gt hm)
  · next hpos =>
      have hreads := readsAs_shortest hb hpos
      have hfin : (nearest (shortest x.abs b).digits (shortest x.abs b).exponent).isFinite = true :=
        isFinite_of_beq hreads ((isFinite_abs x).trans hx)
      have hmag := magnitude?_positional hfin
      cases hs : isNegative x with
      | true =>
          refine ⟨_, ?_, neg_beq_of_beq_abs hreads hs⟩
          simp [read?, hmag]
      | false =>
          refine ⟨_, ?_, beq_of_beq_abs hreads hs⟩
          exact (read?_of_plain (plain_pointed _ _)).trans hmag

end Decimal

end Fluxion
