import Mathlib.Computability.Language
import Fluxion.Proofs.Subtraction
import Fluxion.Proofs.Tiling

/-!
# Maximal munch

The patterns of the tokens are regular expressions. Here each is the language that
it is written as (`Kind.pattern`), put together from characters, ranges of
characters and the operations on languages, with nothing taken from the functions
that look for tokens. What those functions find is then the longest start of a text
that lies in the pattern (`Kind.longestStart_matchLength`). So the next token is
the longest start that lies in any pattern, and it has the kind of that pattern
(`munches_next`). Where no start lies in any, it is a single character.

There is never a choice between kinds, because the patterns have no text in common
(`Kind.eq_of_mem_pattern`): a text that lies in a pattern is one token of that kind
when it stands alone. With that, a text and what is said of it above determine the
token (`Munches.unique`).
-/

namespace Fluxion.Token

open Decimal (Plain Signed)
open Text (Stops stops_nil stops_cons)
open scoped Computability

variable {L M : Language Char} {p q : Char → Bool} {w cs : List Char}

/-! ## The patterns -/

namespace Pattern

/-- The character itself. -/
def char (c : Char) : Language Char :=
  {w | w = [c]}

/-- A character that is one of a range, such as `[0-9]`. -/
def range (first last : Char) : Language Char :=
  {w | ∃ c, w = [c] ∧ first ≤ c ∧ c ≤ last}

/-- What is written with a question mark. -/
def optional (L : Language Char) : Language Char :=
  1 + L

/-- What is written with a plus. -/
def repeated (L : Language Char) : Language Char :=
  L * L∗

def digit : Language Char :=
  range '0' '9'

def letter : Language Char :=
  range 'a' 'z' + range 'A' 'Z'

/-- `[0-9]+(\.[0-9]+)?` -/
def decimal : Language Char :=
  repeated digit * optional (char '.' * repeated digit)

/-- `[ \t\n\r]+` -/
def blank : Language Char :=
  repeated (char ' ' + char '\t' + char '\n' + char '\r')

/-- `-?[0-9]+(\.[0-9]+)?` -/
def number : Language Char :=
  optional (char '-') * decimal

/-- `-?([0-9]+(\.[0-9]+)?)?[a-zA-Z][a-zA-Z0-9_.]*` -/
def name : Language Char :=
  optional (char '-') * (optional decimal * (letter * (letter + digit + char '_' + char '.')∗))

/-- `d[a-zA-Z]/d[a-zA-Z]` -/
def leibniz : Language Char :=
  char 'd' * (letter * (char '/' * (char 'd' * letter)))

end Pattern

/-- The texts that a token of a kind may be. No pattern is given for a symbol, which
is what is left over. -/
def Kind.pattern : Kind → Language Char
  | .blank => Pattern.blank
  | .operator op => Pattern.char op.symbol
  | .openParen => Pattern.char '('
  | .closeParen => Pattern.char ')'
  | .number => Pattern.number
  | .name => Pattern.name
  | .leibniz => Pattern.leibniz
  | .symbol => 0

namespace Pattern

/-! ## Membership -/

@[simp] theorem mem_char {c : Char} : w ∈ char c ↔ w = [c] := Iff.rfl

@[simp] theorem mem_optional : w ∈ optional L ↔ w = [] ∨ w ∈ L := by
  rw [optional, Language.mem_add, Language.mem_one]

/-- A character in front of a language. -/
theorem mem_char_mul {c : Char} : w ∈ char c * L ↔ ∃ u ∈ L, w = c :: u := by
  simp [Language.mem_mul, eq_comm]

theorem mem_optional_char_mul {c : Char} :
    w ∈ optional (char c) * L ↔ w ∈ L ∨ ∃ u ∈ L, w = c :: u := by
  rw [optional, add_mul, one_mul, Language.mem_add, mem_char_mul]

/-- A language of single characters, those that satisfy `p`. -/
def IsClass (L : Language Char) (p : Char → Bool) : Prop :=
  ∀ w, w ∈ L ↔ ∃ c, w = [c] ∧ p c = true

theorem isClass_char (c : Char) : IsClass (char c) (· == c) := by
  intro w
  simp

theorem isClass_range (first last : Char) :
    IsClass (range first last) fun c => first ≤ c && c ≤ last := by
  intro w
  simp only [Bool.and_eq_true, decide_eq_true_eq]
  exact Iff.rfl

theorem IsClass.add (hL : IsClass L p) (hM : IsClass M q) :
    IsClass (L + M) fun c => p c || q c := by
  intro w
  rw [Language.mem_add, hL, hM, ← exists_or]
  simp only [Bool.or_eq_true, and_or_left]

theorem IsClass.congr (hL : IsClass L p) (h : ∀ c, p c = q c) : IsClass L q := by
  rwa [← funext h]

theorem IsClass.mem_mul (hL : IsClass L p) :
    w ∈ L * M ↔ ∃ c u, w = c :: u ∧ p c = true ∧ u ∈ M := by
  rw [Language.mem_mul]
  constructor
  · rintro ⟨a, ha, u, hu, rfl⟩
    obtain ⟨c, rfl, hc⟩ := (hL a).mp ha
    exact ⟨c, u, rfl, hc, hu⟩
  · rintro ⟨c, u, rfl, hc, hu⟩
    exact ⟨[c], (hL [c]).mpr ⟨c, rfl, hc⟩, u, hu, rfl⟩

theorem IsClass.mem_kstar (hL : IsClass L p) : w ∈ L∗ ↔ ∀ c ∈ w, p c = true := by
  rw [Language.mem_kstar]
  constructor
  · rintro ⟨ws, rfl, hws⟩ c hc
    obtain ⟨u, hu, hcu⟩ := List.mem_flatten.mp hc
    obtain ⟨d, rfl, hd⟩ := (hL u).mp (hws u hu)
    rwa [List.mem_singleton.mp hcu]
  · intro h
    refine ⟨w.map ([·]), ?_, ?_⟩
    · rw [← List.flatMap_def, List.flatMap_singleton']
    · intro u hu
      obtain ⟨c, hc, rfl⟩ := List.mem_map.mp hu
      exact (hL [c]).mpr ⟨c, rfl, h c hc⟩

theorem IsClass.mem_repeated (hL : IsClass L p) :
    w ∈ repeated L ↔ w ≠ [] ∧ ∀ c ∈ w, p c = true := by
  rw [repeated, hL.mem_mul]
  constructor
  · rintro ⟨c, u, rfl, hc, hu⟩
    exact ⟨List.cons_ne_nil c u, List.forall_mem_cons.mpr ⟨hc, hL.mem_kstar.mp hu⟩⟩
  · rintro ⟨hne, h⟩
    obtain ⟨c, u, rfl⟩ := List.exists_cons_of_ne_nil hne
    obtain ⟨hc, hu⟩ := List.forall_mem_cons.mp h
    exact ⟨c, u, rfl, hc, hL.mem_kstar.mpr hu⟩

theorem isClass_digit : IsClass digit Char.isDigit :=
  (isClass_range '0' '9').congr fun _ => rfl

theorem isClass_letter : IsClass letter Char.isAlpha :=
  ((isClass_range 'a' 'z').add (isClass_range 'A' 'Z')).congr fun c => by
    simp [Char.isAlpha, Char.isUpper, Char.isLower, Char.le_def, Bool.or_comm]

theorem isClass_nameChar : IsClass (letter + digit + char '_' + char '.') isNameChar :=
  (((isClass_letter.add isClass_digit).add (isClass_char '_')).add (isClass_char '.')).congr
    fun _ => rfl

theorem mem_blank : w ∈ blank ↔ w ≠ [] ∧ ∀ c ∈ w, isSpace c = true :=
  ((((isClass_char ' ').add (isClass_char '\t')).add (isClass_char '\n')).add
    (isClass_char '\r')).mem_repeated

theorem mem_decimal : w ∈ decimal ↔ Plain w := by
  rw [decimal, optional, mul_add, mul_one, Language.mem_add, isClass_digit.mem_repeated]
  constructor
  · rintro (⟨hne, hd⟩ | h)
    · exact .whole hne hd
    · obtain ⟨ds, hds, u, hu, rfl⟩ := Language.mem_mul.mp h
      obtain ⟨fs, hfs, rfl⟩ := mem_char_mul.mp hu
      obtain ⟨hne, hd⟩ := isClass_digit.mem_repeated.mp hds
      obtain ⟨hfne, hf⟩ := isClass_digit.mem_repeated.mp hfs
      exact .pointed hne hd hfne hf
  · intro h
    cases h with
    | whole hne hd => exact Or.inl ⟨hne, hd⟩
    | pointed hne hd hfne hf =>
        exact Or.inr (Language.append_mem_mul (isClass_digit.mem_repeated.mpr ⟨hne, hd⟩)
          (mem_char_mul.mpr ⟨_, isClass_digit.mem_repeated.mpr ⟨hfne, hf⟩, rfl⟩))

theorem mem_number : w ∈ number ↔ Signed w := by
  rw [number, mem_optional_char_mul]
  constructor
  · rintro (h | ⟨u, hu, rfl⟩)
    · exact .plain (mem_decimal.mp h)
    · exact .minus (mem_decimal.mp hu)
  · intro h
    cases h with
    | plain h => exact Or.inl (mem_decimal.mpr h)
    | minus h => exact Or.inr ⟨_, mem_decimal.mpr h, rfl⟩

theorem mem_word : w ∈ letter * (letter + digit + char '_' + char '.')∗ ↔ IsWord w := by
  rw [isClass_letter.mem_mul]
  simp only [isClass_nameChar.mem_kstar, IsWord]

theorem mem_name : w ∈ name ↔ IsUnsigned .name w ∨ ∃ u, IsUnsigned .name u ∧ w = '-' :: u := by
  have hunsigned (u : List Char) : u ∈ optional decimal *
      (letter * (letter + digit + char '_' + char '.')∗) ↔ IsUnsigned .name u := by
    simp only [Language.mem_mul (l := optional decimal), mem_optional, mem_decimal, mem_word,
      IsUnsigned]
    constructor
    · rintro ⟨front, hfront, word, hword, rfl⟩
      exact ⟨front, word, rfl, hfront, hword⟩
    · rintro ⟨front, word, rfl, hfront, hword⟩
      exact ⟨front, hfront, word, hword, rfl⟩
  rw [name, mem_optional_char_mul]
  simp only [hunsigned]

theorem mem_leibniz : w ∈ leibniz ↔
    ∃ of wrt, w = ['d', of, '/', 'd', wrt] ∧ of.isAlpha = true ∧ wrt.isAlpha = true := by
  simp only [leibniz, mem_char_mul, isClass_letter.mem_mul, isClass_letter _]
  constructor
  · rintro ⟨_, ⟨of, _, rfl, hof, _, ⟨_, ⟨wrt, rfl, hwrt⟩, rfl⟩, rfl⟩, rfl⟩
    exact ⟨of, wrt, rfl, hof, hwrt⟩
  · rintro ⟨of, wrt, rfl, hof, hwrt⟩
    exact ⟨_, ⟨of, _, rfl, hof, _, ⟨_, ⟨wrt, rfl, hwrt⟩, rfl⟩, rfl⟩, rfl⟩

end Pattern

/-! ## The longest start that fits -/

/-- The first `n` characters of a text lie in a language, unless `n` is zero, and no
longer start of the text does. -/
structure LongestStart (L : Language Char) (cs : List Char) (n : Nat) : Prop where
  mem : n ≠ 0 → cs.take n ∈ L
  max : ∀ w ∈ L, w <+: cs → w.length ≤ n

theorem le_runLength (h : ∀ c ∈ w, p c = true) (hstart : w <+: cs) :
    w.length ≤ runLength p cs := by
  obtain ⟨rest, rfl⟩ := hstart
  rw [runLength, List.takeWhile_append_of_pos h, List.length_append]
  exact Nat.le_add_right _ _

theorem longestStart_blank (cs : List Char) :
    LongestStart Pattern.blank cs (runLength isSpace cs) where
  mem h := by
    refine Pattern.mem_blank.mpr ⟨?_, fun _ => of_mem_take_runLength⟩
    rw [take_runLength]
    exact List.ne_nil_of_length_pos (Nat.pos_of_ne_zero h)
  max w hw hstart := le_runLength (Pattern.mem_blank.mp hw).2 hstart

theorem longestStart_char (c : Char) (cs : List Char) :
    LongestStart (Pattern.char c) cs (charLength c cs) where
  mem h := by
    cases cs with
    | nil => exact absurd rfl h
    | cons d cs =>
        rw [charLength] at h ⊢
        split at h
        · next heq => simp [heq]
        · exact absurd rfl h
  max w hw hstart := by
    obtain rfl := Pattern.mem_char.mp hw
    obtain ⟨rest, rfl⟩ := hstart
    simp [charLength]

theorem longestStart_leibniz (cs : List Char) :
    LongestStart Pattern.leibniz cs (leibnizLength cs) where
  mem h := by
    obtain ⟨of, wrt, rest, rfl, hof, hwrt⟩ := exists_of_leibnizLength h
    rw [leibnizLength_eq_five hof hwrt]
    exact Pattern.mem_leibniz.mpr ⟨of, wrt, rfl, hof, hwrt⟩
  max w hw hstart := by
    obtain ⟨of, wrt, rfl, hof, hwrt⟩ := Pattern.mem_leibniz.mp hw
    obtain ⟨rest, rfl⟩ := hstart
    exact Nat.le_of_eq (leibnizLength_eq_five hof hwrt rest).symm

theorem le_decimalLength (h : Plain w) (hstart : w <+: cs) : w.length ≤ decimalLength cs := by
  obtain ⟨rest, rfl⟩ := hstart
  cases h with
  | whole hne hd =>
      have hrun := le_runLength hd (List.prefix_append w rest)
      simp only [decimalLength]
      split
      · split <;> omega
      · exact hrun
  | @pointed ds fs hne hd hfne hf =>
      have hpoint : Stops Char.isDigit ('.' :: (fs ++ rest)) := stops_cons (by decide) _
      have hpart := le_runLength hf (List.prefix_append fs rest)
      have hds := List.length_pos_iff.mpr hne
      have hfs := List.length_pos_iff.mpr hfne
      rw [List.append_assoc, List.cons_append]
      simp only [decimalLength, runLength_append hd hpoint, List.drop_left]
      rw [if_neg (by omega), List.length_append, List.length_cons]
      omega

/-- A number or a name without a sign is a start of all that is found of its kind. -/
theorem IsUnsigned.length_le {kind : Kind} (h : IsUnsigned kind w) (hstart : w <+: cs) :
    w.length ≤ kind.matchLength cs := by
  match kind with
  | .number =>
      have hdecimal := le_decimalLength h hstart
      obtain ⟨c, more, rfl, hc⟩ := IsUnsigned.exists_cons h
      obtain ⟨rest, rfl⟩ := hstart
      rw [List.length_cons] at hdecimal ⊢
      simp only [Kind.matchLength, numberLength, List.cons_append, signLength_of_ne hc,
        List.drop_zero] at hdecimal ⊢
      rw [if_neg (by omega)]
      omega
  | .name =>
      obtain ⟨front, word, rfl, hfront, c, tail, rfl, hc, htail⟩ := h
      obtain ⟨rest, rfl⟩ := hstart
      have hrun := le_runLength htail (List.prefix_append tail rest)
      rw [List.append_assoc, List.cons_append, Kind.matchLength,
        nameLength_append (hfront.imp id Signed.plain) hc, List.length_append, List.length_cons]
      omega

/-- Numbers and names are found with a sign if they are found without one. -/
theorem longestStart_signed (kind : Kind)
    (hpattern : ∀ w, w ∈ kind.pattern ↔
      IsUnsigned kind w ∨ ∃ u, IsUnsigned kind u ∧ w = '-' :: u)
    (hminus : ∀ cs, signLength cs = 0 → kind.matchLength ('-' :: cs) =
      if kind.matchLength cs = 0 then 0 else kind.matchLength cs + 1)
    (hfound : ∀ more rest, ('-' :: more).take (kind.matchLength ('-' :: more)) = '-' :: rest →
      IsUnsigned kind rest) (cs : List Char) :
    LongestStart kind.pattern cs (kind.matchLength cs) where
  mem h := by
    refine (hpattern _).mpr ?_
    rcases signLength_cases cs with ⟨more, rfl, -⟩ | hsign
    · have htake := List.take_cons (a := '-') (l := more) (Nat.pos_of_ne_zero h)
      exact Or.inr ⟨_, hfound more _ htake, htake⟩
    · have hlen := hminus cs hsign
      rw [if_neg h] at hlen
      exact Or.inl (hfound cs _ (by rw [hlen, List.take_succ_cons]))
  max w hw hstart := by
    rcases (hpattern w).mp hw with h | ⟨u, hu, rfl⟩
    · exact h.length_le hstart
    · obtain ⟨rest, rfl⟩ := hstart
      have hlen := hu.length_le (List.prefix_append u rest)
      obtain ⟨c, more, rfl, hc⟩ := hu.exists_cons
      have hsign : signLength (c :: more ++ rest) = 0 := signLength_of_ne hc _
      rw [List.length_cons] at hlen
      rw [List.cons_append, hminus _ hsign, if_neg (by omega), List.length_cons, List.length_cons]
      exact Nat.succ_le_succ hlen

/-- What is found of a kind is the longest start that lies in its pattern. -/
theorem Kind.longestStart_matchLength (k : Kind) (cs : List Char) :
    LongestStart k.pattern cs (k.matchLength cs) := by
  cases k with
  | blank => exact longestStart_blank cs
  | operator op => exact longestStart_char op.symbol cs
  | openParen => exact longestStart_char '(' cs
  | closeParen => exact longestStart_char ')' cs
  | number =>
      refine longestStart_signed .number (fun w => ?_) (fun _ => numberLength_minus)
        (fun _ _ => isUnsigned_number) cs
      rw [pattern, Pattern.mem_number]
      constructor
      · rintro (h | h)
        · exact Or.inl h
        · exact Or.inr ⟨_, h, rfl⟩
      · rintro (h | ⟨u, h, rfl⟩)
        · exact .plain h
        · exact .minus h
  | name =>
      exact longestStart_signed .name (fun _ => Pattern.mem_name) (fun _ => nameLength_minus)
        (fun _ _ => isUnsigned_name) cs
  | leibniz => exact longestStart_leibniz cs
  | symbol => exact ⟨fun h => absurd rfl h, fun w hw => absurd hw (Language.notMem_zero w)⟩

/-! ## No text in two patterns -/

theorem Kind.matchLength_eq_length {k : Kind} (h : w ∈ k.pattern) : k.matchLength w = w.length := by
  refine Nat.le_antisymm ?_ ((k.longestStart_matchLength w).max w h List.prefix_rfl)
  cases w with
  | nil => cases k <;> exact Nat.le_refl 0
  | cons c w => exact matchLength_le_length k (List.cons_ne_nil c w)

/-- What lies in a pattern is one token when it stands alone. -/
theorem next_of_mem_pattern {k : Kind} (h : w ∈ k.pattern) : next w = ⟨k, w.length⟩ := by
  have hlen := Kind.matchLength_eq_length h
  cases k with
  | blank =>
      obtain ⟨hne, hspaces⟩ := Pattern.mem_blank.mp h
      obtain ⟨c, w, rfl⟩ := List.exists_cons_of_ne_nil hne
      rw [next_of_isSpace (hspaces c List.mem_cons_self), ← hlen]
      rfl
  | operator op =>
      obtain rfl := Pattern.mem_char.mp h
      cases op <;> decide
  | openParen =>
      obtain rfl := Pattern.mem_char.mp h
      exact next_openParen []
  | closeParen =>
      obtain rfl := Pattern.mem_char.mp h
      exact next_closeParen []
  | number =>
      have hnext : next (w ++ []) = ⟨.number, w.length⟩ :=
        next_number (Pattern.mem_number.mp h) trivial
      rwa [List.append_nil] at hnext
  | name =>
      rcases Pattern.mem_name.mp h with hw | ⟨u, -, rfl⟩
      · have hnext : next (w ++ []) = ⟨.name, w.length⟩ := next_unsigned hw trivial
        rwa [List.append_nil] at hnext
      · rw [Kind.matchLength] at hlen
        rw [← hlen]
        exact next_of_nameLength (Or.inr (Or.inr rfl)) (leibnizLength_of_ne (by decide) u)
          (by rw [hlen]; exact Nat.succ_ne_zero _)
  | leibniz =>
      obtain ⟨of, wrt, rfl, hof, hwrt⟩ := Pattern.mem_leibniz.mp h
      exact next_leibniz hof hwrt []
  | symbol => exact absurd h (Language.notMem_zero w)

theorem Kind.eq_of_mem_pattern {k k' : Kind} (h : w ∈ k.pattern) (h' : w ∈ k'.pattern) : k = k' :=
  congrArg Match.kind ((next_of_mem_pattern h).symm.trans (next_of_mem_pattern h'))

/-! ## Maximal munch -/

/-- The token that a text begins with, if as much is taken off as fits any pattern. -/
inductive Munches (cs : List Char) : Kind → List Char → Prop where
  | fits {kind : Kind} {lexeme : List Char} (hne : lexeme ≠ []) (hstart : lexeme <+: cs)
      (hfits : lexeme ∈ kind.pattern)
      (hlongest : ∀ (k : Kind), ∀ w ∈ k.pattern, w <+: cs → w.length ≤ lexeme.length) :
      Munches cs kind lexeme
  | symbol {c : Char} {rest : List Char} (hcs : cs = c :: rest)
      (hnone : ∀ (k : Kind), ∀ w ∈ k.pattern, w <+: cs → w = []) : Munches cs .symbol [c]

/-- A text begins with one token only. -/
theorem Munches.unique {kind kind' : Kind} {lexeme lexeme' : List Char}
    (h : Munches cs kind lexeme) (h' : Munches cs kind' lexeme') :
    kind = kind' ∧ lexeme = lexeme' := by
  cases h with
  | fits hne hstart hfits hlongest =>
      cases h' with
      | fits hne' hstart' hfits' hlongest' =>
          have hlen : lexeme.length = lexeme'.length :=
            Nat.le_antisymm (hlongest' kind lexeme hfits hstart)
              (hlongest kind' lexeme' hfits' hstart')
          obtain rfl : lexeme = lexeme' := by
            rw [List.prefix_iff_eq_take.mp hstart, hlen, ← List.prefix_iff_eq_take.mp hstart']
          exact ⟨Kind.eq_of_mem_pattern hfits hfits', rfl⟩
      | symbol hcs hnone => exact absurd (hnone kind lexeme hfits hstart) hne
  | symbol hcs hnone =>
      cases h' with
      | fits hne' hstart' hfits' hlongest' => exact absurd (hnone kind' lexeme' hfits' hstart') hne'
      | symbol hcs' hnone' =>
          rw [hcs] at hcs'
          exact ⟨rfl, congrArg ([·]) (List.cons.inj hcs').1⟩

/-- A token is one on its own too: all that it could begin with, the text begins with. -/
theorem Munches.alone {kind : Kind} {lexeme : List Char} (h : Munches cs kind lexeme) :
    Munches lexeme kind lexeme := by
  cases h with
  | fits hne hstart hfits hlongest =>
      exact .fits hne List.prefix_rfl hfits fun k w hw hw' => hlongest k w hw (hw'.trans hstart)
  | @symbol c rest hcs hnone =>
      have hstart : [c] <+: cs := ⟨rest, hcs.symm⟩
      exact .symbol rfl fun k w hw hw' => hnone k w hw (hw'.trans hstart)

theorem length_le_longest (cs : List Char) (best : Match) (kinds : List Kind) :
    best.length ≤ (longest cs best kinds).length ∧
      ∀ k ∈ kinds, k.matchLength cs ≤ (longest cs best kinds).length := by
  induction kinds generalizing best with
  | nil => exact ⟨Nat.le_refl _, fun _ hk => absurd hk List.not_mem_nil⟩
  | cons k kinds ih =>
      obtain ⟨hbest, hkinds⟩ := ih (if best.length < k.matchLength cs then ⟨k, k.matchLength cs⟩
        else best)
      rw [longest]
      split at hbest
      · next hlt =>
          rw [if_pos hlt] at hkinds ⊢
          exact ⟨Nat.le_of_lt (Nat.lt_of_lt_of_le hlt hbest),
            List.forall_mem_cons.mpr ⟨hbest, hkinds⟩⟩
      · next hle =>
          rw [if_neg hle] at hkinds ⊢
          exact ⟨hbest,
            List.forall_mem_cons.mpr ⟨Nat.le_trans (Nat.not_lt.mp hle) hbest, hkinds⟩⟩

theorem mem_patterns {k : Kind} (h : k ≠ .symbol) : k ∈ Kind.patterns := by
  cases k with
  | operator op => cases op <;> decide
  | symbol => exact absurd rfl h
  | blank | openParen | closeParen | number | name | leibniz => decide

/-- No start of a text that lies in a pattern is longer than the longest match. -/
theorem length_le_of_mem_pattern {k : Kind} (hw : w ∈ k.pattern) (hstart : w <+: cs) :
    w.length ≤ (longest cs ⟨.symbol, 0⟩ Kind.patterns).length := by
  have hk : k ≠ .symbol := by
    rintro rfl
    exact Language.notMem_zero w hw
  exact Nat.le_trans ((k.longestStart_matchLength cs).max w hw hstart)
    ((length_le_longest cs _ Kind.patterns).2 k (mem_patterns hk))

/-- The next token is what maximal munch takes off. -/
theorem munches_next (hne : cs ≠ []) : Munches cs (next cs).kind (cs.take (next cs).length) := by
  have hmax {k : Kind} {w : List Char} (hw : w ∈ k.pattern) (hstart : w <+: cs) :
      w.length ≤ (longest cs ⟨.symbol, 0⟩ Kind.patterns).length :=
    length_le_of_mem_pattern hw hstart
  rw [next]
  split
  · next hzero =>
      obtain ⟨c, rest, rfl⟩ := List.exists_cons_of_ne_nil hne
      rw [hzero] at hmax
      exact .symbol rfl fun k w hw hstart =>
        List.length_eq_zero_iff.mp (Nat.le_zero.mp (hmax hw hstart))
  · next hpos =>
      rcases longest_cases cs ⟨.symbol, 0⟩ Kind.patterns with hl | ⟨k, -, hl⟩
      · rw [hl] at hpos
        exact absurd rfl hpos
      · have hle : k.matchLength cs ≤ cs.length := matchLength_le_length k hne
        simp only [hl] at hpos hmax ⊢
        refine .fits ?_ (List.take_prefix _ cs) ((k.longestStart_matchLength cs).mem hpos) ?_
        · exact List.ne_nil_of_length_pos (by rw [List.length_take]; omega)
        · intro k' w hw hstart
          rw [List.length_take, Nat.min_eq_left hle]
          exact hmax hw hstart

-- No digit follows the point of `1.x`, so the number ends in front of it.
example : next ['1', '.', 'x'] = ⟨.number, 1⟩ := by decide

-- A derivative has been begun, but the name is all there is.
example : next ['d', 'y', '/', 'd'] = ⟨.name, 2⟩ := by decide

/-! ## All tokens of a text -/

theorem Cuts.flatMap_lexeme {start : Nat} {ts : List Token} (h : Cuts start cs ts) :
    ts.flatMap (·.lexeme) = cs := by
  induction h with
  | nil start => rfl
  | cons hne hstop h ih => rw [List.flatMap_cons, ih]

theorem munches_of_scanFrom (offset : Nat) (cs : List Char) :
    ∀ before t after, scanFrom offset cs = before ++ t :: after →
      ∃ rest, cs = before.flatMap (·.lexeme) ++ rest ∧
        t.span.start = offset + Text.byteLength (before.flatMap (·.lexeme)) ∧
        Munches rest t.kind t.lexeme := by
  induction offset, cs using scanFrom.induct with
  | case1 offset =>
      intro before t after h
      rw [scanFrom] at h
      exact absurd h.symm (by simp)
  | case2 offset c rest m lexeme stop ih =>
      intro before t after h
      rw [scanFrom] at h
      cases before with
      | nil =>
          obtain ⟨rfl, -⟩ := List.cons.inj h
          exact ⟨c :: rest, rfl, rfl, munches_next (List.cons_ne_nil c rest)⟩
      | cons first before =>
          obtain ⟨rfl, hrest⟩ := List.cons.inj h
          obtain ⟨more, hmore, hstart, hmunch⟩ := ih before t after hrest
          refine ⟨more, ?_, ?_, hmunch⟩
          · rw [List.flatMap_cons, List.append_assoc, ← hmore, List.take_append_drop]
          · rw [hstart, List.flatMap_cons, Text.byteLength_append, ← Nat.add_assoc]

/-- A text is cut by maximal munch: its tokens are its parts in their order, each of
them is the longest start of the text from its position on that lies in any pattern,
with the kind of that pattern, or a symbol of one character if none does, and no text
lies in the patterns of two kinds. -/
theorem scan_munches (cs : List Char) :
    (scan cs).flatMap (·.lexeme) = cs ∧
    (∀ before t after, scan cs = before ++ t :: after →
      ∃ rest, cs = before.flatMap (·.lexeme) ++ rest ∧
        t.span.start = Text.byteLength (before.flatMap (·.lexeme)) ∧
        Munches rest t.kind t.lexeme) ∧
    ∀ (k k' : Kind) (w : List Char), w ∈ k.pattern → w ∈ k'.pattern → k = k' := by
  refine ⟨(cuts_scan 0 cs).flatMap_lexeme, fun before t after h => ?_,
    fun k k' w => Kind.eq_of_mem_pattern⟩
  obtain ⟨rest, hrest, hstart, hmunch⟩ := munches_of_scanFrom 0 cs before t after h
  rw [Nat.zero_add] at hstart
  exact ⟨rest, hrest, hstart, hmunch⟩

end Fluxion.Token
