/-!
# Blanks and bytes

The characters that count as blank around an expression are those with the
Unicode property `White_Space`: 25 characters in ten ranges. Positions in a text
are counted in the bytes of its UTF-8 encoding.
-/

namespace Fluxion.Text

/-- The code points of the blanks, as closed ranges, ascending and apart. -/
def blankRanges : List (Nat × Nat) :=
  [(0x09, 0x0d), (0x20, 0x20), (0x85, 0x85), (0xa0, 0xa0), (0x1680, 0x1680),
   (0x2000, 0x200a), (0x2028, 0x2029), (0x202f, 0x202f), (0x205f, 0x205f), (0x3000, 0x3000)]

def isBlank (c : Char) : Bool :=
  blankRanges.any fun r => r.1 ≤ c.toNat && c.toNat ≤ r.2

example : (blankRanges.map fun r => r.2 + 1 - r.1).sum = 25 := by decide

def trimStart (cs : List Char) : List Char :=
  cs.dropWhile isBlank

def trimEnd (cs : List Char) : List Char :=
  (cs.reverse.dropWhile isBlank).reverse

def trim (cs : List Char) : List Char :=
  trimEnd (trimStart cs)

/-- The length of a text in bytes. -/
def byteLength : List Char → Nat
  | [] => 0
  | c :: cs => c.utf8Size + byteLength cs

@[simp] theorem byteLength_nil : byteLength [] = 0 := rfl

@[simp] theorem byteLength_cons (c : Char) (cs : List Char) :
    byteLength (c :: cs) = c.utf8Size + byteLength cs := rfl

@[simp] theorem byteLength_append (as bs : List Char) :
    byteLength (as ++ bs) = byteLength as + byteLength bs := by
  induction as with
  | nil => rw [List.nil_append, byteLength_nil, Nat.zero_add]
  | cons a as ih => rw [List.cons_append, byteLength_cons, byteLength_cons, ih, Nat.add_assoc]

theorem utf8Size_eq_one_of_isAlpha {c : Char} (h : c.isAlpha = true) : c.utf8Size = 1 := by
  refine Char.utf8Size_eq_one_iff.2 ?_
  rcases (Bool.or_eq_true c.isUpper c.isLower).mp h with h | h
  · have bounds : c.val ≥ 'A'.val ∧ c.val ≤ 'Z'.val := of_decide_eq_true h
    exact UInt32.le_trans bounds.2 (by decide)
  · have bounds := (Bool.and_eq_true (decide (c.val ≥ 'a'.val)) (decide (c.val ≤ 'z'.val))).mp h
    exact UInt32.le_trans (of_decide_eq_true bounds.2) (by decide)

end Fluxion.Text
