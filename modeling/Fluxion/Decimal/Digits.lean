/-!
# Decimal digits

A natural number and its decimal digits, and positional notation: the digits
of `n · 10 ^ e` written out in full, with a point where one is needed and never
an exponent.

Writing and reading undo each other: `value_digits`.
-/

namespace Fluxion.Decimal

/-- The digits of `n`, most significant first, with no leading zero. -/
def digits (n : Nat) : List Char :=
  Nat.toDigits 10 n

/-- The number that a row of digits stands for. -/
def value (ds : List Char) : Nat :=
  Nat.ofDigitChars 10 ds 0

@[simp] theorem value_digits (n : Nat) : value (digits n) = n :=
  Nat.ofDigitChars_ten_toDigits

theorem isDigit_of_mem_digits {n : Nat} {c : Char} (h : c ∈ digits n) : c.isDigit = true :=
  Nat.isDigit_of_mem_toDigits (by decide) (by decide) h

theorem digits_ne_nil (n : Nat) : digits n ≠ [] :=
  Nat.toDigits_ne_nil

/-- The number `n / 10 ^ places`, with exactly `places` digits behind the point,
and no point when there are none. -/
def pointed (places n : Nat) : List Char :=
  if places = 0 then digits n
  else
    let unit := Nat.pow 10 places
    digits (n / unit) ++ '.' :: (digits (n % unit)).leftpad places '0'

/-- The number `n · 10 ^ exponent`, written out. -/
def positional (n : Nat) (exponent : Int) : List Char :=
  pointed (-exponent).toNat (n * Nat.pow 10 exponent.toNat)

example : positional 125 (-2) = ['1', '.', '2', '5'] := by decide

example : positional 5 (-3) = ['0', '.', '0', '0', '5'] := by decide

end Fluxion.Decimal
