/-!
# Decimals

A decimal is a sign, a coefficient and a power of ten.  This is what a number
literal says before anything is rounded, and what a number is reduced to
before it is written.

* Every script has its own ten digits, and a number may be written in any of
  them.  The digits of one script stand in a row from zero to nine, so a table
  of zeros is enough: `digitValue?` looks for the row a character stands in.
  Superscripts and fractions are not digits.
* `digits` and `ofDigits` go between a number and its decimal digits, and
  `ofDigits_digits` says that they agree.
* `Decimal.toRat` is the value, and `Decimal.normalize` drops the zeros at the
  end of the coefficient.
* A `Literal` is a decimal or one of the values that no decimal reaches.
-/

namespace LeadSheet.Text

/-- The zero of every row of decimal digits, ASCII first. -/
def zeros : List Nat :=
  [0x0030, 0x0660, 0x06F0, 0x07C0, 0x0966, 0x09E6, 0x0A66, 0x0AE6, 0x0B66, 0x0BE6, 0x0C66, 0x0CE6,
   0x0D66, 0x0DE6, 0x0E50, 0x0ED0, 0x0F20, 0x1040, 0x1090, 0x17E0, 0x1810, 0x1946, 0x19D0, 0x1A80,
   0x1A90, 0x1B50, 0x1BB0, 0x1C40, 0x1C50, 0xA620, 0xA8D0, 0xA900, 0xA9D0, 0xA9F0, 0xAA50, 0xABF0,
   0xFF10, 0x104A0, 0x10D30, 0x11066, 0x110F0, 0x11136, 0x111D0, 0x112F0, 0x11450, 0x114D0,
   0x11650, 0x116C0, 0x11730, 0x118E0, 0x11950, 0x11C50, 0x11D50, 0x11DA0, 0x16A60, 0x16AC0,
   0x16B50, 0x1D7CE, 0x1D7D8, 0x1D7E2, 0x1D7EC, 0x1D7F6, 0x1E140, 0x1E2F0, 0x1E950, 0x1FBF0]

/-- The value of a decimal digit, or `none` for any other character. -/
def digitValue? (c : Char) : Option Nat :=
  (zeros.find? fun row => row ≤ c.toNat && c.toNat < row + 10).map (c.toNat - ·)

def isDigit (c : Char) : Bool :=
  (digitValue? c).isSome

/-- The ASCII digit worth `n`; meant for `n` below ten. -/
def digitChar (n : Nat) : Char :=
  Char.ofNat ('0'.toNat + n)

theorem digitValue?_digitChar {n : Nat} (h : n < 10) : digitValue? (digitChar n) = some n := by
  have : n = 0 ∨ n = 1 ∨ n = 2 ∨ n = 3 ∨ n = 4 ∨ n = 5 ∨ n = 6 ∨ n = 7 ∨ n = 8 ∨ n = 9 := by
    omega
  rcases this with rfl | rfl | rfl | rfl | rfl | rfl | rfl | rfl | rfl | rfl <;> decide

end LeadSheet.Text

namespace LeadSheet

def digits (n : Nat) : List Nat :=
  if n < 10 then [n] else digits (n / 10) ++ [n % 10]

/-- The number written by a row of decimal digits. -/
def ofDigits (ds : List Nat) : Nat :=
  ds.foldl (fun n d => 10 * n + d) 0

theorem ofDigits_concat (ds : List Nat) (d : Nat) :
    ofDigits (ds ++ [d]) = 10 * ofDigits ds + d := by
  simp [ofDigits]

theorem ofDigits_digits (n : Nat) : ofDigits (digits n) = n := by
  fun_induction digits n with
  | case1 n h => simp [ofDigits]
  | case2 n h ih => rw [ofDigits_concat, ih]; omega

theorem lt_ten_of_mem_digits {n d : Nat} (h : d ∈ digits n) : d < 10 := by
  fun_induction digits n with
  | case1 n hn => simp at h; omega
  | case2 n hn ih =>
    rcases List.mem_append.mp h with h | h
    · exact ih h
    · simp at h; omega

theorem digits_ne_nil (n : Nat) : digits n ≠ [] := by
  rw [digits]; split <;> simp

def digitChars (n : Nat) : List Char :=
  (digits n).map Text.digitChar

/-- A sign, a coefficient and a power of ten. -/
structure Decimal where
  negative : Bool
  coefficient : Nat
  exponent : Int
deriving DecidableEq

namespace Decimal

def toRat (d : Decimal) : Rat :=
  (if d.negative then -1 else 1) * d.coefficient * (10 : Rat) ^ d.exponent

def ofNat (n : Nat) : Decimal :=
  ⟨false, n, 0⟩

/-- The same number with the zeros moved from the end of a positive
coefficient into the exponent. -/
def normalize (negative : Bool) (coefficient : Nat) (exponent : Int) : Decimal :=
  if h : coefficient ≠ 0 ∧ coefficient % 10 = 0 then
    normalize negative (coefficient / 10) (exponent + 1)
  else ⟨negative, coefficient, exponent⟩
termination_by coefficient
decreasing_by omega

theorem normalize_negative (negative : Bool) (coefficient : Nat) (exponent : Int) :
    (normalize negative coefficient exponent).negative = negative := by
  fun_induction normalize negative coefficient exponent with
  | case1 _ _ _ ih => exact ih
  | case2 => rfl

end Decimal

/-- What a number literal may stand for: a decimal, an infinity, or a value
that is no number. -/
inductive Literal where
  | finite (d : Decimal)
  | infinite (negative : Bool)
  | nan
deriving DecidableEq

end LeadSheet
