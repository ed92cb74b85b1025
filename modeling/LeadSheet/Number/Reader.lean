import LeadSheet.Number.Decimal
import LeadSheet.Text.Space

/-!
# Reading number literals

Two readers, one for whole numbers and one for fractional ones.  Both take
padding around the number, a sign, digits of any script and single underscores
between digits.

* `readWhole` reads a whole number.  A number of more than `maxDigits` digits
  is told apart from a text that is no number at all.
* `readLiteral` reads a fractional number: digits with a point somewhere, an
  exponent, or one of the words for infinity and for no number.

`takeDigits_append` says that reading digits loses nothing.
-/

namespace LeadSheet

open Text

def takeDigits : List Char → List Nat × List Char
  | [] => ([], [])
  | c :: cs =>
    match digitValue? c with
    | some d =>
      let (ds, rest) := takeDigits cs
      (d :: ds, rest)
    | none => ([], c :: cs)

theorem takeDigits_append {ds : List Nat} (h : ∀ d ∈ ds, d < 10) {rest : List Char}
    (hr : ∀ c ∈ rest.head?, digitValue? c = none) :
    takeDigits (ds.map digitChar ++ rest) = (ds, rest) := by
  induction ds with
  | nil =>
    cases rest with
    | nil => rfl
    | cons c cs => simp [takeDigits, hr c rfl]
  | cons d ds ih =>
    have hd := digitValue?_digitChar (h d (List.mem_cons_self ..))
    have := ih fun x hx => h x (List.mem_cons_of_mem d hx)
    simp [takeDigits, hd, this]

/-- Whether a character may stand around a number: a blank that is no
information separator. -/
def isPadding (c : Char) : Bool :=
  isBlank c && !(0x1C ≤ c.toNat && c.toNat ≤ 0x1F)

def dropPadding (cs : List Char) : List Char :=
  ((cs.dropWhile isPadding).reverse.dropWhile isPadding).reverse

def startsWithDigit : List Char → Bool
  | [] => false
  | c :: _ => isDigit c

/-- The text without its underscores, if each of them stands between two
digits; `afterDigit` says whether a digit stands before the text. -/
def ungroup (afterDigit : Bool) : List Char → Option (List Char)
  | [] => some []
  | c :: cs =>
    if c = '_' then
      if afterDigit && startsWithDigit cs then ungroup false cs else none
    else (ungroup (isDigit c) cs).map (c :: ·)

/-- Whether a text starts with a minus sign, and what follows its sign. -/
def takeSign : List Char → Bool × List Char
  | '-' :: cs => (true, cs)
  | '+' :: cs => (false, cs)
  | cs => (false, cs)

/-- The longest whole number that is read, in digits. -/
def maxDigits : Nat := 4300

inductive WholeReading where
  | number (n : Int)
  | tooLong (digits : Nat)
  | malformed
deriving DecidableEq

def wholeOfDigits (negative : Bool) (ds : List Nat) : WholeReading :=
  if maxDigits < ds.length then .tooLong ds.length
  else .number (if negative then -(ofDigits ds : Int) else ofDigits ds)

def readWhole (cs : List Char) : WholeReading :=
  match ungroup false (dropPadding cs) with
  | none => .malformed
  | some cs =>
    let (negative, body) := takeSign cs
    match takeDigits body with
    | (d :: ds, []) => wholeOfDigits negative (d :: ds)
    | _ => .malformed

/-- The power of ten after the digits of a literal: nothing, or a marker and a
whole number up to the end of the text. -/
def readExponent : List Char → Option Int
  | [] => some 0
  | c :: cs =>
    if c = 'e' ∨ c = 'E' then
      let (negative, body) := takeSign cs
      match takeDigits body with
      | (d :: ds, []) => some (if negative then -(ofDigits (d :: ds) : Int) else ofDigits (d :: ds))
      | _ => none
    else none

/-- Reads the digits of a literal: at least one, with at most one point among
them, and an exponent after them. -/
def readDecimal (negative : Bool) (cs : List Char) : Option Decimal :=
  let (whole, rest) := takeDigits cs
  let (places, rest) :=
    match rest with
    | '.' :: r => takeDigits r
    | r => ([], r)
  if whole.isEmpty && places.isEmpty then none
  else
    (readExponent rest).map fun e => ⟨negative, ofDigits (whole ++ places), e - places.length⟩

/-- The words that stand for values no decimal reaches. -/
def readSpecial (negative : Bool) (cs : List Char) : Option Literal :=
  let word := cs.map Char.toLower
  if word = "inf".toList ∨ word = "infinity".toList then some (.infinite negative)
  else if word = "nan".toList then some .nan
  else none

/-- Reads a fractional number, padding around it allowed. -/
def readLiteral (cs : List Char) : Option Literal :=
  match ungroup false (dropPadding cs) with
  | none => none
  | some cs =>
    let (negative, body) := takeSign cs
    match readSpecial negative body with
    | some special => some special
    | none => (readDecimal negative body).map .finite

end LeadSheet
