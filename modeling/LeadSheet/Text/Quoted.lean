import LeadSheet.Text.Printable

/-!
# Quoted text

How a piece of the input is shown inside a message: between quotes, on one
line, with nothing invisible in it.  The quotes are single ones, unless the
text holds a single quote and no double one.  The backslash and the quote in
use are written after a backslash, tab, line feed and carriage return have
their letters, and any other character that cannot be shown is written by its
code point in two, four or eight hexadecimal digits.

An escape can write any code point, and some code points are no characters:
the surrogates, which stand for a character only in pairs.  A row of code
points is a text if all of them are characters (`ofPoints?`); otherwise it can
still be shown, with an escape for what is no character.
-/

namespace LeadSheet.Text

def hexDigit (n : Nat) : Char :=
  Nat.digitChar (n % 16)

/-- The last `width` hexadecimal digits of `n`. -/
def hexDigits : Nat → Nat → List Char
  | 0, _ => []
  | width + 1, n => hexDigits width (n / 16) ++ [hexDigit n]

def escapeChar (quote c : Char) : List Char :=
  if c = quote ∨ c = '\\' then ['\\', c]
  else if c = '\t' then ['\\', 't']
  else if c = '\n' then ['\\', 'n']
  else if c = '\r' then ['\\', 'r']
  else if isPrintable c then [c]
  else if c.toNat < 0x100 then '\\' :: 'x' :: hexDigits 2 c.toNat
  else if c.toNat < 0x10000 then '\\' :: 'u' :: hexDigits 4 c.toNat
  else '\\' :: 'U' :: hexDigits 8 c.toNat

def quoteFor (cs : List Char) : Char :=
  if '\'' ∈ cs ∧ '"' ∉ cs then '"' else '\''

def quoteChars (cs : List Char) : List Char :=
  quoteFor cs :: cs.flatMap (escapeChar (quoteFor cs)) ++ [quoteFor cs]

def quoted (s : String) : String :=
  String.ofList (quoteChars s.toList)

/-! ### Texts of code points -/

def char? (n : Nat) : Option Char :=
  if n.isValidChar then some (Char.ofNat n) else none

def points (s : String) : List Nat :=
  s.toList.map Char.toNat

/-- The text with some code points, if all of them are characters. -/
def ofPoints? (ns : List Nat) : Option String :=
  (ns.mapM char?).map String.ofList

/-- How a code point is shown on its own. -/
def shownPoint (n : Nat) : List Char :=
  match char? n with
  | some c => [c]
  | none => '\\' :: 'u' :: hexDigits 4 n

def shownPoints (ns : List Nat) : String :=
  String.ofList (ns.flatMap shownPoint)

/-- How one code point is written between two quotes. -/
def escapePoint (quote : Char) (n : Nat) : List Char :=
  match char? n with
  | some c => escapeChar quote c
  | none => shownPoint n

def quotedPoints (ns : List Nat) : String :=
  let quote := quoteFor (ns.filterMap char?)
  String.ofList (quote :: ns.flatMap (escapePoint quote) ++ [quote])

end LeadSheet.Text
