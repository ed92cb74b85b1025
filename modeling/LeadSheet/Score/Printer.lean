import LeadSheet.Chord.Printer
import LeadSheet.Score.Basic

/-!
# Writing scores

Entries are written in order: a line on its own line, its measures between
bars, and a change of key in front of the first entry under the new key.  Only
an unusual duration is written.

A number of beats is written so that it reads back unchanged: a whole one
without a point, any other as its shortest decimal without an exponent.
-/

namespace LeadSheet

variable {Q : Type} [Quantity Q]

/-- How a quantity that is not whole is written. -/
def Literal.positional : Literal → String
  | .finite d => d.positional
  | .infinite negative => if negative then "-Infinity" else "Infinity"
  | .nan => "NaN"

def beatsText (x : Q) : String :=
  match Quantity.toRat? x with
  | some r => if r.den = 1 then toString r.num else (Quantity.toLiteral x).positional
  | none => (Quantity.toLiteral x).positional

def EntryContent.text : EntryContent → String
  | chord c => c.text
  | tie => "="
  | rest => "_"

def sameQuantity (x y : Q) : Bool :=
  Quantity.atMost x y && Quantity.atMost y x

namespace Entry

def durationText (e : Entry Q) : String :=
  if sameQuantity e.duration usualDuration then "" else ":" ++ beatsText e.duration

def text (e : Entry Q) : String :=
  e.content.text ++ e.durationText

/-- What stands between an entry and the one before it. -/
def separator (previous : Option (Entry Q)) (e : Entry Q) : String :=
  match previous with
  | none => ""
  | some p => if p.line ≠ e.line then "\n" else if p.measure ≠ e.measure then " | " else " "

end Entry

namespace Score

/-- The key in front of an entry, if it is not the one before. -/
def keyMark (s : Score Q) (keyIndex : Nat) (e : Entry Q) : String :=
  if e.keyIndex = keyIndex then ""
  else
    match s.keyOf e with
    | some k => "@" ++ k.text ++ " "
    | none => ""

/-- The text of some entries of a score behind another entry. -/
def entriesText (s : Score Q) (previous : Option (Entry Q)) : List (Entry Q) → String
  | [] => ""
  | e :: es =>
    e.separator previous ++ s.keyMark ((previous.map Entry.keyIndex).getD 0) e ++ e.text
      ++ entriesText s (some e) es

def text (s : Score Q) : String :=
  s.entriesText none s.entries

end Score

end LeadSheet
