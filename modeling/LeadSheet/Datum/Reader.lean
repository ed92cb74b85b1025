import LeadSheet.Chord.Reader
import LeadSheet.Text.Space

/-!
# Data

A datum is an atom or a list of data, with the place it starts at.  This is the
bracketed notation of scores: `(score (C F) (keyed D (I IV)))`.

The text of a datum is cut into parentheses and atoms.  Blanks separate atoms
and are dropped, and so is everything from a semicolon to the end of its line;
`length_takeAtom_le` bounds what is left after an atom.

A text holds exactly one datum.  Its pieces are taken one by one while the
lists that are still open are kept, the innermost first.  Nothing may follow
the datum, and every parenthesis needs its counterpart.
-/

namespace LeadSheet

inductive Datum where
  | atom (s : Source)
  | list (line column : Int) (items : List Datum)

namespace Datum

def line : Datum → Int
  | atom s => s.line
  | list line _ _ => line

def column : Datum → Int
  | atom s => s.column
  | list _ column _ => column

def startsWith (word : String) : List Datum → Bool
  | atom s :: _ => s.text = word.toList
  | _ => false

end Datum

/-! ### Pieces -/

open Text

inductive DatumLexeme where
  | opening (line column : Int)
  | closing (line column : Int)
  | atom (s : Source)

namespace DatumLexeme

def text : DatumLexeme → List Char
  | opening .. => ['(']
  | closing .. => [')']
  | atom s => s.text

def line : DatumLexeme → Int
  | opening line _ => line
  | closing line _ => line
  | atom s => s.line

def column : DatumLexeme → Int
  | opening _ column => column
  | closing _ column => column
  | atom s => s.column

end DatumLexeme

def endsAtom (c : Char) : Bool :=
  isBlank c || c = '(' || c = ')' || c = ';'

theorem length_takeAtom_le (cs : List Char) :
    (cs.dropWhile fun c => !endsAtom c).length ≤ cs.length :=
  (List.dropWhile_sublist _).length_le

/-- The pieces of what is left of a line, from a column on. -/
def lexDatumLine (line column : Int) (cs : List Char) : List DatumLexeme :=
  match cs with
  | [] => []
  | c :: cs =>
    if isBlank c then lexDatumLine line (column + 1) cs
    else if c = ';' then []
    else if c = '(' then .opening line column :: lexDatumLine line (column + 1) cs
    else if c = ')' then .closing line column :: lexDatumLine line (column + 1) cs
    else
      let tail := cs.takeWhile fun c => !endsAtom c
      .atom ⟨c :: tail, line, column⟩
        :: lexDatumLine line (column + 1 + tail.length) (cs.dropWhile fun c => !endsAtom c)
termination_by cs.length
decreasing_by
  · exact Nat.lt_succ_self _
  · exact Nat.lt_succ_self _
  · exact Nat.lt_succ_self _
  · exact Nat.lt_succ_of_le (length_takeAtom_le _)

/-- The pieces of lines that are counted from a number on. -/
def lexDatumLines (line : Int) : List (List Char) → List DatumLexeme
  | [] => []
  | cs :: rest => lexDatumLine line 1 cs ++ lexDatumLines (line + 1) rest

def lexDatum (text : String) : List DatumLexeme :=
  lexDatumLines 1 (lines text.toList)

/-! ### Reading -/

structure OpenList where
  line : Int
  column : Int
  items : List Datum

/-- The lists that are open, and the datum once it is complete. -/
structure DatumReader where
  openLists : List OpenList := []
  result : Option Datum := none

def DatumLexeme.fault (l : DatumLexeme) (cause : Cause) : ReadFault :=
  .misreading ⟨cause, l.line, l.column, String.ofList l.text⟩

namespace DatumReader

/-- Adds a datum to the innermost open list; without one it is the result. -/
def add (openLists : List OpenList) (d : Datum) : DatumReader :=
  match openLists with
  | [] => ⟨[], some d⟩
  | l :: ls => ⟨{ l with items := l.items ++ [d] } :: ls, none⟩

def take (r : DatumReader) (l : DatumLexeme) : Except ReadFault DatumReader :=
  match r.result with
  | some _ => .error (l.fault (.afterDatum (String.ofList l.text)))
  | none =>
    match l with
    | .opening line column => .ok ⟨⟨line, column, []⟩ :: r.openLists, none⟩
    | .closing .. =>
      match r.openLists with
      | [] => .error (l.fault .unopened)
      | o :: os => .ok (add os (.list o.line o.column o.items))
    | .atom s => .ok (add r.openLists (.atom s))

def finish (r : DatumReader) : Except ReadFault Datum :=
  match r.openLists, r.result with
  | o :: _, _ => .error (.misreading ⟨.unclosed, o.line, o.column, "("⟩)
  | [], some d => .ok d
  | [], none => .error (.misreading { cause := .noDatum })

end DatumReader

def Datum.read (text : String) : Except ReadFault Datum := do
  let r ← (lexDatum text).foldlM DatumReader.take {}
  r.finish

end LeadSheet
