/-!
# Pitch classes

A tone irrespective of its octave: one of twelve, C first.  A pitch class may
carry the spelling it was written with; without one it is shown with sharps.

* A flat lowers by a semitone, a sharp raises by one.  Both are read in ASCII
  and as musical signs and always written in ASCII; `take_symbol` says that a
  written accidental reads back.
* `wrap` brings any number of semitones into the octave, and `shift` moves a
  pitch class by an interval.
* `interval` is the way up from one pitch class to another.
-/

namespace LeadSheet

/-! ### Accidentals -/

/-- A chromatic shift by at most one semitone. -/
inductive Accidental where
  | flat
  | natural
  | sharp
deriving DecidableEq

namespace Accidental

def offset : Accidental → Int
  | flat => -1
  | natural => 0
  | sharp => 1

def ofOffset? (n : Int) : Option Accidental :=
  if n = -1 then some flat else if n = 0 then some natural else if n = 1 then some sharp else none

/-- How an accidental is written; a natural is not. -/
def symbol : Accidental → String
  | flat => "b"
  | natural => ""
  | sharp => "#"

def ofChar? (c : Char) : Option Accidental :=
  if c = '#' ∨ c = '♯' then some sharp
  else if c = 'b' ∨ c = '♭' then some flat
  else none

/-- The accidental a text starts with, a natural if there is none, and the
rest. -/
def take : List Char → Accidental × List Char
  | [] => (natural, [])
  | c :: cs =>
    match ofChar? c with
    | some a => (a, cs)
    | none => (natural, c :: cs)

/-- A written accidental reads back, whatever follows it, unless it is a
natural before something that looks like an accidental. -/
theorem take_symbol (a : Accidental) {rest : List Char}
    (h : a = natural → ∀ c ∈ rest.head?, ofChar? c = none) :
    take (a.symbol.toList ++ rest) = (a, rest) := by
  cases a with
  | flat => rfl
  | sharp => rfl
  | natural =>
    cases rest with
    | nil => rfl
    | cons c cs => simp [symbol, take, h rfl c rfl]

end Accidental

/-! ### Pitch classes -/

/-- A tone irrespective of its octave, C being zero, with the spelling it was
written with. -/
structure PitchClass where
  value : Fin 12
  spelling : Option String := none
deriving DecidableEq

def sharpNames : List String :=
  ["C", "C#", "D", "D#", "E", "F", "F#", "G", "G#", "A", "A#", "B"]

def flatNames : List String :=
  ["C", "Db", "D", "Eb", "E", "F", "Gb", "G", "Ab", "A", "Bb", "B"]

def nameIn (names : List String) (value : Fin 12) : String :=
  names.getD value ""

namespace PitchClass

/-- The tone some semitones above C. -/
def wrap (n : Int) : Fin 12 :=
  ⟨(n % 12).toNat, by omega⟩

/-- The spelling, or the name with sharps if there is none. -/
def name (p : PitchClass) : String :=
  match p.spelling with
  | some s => if s = "" then nameIn sharpNames p.value else s
  | none => nameIn sharpNames p.value

def accidentalText (p : PitchClass) : String :=
  String.ofList (p.name.toList.drop 1)

/-- The pitch class some semitones higher, without a spelling. -/
def shift (p : PitchClass) (semitones : Int) : PitchClass :=
  ⟨wrap (p.value.val + semitones), none⟩

/-- The semitones from the first pitch class up to the second. -/
def interval (low high : PitchClass) : Fin 12 :=
  wrap (high.value.val - low.value.val)

/-- The pitch class on a letter, and the letter in upper case. -/
def letter? (c : Char) : Option (Char × Fin 12) :=
  match c.toUpper with
  | 'C' => some ('C', 0)
  | 'D' => some ('D', 2)
  | 'E' => some ('E', 4)
  | 'F' => some ('F', 5)
  | 'G' => some ('G', 7)
  | 'A' => some ('A', 9)
  | 'B' => some ('B', 11)
  | _ => none

/-- The pitch class on a letter with an accidental, spelled that way. -/
def spelled (letter : Char) (value : Fin 12) (a : Accidental) : PitchClass :=
  ⟨wrap (value.val + a.offset), some (String.ofList (letter :: a.symbol.toList))⟩

/-- Reads the pitch name that a text starts with, in either case. -/
def takeName : List Char → Option (PitchClass × List Char)
  | [] => none
  | c :: cs =>
    (letter? c).map fun (letter, value) =>
      let (a, rest) := Accidental.take cs
      (spelled letter value a, rest)

/-- Reads the pitch name that a text starts with if its letter is a capital
one. -/
def takeCapital : List Char → Option (PitchClass × List Char)
  | [] => none
  | c :: cs => if c.isUpper then takeName (c :: cs) else none

end PitchClass

end LeadSheet
