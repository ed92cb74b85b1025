import LeadSheet.Pitch.PitchClass

/-!
# Keys

A key is a tonic and one of the seven diatonic modes.  A mode is known by its
scale, the semitones of its seven steps above the tonic; every one of them is a
rotation of the major scale, and `relativeMajor` says by how much.

The signature of a key is that of the relative major, written with sharps
counted up and flats counted down; a tonic that is spelled with an accidental
takes the signature of that side.  The signature decides how the tones of the
key are spelled: with flats if it has flats, and with sharps otherwise.
-/

namespace LeadSheet

/-! ### Modes -/

inductive Mode where
  | major
  | dorian
  | phrygian
  | lydian
  | mixolydian
  | minor
  | locrian
deriving DecidableEq

namespace Mode

/-- The modes in the order of the tonics they have on the white keys. -/
def all : List Mode :=
  [major, dorian, phrygian, lydian, mixolydian, minor, locrian]

/-- The semitones of the seven steps above the tonic. -/
def scale : Mode → List Nat
  | major => [0, 2, 4, 5, 7, 9, 11]
  | dorian => [0, 2, 3, 5, 7, 9, 10]
  | phrygian => [0, 1, 3, 5, 7, 8, 10]
  | lydian => [0, 2, 4, 6, 7, 9, 11]
  | mixolydian => [0, 2, 4, 5, 7, 9, 10]
  | minor => [0, 2, 3, 5, 7, 8, 10]
  | locrian => [0, 1, 3, 5, 6, 8, 10]

def step (m : Mode) (number : Fin 7) : Nat :=
  m.scale.getD number 0

/-- How far the tonic stands above that of the relative major. -/
def relativeMajor : Mode → Nat
  | major => 0
  | dorian => 2
  | phrygian => 4
  | lydian => 5
  | mixolydian => 7
  | minor => 9
  | locrian => 11

def name : Mode → String
  | major => "major"
  | dorian => "dorian"
  | phrygian => "phrygian"
  | lydian => "lydian"
  | mixolydian => "mixolydian"
  | minor => "minor"
  | locrian => "locrian"

def aliases : List (String × Mode) :=
  [("", major), ("maj", major), ("ionian", major), ("m", minor), ("min", minor), ("aeolian", minor)]

def ofName? (s : String) : Option Mode :=
  match aliases.lookup s with
  | some m => some m
  | none => all.find? fun m => m.name == s

end Mode

/-! ### Keys -/

structure Key where
  tonic : PitchClass
  mode : Mode := .major
deriving DecidableEq

namespace Key

def scale (k : Key) : List Nat :=
  k.mode.scale

/-- The signature of the major key on each tone, with six sharps rather than
six flats. -/
def majorSignature (value : Fin 12) : Int :=
  [0, -5, 2, -3, 4, -1, 6, 1, -4, 3, -2, 5].getD value 0

/-- The number of sharps, or of flats below zero, in the signature. -/
def signature (k : Key) : Int :=
  let plain := majorSignature (PitchClass.wrap (k.tonic.value.val - k.mode.relativeMajor))
  if k.tonic.accidentalText = "#" ∧ plain < 0 then plain + 12
  else if k.tonic.accidentalText = "b" ∧ 0 < plain then plain - 12
  else plain

def spell (k : Key) (value : Fin 12) : String :=
  nameIn (if k.signature < 0 then flatNames else sharpNames) value

/-- A pitch class with the spelling it has in a key. -/
def respell (k : Key) (p : PitchClass) : PitchClass :=
  ⟨p.value, some (k.spell p.value)⟩

def text (k : Key) : String :=
  match k.mode with
  | .major => k.tonic.name
  | .minor => k.tonic.name ++ "m"
  | m => k.tonic.name ++ ":" ++ m.name

end Key

end LeadSheet
