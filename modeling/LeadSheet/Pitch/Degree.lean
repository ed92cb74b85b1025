import LeadSheet.Pitch.Key
import LeadSheet.Text.Prefix

/-!
# Degrees

A degree is a step of the scale, raised or lowered by at most a semitone, and
written as a Roman numeral.

* `Degree.pitch` is the pitch class that a degree has in a key.
* `Degree.ofPitch` is the degree that a pitch class has in a key: the plain
  step if it is in the scale, and else the step below it, raised, or the step
  above it, lowered.  One of the three always fits
  (`ofInterval?_isSome`).
* `Degree.take` reads a numeral in capital or in small letters, with an
  accidental in front of it.  The longest numeral counts: `VII` is never read
  as `VI` with an `I` after it (`numeralOrder`).
-/

namespace LeadSheet

/-- A step of the scale, counted from zero, with an accidental.  A degree that
is not of the scale is marked as borrowed. -/
structure Degree where
  number : Fin 7
  accidental : Accidental := .natural
  borrowed : Bool := false
deriving DecidableEq

namespace Degree

def numerals : List String :=
  ["I", "II", "III", "IV", "V", "VI", "VII"]

def smallNumerals : List String :=
  ["i", "ii", "iii", "iv", "v", "vi", "vii"]

/-- The numeral of a degree after its accidental, in small letters if `minor`
is set. -/
def numeral (d : Degree) (minor : Bool := false) : String :=
  d.accidental.symbol ++ (if minor then smallNumerals else numerals).getD d.number ""

/-- The pitch class of a degree in a key.  An accidental decides the spelling;
a plain step is spelled as the key has it. -/
def pitch (d : Degree) (k : Key) : PitchClass :=
  let value := PitchClass.wrap (k.tonic.value.val + k.mode.step d.number + d.accidental.offset)
  match d.accidental with
  | .flat => ⟨value, some (nameIn flatNames value)⟩
  | .sharp => ⟨value, some (nameIn sharpNames value)⟩
  | .natural => k.respell ⟨value, none⟩

/-- The degree an interval above the tonic, under one accidental. -/
def withAccidental? (m : Mode) (interval : Fin 12) (a : Accidental) : Option Degree :=
  let step := (PitchClass.wrap (interval.val - a.offset)).val
  ((List.finRange 7).find? fun number => m.step number = step).map fun number =>
    ⟨number, a, a ≠ .natural⟩

/-- The degree an interval above the tonic: a plain one if there is one, a
raised one before a lowered one otherwise. -/
def ofInterval? (m : Mode) (interval : Fin 12) : Option Degree :=
  [Accidental.natural, .sharp, .flat].findSome? (withAccidental? m interval)

/-- Every interval is at most a semitone away from some step. -/
theorem ofInterval?_isSome (m : Mode) (interval : Fin 12) : (ofInterval? m interval).isSome := by
  revert interval; cases m <;> decide

def ofPitch (p : PitchClass) (k : Key) : Degree :=
  (ofInterval? k.mode (k.tonic.interval p)).get (ofInterval?_isSome ..)

theorem step_of_ofInterval? {m : Mode} {interval : Fin 12} {d : Degree}
    (h : ofInterval? m interval = some d) :
    PitchClass.wrap (m.step d.number + d.accidental.offset) = interval := by
  obtain ⟨a, -, ha⟩ := List.exists_of_findSome?_eq_some h
  obtain ⟨number, hn, rfl⟩ := Option.map_eq_some_iff.1 ha
  have hfound : m.step number = (PitchClass.wrap (interval.val - a.offset)).val := by
    simpa using List.find?_some hn
  simp only [PitchClass.wrap] at hfound
  apply Fin.ext
  simp only [PitchClass.wrap]
  omega

end Degree

/-! ### Reading numerals -/

/-- The steps in an order in which no numeral stands before a longer one that
starts with it. -/
def numeralOrder : List (Fin 7) :=
  [6, 5, 3, 4, 2, 1, 0]

def takeNumeralOf (numerals : List String) (cs : List Char) : Option (Fin 7 × List Char) :=
  numeralOrder.findSome? fun (number : Fin 7) =>
    (Text.after? (numerals.getD number "").toList cs).map fun rest => (number, rest)

/-- Reads a numeral in one case; the flag tells small letters. -/
def takeNumeral (cs : List Char) : Option ((Fin 7 × Bool) × List Char) :=
  match takeNumeralOf Degree.numerals cs with
  | some (number, rest) => some ((number, false), rest)
  | none =>
    (takeNumeralOf Degree.smallNumerals cs).map fun (number, rest) => ((number, true), rest)

/-- Reads the degree a text starts with, and whether its numeral is in small
letters.  A degree with an accidental is borrowed. -/
def Degree.take (cs : List Char) : Option ((Degree × Bool) × List Char) :=
  let (a, rest) := Accidental.take cs
  (takeNumeral rest).map fun ((number, small), rest) => ((⟨number, a, a ≠ .natural⟩, small), rest)

end LeadSheet
