import LeadSheet.Pitch.PitchClass

/-!
# Extensions

An extension adds a tone to a chord, alters one or leaves one out.  It is
named by a step of the chord, counted up to the thirteenth, and every step has
its own tones: where it usually stands, and where it may stand when altered.

A seventh is the minor one, as in chord symbols, except where it is added by
name.
-/

namespace LeadSheet

/-- A step of a chord that an extension can name. -/
inductive ChordStep where
  | second
  | third
  | fourth
  | fifth
  | sixth
  | seventh
  | ninth
  | eleventh
  | thirteenth
deriving DecidableEq

namespace ChordStep

def all : List ChordStep :=
  [second, third, fourth, fifth, sixth, seventh, ninth, eleventh, thirteenth]

def number : ChordStep → Nat
  | second => 2
  | third => 3
  | fourth => 4
  | fifth => 5
  | sixth => 6
  | seventh => 7
  | ninth => 9
  | eleventh => 11
  | thirteenth => 13

def ofNumber? (n : Int) : Option ChordStep :=
  all.find? fun s => (s.number : Int) == n

/-- Where a step usually stands above the root. -/
def semitones : ChordStep → Int
  | second => 2
  | third => 4
  | fourth => 5
  | fifth => 7
  | sixth => 9
  | seventh => 10
  | ninth => 14
  | eleventh => 17
  | thirteenth => 21

/-- Every place a step may stand at. -/
def tones : ChordStep → List Int
  | second => [1, 2]
  | third => [3, 4]
  | fourth => [5, 6]
  | fifth => [6, 7, 8]
  | sixth => [8, 9]
  | seventh => [10, 11]
  | ninth => [13, 14, 15]
  | eleventh => [17, 18]
  | thirteenth => [20, 21]

/-- Where a step stands when shifted, and when added by name if `add` is
set. -/
def interval (s : ChordStep) (shift : Int) (add : Bool) : Int :=
  (if s = seventh ∧ shift = 0 ∧ add then s.semitones + 1 else s.semitones) + shift

/-- How a step is written when shifted, left out or added by name; a shift by
more than a semitone cannot be written. -/
def label? (s : ChordStep) (shift : Int) (leftOut add : Bool) : Option String :=
  if leftOut then some ("omit" ++ toString s.number)
  else if add then some ("add" ++ toString s.number)
  else (Accidental.ofOffset? shift).map fun a => a.symbol ++ toString s.number

theorem ofNumber?_number (s : ChordStep) : ofNumber? s.number = some s := by
  cases s <;> decide

end ChordStep

inductive Change where
  | alter (a : Accidental)
  | add
  | leaveOut
deriving DecidableEq

/-- A tone added to a chord, altered or left out. -/
structure Extension where
  step : ChordStep
  change : Change
deriving DecidableEq

structure ExtensionFault where
  number : Int
deriving DecidableEq

def ExtensionFault.message (f : ExtensionFault) : String :=
  "unsupported extension degree: " ++ toString f.number

/-- The step with a number, or the fault of having none. -/
def ChordStep.ofNumber (n : Int) : Except ExtensionFault ChordStep :=
  match ofNumber? n with
  | some s => .ok s
  | none => .error ⟨n⟩

namespace Extension

def accidental (e : Extension) : Accidental :=
  match e.change with
  | .alter a => a
  | _ => .natural

def omits (e : Extension) : Bool :=
  e.change = .leaveOut

def adds (e : Extension) : Bool :=
  e.change = .add

def interval (e : Extension) : Int :=
  e.step.interval e.accidental.offset e.adds

end Extension

end LeadSheet
