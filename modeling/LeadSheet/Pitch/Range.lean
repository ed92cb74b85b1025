import LeadSheet.Pitch.Degree

/-!
# Ranges of pitch classes and degrees

Pitch classes and degrees made from plain numbers.  A number outside its range
is refused by name.
-/

namespace LeadSheet

/-- A number that is no pitch class, no degree or no accidental. -/
inductive PitchFault where
  | pitchClass (n : Int)
  | degree (n : Int)
  | accidental (n : Int)
deriving DecidableEq

def PitchFault.message : PitchFault → String
  | pitchClass n => "pitch class out of range: " ++ toString n
  | degree n => "degree out of range: " ++ toString n
  | accidental n => "unsupported degree accidental: " ++ toString n

/-- The pitch class with a number below twelve. -/
def PitchClass.ofInt? (n : Int) (spelling : Option String := none) : Option PitchClass :=
  if 0 ≤ n ∧ n < 12 then some ⟨PitchClass.wrap n, spelling⟩ else none

def PitchClass.ofNumber (n : Int) (spelling : Option String) : Except PitchFault PitchClass :=
  match PitchClass.ofInt? n spelling with
  | some p => .ok p
  | none => .error (.pitchClass n)

theorem toNat_sub_one_lt {number : Int} (h : 1 ≤ number ∧ number ≤ 7) :
    (number - 1).toNat < 7 := by
  omega

/-- The degree with a number from one to seven and an accidental of at most a
semitone. -/
def Degree.ofNumbers (number accidental : Int) (borrowed : Bool) : Except PitchFault Degree :=
  if h : 1 ≤ number ∧ number ≤ 7 then
    match Accidental.ofOffset? accidental with
    | some a => .ok ⟨⟨(number - 1).toNat, toNat_sub_one_lt h⟩, a, borrowed⟩
    | none => .error (.accidental accidental)
  else .error (.degree number)

end LeadSheet
