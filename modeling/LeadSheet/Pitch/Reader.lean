import LeadSheet.Pitch.Degree
import LeadSheet.Text.Lowercase
import LeadSheet.Text.Quoted
import LeadSheet.Text.Space

/-!
# Reading pitch names and keys

A pitch name is a letter with at most one accidental.  A key is a pitch name
and a mode, with blanks and colons between them: `C`, `F#m`, `Bb:dorian`,
`D minor`.  A capital `M` on its own is the major mode; apart from that, modes
are read in any case.

A `KeyFault` says what goes wrong where a key is read or needed: a text that
names no pitch, no key or no mode, and a root that has to be placed in a key
when none is in effect.
-/

namespace LeadSheet

/-! ### Faults with keys -/

inductive KeyFault where
  | notPitchName (text : String)
  | notKey (text : String)
  | unknownMode (mode text : String)
  | degreeNeedsKey (degree : Degree)
  | pitchNeedsKey (pitch : PitchClass)
  | degreeHasNoPitch (degree : Degree)
  | located (line column : Int) (cause : KeyFault)
deriving DecidableEq

namespace KeyFault

def message : KeyFault → String
  | notPitchName text => "not a pitch name: " ++ Text.quoted text
  | notKey text => "unsupported key: " ++ Text.quoted text
  | unknownMode mode text =>
    "unsupported mode " ++ Text.quoted mode ++ " in key " ++ Text.quoted text
  | degreeNeedsKey degree => "degree " ++ degree.numeral ++ " needs a key to resolve"
  | pitchNeedsKey pitch => "cannot express " ++ pitch.name ++ " as a degree without a key"
  | degreeHasNoPitch degree => "cannot resolve degree " ++ degree.numeral ++ " without a key"
  | located line column cause => toString line ++ ":" ++ toString column ++ ": " ++ cause.message

end KeyFault

/-! ### Reading -/

open Text

def PitchClass.read (text : String) : Except KeyFault PitchClass :=
  match takeName (trim text.toList) with
  | some (p, []) => .ok p
  | _ => .error (.notPitchName text)

/-- The part of a key after its tonic that names the mode. -/
def modePart (cs : List Char) : List Char :=
  trim ((trim cs).dropWhile (· = ':'))

def readMode (text : String) (cs : List Char) : Except KeyFault Mode :=
  if modePart cs = ['M'] then .ok .major
  else
    let name := String.ofList (lower (modePart cs))
    match Mode.ofName? name with
    | some m => .ok m
    | none => .error (.unknownMode name text)

/-- Reads a key, blanks around it allowed; it is written on one line. -/
def Key.read (text : String) : Except KeyFault Key :=
  match PitchClass.takeName (trim text.toList) with
  | none => .error (.notKey text)
  | some (tonic, rest) =>
    if '\n' ∈ rest then .error (.notKey text)
    else (readMode text rest).map fun mode => ⟨tonic, mode⟩

end LeadSheet
