import LeadSheet.Pitch.Reader

/-!
# Misreadings

What goes wrong where a score is read.  A `Misreading` has a cause and the
place and text it was found at; every cause belongs to one of five classes,
and a message names place, class and detail.  A `ReadFault` is a misreading, a
fault with a key, or one of two limits of what can be read at all: a
vocabulary that has no quality for a bare root, and a whole number of more
digits than are read.
-/

namespace LeadSheet

/-- The two places of a chord symbol that hold a root. -/
inductive RootPlace where
  | chord
  | bass
deriving DecidableEq

def RootPlace.text : RootPlace → String
  | chord => "chord root"
  | bass => "bass note"

/-- Why a piece of a score cannot be read. -/
inductive Cause where
  | noRoot (place : RootPlace) (fragment : String)
  | nothingToRepeat
  | unknownQuality (fragment : String)
  | unknownDegree (number : String)
  | accidentalAfter (word : String)
  | unclosedGroup (opener : String)
  | emptyGroup
  | notAnExtension (item : String)
  | trailing (fragment : String)
  | notADuration (value : String)
  | durationTooLong (value : String)
  | noDatum
  | afterDatum (lexeme : String)
  | unopened
  | unclosed
  | notAScore
  | notAMeasure (atom : String)
  | notKeyed
  | nestedMeasure
deriving DecidableEq

inductive CauseClass where
  | unrecognizedRoot
  | unknownQuality
  | malformedExtension
  | trailingInput
  | malformedDatum
deriving DecidableEq

def CauseClass.text : CauseClass → String
  | unrecognizedRoot => "unrecognized root"
  | unknownQuality => "unknown quality"
  | malformedExtension => "malformed extension"
  | trailingInput => "trailing input"
  | malformedDatum => "malformed s-expression"

namespace Cause

def toClass : Cause → CauseClass
  | noRoot .. | nothingToRepeat => .unrecognizedRoot
  | unknownQuality _ => .unknownQuality
  | unknownDegree _ | accidentalAfter _ | unclosedGroup _ | emptyGroup | notAnExtension _ =>
    .malformedExtension
  | trailing _ | notADuration _ | durationTooLong _ => .trailingInput
  | noDatum | afterDatum _ | unopened | unclosed | notAScore | notAMeasure _ | notKeyed
  | nestedMeasure => .malformedDatum

open Text (quoted) in
def detail : Cause → String
  | noRoot place fragment =>
    "expected a " ++ place.text ++ " (A-G or I-VII), got " ++ quoted fragment
  | nothingToRepeat => "'%' has no chord to repeat"
  | unknownQuality fragment => "unknown chord quality " ++ quoted fragment
  | unknownDegree number => "unsupported extension degree " ++ number
  | accidentalAfter word => "'" ++ word ++ "' takes no accidental"
  | unclosedGroup opener => "unclosed " ++ quoted opener
  | emptyGroup => "empty extension group"
  | notAnExtension item => "cannot read extension " ++ quoted item
  | trailing fragment => "unexpected " ++ quoted fragment ++ " after chord"
  | notADuration value => "invalid duration " ++ quoted value
  | durationTooLong value => "duration " ++ quoted value ++ " exceeds 1024 beats"
  | noDatum => "empty input, expected (score ...)"
  | afterDatum lexeme => "unexpected " ++ quoted lexeme ++ " after the score"
  | unopened => "unbalanced ')'"
  | unclosed => "unclosed '('"
  | notAScore => "expected (score ...)"
  | notAMeasure atom => "expected a measure list, got " ++ quoted atom
  | notKeyed => "expected (keyed <tonic> <measure>)"
  | nestedMeasure => "measures cannot nest lists other than (keyed ...)"

end Cause

/-- A cause with the line and column it was found at and the text found
there. -/
structure Misreading where
  cause : Cause
  line : Int := 1
  column : Int := 1
  text : String := ""
deriving DecidableEq

def Misreading.message (m : Misreading) : String :=
  toString m.line ++ ":" ++ toString m.column ++ ": " ++ m.cause.toClass.text ++ ": "
    ++ m.cause.detail

/-- Why a score could not be read. -/
inductive ReadFault where
  | misreading (m : Misreading)
  | key (fault : KeyFault)
  | noPlainQuality
  | numberTooLong (digits : Nat)
deriving DecidableEq

def ReadFault.message? : ReadFault → Option String
  | misreading m => some m.message
  | key fault => some fault.message
  | _ => none

end LeadSheet
