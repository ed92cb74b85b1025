import LeadSheet.Settings.Basic

/-!
# Faults of settings

What goes wrong where settings are read.  Most faults are told in words; a
value of the wrong kind and one that is too large for any number are not, as
nothing that stands in a settings file by mistake is expected to be either.
-/

namespace LeadSheet

inductive SettingsFault where
  /-- Names that are no settings. -/
  | unknown (names : List String)
  | outOfRange (setting : Setting) (highest : Nat) (value : String)
  | beatDuration (value : String)
  | voicing (name : String)
  | timeSignature (numerator denominator : String)
  /-- A text that is no whole number. -/
  | notWhole (points : List Nat)
  /-- A whole number that is read has too many digits. -/
  | tooManyDigits (digits : Nat)
  /-- A whole number that has to be shown has too many digits. -/
  | unwritable
  /-- A value that is no number has no whole number near it. -/
  | nan
  | tooFewParts (count : Nat)
  | tooManyParts
  /-- A value of the wrong kind. -/
  | wrongKind
  /-- A value too large for any number. -/
  | tooLarge
deriving DecidableEq

/-- How a text that is no number is shown: quoted, and cut off if it is long. -/
def shownLiteral (points : List Nat) : String :=
  String.ofList ((Text.quotedPoints points).toList.take 200)

def SettingsFault.message? : SettingsFault → Option String
  | unknown names => some ("unknown setting(s): " ++ String.intercalate ", " names)
  | outOfRange x highest value =>
    some (x.name ++ " must be within 0-" ++ toString highest ++ ", got " ++ value)
  | beatDuration value => some ("beat_duration must be finite and positive, got " ++ value)
  | voicing name => some (Strategy.unsupported name)
  | timeSignature numerator denominator =>
    some ("invalid time signature " ++ numerator ++ "/" ++ denominator)
  | notWhole points => some ("invalid literal for int() with base 10: " ++ shownLiteral points)
  | tooManyDigits digits =>
    some ("Exceeds the limit (4300 digits) for integer string conversion: value has "
      ++ toString digits ++ " digits; use sys.set_int_max_str_digits() to increase the limit")
  | unwritable =>
    some ("Exceeds the limit (4300 digits) for integer string conversion; "
      ++ "use sys.set_int_max_str_digits() to increase the limit")
  | nan => some "cannot convert float NaN to integer"
  | tooFewParts count =>
    some ("not enough values to unpack (expected 2, got " ++ toString count ++ ")")
  | tooManyParts => some "too many values to unpack (expected 2)"
  | wrongKind => none
  | tooLarge => none

end LeadSheet
