import LeadSheet.Settings.Json
import LeadSheet.Settings.Reader
import LeadSheet.Settings.Yaml.Reader
import LeadSheet.Text.Path
import LeadSheet.Text.Space
import LeadSheet.Text.Utf8

/-!
# Settings files

A settings file holds a mapping as JSON, if its suffix says so, or as YAML.  A
file that holds nothing leaves every setting as it is.
-/

namespace LeadSheet

inductive FileFault where
  | encoding (fault : Text.Utf8Fault)
  | json (fault : JsonFault)
  | yaml (fault : Yaml.Fault)
  /-- Something of another kind than a mapping. -/
  | notMapping (kind : String)
  | settings (fault : SettingsFault)
deriving DecidableEq

def Text.Utf8Fault.message (f : Text.Utf8Fault) : String :=
  let place :=
    if f.count = 1 then
      "byte 0x" ++ String.ofList (Text.hexDigits 2 f.byte.toNat) ++ " in position "
        ++ toString f.position
    else
      "bytes in position " ++ toString f.position ++ "-" ++ toString (f.position + f.count - 1)
  "'utf-8' codec can't decode " ++ place ++ ": " ++ f.error.text

def Yaml.Fault.message? : Yaml.Fault → Option String
  | malformed => none
  | noCodePoint => some "chr() arg not in range(0x110000)"
  | tooLarge => none
  | noDigits base => some ("invalid literal for int() with base " ++ toString base ++ ": ''")
  | tooManyDigits digits => (SettingsFault.tooManyDigits digits).message?
  | calendar fault => some fault.message

def FileFault.message? (path : String) : FileFault → Option String
  | encoding fault => some fault.message
  | json fault =>
    match fault.error with
    | .tooManyDigits digits => (SettingsFault.tooManyDigits digits).message?
    | _ => some fault.message
  | yaml fault => fault.message?
  | notMapping kind => some (path ++ ": expected a mapping of settings, got " ++ kind)
  | settings fault => fault.message?

variable {Q : Type} [Quantity Q]

/-- Reads the text of a settings file.  YAML is read piece by piece, so bytes
that are missing at the end are counted from the first of their character. -/
def fileText (json : Bool) (bytes : List UInt8) : Except FileFault (List Char) :=
  match Text.decode bytes with
  | .ok cs => .ok (Text.unifyLineEnds cs)
  | .error fault =>
    if json || fault.error ≠ .unexpectedEnd then .error (.encoding fault)
    else .error (.encoding { fault with position := 0 })

abbrev YamlReader (Q : Type) := List Char → Except Yaml.Fault (Value Q)

def fileValue (readYaml : YamlReader Q) (path : String) (bytes : List UInt8) :
    Except FileFault (Value Q) := do
  let json := pathSuffix path = ".json"
  let cs ← fileText json bytes
  if json then (readJson cs).mapError .json else (readYaml cs).mapError .yaml

def fileFields (readYaml : YamlReader Q) (path : String) (bytes : List UInt8) :
    Except FileFault (List (Value Q × Value Q)) := do
  match ← fileValue readYaml path bytes with
  | .null => pure []
  | .mapping fields => pure fields
  | v => .error (.notMapping v.kind)

/-- Reads the settings of a file, given what reads YAML. -/
def Settings.ofFileWith (readYaml : YamlReader Q) (path : String) (bytes : List UInt8) :
    Except FileFault (Settings Q) := do
  let fields ← fileFields readYaml path bytes
  (Settings.ofFields fields).mapError .settings

def Settings.ofFile (path : String) (bytes : List UInt8) : Except FileFault (Settings Q) :=
  Settings.ofFileWith Yaml.read path bytes

end LeadSheet
