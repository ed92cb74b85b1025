import LeadSheet.Chord.Basic

/-!
# Writing chords

A chord is written as its root, the symbol of its quality, its extensions in
parentheses and its bass after a slash.  On a degree the numeral tells a minor
third, so that the shorter suffix of the quality is enough.
-/

namespace LeadSheet

/-- How a root is written, numerals small if `minor` is set. -/
def Root.text (r : Root) (minor : Bool := false) : String :=
  match r with
  | .pitch p => p.name
  | .degree d => d.numeral minor

def Extension.text (e : Extension) : String :=
  match e.change with
  | .alter a => a.symbol ++ toString e.step.number
  | .add => "add" ++ toString e.step.number
  | .leaveOut => "omit" ++ toString e.step.number

namespace Chord

def extensionText (es : List Extension) : String :=
  if es.isEmpty then "" else "(" ++ String.intercalate "," (es.map Extension.text) ++ ")"

def bassText : Option Root → String
  | none => ""
  | some r => "/" ++ r.text

/-- The root and the quality of a chord. -/
def headText (c : Chord) : String :=
  match c.root with
  | .pitch _ => c.root.text ++ c.quality.symbol
  | .degree _ => c.root.text c.quality.minor ++ c.quality.degreeSuffix

def text (c : Chord) : String :=
  c.headText ++ extensionText c.extensions ++ bassText c.bass

end Chord

end LeadSheet
