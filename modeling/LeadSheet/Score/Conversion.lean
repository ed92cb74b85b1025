import LeadSheet.Chord.Root
import LeadSheet.Score.Basic

/-!
# Pitches and degrees in a score

A score can be written with degrees throughout or with pitches throughout.
Every chord is converted under its own key, so what follows a change of key
refers to the new tonic.  Nothing but roots and basses changes, and a chord
whose key is missing stops the conversion, its bass before its root.
-/

namespace LeadSheet

/-- A way to write roots under a key. -/
abbrev RootConversion := Option Key → Root → Except KeyFault Root

def Chord.convert (f : RootConversion) (key : Option Key) (c : Chord) : Except KeyFault Chord := do
  let bass ← c.bass.mapM (f key)
  let root ← f key c.root
  pure { c with root, bass }

variable {Q : Type}

def Entry.convert (f : RootConversion) (key : Option Key) (e : Entry Q) :
    Except KeyFault (Entry Q) :=
  match e.content with
  | .chord c => (c.convert f key).map fun c => { e with content := .chord c }
  | _ => .ok e

namespace Score

def convert (f : RootConversion) (s : Score Q) : Except KeyFault (Score Q) :=
  (s.entries.mapM fun (e : Entry Q) => e.convert f (s.keyOf e)).map fun entries =>
    { s with entries }

def toDegrees (s : Score Q) : Except KeyFault (Score Q) :=
  s.convert Root.toDegree

def toPitches (s : Score Q) : Except KeyFault (Score Q) :=
  s.convert Root.toPitch

end Score

end LeadSheet
