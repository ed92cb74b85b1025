import LeadSheet.Chord.Basic
import LeadSheet.Number.Quantity
import LeadSheet.Pitch.Reader
import LeadSheet.Voicing.Note

/-!
# Voicings

A voicing gives a chord its notes.  The tones are stacked up from the root in a
fixed octave; the bass, if there is one, is put into the octave right below
them.

The close voicing leaves the stack where it is.  The nearest one moves it by at
most an octave towards the chord before, measured by the sum of the distances
between corresponding notes, in which the distance of the lowest notes counts
twice (`distance`); it stays where it is unless another place is strictly
nearer (`firstLeast`).

A `PlayFault` says what goes wrong between a score and its sound: a root without
a key, a chord without tones, a note or a tempo that cannot be written, and
values that are no numbers, not finite or not whole where they have to be.
-/

namespace LeadSheet

/-! ### Faults of playing -/

inductive PlayFault where
  | key (fault : KeyFault)
  /-- The octave of the chords is no number. -/
  | octaveNotNumber
  /-- A chord has no tone left. -/
  | noTones
  | noteOutOfRange (note : String)
  | tempoNotPositive (tempo : String)
  | tempoOutOfRange (tempo : String)
  /-- A tempo that is wrong has too many digits to be shown. -/
  | tempoUnwritable
  /-- A time is not finite. -/
  | notFinite (fault : NotFinite)
  /-- A channel is not whole. -/
  | channelNotWhole
  /-- A value does not fit into a byte. -/
  | notByte
deriving DecidableEq

def PlayFault.message? : PlayFault → Option String
  | key fault => some fault.message
  | noteOutOfRange note => some ("note " ++ note ++ " has no octave within 0-127")
  | tempoNotPositive tempo => some ("tempo must be positive, got " ++ tempo)
  | tempoOutOfRange tempo =>
    some ("tempo " ++ tempo ++ " BPM cannot be represented in a MIDI file")
  | _ => none

/-! ### Voicings -/

/-- The notes of a chord, ascending, and its bass. -/
structure Voiced (ν : Type) where
  chord : List ν
  bass : Option ν := none
deriving DecidableEq

def Voiced.notes {ν : Type} (v : Voiced ν) : List ν :=
  v.bass.toList ++ v.chord

inductive Strategy where
  | close
  | nearest
deriving DecidableEq

namespace Strategy

/-- The ways to place chords in the order of their names. -/
def all : List Strategy :=
  [close, nearest]

def name : Strategy → String
  | close => "close"
  | nearest => "nearest"

def ofName? (s : String) : Option Strategy :=
  all.find? fun v => v.name == s

def unsupported (name : String) : String :=
  "Unsupported voicing '" ++ name ++ "'. Use one of: "
    ++ String.intercalate ", " (all.map Strategy.name) ++ "."

theorem ofName?_name (v : Strategy) : ofName? v.name = some v := by
  cases v <;> decide

end Strategy

/-- The first of some values under which a measure is least. -/
def firstLeast {α ν : Type} [NoteNumber ν] (measure : α → ν) (a : α) : List α → α
  | [] => a
  | b :: bs =>
    if NoteNumber.less (measure b) (measure a) then firstLeast measure b bs
    else firstLeast measure a bs

variable {ν : Type} [NoteNumber ν]

def distance (a b : List ν) : ν :=
  let apart (x y : ν) := NoteNumber.size (x - y)
  let sum := (List.zipWith apart a b).foldl (· + ·) (NoteNumber.ofInt 0)
  match a, b with
  | x :: _, y :: _ => apart x y + sum
  | _, _ => sum

def moved (octaves : Int) (notes : List ν) : List ν :=
  notes.map (· + NoteNumber.ofInt (octaves * 12))

def towards (goal notes : List ν) : List ν :=
  firstLeast (fun c => distance c goal) (moved 0 notes) [moved (-1) notes, moved 1 notes]

/-- The tones of a chord stacked up from a root. -/
def stack (octave : ν) (root : PitchClass) (c : Chord) : List ν :=
  c.intervals.map fun i => noteIn octave (NoteNumber.ofInt root.value) + NoteNumber.ofInt i

/-- The bass of a chord right below its lowest note. -/
def bassNote (octave : ν) (key : Option Key) (c : Chord) (lowest : ν) :
    Except PlayFault (Option ν) :=
  match c.bass with
  | none => .ok none
  | some r =>
    match r.resolve key with
    | .error e => .error (.key e)
    | .ok p =>
      let note := noteIn (octave - NoteNumber.ofInt 1) (NoteNumber.ofInt p.value)
      .ok (some (NoteNumber.below note lowest))

/-- The place that a way to place chords gives to a stack. -/
def Strategy.place (s : Strategy) (previous : Option (Voiced ν)) (notes : List ν) : List ν :=
  match s, previous with
  | nearest, some p => if p.chord.isEmpty then notes else towards p.chord notes
  | _, _ => notes

def Strategy.voice (s : Strategy) (octave : ν) (key : Option Key) (previous : Option (Voiced ν))
    (c : Chord) : Except PlayFault (Voiced ν) :=
  match c.root.resolve key with
  | .error e => .error (.key e)
  | .ok root =>
    match s.place previous (stack octave root c) with
    | [] => .error .noTones
    | lowest :: notes => (bassNote octave key c lowest).map fun bass => ⟨lowest :: notes, bass⟩

def fitNote (note : ν) : Except PlayFault ν :=
  match NoteNumber.fit? note with
  | some n => .ok n
  | none => .error (.noteOutOfRange (NoteNumber.text note))

def Voiced.fit (v : Voiced ν) : Except PlayFault (Voiced ν) := do
  let chord ← v.chord.mapM fitNote
  let bass ← v.bass.mapM fitNote
  pure ⟨chord, bass⟩

end LeadSheet
