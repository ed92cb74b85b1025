import LeadSheet.Number.Basic
import LeadSheet.Number.Reader
import LeadSheet.Playing.Schedule
import LeadSheet.Voicing.Basic

/-!
# Sheets of sound

What a score hands to what writes sound files (`SoundSheet`): the tempo, the
time signature, two tracks with an instrument each, and the notes one by one,
their times in quarter notes.  How all this is written, and what cannot be
written, is the writer's.

A tempo is given in beats per minute and kept as the microseconds that a
quarter note takes.  It has to be above zero and fit into three bytes.  A score
comes to its sheet once its tempo is one that a file can have and its chords
have notes (`Score.encodeWith`).
-/

namespace LeadSheet

/-! ### Tempo -/

def minute : Int := 60000000

def longestQuarter : Int := 0xFFFFFF

variable {Q : Type} [Quantity Q]

/-- The microseconds that a minute takes when it is cut into beats, without
what is behind the point. -/
def beatMicroseconds (tempo : Number Q) : Except PlayFault Int :=
  match tempo.asInt? with
  | some n => .ok (minute.tdiv n)
  | none =>
    match Quantity.toInt truncate (Quantity.ofInt minute / tempo.toQuantity) with
    | .ok n => .ok n
    | .error fault => .error (.notFinite fault)

/-- A fault that shows a tempo, if that has not too many digits to be shown. -/
def tempoFault (fault : String → PlayFault) (tempo : Number Q) : PlayFault :=
  match tempo.asInt? with
  | some n => if n.natAbs < Nat.pow 10 maxDigits then fault tempo.text else .tempoUnwritable
  | none => fault tempo.text

def quarterMicroseconds (tempo : Number Q) : Except PlayFault Int :=
  if tempo.atMost (.whole 0) then .error (tempoFault .tempoNotPositive tempo)
  else
    match beatMicroseconds tempo with
    | .error fault => .error fault
    | .ok n =>
      if 1 ≤ n ∧ n ≤ longestQuarter then .ok n else .error (tempoFault .tempoOutOfRange tempo)

/-! ### Sheets -/

inductive SheetTrack where
  | chords
  | bass
deriving DecidableEq

/-- A note of a sheet, its time and its duration in quarter notes. -/
structure SheetNote (Q : Type) where
  track : SheetTrack
  channel : Number Q
  pitch : Number Q
  time : Q
  duration : Q
  volume : Number Q

structure TrackHead (Q : Type) where
  name : String
  channel : Number Q
  program : Number Q

/-- What a sound file is written from. -/
structure SoundSheet (Q : Type) where
  /-- The ticks of a quarter note. -/
  resolution : Int
  tempo : Number Q
  numerator : Number Q
  /-- The power of two that the denominator is. -/
  power : Number Q
  /-- The clocks of a click. -/
  clocks : Number Q
  chords : TrackHead Q
  bass : TrackHead Q
  notes : List (SheetNote Q)

abbrev SoundWriter (Q : Type) := SoundSheet Q → Except PlayFault (List UInt8)

/-- The notes of a timed chord, the basses first. -/
def TimedChord.sheetNotes (settings : Settings Q) (t : TimedChord (Number Q) Q) :
    List (SheetNote Q) :=
  let time := quarters settings t.start
  let duration := quarters settings t.duration
  t.voiced.bass.toList.map (fun n =>
      ⟨.bass, settings.bassChannel, n, time, duration, settings.bassVelocity⟩)
    ++ t.voiced.chord.map fun n => ⟨.chords, settings.channel, n, time, duration, settings.velocity⟩

def Settings.sheet (settings : Settings Q) (tempo : Number Q)
    (ts : List (TimedChord (Number Q) Q)) : SoundSheet Q where
  resolution := ticksPerQuarter
  tempo
  numerator := settings.numerator
  power := .whole ((settings.denominator.asInt?).getD 1).toNat.log2
  clocks := .whole 24
  chords := ⟨"Chords", settings.channel, settings.program⟩
  bass := ⟨"Bass", settings.bassChannel, settings.program⟩
  notes := ts.flatMap (TimedChord.sheetNotes settings)

/-- A score as bytes, given what writes them. -/
def Score.encodeWith (write : SoundWriter Q) (settings : Settings Q) (tempo : Number Q)
    (s : Score Q) : Except PlayFault (List UInt8) := do
  let _ ← quarterMicroseconds tempo
  let ts ← timeline settings s
  write (settings.sheet tempo ts)

end LeadSheet
