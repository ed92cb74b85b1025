import LeadSheet.Order
import LeadSheet.Playing.Timeline

/-!
# The schedule

The notes of a score as a row of events, each a number of ticks behind the one
before it.  A quarter note has 960 ticks, and times go to the nearest tick.

Every note is switched on when its chord starts and off when it ends.  At the
same tick notes are switched off before others are switched on; otherwise the
bass comes before the chord and the notes of a chord from the lowest up.
-/

namespace LeadSheet

def ticksPerQuarter : Int := 960

structure NoteSwitch (ν Q : Type) where
  tick : Int
  isOn : Bool
  pitch : ν
  velocity : Number Q
  channel : Number Q

/-- Switching a note on or off some ticks after the event before. -/
structure Event (ν Q : Type) where
  isOn : Bool
  pitch : ν
  velocity : Number Q
  delta : Int
  channel : Number Q

variable {ν Q : Type}

/-- Whether something that happens at a tick comes before something else, what
is switched off going first at the same tick. -/
def switchesBefore (tick tick' : Int) (isOn isOn' : Bool) : Bool :=
  decide (tick < tick') || (decide (tick = tick') && (!isOn && isOn'))

def NoteSwitch.before (a b : NoteSwitch ν Q) : Bool :=
  switchesBefore a.tick b.tick a.isOn b.isOn

variable [Quantity Q]

def quarters (settings : Settings Q) (beats : Q) : Q :=
  beats * settings.beatDuration.toQuantity

/-- The ticks of some quarter notes, each of so many ticks, under a rounding. -/
def toTicks (round : Rat → Int) (resolution : Int) (quarters : Q) : Except PlayFault Int :=
  (Quantity.toInt round (quarters * Quantity.ofInt resolution)).mapError .notFinite

def ticks (settings : Settings Q) (beats : Q) : Except PlayFault Int :=
  toTicks nearest ticksPerQuarter (quarters settings beats)

def Settings.bassChannel (settings : Settings Q) : Number Q :=
  settings.channel + .whole 1

def switchNote (start finish : Int) (velocity channel : Number Q) (pitch : ν) :
    List (NoteSwitch ν Q) :=
  [⟨start, true, pitch, velocity, channel⟩, ⟨finish, false, pitch, .whole 0, channel⟩]

def TimedChord.switches (settings : Settings Q) (t : TimedChord ν Q) :
    Except PlayFault (List (NoteSwitch ν Q)) := do
  let start ← ticks settings t.start
  let finish ← ticks settings t.finish
  let bass := switchNote start finish settings.bassVelocity settings.bassChannel
  let chord := switchNote start finish settings.velocity settings.channel
  pure (t.voiced.bass.toList.flatMap bass ++ t.voiced.chord.flatMap chord)

/-- Events for switches that are in order, from a tick on. -/
def eventsFrom (now : Int) : List (NoteSwitch ν Q) → List (Event ν Q)
  | [] => []
  | s :: ss => ⟨s.isOn, s.pitch, s.velocity, s.tick - now, s.channel⟩ :: eventsFrom s.tick ss

def schedule (settings : Settings Q) (ts : List (TimedChord ν Q)) :
    Except PlayFault (List (Event ν Q)) := do
  let switches ← ts.mapM (TimedChord.switches settings)
  pure (eventsFrom 0 (inOrder NoteSwitch.before switches.flatten))

def Score.events (settings : Settings Q) (s : Score Q) :
    Except PlayFault (List (Event (Number Q) Q)) := do
  let ts ← timeline settings s
  schedule settings ts

end LeadSheet
