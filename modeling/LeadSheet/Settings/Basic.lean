import LeadSheet.Settings.Value
import LeadSheet.Voicing.Basic

/-!
# Settings

How a score is turned into sound.  The values are kept as they were given: a
velocity may be a fraction and an octave may be anything until a chord is
placed in it.  `RawSettings` are settings that were not looked at yet.
-/

namespace LeadSheet

inductive Setting where
  | velocity
  | bassVelocity
  | octave
  | beatDuration
  | program
  | channel
  | voicing
  | timeSignature
deriving DecidableEq

namespace Setting

def all : List Setting :=
  [velocity, bassVelocity, octave, beatDuration, program, channel, voicing, timeSignature]

def name : Setting → String
  | velocity => "velocity"
  | bassVelocity => "bass_velocity"
  | octave => "octave"
  | beatDuration => "beat_duration"
  | program => "program"
  | channel => "channel"
  | voicing => "voicing"
  | timeSignature => "time_signature"

def ofName? (s : String) : Option Setting :=
  all.find? fun x => x.name == s

end Setting

/-- How a score is turned into sound. -/
structure Settings (Q : Type) where
  /-- How hard chords are struck. -/
  velocity : Number Q
  /-- How hard the bass is struck. -/
  bassVelocity : Number Q
  /-- The octave of chord roots. -/
  octave : Value Q
  /-- The length of a beat in quarter notes. -/
  beatDuration : Number Q
  /-- The instrument. -/
  program : Number Q
  /-- The channel of chords; the bass is on the next one. -/
  channel : Number Q
  voicing : Strategy
  numerator : Number Q
  denominator : Number Q

/-- Settings that were not looked at yet. -/
abbrev RawSettings (Q : Type) := Setting → Value Q

variable {Q : Type}

def RawSettings.set (r : RawSettings Q) (x : Setting) (v : Value Q) : RawSettings Q :=
  fun y => if y = x then v else r y

def Settings.raw (s : Settings Q) : RawSettings Q
  | .velocity => .number s.velocity
  | .bassVelocity => .number s.bassVelocity
  | .octave => s.octave
  | .beatDuration => .number s.beatDuration
  | .program => .number s.program
  | .channel => .number s.channel
  | .voicing => .text s.voicing.name
  | .timeSignature => .list [.number s.numerator, .number s.denominator]

/-- The settings that are used unless others are given. -/
def Settings.standard [Quantity Q] : Settings Q where
  velocity := .whole 80
  bassVelocity := .whole 68
  octave := .number (.whole 4)
  beatDuration := .fraction (Quantity.ofInt 1)
  program := .whole 0
  channel := .whole 0
  voicing := .close
  numerator := .whole 4
  denominator := .whole 4

end LeadSheet
