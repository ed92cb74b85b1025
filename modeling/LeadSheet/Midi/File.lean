import LeadSheet.Playing.Sheet

/-!
# Standard MIDI files

A sheet of sound is written as a file of three tracks: one with the time
signature and the tempo, one with the chords and one with the basses.

A track is a row of messages at certain ticks, written with the ticks between
them and an end mark.  The messages of a track are put in order first, so that
notes are switched off before others are switched on at the same tick.

Numbers are written as rows of bytes: a fixed number of bytes with the greatest
first (`bigEndian`), or groups of seven bits, each but the last marked
(`variableLength`).  A number that does not fit into its byte is a fault.
-/

namespace LeadSheet

/-! ### Tracks -/

/-! ### Bytes -/

/-- The last bytes of a number, the greatest first. -/
def bigEndian : (count : Nat) → (n : Nat) → List UInt8
  | 0, _ => []
  | count + 1, n => bigEndian count (n / 256) ++ [UInt8.ofNat n]

/-- The groups of seven bits of a number in front of others, all of them
marked. -/
def markedGroups (n : Nat) (rest : List UInt8) : List UInt8 :=
  if h : n = 0 then rest
  else markedGroups (n / 128) (UInt8.ofNat (n % 128 + 128) :: rest)
termination_by n
decreasing_by omega

/-- A number in groups of seven bits, each but the last marked. -/
def variableLength (n : Nat) : List UInt8 :=
  markedGroups (n / 128) [UInt8.ofNat (n % 128)]

def asciiBytes (s : String) : List UInt8 :=
  s.toList.map fun c => UInt8.ofNat c.toNat

variable {Q : Type}

/-- The byte of a whole number from 0 to 255. -/
def toByte (n : Number Q) : Except PlayFault UInt8 :=
  match n.asInt? with
  | some i => if 0 ≤ i ∧ i ≤ 255 then .ok (UInt8.ofNat i.toNat) else .error .notByte
  | none => .error .notByte

/-- The first byte of a message on a channel, from 0 to 15. -/
def statusByte (message : Nat) (channel : Number Q) : Except PlayFault UInt8 :=
  match channel.asInt? with
  | some i => .ok (UInt8.ofNat (message * 16 + i.toNat))
  | none => .error .channelNotWhole

/-! ### Messages -/

structure TrackMessage where
  tick : Int
  isOn : Bool
  bytes : List UInt8

def TrackMessage.before (a b : TrackMessage) : Bool :=
  switchesBefore a.tick b.tick a.isOn b.isOn

structure TrackNote (Q : Type) where
  track : SheetTrack
  start : Int
  duration : Int
  pitch : Number Q
  velocity : Number Q
  channel : Number Q

/-- A note of a sheet as one of a track: what is behind the point of its ticks is
cut off. -/
def SheetNote.toTrack [Quantity Q] (resolution : Int) (n : SheetNote Q) :
    Except PlayFault (TrackNote Q) := do
  let start ← toTicks truncate resolution n.time
  let duration ← toTicks truncate resolution n.duration
  pure ⟨n.track, start, duration, n.pitch, n.volume, n.channel⟩

def TrackNote.messages (n : TrackNote Q) : Except PlayFault (List TrackMessage) := do
  let on ← statusByte 9 n.channel
  let off ← statusByte 8 n.channel
  let pitch ← toByte n.pitch
  let velocity ← toByte n.velocity
  pure [⟨n.start, true, [on, pitch, velocity]⟩,
    ⟨n.start + n.duration, false, [off, pitch, velocity]⟩]

/-- The bytes of messages that are in order, from a tick on. -/
def messageBytes (now : Int) : List TrackMessage → List UInt8
  | [] => []
  | m :: ms => variableLength (m.tick - now).toNat ++ m.bytes ++ messageBytes m.tick ms

/-! ### Chunks -/

/-- A chunk of a file: its mark, the length of what it holds, and that. -/
def chunk (mark : String) (bytes : List UInt8) : List UInt8 :=
  asciiBytes mark ++ bigEndian 4 bytes.length ++ bytes

def endOfTrack : List UInt8 :=
  [0x00, 0xFF, 0x2F, 0x00]

/-- A track that starts with some bytes. -/
def trackChunk (opening : List UInt8) (ms : List TrackMessage) : List UInt8 :=
  chunk "MTrk" (opening ++ messageBytes 0 (inOrder TrackMessage.before ms) ++ endOfTrack)

/-! ### Files -/

def SoundSheet.conductorTrack (sheet : SoundSheet Q) (microseconds : Int) :
    Except PlayFault (List UInt8) := do
  let numerator ← toByte sheet.numerator
  let power ← toByte sheet.power
  let clocks ← toByte sheet.clocks
  pure (chunk "MTrk" ([0x00, 0xFF, 0x58, 0x04, numerator, power, clocks, 8]
    ++ [0x00, 0xFF, 0x51, 0x03] ++ bigEndian 3 microseconds.toNat ++ endOfTrack))

/-- A track with a name, an instrument on a channel, and notes. -/
def TrackHead.noteTrack (head : TrackHead Q) (notes : List (TrackNote Q)) :
    Except PlayFault (List UInt8) := do
  let status ← statusByte 12 head.channel
  let program ← toByte head.program
  let messages ← notes.mapM TrackNote.messages
  pure (trackChunk ([0x00, 0xFF, 0x03, UInt8.ofNat head.name.length] ++ asciiBytes head.name
    ++ [0x00, status, program]) messages.flatten)

def headerChunk (resolution : Int) : List UInt8 :=
  chunk "MThd" (bigEndian 2 1 ++ bigEndian 2 3 ++ bigEndian 2 resolution.toNat)

variable [Quantity Q]

def SoundSheet.bytes (sheet : SoundSheet Q) : Except PlayFault (List UInt8) := do
  let microseconds ← beatMicroseconds sheet.tempo
  let notes ← sheet.notes.mapM (SheetNote.toTrack sheet.resolution)
  let conductor ← sheet.conductorTrack microseconds
  let chords ← sheet.chords.noteTrack (notes.filter fun n => n.track = .chords)
  let bass ← sheet.bass.noteTrack (notes.filter fun n => n.track = .bass)
  pure (headerChunk sheet.resolution ++ conductor ++ chords ++ bass)

def Score.encode (settings : Settings Q) (tempo : Number Q) (s : Score Q) :
    Except PlayFault (List UInt8) :=
  s.encodeWith SoundSheet.bytes settings tempo

end LeadSheet
