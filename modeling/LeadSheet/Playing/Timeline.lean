import LeadSheet.Score.Basic
import LeadSheet.Settings.Basic
import LeadSheet.Settings.Value
import LeadSheet.Voicing.Basic

/-!
# The timeline

The chords of a score with their notes and the time they sound.  A chord
sounds for its own duration and those of the ties right behind it (`held`); a
tie behind a rest, or at the start, is silence.

`timelineFrom` places the chords one after the other, each behind the chord
before it.  `timeline` does so with the octave of the settings: with whole
octaves and notes chords are placed among whole notes, otherwise among notes of
any kind.  An octave that is no number is a fault, but only once the root of a
chord is known (`unplaced`).

`shifts` are the notes that are out of range and are moved by octaves to be
played, in the order they are met, up to the first fault.
-/

namespace LeadSheet

/-! ### Voicings in any octave -/

def Voiced.map {ν μ : Type} (f : ν → μ) (v : Voiced ν) : Voiced μ :=
  ⟨v.chord.map f, v.bass.map f⟩

section

variable {Q : Type}

def Voiced.whole? (v : Voiced (Number Q)) : Option (Voiced Int) := do
  let chord ← v.chord.mapM Number.asInt?
  let bass ← v.bass.mapM Number.asInt?
  pure ⟨chord, bass⟩

variable [Quantity Q]

/-- The notes of a chord in a key and any octave, behind another chord. -/
def Strategy.voiceAny (s : Strategy) (octave : Number Q) (key : Option Key)
    (previous : Option (Voiced (Number Q))) (c : Chord) : Except PlayFault (Voiced (Number Q)) :=
  match octave.asInt?, previous.mapM Voiced.whole? with
  | some n, some p => (s.voice n key p c).map (Voiced.map .whole)
  | _, _ => s.voice octave key previous c

def unplaced (key : Option Key) (c : Chord) : PlayFault :=
  match c.root.resolve key with
  | .error fault => .key fault
  | .ok _ => .octaveNotNumber

/-- The notes of a chord in a key and an octave that may be no number, behind
another chord. -/
def Strategy.voiceValue (s : Strategy) (octave : Value Q) (key : Option Key)
    (previous : Option (Voiced (Number Q))) (c : Chord) : Except PlayFault (Voiced (Number Q)) :=
  match octave with
  | .number n => s.voiceAny n key previous c
  | _ => .error (unplaced key c)

end

/-! ### Chords in time -/

/-- A chord with its notes and its time in beats. -/
structure TimedChord (ν Q : Type) where
  start : Q
  duration : Q
  voiced : Voiced ν

namespace TimedChord

variable {ν μ Q : Type}

def map (f : ν → μ) (t : TimedChord ν Q) : TimedChord μ Q :=
  ⟨t.start, t.duration, t.voiced.map f⟩

def finish [Quantity Q] (t : TimedChord ν Q) : Q :=
  t.start + t.duration

end TimedChord

section

variable {ν Q : Type} [Quantity Q]

/-- A duration with those of the ties that follow added. -/
def held (duration : Q) : List (Entry Q) → Q
  | [] => duration
  | e :: es =>
    match e.content with
    | .tie => held (duration + e.duration) es
    | _ => duration

/-- The chords of some entries of a score behind another chord. -/
def timelineFrom [NoteNumber ν] (strategy : Strategy) (octave : ν) (s : Score Q)
    (previous : Option (Voiced ν)) : List (Entry Q) → Except PlayFault (List (TimedChord ν Q))
  | [] => .ok []
  | e :: es =>
    match e.content with
    | .chord c => do
      let placed ← strategy.voice octave (s.keyOf e) previous c
      let voiced ← placed.fit
      let rest ← timelineFrom strategy octave s (some voiced) es
      pure (⟨e.beat, held e.duration es, voiced⟩ :: rest)
    | _ => timelineFrom strategy octave s previous es

def octaveFault? (s : Score Q) : Option PlayFault :=
  s.entries.findSome? fun e => e.chord?.map (unplaced (s.keyOf e))

/-- The chords of a score with their notes and the time they sound. -/
def timeline (settings : Settings Q) (s : Score Q) :
    Except PlayFault (List (TimedChord (Number Q) Q)) :=
  match settings.octave with
  | .number octave =>
    match octave.asInt? with
    | some n =>
      (timelineFrom settings.voicing n s none s.entries).map (List.map (TimedChord.map .whole))
    | none => timelineFrom settings.voicing octave s none s.entries
  | _ =>
    match octaveFault? s with
    | some fault => .error fault
    | none => .ok []

end

/-! ### Shifted notes -/

def shiftedNotes {ν : Type} [NoteNumber ν] : List ν → List (ν × ν)
  | [] => []
  | n :: ns =>
    match NoteNumber.fit? n with
    | none => []
    | some m =>
      if NoteNumber.less m n || NoteNumber.less n m then (n, m) :: shiftedNotes ns
      else shiftedNotes ns

variable {ν Q : Type} [NoteNumber ν]

def shiftsFrom (strategy : Strategy) (octave : ν) (s : Score Q) (previous : Option (Voiced ν)) :
    List (Entry Q) → List (ν × ν)
  | [] => []
  | e :: es =>
    match e.content with
    | .chord c =>
      match strategy.voice octave (s.keyOf e) previous c with
      | .error _ => []
      | .ok placed =>
        shiftedNotes (placed.chord ++ placed.bass.toList)
          ++ match placed.fit with
            | .ok voiced => shiftsFrom strategy octave s (some voiced) es
            | .error _ => []
    | _ => shiftsFrom strategy octave s previous es

/-- The shifted notes of a score, without what is behind the point. -/
def shifts [Quantity Q] (settings : Settings Q) (s : Score Q) : List (Int × Int) :=
  let whole (n : Number Q) : Int :=
    match n.asInt? with
    | some i => i
    | none => match Quantity.toInt truncate n.toQuantity with
      | .ok i => i
      | .error _ => 0
  match settings.octave with
  | .number octave =>
    match octave.asInt? with
    | some n => shiftsFrom settings.voicing n s none s.entries
    | none =>
      (shiftsFrom settings.voicing octave s none s.entries).map fun (n, m) => (whole n, whole m)
  | _ => []

end LeadSheet
