import LeadSheet.Chord.Basic
import LeadSheet.Number.Quantity
import LeadSheet.Pitch.Key

/-!
# Scores

A score is a row of entries that take up time one after the other, and a row
of keys.  An entry refers to its key by an index, so that a key that comes
later never changes what was written before it; the first key is the one the
score starts in, if any.
-/

namespace LeadSheet

/-- What takes up the time of an entry.  A tie holds on what sounds before
it. -/
inductive EntryContent where
  | chord (c : Chord)
  | rest
  | tie
deriving DecidableEq

def EntryContent.chord? : EntryContent → Option Chord
  | chord c => some c
  | _ => none

structure Entry (Q : Type) where
  content : EntryContent
  measure : Nat
  /-- Where the entry starts, in beats. -/
  beat : Q
  /-- How long the entry lasts, in beats. -/
  duration : Q
  keyIndex : Nat := 0
  line : Nat := 0
deriving DecidableEq

structure Score (Q : Type) where
  entries : List (Entry Q) := []
  keys : List (Option Key) := [none]
deriving DecidableEq

variable {Q : Type}

def Entry.chord? (e : Entry Q) : Option Chord :=
  e.content.chord?

namespace Score

def keyOf (s : Score Q) (e : Entry Q) : Option Key :=
  s.keys.getD e.keyIndex none

def chords (s : Score Q) : List Chord :=
  s.entries.filterMap Entry.chord?

end Score

variable [Quantity Q]

def usualDuration : Q :=
  Quantity.ofInt 1

def Entry.finish (e : Entry Q) : Q :=
  e.beat + e.duration

/-- The greater of two quantities, the first one if neither is. -/
def later (x y : Q) : Q :=
  if Quantity.less x y then y else x

/-- Where the last entry to end does so. -/
def Score.length (s : Score Q) : Q :=
  match s.entries.map Entry.finish with
  | [] => Quantity.ofInt 0
  | x :: xs => xs.foldl later x

end LeadSheet
