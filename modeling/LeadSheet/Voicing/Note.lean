import LeadSheet.Number.Basic

/-!
# Notes

A note is a number of semitones; middle C is 60, and the twelve notes from one
C to the next make an octave.  Notes are whole numbers, unless the octave that
chords are placed in is a fractional one: `NoteNumber` is what the two kinds of
notes have in common.

* `below` puts a note into the octave right below another.  On whole numbers
  that is a remainder (`wholeBelow`), and `wholeBelow_lt`, `le_wholeBelow_add`
  and `wholeBelow_emod` say that it is the one note there is.
* `fit?` brings a note into the range from 0 to 127 by whole octaves.  On whole
  numbers it always can (`wholeFit`); `wholeFit_nonneg`, `wholeFit_le` and
  `wholeFit_emod` say what it gives.

Fractional notes are moved by one octave at a time, as far as it takes.
-/

namespace LeadSheet

def highestNote : Int := 127

class NoteNumber (ν : Type) extends Add ν, Sub ν, Mul ν where
  /-- The note some semitones up. -/
  ofInt : Int → ν
  /-- The distance of a note from zero. -/
  size : ν → ν
  /-- Whether a note is below another. -/
  less : ν → ν → Bool
  /-- The note of the same name in the octave right below a limit. -/
  below : (note limit : ν) → ν
  /-- The nearest note of the same name in the range of notes. -/
  fit? : ν → Option ν
  /-- How a note is shown. -/
  text : ν → String

def noteIn {ν : Type} [NoteNumber ν] (octave pitchClass : ν) : ν :=
  (octave + NoteNumber.ofInt 1) * NoteNumber.ofInt 12 + pitchClass

/-! ### Whole notes -/

/-- The greatest note that is whole octaves from a note and below a limit. -/
def wholeBelow (note limit : Int) : Int :=
  limit - 1 - (limit - 1 - note) % 12

/-- The note nearest to a note among those whole octaves from it that are in
range. -/
def wholeFit (note : Int) : Int :=
  if note < 0 then note % 12
  else if highestNote < note then highestNote - (highestNote - note) % 12
  else note

theorem wholeBelow_lt (note limit : Int) : wholeBelow note limit < limit := by
  simp only [wholeBelow]; omega

theorem le_wholeBelow_add (note limit : Int) : limit ≤ wholeBelow note limit + 12 := by
  simp only [wholeBelow]; omega

theorem wholeBelow_emod (note limit : Int) : wholeBelow note limit % 12 = note % 12 := by
  simp only [wholeBelow]; omega

theorem wholeFit_nonneg (note : Int) : 0 ≤ wholeFit note := by
  simp only [wholeFit, highestNote]; split <;> omega

theorem wholeFit_le (note : Int) : wholeFit note ≤ highestNote := by
  simp only [wholeFit, highestNote]; split <;> omega

theorem wholeFit_emod (note : Int) : wholeFit note % 12 = note % 12 := by
  simp only [wholeFit, highestNote]; split <;> omega

theorem wholeFit_of_mem {note : Int} (h : 0 ≤ note) (hn : note ≤ highestNote) :
    wholeFit note = note := by
  rw [wholeFit, if_neg (by omega), if_neg (by omega)]

instance : NoteNumber Int where
  ofInt n := n
  size n := n.natAbs
  less m n := decide (m < n)
  below := wholeBelow
  fit? n := some (wholeFit n)
  text n := toString n

/-! ### Notes of any kind -/

namespace Number

variable {Q : Type} [Quantity Q]

/-- The number of octaves that reach from a number to zero, and two more. -/
def octaves (x : Number Q) : Nat :=
  match Quantity.toRat? x.toQuantity with
  | some r => (truncate (r / 12)).natAbs + 2
  | none => 0

def octave : Number Q := whole 12

/-- The note moved down by octaves while it is not below a limit. -/
def lowerBelow (limit : Number Q) : Nat → Number Q → Number Q
  | 0, note => note
  | steps + 1, note =>
    if limit.atMost note then lowerBelow limit steps (note - octave) else note

/-- The note moved up by octaves while the next octave is below a limit. -/
def raiseBelow (limit : Number Q) : Nat → Number Q → Number Q
  | 0, note => note
  | steps + 1, note =>
    if (note + octave).less limit then raiseBelow limit steps (note + octave) else note

/-- The note moved down by octaves while it is above the highest note. -/
def lowerIntoRange : Nat → Number Q → Number Q
  | 0, note => note
  | steps + 1, note =>
    if (whole highestNote).less note then lowerIntoRange steps (note - octave) else note

/-- The note moved up by octaves while it is below zero. -/
def raiseIntoRange : Nat → Number Q → Number Q
  | 0, note => note
  | steps + 1, note =>
    if note.less (whole 0) then raiseIntoRange steps (note + octave) else note

def placeBelow (note limit : Number Q) : Number Q :=
  let steps := octaves (note - limit)
  raiseBelow limit steps (lowerBelow limit steps note)

def fitNote? (note : Number Q) : Option (Number Q) :=
  let steps := octaves note
  let fitted := raiseIntoRange steps (lowerIntoRange steps note)
  if (whole 0).atMost fitted && fitted.atMost (whole highestNote) then some fitted else none

def size (x : Number Q) : Number Q :=
  if x.less (whole 0) then whole 0 - x
  else
    match x.asInt? with
    | some n => whole n
    | none => x

instance : NoteNumber (Number Q) where
  ofInt := whole
  size := size
  less := less
  below := placeBelow
  fit? := fitNote?
  text := text

end Number

end LeadSheet
