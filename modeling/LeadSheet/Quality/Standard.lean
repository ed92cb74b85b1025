import LeadSheet.Quality.Table

/-!
# The standard qualities

The vocabulary that chord symbols are read with unless another one is given:
triads, sixths and sevenths, suspended chords and the chords up to the
thirteenth.
-/

namespace LeadSheet.Quality

/-- The major triad, which is meant when nothing is written. -/
def majorTriad : Quality where
  name := "major"
  symbol := ""
  intervals := [0, 4, 7]
  aliases := ["maj", "M"]

def triads : List Quality :=
  [majorTriad,
   { name := "minor", symbol := "m", intervals := [0, 3, 7], minor := true,
     degreeSymbol := some "", aliases := ["min", "-"] },
   { name := "diminished", symbol := "dim", intervals := [0, 3, 6], minor := true,
     degreeSymbol := some "°", aliases := ["o", "°"] },
   { name := "augmented", symbol := "aug", intervals := [0, 4, 8], degreeSymbol := some "+",
     aliases := ["+"] },
   { name := "power", symbol := "5", intervals := [0, 7] },
   { name := "suspended2", symbol := "sus2", intervals := [0, 2, 7], aliases := ["2"] },
   { name := "suspended4", symbol := "sus4", intervals := [0, 5, 7], aliases := ["sus"] }]

def sevenths : List Quality :=
  [{ name := "sixth", symbol := "6", intervals := [0, 4, 7, 9] },
   { name := "minor6", symbol := "m6", intervals := [0, 3, 7, 9], minor := true,
     degreeSymbol := some "6", aliases := ["min6"] },
   { name := "dominant7", symbol := "7", intervals := [0, 4, 7, 10], aliases := ["dom7"] },
   { name := "dominant7-flat5", symbol := "7b5", intervals := [0, 4, 6, 10], aliases := ["7-5"] },
   { name := "major7", symbol := "maj7", intervals := [0, 4, 7, 11], degreeSymbol := some "Δ7",
     aliases := ["M7", "Δ7", "Δ", "ma7"] },
   { name := "minor7", symbol := "m7", intervals := [0, 3, 7, 10], minor := true,
     degreeSymbol := some "7", aliases := ["min7", "-7"] },
   { name := "minor-major7", symbol := "mM7", intervals := [0, 3, 7, 11], minor := true,
     degreeSymbol := some "Δ7", aliases := ["mmaj7", "mΔ7"] },
   { name := "half-diminished", symbol := "m7b5", intervals := [0, 3, 6, 10], minor := true,
     degreeSymbol := some "ø7", aliases := ["ø", "ø7", "m7-5"] },
   { name := "diminished7", symbol := "dim7", intervals := [0, 3, 6, 9], minor := true,
     degreeSymbol := some "°7", aliases := ["o7", "°7"] },
   { name := "augmented7", symbol := "aug7", intervals := [0, 4, 8, 10], degreeSymbol := some "+7",
     aliases := ["+7", "7#5"] },
   { name := "dominant7sus4", symbol := "7sus4", intervals := [0, 5, 7, 10], aliases := ["7sus"] }]

def upperChords : List Quality :=
  [{ name := "add9", symbol := "add9", intervals := [0, 4, 7, 14], aliases := ["add2"] },
   { name := "minor-add9", symbol := "madd9", intervals := [0, 3, 7, 14], minor := true,
     degreeSymbol := some "add9" },
   { name := "dominant9", symbol := "9", intervals := [0, 4, 7, 10, 14] },
   { name := "major9", symbol := "maj9", intervals := [0, 4, 7, 11, 14], degreeSymbol := some "Δ9",
     aliases := ["M9", "Δ9"] },
   { name := "minor9", symbol := "m9", intervals := [0, 3, 7, 10, 14], minor := true,
     degreeSymbol := some "9", aliases := ["min9"] },
   { name := "dominant11", symbol := "11", intervals := [0, 4, 7, 10, 14, 17] },
   { name := "minor11", symbol := "m11", intervals := [0, 3, 7, 10, 14, 17], minor := true,
     degreeSymbol := some "11", aliases := ["min11"] },
   { name := "dominant13", symbol := "13", intervals := [0, 4, 7, 10, 14, 21] },
   { name := "major13", symbol := "maj13", intervals := [0, 4, 7, 11, 14, 21],
     degreeSymbol := some "Δ13", aliases := ["M13", "Δ13"] },
   { name := "minor13", symbol := "m13", intervals := [0, 3, 7, 10, 14, 21], minor := true,
     degreeSymbol := some "13", aliases := ["min13"] }]

def standard : List Quality :=
  triads ++ sevenths ++ upperChords

/-- The minor qualities meant when a major one follows a numeral in small
letters: `vi7` is a minor seventh, `iΔ7` a minor triad with a major one. -/
def standardMinorVariants : List (String × String) :=
  [("major", "minor"), ("sixth", "minor6"), ("dominant7", "minor7"), ("major7", "minor-major7"),
   ("add9", "minor-add9"), ("dominant9", "minor9"), ("dominant11", "minor11"),
   ("dominant13", "minor13")]

theorem standard_consistent : ∀ q ∈ standard, ∀ r ∈ standard, ∀ s ∈ q.symbols, s ∈ r.symbols →
    q.name = r.name := by
  decide +kernel

end Quality

def Table.standard : Table :=
  ⟨Quality.standard, Quality.standardMinorVariants, Quality.standard_consistent⟩

end LeadSheet
