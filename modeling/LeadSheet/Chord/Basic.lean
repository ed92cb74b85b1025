import LeadSheet.Chord.Extension
import LeadSheet.Chord.Root
import LeadSheet.Quality.Table

/-!
# Chords

A chord is a root, a quality, some extensions in the order they were written
and, below a slash, a bass.

Its tones are an ascending list of semitones above the root.  They start as
the intervals of the quality; then every extension in turn removes the tones
of its step, adds one, or, on the fifth, does the one after the other
(`Extension.apply`).

`insertTone` and `toneSet` keep the list strictly ascending
(`sorted_insertTone`, `sorted_toneSet`), and `Chord.sorted_intervals` says so
of every chord.
-/

namespace LeadSheet

/-- A chord symbol. -/
structure Chord where
  root : Root
  quality : Quality
  extensions : List Extension := []
  bass : Option Root := none
deriving DecidableEq

/-- Adds a tone to an ascending list of tones. -/
def insertTone (n : Int) : List Int → List Int
  | [] => [n]
  | m :: ms => if n < m then n :: m :: ms else if n = m then m :: ms else m :: insertTone n ms

/-- The tones of a list in ascending order, each of them once. -/
def toneSet (ns : List Int) : List Int :=
  ns.foldr insertTone []

@[simp] theorem mem_insertTone {n m : Int} {ms : List Int} :
    m ∈ insertTone n ms ↔ m = n ∨ m ∈ ms := by
  induction ms with
  | nil => simp [insertTone]
  | cons k ms ih =>
    simp only [insertTone]
    split
    · simp
    · split
      · rename_i h; subst h; simp
      · simp [ih, or_left_comm]

theorem sorted_insertTone {n : Int} {ms : List Int} (h : ms.Pairwise (· < ·)) :
    (insertTone n ms).Pairwise (· < ·) := by
  induction ms with
  | nil => simp [insertTone]
  | cons m ms ih =>
    have hm := List.pairwise_cons.mp h
    simp only [insertTone]
    split
    · rename_i hlt
      refine List.pairwise_cons.mpr ⟨fun k hk => ?_, h⟩
      rcases List.mem_cons.mp hk with rfl | hk
      · exact hlt
      · exact Int.lt_trans hlt (hm.1 k hk)
    · split
      · exact h
      · refine List.pairwise_cons.mpr ⟨fun k hk => ?_, ih hm.2⟩
        rcases mem_insertTone.mp hk with rfl | hk
        · omega
        · exact hm.1 k hk

@[simp] theorem mem_toneSet {n : Int} {ns : List Int} : n ∈ toneSet ns ↔ n ∈ ns := by
  induction ns with
  | nil => simp [toneSet]
  | cons m ns ih => rw [toneSet, List.foldr_cons, mem_insertTone, ← toneSet, ih, List.mem_cons]

theorem sorted_toneSet (ns : List Int) : (toneSet ns).Pairwise (· < ·) := by
  induction ns with
  | nil => simp [toneSet]
  | cons m ns ih => exact sorted_insertTone ih

def withoutStep (s : ChordStep) (tones : List Int) : List Int :=
  tones.filter fun n => n ∉ s.tones

def Extension.apply (tones : List Int) (e : Extension) : List Int :=
  if e.omits then withoutStep e.step tones
  else if e.step = .fifth then insertTone e.interval (withoutStep .fifth tones)
  else insertTone e.interval tones

theorem Extension.sorted_apply {tones : List Int} {e : Extension} (h : tones.Pairwise (· < ·)) :
    (Extension.apply tones e).Pairwise (· < ·) := by
  unfold Extension.apply
  split
  · exact h.filter _
  · split
    · exact sorted_insertTone (h.filter _)
    · exact sorted_insertTone h

namespace Chord

def isDegree (c : Chord) : Bool :=
  c.root.isDegree

/-- The semitones of every tone above the root, ascending. -/
def intervals (c : Chord) : List Int :=
  c.extensions.foldl Extension.apply (toneSet c.quality.intervals)

theorem sorted_intervals (c : Chord) : c.intervals.Pairwise (· < ·) := by
  have h : ∀ (es : List Extension) (tones : List Int), tones.Pairwise (· < ·) →
      (es.foldl Extension.apply tones).Pairwise (· < ·) := by
    intro es
    induction es with
    | nil => intro tones ht; exact ht
    | cons e es ih => intro tones ht; exact ih _ (Extension.sorted_apply ht)
  exact h c.extensions _ (sorted_toneSet _)

end Chord

end LeadSheet
