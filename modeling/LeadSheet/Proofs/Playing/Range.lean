import LeadSheet.Pitch.PitchClass
import LeadSheet.Proofs.Playing.Voicing

/-!
# Notes brought into range

A whole note is moved down by octaves while it is above the highest note and then up while
it is below zero; what is still out of range after that is refused (`RangeLoops`).  Both
loops end, and the second has nothing to do where the first one has moved the note: what
comes down stops less than an octave below the highest note, and the range is wider than
that (`isNearestInRange_of_loops`).  So no whole note is ever refused (`rangeLoops_iff`),
and where it goes is the one nearest note of its name (`isNearestInRange_iff`).

`fitNote_nearest` puts this together, for a note and for the notes of a voicing.
-/

namespace LeadSheet

/-- The note in range that is nearest to a note among those whole octaves from it. -/
structure IsNearestInRange (note fitted : Int) : Prop where
  nonneg : 0 ≤ fitted
  le : fitted ≤ highestNote
  name : fitted % 12 = note % 12
  least : ∀ n, 0 ≤ n → n ≤ highestNote → n % 12 = note % 12 →
    (fitted - note).natAbs ≤ (n - note).natAbs

/-- The runs of the two loops that bring a note into range, down and then up by octaves,
with the fault there would be if they missed it. -/
inductive RangeLoops (note : Int) : Except PlayFault Int → Prop
  | inRange {low fitted : Int} (down : Loop (highestNote < ·) (-12) note low)
      (up : Loop (· < 0) 12 low fitted) (h : 0 ≤ fitted ∧ fitted ≤ highestNote) :
      RangeLoops note (.ok fitted)
  | outOfRange {low fitted : Int} (down : Loop (highestNote < ·) (-12) note low)
      (up : Loop (· < 0) 12 low fitted) (h : ¬ (0 ≤ fitted ∧ fitted ≤ highestNote)) :
      RangeLoops note (.error (.noteOutOfRange (NoteNumber.text note)))

/-! ### The nearest note in range -/

/-- There is one nearest note: two of them would lie on both sides of the note, which then
is in range itself. -/
theorem IsNearestInRange.unique {note m n : Int} (hm : IsNearestInRange note m)
    (hn : IsNearestInRange note n) : n = m := by
  have hle := hm.least n hn.nonneg hn.le hn.name
  have hle' := hn.least m hm.nonneg hm.le hm.name
  have hself := hm.least note
  have := hm.nonneg
  have := hm.le
  have := hn.nonneg
  have := hn.le
  omega

theorem isNearestInRange_wholeFit (note : Int) : IsNearestInRange note (wholeFit note) where
  nonneg := wholeFit_nonneg note
  le := wholeFit_le note
  name := wholeFit_emod note
  least n hn hle hname := by
    unfold wholeFit highestNote at *
    split
    · omega
    · split <;> omega

theorem isNearestInRange_iff {note fitted : Int} :
    IsNearestInRange note fitted ↔ fitted = wholeFit note :=
  ⟨(isNearestInRange_wholeFit note).unique, fun h => h ▸ isNearestInRange_wholeFit note⟩

theorem wholeFit_eq_self_iff {note : Int} :
    wholeFit note = note ↔ 0 ≤ note ∧ note ≤ highestNote :=
  ⟨fun h => h ▸ ⟨wholeFit_nonneg note, wholeFit_le note⟩, fun h => wholeFit_of_mem h.1 h.2⟩

theorem wholeFit_wholeFit (note : Int) : wholeFit (wholeFit note) = wholeFit note :=
  wholeFit_of_mem (wholeFit_nonneg note) (wholeFit_le note)

/-! ### The loops -/

/-- **The two loops lead to the nearest note in range.** -/
theorem isNearestInRange_of_loops {note low fitted : Int}
    (down : Loop (highestNote < ·) (-12) note low) (up : Loop (· < 0) 12 low fitted) :
    IsNearestInRange note fitted := by
  have hname : fitted % 12 = note % 12 := up.emod_eq.trans down.emod_eq_of_neg
  have hlow : low ≤ highestNote := Int.not_lt.mp down.not_goes
  have hfitted : 0 ≤ fitted := Int.not_lt.mp up.not_goes
  have hplace : (fitted = note ∧ note ≤ highestNote) ∨ (note < 0 ∧ fitted < 12)
      ∨ (highestNote < note ∧ highestNote - 12 < fitted ∧ fitted ≤ highestNote) := by
    rcases down.eq_or_goes with rfl | ⟨habove, hdown⟩
    · rcases up.eq_or_goes with rfl | ⟨hbelow, hup⟩
      · exact .inl ⟨rfl, hlow⟩
      · exact .inr (.inl ⟨hbelow, by omega⟩)
    · rcases up.eq_or_goes with rfl | ⟨hbelow, -⟩
      · exact .inr (.inr ⟨habove, by omega, hlow⟩)
      · -- What came down is less than an octave below the highest note, so not below zero.
        have hwide : (12 : Int) ≤ highestNote := by decide
        omega
  unfold highestNote at hlow hplace
  refine ⟨hfitted, ?_, hname, ?_⟩
  · unfold highestNote
    omega
  · intro n hn hle hsame
    unfold highestNote at hle
    omega

/-- **The loops end for every note, and never miss the range.** -/
theorem rangeLoops_iff {note : Int} {x : Except PlayFault Int} :
    RangeLoops note x ↔ x = .ok (wholeFit note) := by
  constructor
  · intro h
    cases h with
    | inRange down up _ =>
      rw [isNearestInRange_iff.mp (isNearestInRange_of_loops down up)]
    | outOfRange down up h =>
      have hnearest := isNearestInRange_of_loops down up
      exact absurd ⟨hnearest.nonneg, hnearest.le⟩ h
  · rintro rfl
    obtain ⟨low, down⟩ := exists_loop (highestNote < ·) (-12)
      (fun n => (n - highestNote).toNat) (fun n hn => by omega) note
    obtain ⟨fitted, up⟩ := exists_loop (· < 0) 12
      (fun n => (-n).toNat) (fun n hn => by omega) low
    have hnearest := isNearestInRange_of_loops down up
    rw [← isNearestInRange_iff.mp hnearest]
    exact .inRange down up ⟨hnearest.nonneg, hnearest.le⟩

/-! ### Voicings -/

theorem PitchClass.wrap_wholeFit (note : Int) : wrap (wholeFit note) = wrap note := by
  unfold wrap
  rw [Fin.mk.injEq, wholeFit_emod]

/-- **A whole note always comes into range, at the nearest note of its name.**  The loops
end for it, in that note and without a fault; notes in range stay, so bringing a note into
range twice is the same as once.  A voicing comes into range note by note and keeps the
names of its notes. -/
theorem fitNote_nearest (note : Int) (v : Voiced Int) :
    (∃ fitted, fitNote note = .ok fitted
        ∧ (∀ x, RangeLoops note x ↔ x = .ok fitted)
        ∧ (∀ n, IsNearestInRange note n ↔ n = fitted)
        ∧ (fitted = note ↔ 0 ≤ note ∧ note ≤ highestNote)
        ∧ fitNote fitted = .ok fitted)
      ∧ ∃ w, v.fit = .ok w
        ∧ List.Forall₂ IsNearestInRange v.notes w.notes
        ∧ w.map PitchClass.wrap = v.map PitchClass.wrap := by
  constructor
  · refine ⟨wholeFit note, rfl, fun x => rangeLoops_iff, fun n => isNearestInRange_iff,
      wholeFit_eq_self_iff, ?_⟩
    show Except.ok (wholeFit (wholeFit note)) = _
    rw [wholeFit_wholeFit]
  · refine ⟨v.map wholeFit, v.fit_whole, ?_, ?_⟩
    · rw [Voiced.notes_map, List.forall₂_map_right_iff, List.forall₂_same]
      exact fun n _ => isNearestInRange_wholeFit n
    · unfold Voiced.map
      rw [List.map_map, Option.map_map]
      have hnames : PitchClass.wrap ∘ wholeFit = PitchClass.wrap :=
        funext PitchClass.wrap_wholeFit
      rw [hnames]

/-- A note below the range and one above it. -/
example : fitNote (-5 : Int) = .ok 7 ∧ fitNote (130 : Int) = .ok 118 := ⟨rfl, rfl⟩

end LeadSheet
