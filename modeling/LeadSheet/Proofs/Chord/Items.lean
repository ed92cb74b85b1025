import LeadSheet.Chord.Reader
import LeadSheet.Proofs.Chord.Tones
import LeadSheet.Proofs.Reading.Place

/-!
# Items of a chord and their tones

An item adds a tone to a chord, and leaving its step out takes the tones of the step
away.  The two do not always meet: some altered steps stand where their step has no tone
(`Extension.strays`), and leaving the step out does not undo these
(`Chord.intervals_leaveOut_iff`).

Some steps have tones in common, the sixth with the fifth, say.  So what takes the tones
of a step away may take that of an item on another step with it.  `Extension.silenced`
lists these items, and `Chord.interval_mem_intervals_iff` says that they are all.
-/

namespace LeadSheet

/-! ### Items and steps -/

namespace Extension

/-- The item that leaves a step out. -/
def leaveOut (s : ChordStep) : Extension :=
  ⟨s, .leaveOut⟩

/-- The items that stand where their step has no tone. -/
def strays : List Extension :=
  [⟨.second, .alter .sharp⟩, ⟨.third, .alter .sharp⟩, ⟨.fourth, .alter .flat⟩,
   ⟨.sixth, .alter .sharp⟩, ⟨.seventh, .alter .flat⟩, ⟨.eleventh, .alter .flat⟩,
   ⟨.thirteenth, .alter .sharp⟩]

theorem interval_mem_tones_iff {e : Extension} (he : e.omits = false) :
    e.interval ∈ e.step.tones ↔ e ∉ strays := by
  have hall : ∀ e ∈ all, e.omits = false → (e.interval ∈ e.step.tones ↔ e ∉ strays) := by
    decide +kernel
  exact hall e e.mem_all he

/-- The items on other steps whose tone an item takes away. -/
def silenced (e : Extension) : List Extension :=
  match e.step, e.change with
  | .third, .leaveOut => [⟨.second, .alter .sharp⟩, ⟨.fourth, .alter .flat⟩]
  | .fourth, .leaveOut => [⟨.third, .alter .sharp⟩, ⟨.fifth, .alter .flat⟩]
  | .sixth, .leaveOut => [⟨.fifth, .alter .sharp⟩, ⟨.seventh, .alter .flat⟩]
  | .seventh, .leaveOut => [⟨.sixth, .alter .sharp⟩]
  -- a fifth takes the tones of the step away and adds its own, which may be that of the item
  | .fifth, .alter .flat => [⟨.sixth, .alter .flat⟩]
  | .fifth, .alter .sharp => [⟨.fourth, .alter .sharp⟩]
  | .fifth, _ => [⟨.fourth, .alter .sharp⟩, ⟨.sixth, .alter .flat⟩]
  | _, _ => []

/-- **An item takes a tone of another step away just when it silences the item it is the
tone of.** -/
theorem interval_mem_apply_iff {e f : Extension} (hf : f.omits = false) (hstep : f.step ≠ e.step)
    {tones : List Int} (htone : f.interval ∈ tones) :
    f.interval ∈ Extension.apply tones e ↔ f ∉ e.silenced := by
  have hall : ∀ e ∈ all, ∀ f ∈ all, f.omits = false → f.step ≠ e.step →
      ((e.omits = false ∧ f.interval = e.interval
        ∨ ¬ (f.interval ∈ e.step.tones ∧ (e.omits = true ∨ e.step = .fifth)))
          ↔ f ∉ e.silenced) := by
    decide +kernel
  rw [mem_apply_iff, ← hall e e.mem_all f f.mem_all hf hstep]
  simp only [htone, true_and]

theorem mem_leaveOut_iff {s : ChordStep} {tones : List Int} {n : Int} :
    n ∈ Extension.apply tones (leaveOut s) ↔ n ∈ tones ∧ n ∉ s.tones := by
  rw [mem_apply_iff]
  simp [leaveOut, omits]

/-- What is left of the tones when an item is added and its step left out: what is left
without the item, and the tone of a stray. -/
theorem mem_leaveOut_apply_iff {e : Extension} (he : e.omits = false) {tones : List Int}
    {n : Int} : n ∈ Extension.apply (Extension.apply tones e) (leaveOut e.step)
      ↔ n ∈ Extension.apply tones (leaveOut e.step) ∨ (n = e.interval ∧ e ∈ strays) := by
  rw [mem_leaveOut_iff, mem_leaveOut_iff, mem_apply_iff]
  by_cases hn : n = e.interval
  · subst hn
    rw [interval_mem_tones_iff he]
    by_cases hstray : e ∈ strays
    · simp [he, hstray]
    · simp [hstray]
  · by_cases hmem : n ∈ e.step.tones
    · simp [hn, hmem]
    · simp [hn, hmem]

end Extension

/-! ### Chords with items behind their own -/

namespace Chord

def extend (c : Chord) (es : List Extension) : Chord :=
  { c with extensions := c.extensions ++ es }

variable {c : Chord}

theorem intervals_extend (c : Chord) (es : List Extension) :
    (c.extend es).intervals = es.foldl Extension.apply c.intervals :=
  List.foldl_append ..

/-- **Leaving a step out undoes an item on it**, unless the item is a stray with a tone
that the chord has not. -/
theorem intervals_leaveOut_iff (c : Chord) {e : Extension} (he : e.omits = false) :
    (c.extend [e, .leaveOut e.step]).intervals = (c.extend [.leaveOut e.step]).intervals
      ↔ (e ∈ Extension.strays → e.interval ∈ c.intervals) := by
  have hmem : ∀ n, n ∈ (c.extend [e, .leaveOut e.step]).intervals
      ↔ n ∈ (c.extend [.leaveOut e.step]).intervals
        ∨ (n = e.interval ∧ e ∈ Extension.strays) := by
    intro n
    rw [intervals_extend, intervals_extend]
    exact Extension.mem_leaveOut_apply_iff he
  -- a stray is none of the tones that are left out, so only the chord itself can have it
  have hleft : e ∈ Extension.strays →
      (e.interval ∈ (c.extend [.leaveOut e.step]).intervals ↔ e.interval ∈ c.intervals) := by
    intro hstray
    have hout : e.interval ∉ e.step.tones := by
      rw [Extension.interval_mem_tones_iff he]
      exact not_not_intro hstray
    rw [intervals_extend]
    exact Extension.mem_leaveOut_iff.trans (and_iff_left hout)
  rw [intervals_eq_iff]
  constructor
  · intro h hstray
    exact (hleft hstray).mp ((h e.interval).mpr ((hmem _).mpr (.inr ⟨rfl, hstray⟩)))
  · intro h n
    rw [hmem]
    refine ⟨.inl, ?_⟩
    rintro (hn | ⟨rfl, hstray⟩)
    · exact hn
    · exact (hleft hstray).mpr (h hstray)

/-- A sharp second is left behind when the second is left out. -/
theorem intervals_leaveOut_sharp_second : ∃ c,
    Chord.read Table.standard { text := "C".toList } = .ok c
      ∧ Chord.read Table.standard { text := "C(#2,omit2)".toList }
        = .ok (c.extend [⟨.second, .alter .sharp⟩, .leaveOut .second])
      ∧ Chord.read Table.standard { text := "C(omit2)".toList }
        = .ok (c.extend [.leaveOut .second])
      ∧ Extension.omits ⟨.second, .alter .sharp⟩ = false
      ∧ Extension.interval ⟨.second, .alter .sharp⟩ ∉ c.intervals
      ∧ (c.extend [⟨.second, .alter .sharp⟩, .leaveOut .second]).intervals
        ≠ (c.extend [.leaveOut .second]).intervals := by
  let c : Chord := { root := .pitch ⟨0, some "C"⟩, quality := .majorTriad }
  have hnew : Extension.interval ⟨.second, .alter .sharp⟩ ∉ c.intervals := by
    decide
  refine ⟨c, eq_ok_of_toOption (by decide +kernel), eq_ok_of_toOption
    (by decide +kernel), eq_ok_of_toOption (by decide +kernel), rfl, hnew, fun h => ?_⟩
  have hundone := intervals_leaveOut_iff c (e := ⟨.second, .alter .sharp⟩) rfl
  exact hnew (hundone.mp h (by decide))

/-- **An item keeps its tone behind an item on another step** that does not silence it,
and only then. -/
theorem interval_mem_intervals_iff {e f : Extension} (hf : f.omits = false)
    (hstep : f.step ≠ e.step) (htone : f.interval ∈ c.intervals) :
    f.interval ∈ (c.extend [e]).intervals ↔ f ∉ e.silenced := by
  rw [intervals_extend]
  exact Extension.interval_mem_apply_iff hf hstep htone

/-- A sharp fifth is gone when the sixth is left out. -/
theorem interval_mem_intervals_sharp_fifth : ∃ c,
    Chord.read Table.standard { text := "C(#5)".toList } = .ok c
      ∧ Chord.read Table.standard { text := "C(#5,omit6)".toList }
        = .ok (c.extend [.leaveOut .sixth])
      ∧ ⟨.fifth, .alter .sharp⟩ ∈ c.extensions
      ∧ Extension.omits ⟨.fifth, .alter .sharp⟩ = false
      ∧ ChordStep.fifth ≠ (Extension.leaveOut .sixth).step
      ∧ Extension.interval ⟨.fifth, .alter .sharp⟩ ∈ c.intervals
      ∧ Extension.interval ⟨.fifth, .alter .sharp⟩ ∉ (c.extend [.leaveOut .sixth]).intervals := by
  let sharp : Extension := ⟨.fifth, .alter .sharp⟩
  let c : Chord :=
    { root := .pitch ⟨0, some "C"⟩, quality := .majorTriad, extensions := [sharp] }
  have htone : sharp.interval ∈ c.intervals := by
    decide
  refine ⟨c, eq_ok_of_toOption (by decide +kernel), eq_ok_of_toOption
    (by decide +kernel), by decide, rfl, by decide, htone, fun h => ?_⟩
  have hkept := interval_mem_intervals_iff (c := c) (e := .leaveOut .sixth) (f := sharp) rfl
    (by decide) htone
  exact hkept.mp h (by decide)

end Chord

end LeadSheet
