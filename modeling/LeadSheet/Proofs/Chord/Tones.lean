import LeadSheet.Chord.Basic
import LeadSheet.Quality.Standard
import Mathlib.Data.List.Sort

/-!
# The tones of a chord

The tones of a chord are what its extensions, one after the other, make of the tones of
its quality.  `Extension.mem_apply_iff` says what one extension does to a tone, so
whatever every extension keeps is so of the whole chord (`foldl_apply_keeps`): a chord
of a standard quality has its root (`Chord.zero_mem_intervals`), as its lowest tone
(`Chord.head?_intervals`), and no tone two octaves above it
(`Chord.intervals_nonneg_le`).
-/

namespace LeadSheet

/-! ### One extension -/

theorem ChordStep.zero_notMem_tones (s : ChordStep) : 0 ∉ s.tones := by
  cases s <;> decide

namespace Extension

def all : List Extension :=
  ChordStep.all.flatMap fun s =>
    [.alter .flat, .alter .natural, .alter .sharp, .add, .leaveOut].map (mk s)

theorem mem_all (e : Extension) : e ∈ all := by
  obtain ⟨s, change⟩ := e
  cases change with
  | alter a => cases s <;> cases a <;> decide
  | add => cases s <;> decide
  | leaveOut => cases s <;> decide

theorem mem_apply_iff {e : Extension} {tones : List Int} {n : Int} :
    n ∈ Extension.apply tones e ↔ (e.omits = false ∧ n = e.interval)
      ∨ (n ∈ tones ∧ ¬ (n ∈ e.step.tones ∧ (e.omits = true ∨ e.step = .fifth))) := by
  unfold Extension.apply withoutStep
  by_cases homits : e.omits = true
  · simp [homits]
  · by_cases hfifth : e.step = .fifth
    · simp [homits, hfifth]
    · simp [homits, hfifth]

theorem zero_mem_apply (e : Extension) {tones : List Int} (h : 0 ∈ tones) :
    0 ∈ Extension.apply tones e :=
  mem_apply_iff.mpr (.inr ⟨h, fun hstep => e.step.zero_notMem_tones hstep.1⟩)

theorem interval_pos_le (e : Extension) : 1 ≤ e.interval ∧ e.interval ≤ 22 := by
  have hall : ∀ e ∈ all, 1 ≤ e.interval ∧ e.interval ≤ 22 := by
    decide
  exact hall e e.mem_all

end Extension

/-! ### Standard qualities -/

namespace Quality

theorem zero_mem_intervals : ∀ q ∈ Quality.standard, 0 ∈ q.intervals := by
  decide

theorem intervals_nonneg_le : ∀ q ∈ Quality.standard, ∀ n ∈ q.intervals, 0 ≤ n ∧ n ≤ 22 := by
  decide

end Quality

/-! ### All extensions of a chord -/

theorem foldl_apply_keeps {P : List Int → Prop} {es : List Extension}
    (hstep : ∀ e ∈ es, ∀ tones, P tones → P (Extension.apply tones e)) {tones : List Int}
    (h : P tones) : P (es.foldl Extension.apply tones) :=
  List.foldlRecOn es Extension.apply h fun tones ht e he => hstep e he tones ht

theorem foldl_apply_congr : ∀ (es : List Extension) {as bs : List Int},
    (∀ n, n ∈ as ↔ n ∈ bs) →
      ∀ n, n ∈ es.foldl Extension.apply as ↔ n ∈ es.foldl Extension.apply bs := by
  intro es
  induction es with
  | nil => intro as bs h; exact h
  | cons e es ih =>
    intro as bs h
    exact ih fun n => by rw [Extension.mem_apply_iff, Extension.mem_apply_iff, h n]

namespace Chord

variable {c : Chord}

theorem intervals_eq_iff {c' : Chord} :
    c'.intervals = c.intervals ↔ ∀ n, n ∈ c.intervals ↔ n ∈ c'.intervals := by
  refine ⟨fun h n => by rw [h], fun h => ?_⟩
  exact c'.sorted_intervals.eq_of_mem_iff c.sorted_intervals fun n => (h n).symm

theorem zero_mem_intervals (h : c.quality ∈ Quality.standard) : 0 ∈ c.intervals :=
  foldl_apply_keeps (P := (0 ∈ ·)) (fun e _ _ => e.zero_mem_apply)
    (mem_toneSet.mpr (Quality.zero_mem_intervals _ h))

/-- **The tones of a chord of a standard quality lie within two octaves.** -/
theorem intervals_nonneg_le (h : c.quality ∈ Quality.standard) :
    ∀ n ∈ c.intervals, 0 ≤ n ∧ n ≤ 22 := by
  refine foldl_apply_keeps (P := fun tones => ∀ n ∈ tones, 0 ≤ n ∧ n ≤ 22)
    (fun e _ tones ht n hn => ?_) fun n hn =>
      Quality.intervals_nonneg_le _ h n (mem_toneSet.mp hn)
  rcases Extension.mem_apply_iff.mp hn with ⟨-, rfl⟩ | ⟨hn, -⟩
  · have hrange := e.interval_pos_le
    omega
  · exact ht n hn

/-- **The lowest tone of a chord of a standard quality is its root.** -/
theorem head?_intervals (h : c.quality ∈ Quality.standard) : c.intervals.head? = some 0 := by
  have hzero := zero_mem_intervals h
  have hsorted := c.sorted_intervals
  have hnonneg := intervals_nonneg_le h
  cases htones : c.intervals with
  | nil => rw [htones] at hzero; cases hzero
  | cons n ns =>
    rw [htones] at hzero hsorted hnonneg
    rcases List.mem_cons.mp hzero with rfl | hmem
    · rfl
    · have hlow := (List.pairwise_cons.mp hsorted).1 0 hmem
      have hn := (hnonneg n (List.mem_cons_self ..)).1
      omega

end Chord

end LeadSheet
