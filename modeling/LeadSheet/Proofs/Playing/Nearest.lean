import LeadSheet.Proofs.Playing.Voicing

/-!
# The nearest place of a chord

The nearest voicing moves a chord by an octave at most, towards the chord before it.  The
distance it makes least is the sum of the distances of corresponding notes (`apart`) with
that of the lowest notes counted twice (`distance_cons`).

Both measures are convex in the octaves that a chord is moved by (`apart_convex`,
`distance_convex`), so under neither of them are both moves nearer than staying, and the
nearest place can be read off the two comparisons with the chord unmoved
(`isNearest_iff`).  Hence the place is nearest by the plain sum just when both measures
agree on both comparisons (`Chord.nearest_of_keyed`).
-/

namespace LeadSheet

/-- The sum of the distances of corresponding notes, as far as both chords go. -/
def apart (a b : List Int) : Int :=
  (List.zipWith (fun m n : Int => ((m - n).natAbs : Int)) a b).sum

/-- The places of a chord: where it is, an octave below and an octave above. -/
def places (notes : List Int) : List (List Int) :=
  [notes, moved (-1) notes, moved 1 notes]

/-- A measure that is convex in the octaves that a chord is moved by. -/
def IsConvex (measure : List Int → Int) (notes : List Int) : Prop :=
  2 * measure notes ≤ measure (moved (-1) notes) + measure (moved 1 notes)

/-- A place of a chord that is nearest under a measure.  A chord that is nearest where it
is stays there. -/
structure IsNearest (measure : List Int → Int) (notes chosen : List Int) : Prop where
  mem : chosen ∈ places notes
  least : ∀ place ∈ places notes, measure chosen ≤ measure place
  stays : (∀ place ∈ places notes, measure notes ≤ measure place) → chosen = notes

/-! ### The first least value -/

section FirstLeast

variable {α : Type} {measure : α → Int}

theorem firstLeast_le : ∀ (as : List α) (a : α), ∀ b ∈ a :: as,
    measure (firstLeast measure a as) ≤ measure b := by
  intro as
  induction as with
  | nil =>
    intro a b hb
    rw [List.mem_singleton.mp hb]
    exact Int.le_refl _
  | cons c cs ih =>
    intro a b hb
    rw [firstLeast]
    by_cases hless : NoteNumber.less (measure c) (measure a) = true
    · have hc : measure c < measure a := of_decide_eq_true hless
      rw [if_pos hless]
      rcases List.mem_cons.mp hb with rfl | hb
      · exact Int.le_trans (ih c c (List.mem_cons_self ..)) (Int.le_of_lt hc)
      · exact ih c b hb
    · have hc : ¬ measure c < measure a := fun h => hless (decide_eq_true h)
      rw [if_neg hless]
      rcases List.mem_cons.mp hb with rfl | hb
      · exact ih b b (List.mem_cons_self ..)
      · rcases List.mem_cons.mp hb with rfl | hb
        · exact Int.le_trans (ih a a (List.mem_cons_self ..)) (Int.not_lt.mp hc)
        · exact ih a b (List.mem_cons_of_mem a hb)

theorem firstLeast_eq_self : ∀ {as : List α} {a : α}, (∀ b ∈ as, measure a ≤ measure b) →
    firstLeast measure a as = a := by
  intro as
  induction as with
  | nil => intro a _; rfl
  | cons c cs ih =>
    intro a h
    obtain ⟨hc, hcs⟩ := List.forall_mem_cons.mp h
    have hless : ¬ NoteNumber.less (measure c) (measure a) = true :=
      fun hless => absurd (of_decide_eq_true hless) (Int.not_lt.mpr hc)
    rw [firstLeast, if_neg hless]
    exact ih hcs

end FirstLeast

/-! ### Measures of moved chords -/

theorem moved_zero (notes : List Int) : moved 0 notes = notes := by
  rw [moved_whole]
  simp

theorem moved_inj {notes : List Int} (hnotes : notes ≠ []) {k l : Int}
    (h : moved k notes = moved l notes) : k = l := by
  obtain ⟨n, ns, rfl⟩ := List.exists_cons_of_ne_nil hnotes
  rw [moved_whole, moved_whole, List.map_cons, List.map_cons] at h
  have hn := (List.cons.inj h).1
  omega

theorem apart_cons (m n : Int) (ms ns : List Int) :
    apart (m :: ms) (n :: ns) = (m - n).natAbs + apart ms ns :=
  List.sum_cons

/-- **What the nearest voicing makes least** is the sum of the distances, with that of the
lowest notes counted twice. -/
theorem distance_cons (m n : Int) (ms ns : List Int) :
    distance (m :: ms) (n :: ns) = (m - n).natAbs + apart (m :: ms) (n :: ns) := by
  unfold apart
  rw [List.sum_eq_foldl]
  rfl

/-- The distances to a chord are convex in the octaves that the other is moved by. -/
theorem apart_convex : ∀ notes goal : List Int, IsConvex (apart · goal) notes := by
  intro notes
  induction notes with
  | nil => intro goal; exact Int.le_refl 0
  | cons m ms ih =>
    intro goal
    cases goal with
    | nil => exact Int.le_refl 0
    | cons n ns =>
      have hrest := ih ns
      simp only [IsConvex, moved_whole, List.map_cons, apart_cons] at hrest ⊢
      omega

theorem distance_convex {notes goal : List Int} (hnotes : notes ≠ []) (hgoal : goal ≠ []) :
    IsConvex (distance · goal) notes := by
  obtain ⟨m, ms, rfl⟩ := List.exists_cons_of_ne_nil hnotes
  obtain ⟨n, ns, rfl⟩ := List.exists_cons_of_ne_nil hgoal
  have hsum := apart_convex (m :: ms) (n :: ns)
  simp only [IsConvex, moved_whole, List.map_cons, distance_cons] at hsum ⊢
  omega

/-! ### Nearest places -/

section IsNearest

variable {measure : List Int → Int} {notes chosen : List Int}

theorem IsConvex.opposite (h : IsConvex measure notes) {k : Int} (hk : k = -1 ∨ k = 1) :
    2 * measure notes ≤ measure (moved k notes) + measure (moved (-k) notes) := by
  unfold IsConvex at h
  rcases hk with rfl | rfl
  · exact h
  · rw [Int.add_comm]
    exact h

theorem mem_places_iff {k : Int} (hk : k = -1 ∨ k = 1) {place : List Int} :
    place ∈ places notes ↔ place = notes ∨ place = moved k notes ∨ place = moved (-k) notes := by
  rcases hk with rfl | rfl
  · simp [places]
  · simp [places, or_comm]

theorem ne_moved (hnotes : notes ≠ []) {k : Int} (hk : k = -1 ∨ k = 1) : notes ≠ moved k notes := by
  intro h
  have hzero := moved_inj hnotes ((moved_zero notes).trans h)
  omega

/-- Under a convex measure a chord is moved just when the move is nearer than staying. -/
theorem IsNearest.eq_moved_iff (h : IsNearest measure notes chosen) (hnotes : notes ≠ [])
    (hconvex : IsConvex measure notes) {k : Int} (hk : k = -1 ∨ k = 1) :
    chosen = moved k notes ↔ measure (moved k notes) < measure notes := by
  have hopposite := hconvex.opposite hk
  constructor
  · intro hchosen
    by_contra hless
    have hleast := h.least (moved (-k) notes) ((mem_places_iff hk).mpr (.inr (.inr rfl)))
    rw [hchosen] at hleast
    have hstays : chosen = notes := h.stays fun place hplace => by
      rcases (mem_places_iff hk).mp hplace with rfl | rfl | rfl <;> omega
    exact ne_moved hnotes hk (hstays.symm.trans hchosen)
  · intro hless
    have hleast := h.least (moved k notes) ((mem_places_iff hk).mpr (.inr (.inl rfl)))
    rcases (mem_places_iff hk).mp h.mem with rfl | rfl | rfl
    · omega
    · rfl
    · omega

theorem isNearest_iff (hnotes : notes ≠ []) (hconvex : IsConvex measure notes) :
    IsNearest measure notes chosen ↔ chosen ∈ places notes ∧ ∀ k : Int, k = -1 ∨ k = 1 →
      (chosen = moved k notes ↔ measure (moved k notes) < measure notes) := by
  refine ⟨fun h => ⟨h.mem, fun k hk => h.eq_moved_iff hnotes hconvex hk⟩, ?_⟩
  rintro ⟨hmem, hmoves⟩
  by_cases hchosen : chosen = notes
  · have hstays : ∀ place ∈ places notes, measure notes ≤ measure place := by
      have hmove : ∀ k : Int, k = -1 ∨ k = 1 → measure notes ≤ measure (moved k notes) := by
        intro k hk
        by_contra hless
        have hmoved := (hmoves k hk).mpr (Int.not_le.mp hless)
        exact ne_moved hnotes hk (hchosen.symm.trans hmoved)
      intro place hplace
      rcases (mem_places_iff (.inr rfl)).mp hplace with rfl | rfl | rfl
      · exact Int.le_refl _
      · exact hmove 1 (.inr rfl)
      · exact hmove (-1) (.inl rfl)
    exact ⟨hmem, hchosen ▸ hstays, fun _ => hchosen⟩
  · obtain ⟨k, hk, hmoved⟩ : ∃ k : Int, (k = -1 ∨ k = 1) ∧ chosen = moved k notes := by
      rcases (mem_places_iff (.inr rfl)).mp hmem with h | h | h
      · exact absurd h hchosen
      · exact ⟨1, .inr rfl, h⟩
      · exact ⟨-1, .inl rfl, h⟩
    have hless := (hmoves k hk).mp hmoved
    -- the move the other way is farther than staying
    have hopposite := hconvex.opposite hk
    refine ⟨hmem, fun place hplace => ?_, fun hstays => ?_⟩
    · rw [hmoved]
      rcases (mem_places_iff hk).mp hplace with rfl | rfl | rfl <;> omega
    · have hleast := hstays (moved k notes) ((mem_places_iff hk).mpr (.inr (.inl rfl)))
      omega

/-- **A place that is nearest under one measure is nearest under another** just when each
move is nearer than staying under both or neither. -/
theorem IsNearest.iff_of_convex (h : IsNearest measure notes chosen) (hnotes : notes ≠ [])
    (hconvex : IsConvex measure notes) {measure' : List Int → Int}
    (hconvex' : IsConvex measure' notes) :
    IsNearest measure' notes chosen ↔ ∀ k : Int, k = -1 ∨ k = 1 →
      (measure' (moved k notes) < measure' notes ↔ measure (moved k notes) < measure notes) := by
  rw [isNearest_iff hnotes hconvex']
  simp only [h.mem, true_and]
  refine forall₂_congr fun k hk => ?_
  rw [h.eq_moved_iff hnotes hconvex hk]
  exact iff_comm

theorem isNearest_towards (goal notes : List Int) :
    IsNearest (distance · goal) notes (towards goal notes) := by
  have htowards : towards goal notes
      = firstLeast (distance · goal) notes [moved (-1) notes, moved 1 notes] := by
    unfold towards
    rw [moved_zero]
  rw [htowards]
  refine ⟨firstLeast_mem _ _ _, firstLeast_le _ _, fun h => firstLeast_eq_self ?_⟩
  exact (List.forall_mem_cons.mp h).2

end IsNearest

/-- **The place of a chord behind another one.**  A chord with tones whose degrees have a
key is put where the sum of distances, with the lowest notes counted twice, is least.
The plain sum is least there as well, and the chord unmoved if it can be, just when the
sums agree on which moves are nearer than staying. -/
theorem Chord.nearest_of_keyed {c : Chord} (htones : c.intervals ≠ []) {key : Option Key}
    (hkey : c.Keyed key) (octave : Int) {previous : Voiced Int} (hprevious : previous.chord ≠ []) :
    ∃ root notes v, c.root.resolve key = .ok root ∧ notes = stack octave root c
      ∧ Strategy.nearest.voice octave key (some previous) c = .ok v
      ∧ IsNearest (distance · previous.chord) notes v.chord
      ∧ (IsNearest (apart · previous.chord) notes v.chord ↔ ∀ k : Int, k = -1 ∨ k = 1 →
        (apart (moved k notes) previous.chord < apart notes previous.chord
          ↔ distance (moved k notes) previous.chord < distance notes previous.chord)) := by
  obtain ⟨v, hv⟩ := (exists_voice_iff .nearest octave key (some previous) htones).mpr hkey
  obtain ⟨root, lowest, notes, hroot, hplace, hnotes, -⟩ := exists_of_voice hv
  have hstack : stack octave root c ≠ [] := fun h => htones (List.map_eq_nil_iff.mp h)
  have hchord : v.chord = towards previous.chord (stack octave root c) := by
    rw [hnotes, ← hplace]
    unfold Strategy.place
    simp [hprevious]
  have hnearest := isNearest_towards previous.chord (stack octave root c)
  rw [← hchord] at hnearest
  exact ⟨root, _, v, hroot, rfl, hv, hnearest, hnearest.iff_of_convex hstack
    (distance_convex hstack hprevious) (apart_convex _ _)⟩

/-- A power chord stays where it is, although it is less apart an octave below. -/
theorem Chord.nearest_of_keyed_power_chord : ∃ c v,
    Chord.read Table.standard { text := "F5".toList } = .ok c
      ∧ c.intervals ≠ [] ∧ c.Keyed none ∧ ([60, 64, 67] : List Int) ≠ []
      ∧ Strategy.nearest.voice (4 : Int) none (some ⟨[60, 64, 67], none⟩) c = .ok v
      ∧ v.chord = [65, 72] ∧ apart [65, 72] [60, 64, 67] = 13 ∧ apart [53, 60] [60, 64, 67] = 11
      ∧ IsNearest (distance · [60, 64, 67]) [65, 72] v.chord
      ∧ ¬ IsNearest (apart · [60, 64, 67]) [65, 72] v.chord := by
  let before : Voiced Int := ⟨[60, 64, 67], none⟩
  have hfound : ((Chord.read Table.standard { text := "F5".toList }).toOption.map fun c =>
      (c.intervals, c.root.resolve none, c.bass,
        (Strategy.nearest.voice (4 : Int) none (some before) c).toOption.map Voiced.chord))
      = some ([0, 7], .ok ⟨5, some "F"⟩, none, some [65, 72]) := by
    decide +kernel
  obtain ⟨c, hread, hvalues⟩ := Option.map_eq_some_iff.mp hfound
  obtain ⟨hintervals, hvalues⟩ := Prod.mk.inj hvalues
  obtain ⟨hroot, hvalues⟩ := Prod.mk.inj hvalues
  obtain ⟨hbass, hvoiced⟩ := Prod.mk.inj hvalues
  obtain ⟨v, hv, hchord⟩ := Option.map_eq_some_iff.mp hvoiced
  have hv := eq_ok_of_toOption hv
  have htones : c.intervals ≠ [] := by
    rw [hintervals]
    exact List.cons_ne_nil _ _
  have hkey : c.Keyed none := by
    intro hnone
    refine ⟨(c.root.exists_resolve_iff none).mp ⟨_, hroot⟩ hnone, fun r hr => ?_⟩
    rw [hbass] at hr
    cases hr
  have hbefore : before.chord ≠ [] := List.cons_ne_nil _ _
  obtain ⟨root, notes, v', hroot', hnotes, hv', hnearest, hplain⟩ :=
    nearest_of_keyed htones hkey 4 hbefore
  obtain rfl := Except.ok.inj (hroot.symm.trans hroot')
  obtain rfl := Except.ok.inj (hv.symm.trans hv')
  obtain rfl : notes = [65, 72] := by
    rw [hnotes]
    unfold stack
    rw [hintervals]
    rfl
  refine ⟨c, v, eq_ok_of_toOption hread, htones, hkey, hbefore, hv, hchord, by decide, by decide,
    hnearest, fun h => ?_⟩
  exact absurd (hplain.mp h (-1) (.inl rfl)) (by decide)

end LeadSheet
