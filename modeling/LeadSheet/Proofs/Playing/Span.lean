import LeadSheet.Playing.Timeline
import LeadSheet.Proofs.Number.Exact
import LeadSheet.Proofs.Score.Growth
import Mathlib.Tactic.Linarith

/-!
# Chords follow each other

`timelineFrom_cons` says what one entry adds to a timeline: nothing, or a chord
that has notes and is held by the ties behind it.  So the times of a timeline
are sums of durations (`Score.times_timeline`).  Every entry starts where
the one before it ends, so with exact durations a chord is over when the next
one starts (`spaced_timelineFrom`), and no chord ends before it starts.
-/

namespace LeadSheet

section Notes

variable {ν : Type} [NoteNumber ν]

theorem exists_of_voice {strategy : Strategy} {octave : ν} {key : Option Key}
    {previous : Option (Voiced ν)} {c : Chord} {v : Voiced ν}
    (h : strategy.voice octave key previous c = .ok v) :
    ∃ root lowest notes, c.root.resolve key = .ok root
      ∧ strategy.place previous (stack octave root c) = lowest :: notes
      ∧ v.chord = lowest :: notes ∧ bassNote octave key c lowest = .ok v.bass := by
  unfold Strategy.voice at h
  split at h
  · cases h
  · rename_i root hroot
    split at h
    · cases h
    · rename_i lowest notes hplace
      obtain ⟨bass, hbass, rfl⟩ := exists_of_map_eq_ok h
      exact ⟨root, lowest, notes, hroot, hplace, rfl, hbass⟩

theorem chord_ne_nil_of_voice {strategy : Strategy} {octave : ν} {key : Option Key}
    {previous : Option (Voiced ν)} {c : Chord} {v : Voiced ν}
    (h : strategy.voice octave key previous c = .ok v) : v.chord ≠ [] := by
  obtain ⟨root, lowest, notes, -, -, hnotes, -⟩ := exists_of_voice h
  exact hnotes ▸ List.cons_ne_nil lowest notes

theorem chord_ne_nil_of_fit {v w : Voiced ν} (h : v.fit = .ok w) (hv : v.chord ≠ []) :
    w.chord ≠ [] := by
  unfold Voiced.fit at h
  obtain ⟨chord, hchord, h⟩ := exists_of_bind_eq_ok h
  obtain ⟨bass, -, h⟩ := exists_of_bind_eq_ok h
  cases h
  cases hc : v.chord with
  | nil => exact absurd hc hv
  | cons n ns =>
    rw [hc, List.mapM_cons] at hchord
    obtain ⟨m, -, hchord⟩ := exists_of_bind_eq_ok hchord
    obtain ⟨ms, -, hchord⟩ := exists_of_bind_eq_ok hchord
    cases hchord
    exact List.cons_ne_nil m ms

variable {Q : Type} [Quantity Q]

omit [Quantity Q] in
theorem Entry.chord?_eq_some_iff {e : Entry Q} {c : Chord} :
    e.chord? = some c ↔ e.content = .chord c := by
  unfold Entry.chord?
  cases e.content <;> simp [EntryContent.chord?]

theorem timelineFrom_of_silent {strategy : Strategy} {octave : ν} {s : Score Q}
    {previous : Option (Voiced ν)} {e : Entry Q} {es : List (Entry Q)} (h : e.chord? = none) :
    timelineFrom strategy octave s previous (e :: es)
      = timelineFrom strategy octave s previous es := by
  rw [timelineFrom]
  unfold Entry.chord? at h
  cases hc : e.content with
  | chord c => rw [hc] at h; cases h
  | rest => rfl
  | tie => rfl

theorem timelineFrom_of_chord {strategy : Strategy} {octave : ν} {s : Score Q}
    {previous : Option (Voiced ν)} {e : Entry Q} {es : List (Entry Q)} {c : Chord}
    {ts : List (TimedChord ν Q)} (hc : e.content = .chord c)
    (h : timelineFrom strategy octave s previous (e :: es) = .ok ts) :
    ∃ placed voiced rest, strategy.voice octave (s.keyOf e) previous c = .ok placed
      ∧ placed.fit = .ok voiced ∧ timelineFrom strategy octave s (some voiced) es = .ok rest
      ∧ ts = ⟨e.beat, held e.duration es, voiced⟩ :: rest := by
  unfold timelineFrom at h
  rw [hc] at h
  obtain ⟨placed, hplaced, h⟩ := exists_of_bind_eq_ok h
  obtain ⟨voiced, hfit, h⟩ := exists_of_bind_eq_ok h
  obtain ⟨rest, hrest, h⟩ := exists_of_bind_eq_ok h
  exact ⟨placed, voiced, rest, hplaced, hfit, hrest, (Except.ok.inj h).symm⟩

/-- **What an entry adds to a timeline**: nothing, or a chord that has
notes. -/
theorem timelineFrom_cons {strategy : Strategy} {octave : ν} {s : Score Q}
    {previous : Option (Voiced ν)} {e : Entry Q} {es : List (Entry Q)}
    {ts : List (TimedChord ν Q)} (h : timelineFrom strategy octave s previous (e :: es) = .ok ts) :
    (e.chord? = none ∧ timelineFrom strategy octave s previous es = .ok ts)
      ∨ ∃ (c : Chord) (voiced : Voiced ν) (rest : List (TimedChord ν Q)),
        e.content = .chord c ∧ voiced.chord ≠ []
          ∧ timelineFrom strategy octave s (some voiced) es = .ok rest
          ∧ ts = ⟨e.beat, held e.duration es, voiced⟩ :: rest := by
  have hsilent : ∀ {content : EntryContent}, e.content = content → content.chord? = none →
      e.chord? = none ∧ timelineFrom strategy octave s previous es = .ok ts := by
    intro content hc hnone
    have hchord : e.chord? = none := by rw [Entry.chord?, hc, hnone]
    exact ⟨hchord, (timelineFrom_of_silent hchord).symm.trans h⟩
  cases hc : e.content with
  | rest => exact .inl (hsilent hc rfl)
  | tie => exact .inl (hsilent hc rfl)
  | chord c =>
    obtain ⟨placed, voiced, rest, hplaced, hfit, hrest, hts⟩ := timelineFrom_of_chord hc h
    have hnotes := chord_ne_nil_of_fit hfit (chord_ne_nil_of_voice hplaced)
    exact .inr ⟨c, voiced, rest, rfl, hnotes, hrest, hts⟩

theorem chord_ne_nil_of_timelineFrom {strategy : Strategy} {octave : ν} {s : Score Q} :
    ∀ {es : List (Entry Q)} {previous : Option (Voiced ν)} {ts : List (TimedChord ν Q)},
      timelineFrom strategy octave s previous es = .ok ts → ∀ t ∈ ts, t.voiced.chord ≠ [] := by
  intro es
  induction es with
  | nil =>
    intro previous ts h t ht
    cases h
    cases ht
  | cons e es ih =>
    intro previous ts h
    rcases timelineFrom_cons h with ⟨-, hrest⟩ | ⟨c, voiced, rest, -, hnotes, hrest, rfl⟩
    · exact ih hrest
    · intro t ht
      rcases List.mem_cons.mp ht with rfl | ht
      · exact hnotes
      · exact ih hrest t ht

end Notes

/-! ### Times -/

section Times

variable {Q : Type} [Quantity Q] {P : Q → Prop}

def KeptBy (P : Q → Prop) (es : List (Entry Q)) : Prop :=
  ∀ e ∈ es, ∀ x, P x → P (x + e.duration)

theorem KeptBy.tail {e : Entry Q} {es : List (Entry Q)} (h : KeptBy P (e :: es)) : KeptBy P es :=
  fun d hd => h d (List.mem_cons_of_mem e hd)

theorem KeptBy.held : ∀ {es : List (Entry Q)} {d : Q}, KeptBy P es → P d → P (held d es) := by
  intro es
  induction es with
  | nil => intro d _ hd; exact hd
  | cons e es ih =>
    intro d h hd
    unfold LeadSheet.held
    cases e.content with
    | chord c => exact hd
    | rest => exact hd
    | tie => exact ih h.tail (h e (List.mem_cons_self ..) d hd)

theorem KeptBy.beat : ∀ {es : List (Entry Q)} {p : Option (Entry Q)}, KeptBy P es →
    Chained p es → P (p.elim (Quantity.ofInt 0) Entry.finish) → ∀ e ∈ es, P e.beat := by
  intro es
  induction es with
  | nil => intro p _ _ _ e he; cases he
  | cons d es ih =>
    intro p h hchain hstart
    obtain ⟨hfollows, hchain⟩ := hchain
    have hbeat : P d.beat := by
      cases p with
      | none => rw [hfollows.1]; exact hstart
      | some p => rw [hfollows.1]; exact hstart
    intro e he
    rcases List.mem_cons.mp he with rfl | he
    · exact hbeat
    · exact ih h.tail hchain (h d (List.mem_cons_self ..) d.beat hbeat) e he

variable {ν : Type} [NoteNumber ν]

theorem KeptBy.timelineFrom {strategy : Strategy} {octave : ν} {s : Score Q} :
    ∀ {es : List (Entry Q)} {previous : Option (Voiced ν)} {ts : List (TimedChord ν Q)},
      KeptBy P es → (∀ e ∈ es, P e.beat ∧ P e.duration) →
      timelineFrom strategy octave s previous es = .ok ts → ∀ t ∈ ts, P t.start ∧ P t.duration := by
  intro es
  induction es with
  | nil => intro previous ts _ _ h t ht; cases h; cases ht
  | cons e es ih =>
    intro previous ts hkept htimes h
    obtain ⟨⟨hbeat, hduration⟩, htail⟩ := List.forall_mem_cons.mp htimes
    rcases timelineFrom_cons h with ⟨-, hrest⟩ | ⟨c, voiced, rest, -, -, hrest, rfl⟩
    · exact ih hkept.tail htail hrest
    · refine List.forall_mem_cons.mpr ⟨⟨hbeat, ?_⟩, ih hkept.tail htail hrest⟩
      exact hkept.tail.held hduration

/-- **What is so of no beats and of durations, and kept by adding one, is so of
the times of a timeline.** -/
theorem Score.times_timeline {settings : Settings Q} {s : Score Q}
    {ts : List (TimedChord (Number Q) Q)} (hchain : Chained none s.entries)
    (hzero : P (Quantity.ofInt 0)) (hduration : ∀ e ∈ s.entries, P e.duration)
    (hkept : KeptBy P s.entries) (h : timeline settings s = .ok ts) :
    ∀ t ∈ ts, P t.start ∧ P t.duration := by
  have htimes : ∀ e ∈ s.entries, P e.beat ∧ P e.duration := fun e he =>
    ⟨hkept.beat hchain hzero e he, hduration e he⟩
  unfold timeline at h
  split at h
  · split at h
    · obtain ⟨ts', hts, rfl⟩ := exists_of_map_eq_ok h
      intro t ht
      obtain ⟨t', ht', rfl⟩ := List.mem_map.mp ht
      exact hkept.timelineFrom htimes hts t' ht'
    · exact hkept.timelineFrom htimes h
  · split at h
    · cases h
    · cases h
      exact fun t ht => nomatch ht

end Times

/-! ### Exact time -/

def Lasting (es : List (Entry Rat)) : Prop :=
  ∀ e ∈ es, 0 ≤ e.duration

theorem Lasting.tail {e : Entry Rat} {es : List (Entry Rat)} (h : Lasting (e :: es)) :
    Lasting es :=
  fun d hd => h d (List.mem_cons_of_mem e hd)

theorem lasting_of_made {P : Chord → Prop} {es : List (Entry Rat)}
    (h : ∀ e ∈ es, e.Made P) : Lasting es := by
  intro e he
  rcases (h e he).duration with hbeats | husual
  · exact Exact.nonneg_of_isBeats hbeats
  · rw [husual]
    decide

theorem le_held : ∀ {es : List (Entry Rat)} {d : Rat}, Lasting es → d ≤ held d es := by
  intro es
  induction es with
  | nil => intro d _; exact Rat.le_refl
  | cons e es ih =>
    intro d h
    unfold held
    cases e.content with
    | chord c => exact Rat.le_refl
    | rest => exact Rat.le_refl
    | tie =>
      have hrest : d + e.duration ≤ held (d + e.duration) es := ih h.tail
      have hduration := h e (List.mem_cons_self ..)
      exact le_trans (by linarith) hrest

/-- Chords of which none ends before it starts, or behind the start of a later
one. -/
structure Spaced {ν : Type} (ts : List (TimedChord ν Rat)) : Prop where
  apart : ts.Pairwise fun a b => a.finish ≤ b.start
  lasting : ∀ t ∈ ts, t.start ≤ t.finish

theorem Spaced.map {ν μ : Type} {ts : List (TimedChord ν Rat)} (h : Spaced ts) (f : ν → μ) :
    Spaced (ts.map (TimedChord.map f)) := by
  refine ⟨List.pairwise_map.mpr h.apart, fun t ht => ?_⟩
  obtain ⟨t', ht', rfl⟩ := List.mem_map.mp ht
  exact h.lasting t' ht'

variable {ν : Type} [NoteNumber ν] {strategy : Strategy} {octave : ν} {s : Score Rat}

theorem Entry.beat_le_finish {e : Entry Rat} (h : 0 ≤ e.duration) : e.beat ≤ e.finish := by
  show e.beat ≤ e.beat + e.duration
  linarith

theorem finish_le_start : ∀ {es : List (Entry Rat)} {p : Entry Rat} {previous : Option (Voiced ν)}
    {ts : List (TimedChord ν Rat)}, Chained (some p) es → Lasting es →
    timelineFrom strategy octave s previous es = .ok ts → ∀ t ∈ ts, p.finish ≤ t.start := by
  intro es
  induction es with
  | nil =>
    intro p previous ts _ _ h t ht
    cases h
    cases ht
  | cons e es ih =>
    intro p previous ts hchain hlasting h t ht
    obtain ⟨⟨hbeat, -⟩, hchain⟩ := hchain
    have hle : p.finish ≤ e.finish := by
      rw [← hbeat]
      exact Entry.beat_le_finish (hlasting e (List.mem_cons_self ..))
    rcases timelineFrom_cons h with ⟨-, hrest⟩ | ⟨c, voiced, rest, -, -, hrest, rfl⟩
    · exact le_trans hle (ih hchain hlasting.tail hrest t ht)
    · rcases List.mem_cons.mp ht with rfl | ht
      · exact le_of_eq hbeat.symm
      · exact le_trans hle (ih hchain hlasting.tail hrest t ht)

/-- **A chord is over when the next one starts**, however long it is held. -/
theorem held_le_start : ∀ {es : List (Entry Rat)} {p : Entry Rat} {previous : Option (Voiced ν)}
    {ts : List (TimedChord ν Rat)} {start d : Rat}, Chained (some p) es → Lasting es →
    timelineFrom strategy octave s previous es = .ok ts → start + d = p.finish →
    ∀ t ∈ ts, start + held d es ≤ t.start := by
  intro es
  induction es with
  | nil =>
    intro p previous ts start d _ _ h _ t ht
    cases h
    cases ht
  | cons e es ih =>
    intro p previous ts start d hchain hlasting h hstart t ht
    have hbehind := finish_le_start hchain hlasting h t ht
    unfold held
    cases hc : e.content with
    | chord c => rw [← hstart] at hbehind; exact hbehind
    | rest => rw [← hstart] at hbehind; exact hbehind
    | tie =>
      obtain ⟨⟨hbeat, -⟩, hchain⟩ := hchain
      rcases timelineFrom_cons h with ⟨-, hrest⟩ | ⟨c, voiced, rest, hchord, -⟩
      · refine ih hchain hlasting.tail hrest ?_ t ht
        show start + (d + e.duration) = e.beat + e.duration
        rw [hbeat, ← hstart]
        ring
      · rw [hc] at hchord
        cases hchord

theorem spaced_timelineFrom : ∀ {es : List (Entry Rat)} {p : Option (Entry Rat)}
    {previous : Option (Voiced ν)} {ts : List (TimedChord ν Rat)}, Chained p es → Lasting es →
    timelineFrom strategy octave s previous es = .ok ts → Spaced ts := by
  intro es
  induction es with
  | nil =>
    intro p previous ts _ _ h
    cases h
    exact ⟨.nil, fun t ht => nomatch ht⟩
  | cons e es ih =>
    intro p previous ts hchain hlasting h
    obtain ⟨-, hchain⟩ := hchain
    rcases timelineFrom_cons h with ⟨-, hrest⟩ | ⟨c, voiced, rest, -, -, hrest, rfl⟩
    · exact ih hchain hlasting.tail hrest
    · have hspaced := ih hchain hlasting.tail hrest
      have hduration := hlasting e (List.mem_cons_self ..)
      refine ⟨List.pairwise_cons.mpr ⟨?_, hspaced.apart⟩, ?_⟩
      · exact held_le_start hchain hlasting.tail hrest rfl
      · intro t ht
        rcases List.mem_cons.mp ht with rfl | ht
        · show e.beat ≤ e.beat + held e.duration es
          have hheld : e.duration ≤ held e.duration es := le_held hlasting.tail
          linarith
        · exact hspaced.lasting t ht

/-- **The chords of a timeline follow each other, and they have notes.** -/
theorem Score.spaced_timeline {settings : Settings Rat} {ts : List (TimedChord (Number Rat) Rat)}
    (hchain : Chained none s.entries) (hlasting : Lasting s.entries)
    (h : timeline settings s = .ok ts) : Spaced ts ∧ ∀ t ∈ ts, t.voiced.chord ≠ [] := by
  unfold timeline at h
  split at h
  · split at h
    · obtain ⟨ts', hts, rfl⟩ := exists_of_map_eq_ok h
      refine ⟨(spaced_timelineFrom hchain hlasting hts).map _, fun t ht => ?_⟩
      obtain ⟨t', ht', rfl⟩ := List.mem_map.mp ht
      intro hnil
      exact chord_ne_nil_of_timelineFrom hts t' ht' (List.map_eq_nil_iff.mp hnil)
    · exact ⟨spaced_timelineFrom hchain hlasting h, chord_ne_nil_of_timelineFrom h⟩
  · split at h
    · cases h
    · cases h
      exact ⟨⟨.nil, fun t ht => nomatch ht⟩, fun t ht => nomatch ht⟩

end LeadSheet
