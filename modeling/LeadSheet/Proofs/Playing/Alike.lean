import LeadSheet.Playing.Sheet
import LeadSheet.Proofs.Writing.Chord
import Mathlib.Data.List.Forall2

/-!
# What playing depends on

Of the root and the bass of a chord only the tones are played, so chords that
stand for the same tones get the same notes (`Strategy.voice_alike`).  Scores
with alike entries then have the same timeline (`Score.timeline_alike`), and
with the same timeline they make the same file (`Score.soundsLike_iff`).
-/

namespace LeadSheet

/-! ### Chords with the same tones -/

def Root.tone (key : Option Key) (r : Root) : Except KeyFault (Fin 12) :=
  (r.resolve key).map PitchClass.value

/-- Two chords under keys of their own that stand for the same tones. -/
structure Chord.Alike (key key' : Option Key) (c c' : Chord) : Prop where
  root : c'.root.tone key' = c.root.tone key
  quality : c'.quality = c.quality
  extensions : c'.extensions = c.extensions
  bass : c'.bass.map (Root.tone key') = c.bass.map (Root.tone key)

/-- Two contents of entries under keys of their own that sound the same. -/
inductive EntryContent.Alike (key key' : Option Key) : EntryContent → EntryContent → Prop
  | chord {c c' : Chord} (h : c.Alike key key' c') : Alike key key' (.chord c) (.chord c')
  | rest : Alike key key' .rest .rest
  | tie : Alike key key' .tie .tie

variable {Q : Type}

structure Entry.Alike (s s' : Score Q) (e e' : Entry Q) : Prop where
  beat : e'.beat = e.beat
  duration : e'.duration = e.duration
  content : e.content.Alike (s.keyOf e) (s'.keyOf e') e'.content

theorem Root.tone_cases {key key' : Option Key} {r r' : Root} (h : r'.tone key' = r.tone key) :
    (∃ f, r.resolve key = .error f ∧ r'.resolve key' = .error f)
      ∨ ∃ p p', r.resolve key = .ok p ∧ r'.resolve key' = .ok p' ∧ p'.value = p.value := by
  unfold Root.tone at h
  cases hr : r.resolve key with
  | error f =>
    rw [hr] at h
    cases hr' : r'.resolve key' with
    | error f' =>
      rw [hr'] at h
      obtain rfl := Except.error.inj h
      exact .inl ⟨f', rfl, rfl⟩
    | ok p' =>
      rw [hr'] at h
      cases h
  | ok p =>
    rw [hr] at h
    obtain ⟨p', hr', hvalue⟩ := exists_of_map_eq_ok h
    exact .inr ⟨p, p', rfl, hr', hvalue⟩

namespace Chord.Alike

variable {key key' : Option Key} {c c' : Chord}

theorem intervals (h : c.Alike key key' c') : c'.intervals = c.intervals := by
  unfold Chord.intervals
  rw [h.quality, h.extensions]

variable {ν : Type} [NoteNumber ν]

theorem bassNote (h : c.Alike key key' c') (octave lowest : ν) :
    bassNote octave key' c' lowest = bassNote octave key c lowest := by
  have hbass := h.bass
  unfold LeadSheet.bassNote
  cases hb : c.bass with
  | none =>
    rw [hb] at hbass
    rw [Option.map_eq_none_iff.mp hbass]
  | some r =>
    rw [hb] at hbass
    obtain ⟨r', hr', htone⟩ := Option.map_eq_some_iff.mp hbass
    rw [hr']
    dsimp only
    rcases Root.tone_cases htone with ⟨f, hf, hf'⟩ | ⟨p, p', hp, hp', hvalue⟩
    · rw [hf, hf']
    · rw [hp, hp']
      dsimp only
      rw [hvalue]

end Chord.Alike

/-- **Chords with the same tones get the same notes.** -/
theorem Strategy.voice_alike {ν : Type} [NoteNumber ν] (strategy : Strategy) (octave : ν)
    (previous : Option (Voiced ν)) {key key' : Option Key} {c c' : Chord}
    (h : c.Alike key key' c') :
    strategy.voice octave key' previous c' = strategy.voice octave key previous c := by
  unfold Strategy.voice
  rcases Root.tone_cases h.root with ⟨f, hf, hf'⟩ | ⟨p, p', hp, hp', hvalue⟩
  · rw [hf, hf']
  · rw [hp, hp']
    have hstack : stack octave p' c' = stack octave p c := by
      unfold stack
      rw [h.intervals, hvalue]
    dsimp only
    rw [hstack]
    cases strategy.place previous (stack octave p c) with
    | nil => rfl
    | cons lowest notes =>
      dsimp only
      rw [h.bassNote]

/-! ### Alike scores -/

variable [Quantity Q]

theorem held_congr {es es' : List (Entry Q)} (h : List.Forall₂ (fun e e' =>
      e'.duration = e.duration ∧ (e'.content = .tie ↔ e.content = .tie)) es es') :
    ∀ duration : Q, held duration es' = held duration es := by
  induction h with
  | nil => intro duration; rfl
  | @cons e e' es es' he _ ih =>
    intro duration
    obtain ⟨hduration, htie⟩ := he
    unfold held
    by_cases hc : e.content = .tie
    · rw [hc, htie.mpr hc]
      dsimp only
      rw [hduration, ih]
    · have hc' : e'.content ≠ .tie := fun h => hc (htie.mp h)
      cases h : e.content <;> cases h' : e'.content <;> first | rfl | contradiction

theorem EntryContent.Alike.tie_iff {key key' : Option Key} {a a' : EntryContent}
    (h : a.Alike key key' a') : a' = .tie ↔ a = .tie := by
  cases h <;> simp

theorem held_alike {s s' : Score Q} {es es' : List (Entry Q)}
    (h : List.Forall₂ (Entry.Alike s s') es es') (duration : Q) :
    held duration es' = held duration es :=
  held_congr (h.imp fun _ _ he => ⟨he.duration, he.content.tie_iff⟩) duration

theorem timelineFrom_alike {ν : Type} [NoteNumber ν] (strategy : Strategy) (octave : ν)
    {s s' : Score Q} {es es' : List (Entry Q)} (h : List.Forall₂ (Entry.Alike s s') es es') :
    ∀ previous : Option (Voiced ν), timelineFrom strategy octave s' previous es'
      = timelineFrom strategy octave s previous es := by
  induction h with
  | nil => intro previous; rfl
  | @cons e e' es es' he hes ih =>
    intro previous
    have hcontent := he.content
    unfold timelineFrom
    generalize e.content = a at hcontent ⊢
    generalize e'.content = a' at hcontent ⊢
    cases hcontent with
    | rest => exact ih previous
    | tie => exact ih previous
    | chord hc =>
      dsimp only
      rw [strategy.voice_alike octave previous hc, he.beat, he.duration, held_alike hes]
      simp only [ih]

omit [Quantity Q] in
theorem octaveFault?_alike {s s' : Score Q}
    (h : List.Forall₂ (Entry.Alike s s') s.entries s'.entries) :
    octaveFault? s' = octaveFault? s := by
  unfold octaveFault?
  generalize s.entries = es at h ⊢
  generalize s'.entries = es' at h ⊢
  induction h with
  | nil => rfl
  | @cons e e' es es' he _ ih =>
    have hfault : e'.chord?.map (unplaced (s'.keyOf e')) = e.chord?.map (unplaced (s.keyOf e)) := by
      have hcontent := he.content
      unfold Entry.chord?
      generalize e.content = a at hcontent ⊢
      generalize e'.content = a' at hcontent ⊢
      cases hcontent with
      | rest => rfl
      | tie => rfl
      | chord hc =>
        refine congrArg some ?_
        unfold unplaced
        rcases Root.tone_cases hc.root with ⟨f, hf, hf'⟩ | ⟨p, p', hp, hp', -⟩
        · rw [hf, hf']
        · rw [hp, hp']
    rw [List.findSome?_cons, List.findSome?_cons, hfault, ih]

namespace Score

/-- **Alike scores have the same timeline**, or the same fault. -/
theorem timeline_alike (settings : Settings Q) {s s' : Score Q}
    (h : List.Forall₂ (Entry.Alike s s') s.entries s'.entries) :
    timeline settings s' = timeline settings s := by
  unfold timeline
  rw [octaveFault?_alike h]
  simp only [timelineFrom_alike _ _ h]

/-- Two scores that are played alike: the same chords at the same time and the
same bytes at every tempo, whatever writes them, or the same faults. -/
def SoundsLike (settings : Settings Q) (s s' : Score Q) : Prop :=
  timeline settings s' = timeline settings s
    ∧ ∀ (write : SoundWriter Q) (tempo : Number Q),
      s'.encodeWith write settings tempo = s.encodeWith write settings tempo

theorem soundsLike_iff {settings : Settings Q} {s s' : Score Q} :
    s.SoundsLike settings s' ↔ timeline settings s' = timeline settings s := by
  refine ⟨fun h => h.1, fun h => ⟨h, fun write tempo => ?_⟩⟩
  unfold encodeWith
  rw [h]

end Score

end LeadSheet
