import LeadSheet.Proofs.Chord.Tones
import LeadSheet.Proofs.Playing.Alike
import LeadSheet.Proofs.Playing.Span

/-!
# Playing whole notes

A chord of a standard quality never runs out of tones, and a whole note can always
be brought into range.  With a whole octave the only thing that keeps a chord from
being played is a degree without a key (`Chord.Keyed`): `exists_voice_iff` says
so of one chord and `Score.exists_timeline_iff` of a score, and
`Score.exists_keyFault_of_timeline` says what the fault is.
-/

namespace LeadSheet

/-! ### Places -/

theorem firstLeast_mem {α ν : Type} [NoteNumber ν] (measure : α → ν) : ∀ (as : List α) (a : α),
    firstLeast measure a as ∈ a :: as := by
  intro as
  induction as with
  | nil => intro a; exact List.mem_singleton.mpr rfl
  | cons b bs ih =>
    intro a
    rw [firstLeast]
    split
    · exact List.mem_cons_of_mem a (ih b)
    · rcases List.mem_cons.mp (ih a) with heq | hmem
      · rw [heq]
        exact List.mem_cons_self ..
      · exact List.mem_cons_of_mem a (List.mem_cons_of_mem b hmem)

theorem length_place {ν : Type} [NoteNumber ν] (strategy : Strategy)
    (previous : Option (Voiced ν)) (notes : List ν) :
    (strategy.place previous notes).length = notes.length := by
  have htowards : ∀ goal : List ν, (towards goal notes).length = notes.length := by
    intro goal
    have hmem := firstLeast_mem (fun c => distance c goal) [moved (-1) notes, moved 1 notes]
      (moved 0 notes)
    unfold towards
    generalize firstLeast (fun c => distance c goal) (moved 0 notes)
      [moved (-1) notes, moved 1 notes] = chosen at hmem ⊢
    simp only [List.mem_cons, List.not_mem_nil, or_false] at hmem
    rcases hmem with rfl | rfl | rfl <;> exact List.length_map ..
  unfold Strategy.place
  split
  · split
    · rfl
    · exact htowards _
  · rfl

theorem Voiced.notes_map {ν μ : Type} (f : ν → μ) (v : Voiced ν) :
    (v.map f).notes = v.notes.map f := by
  unfold Voiced.map Voiced.notes
  rw [List.map_append]
  cases v.bass <;> rfl

theorem Voiced.fit_whole (v : Voiced Int) : v.fit = .ok (v.map wholeFit) := by
  have hchord : v.chord.mapM fitNote = .ok (v.chord.map wholeFit) := List.mapM_pure
  have hbass : v.bass.mapM fitNote = .ok (v.bass.map wholeFit) := by
    cases v.bass <;> rfl
  unfold Voiced.fit
  rw [hchord, hbass]
  rfl

/-! ### Keys -/

def Chord.Keyed (key : Option Key) (c : Chord) : Prop :=
  key = none → c.root.isDegree = false ∧ ∀ r ∈ c.bass, r.isDegree = false

theorem Root.exists_resolve_iff (key : Option Key) (r : Root) :
    (∃ p, r.resolve key = .ok p) ↔ (key = none → r.isDegree = false) := by
  cases r with
  | pitch p => exact ⟨fun _ _ => rfl, fun _ => ⟨p, rfl⟩⟩
  | degree d =>
    cases key with
    | none => exact ⟨fun ⟨p, hp⟩ => (nomatch hp), fun h => (nomatch h rfl)⟩
    | some k => exact ⟨fun _ hk => (nomatch hk), fun _ => ⟨d.pitch k, rfl⟩⟩

theorem exists_bassNote_iff {ν : Type} [NoteNumber ν] (octave lowest : ν) (key : Option Key)
    (c : Chord) : (∃ bass, bassNote octave key c lowest = .ok bass)
      ↔ (key = none → ∀ r ∈ c.bass, r.isDegree = false) := by
  unfold bassNote
  cases hb : c.bass with
  | none => exact ⟨fun _ _ r hr => (nomatch hr), fun _ => ⟨none, rfl⟩⟩
  | some r =>
    have hroot := r.exists_resolve_iff key
    dsimp only
    cases hr : r.resolve key with
    | error f =>
      refine ⟨fun ⟨bass, hbass⟩ => (nomatch hbass), fun h => ?_⟩
      obtain ⟨p, hp⟩ := hroot.mpr fun hk => h hk r rfl
      rw [hr] at hp
      cases hp
    | ok p =>
      refine ⟨fun _ hk r' hr' => ?_, fun _ => ⟨_, rfl⟩⟩
      obtain rfl := Option.some.inj hr'
      exact hroot.mp ⟨p, hr⟩ hk

theorem exists_voice_iff {ν : Type} [NoteNumber ν] (strategy : Strategy) (octave : ν)
    (key : Option Key) (previous : Option (Voiced ν)) {c : Chord} (h : c.intervals ≠ []) :
    (∃ v, strategy.voice octave key previous c = .ok v) ↔ c.Keyed key := by
  have hroot := c.root.exists_resolve_iff key
  unfold Strategy.voice
  cases hr : c.root.resolve key with
  | error f =>
    refine ⟨fun ⟨v, hv⟩ => (nomatch hv), fun hkeyed => ?_⟩
    obtain ⟨p, hp⟩ := hroot.mpr fun hk => (hkeyed hk).1
    rw [hr] at hp
    cases hp
  | ok p =>
    have hlen := length_place strategy previous (stack octave p c)
    cases hplace : strategy.place previous (stack octave p c) with
    | nil =>
      rw [hplace] at hlen
      unfold stack at hlen
      rw [List.length_map] at hlen
      exact absurd (List.length_eq_zero_iff.mp hlen.symm) h
    | cons lowest notes =>
      have hbass := exists_bassNote_iff octave lowest key c
      dsimp only
      rw [hplace]
      constructor
      · rintro ⟨v, hv⟩ hk
        obtain ⟨bass, hb, -⟩ := exists_of_map_eq_ok hv
        exact ⟨hroot.mp ⟨p, hr⟩ hk, hbass.mp ⟨bass, hb⟩ hk⟩
      · intro hkeyed
        obtain ⟨bass, hb⟩ := hbass.mpr fun hk => (hkeyed hk).2
        dsimp only
        rw [hb]
        exact ⟨_, rfl⟩

theorem exists_keyFault_of_voice {ν : Type} [NoteNumber ν] {strategy : Strategy} {octave : ν}
    {key : Option Key} {previous : Option (Voiced ν)} {c : Chord} {f : PlayFault}
    (hc : c.intervals ≠ []) (h : strategy.voice octave key previous c = .error f) :
    ∃ k, f = .key k := by
  unfold Strategy.voice at h
  split at h
  · cases h
    exact ⟨_, rfl⟩
  · rename_i p _
    split at h
    · rename_i hplace
      have hlen := length_place strategy previous (stack octave p c)
      unfold stack at hlen hplace
      rw [hplace, List.length_map] at hlen
      exact absurd (List.length_eq_zero_iff.mp hlen.symm) hc
    · have hbass := of_map_eq_error h
      unfold bassNote at hbass
      split at hbass
      · cases hbass
      · split at hbass
        · cases hbass
          exact ⟨_, rfl⟩
        · cases hbass

/-! ### Scores -/

variable {Q : Type} [Quantity Q]

def Score.Keyed (s : Score Q) : Prop :=
  ∀ e ∈ s.entries, ∀ c ∈ e.chord?, c.Keyed (s.keyOf e)

theorem exists_timelineFrom_iff (strategy : Strategy) (octave : Int) (s : Score Q) :
    ∀ (es : List (Entry Q)) (previous : Option (Voiced Int)),
      (∀ e ∈ es, ∀ c ∈ e.chord?, c.intervals ≠ []) →
      ((∃ ts, timelineFrom strategy octave s previous es = .ok ts)
        ↔ ∀ e ∈ es, ∀ c ∈ e.chord?, c.Keyed (s.keyOf e)) := by
  intro es
  induction es with
  | nil =>
    intro previous _
    refine ⟨fun _ e he => ?_, fun _ => ⟨[], rfl⟩⟩
    cases he
  | cons e es ih =>
    intro previous htones
    have hhead := htones e (List.mem_cons_self ..)
    have htail := fun previous => ih previous fun d hd => htones d (List.mem_cons_of_mem e hd)
    rw [List.forall_mem_cons]
    unfold timelineFrom
    unfold Entry.chord? at hhead ⊢
    cases hc : e.content with
    | rest =>
      refine (htail previous).trans ⟨fun h => ⟨?_, h⟩, fun h => h.2⟩
      intro c hc
      cases hc
    | tie =>
      refine (htail previous).trans ⟨fun h => ⟨?_, h⟩, fun h => h.2⟩
      intro c hc
      cases hc
    | chord c =>
      rw [hc] at hhead
      have hvoice := exists_voice_iff strategy octave (s.keyOf e) previous (hhead c rfl)
      dsimp only
      constructor
      · rintro ⟨ts, hts⟩
        obtain ⟨v, hv, hts⟩ := exists_of_bind_eq_ok hts
        obtain ⟨voiced, -, hts⟩ := exists_of_bind_eq_ok hts
        obtain ⟨rest, hrest, -⟩ := exists_of_bind_eq_ok hts
        refine ⟨fun c' hc' => ?_, (htail (some voiced)).mp ⟨rest, hrest⟩⟩
        obtain rfl := Option.some.inj hc'
        exact hvoice.mp ⟨v, hv⟩
      · rintro ⟨hkeyed, hrest⟩
        obtain ⟨v, hv⟩ := hvoice.mpr (hkeyed c rfl)
        -- whole notes always come into range, so only the voicing can fail
        obtain ⟨rest, hrest⟩ := (htail (some (v.map wholeFit))).mpr hrest
        rw [hv]
        refine ⟨⟨e.beat, held e.duration es, v.map wholeFit⟩ :: rest, ?_⟩
        show (v.fit >>= fun voiced => _) = _
        rw [v.fit_whole]
        show (timelineFrom strategy octave s (some (v.map wholeFit)) es >>= fun rest => _) = _
        rw [hrest]
        rfl

theorem exists_keyFault_of_timelineFrom {strategy : Strategy} {octave : Int} {s : Score Q}
    {f : PlayFault} : ∀ {es : List (Entry Q)} {previous : Option (Voiced Int)},
      (∀ e ∈ es, ∀ c ∈ e.chord?, c.intervals ≠ []) →
      timelineFrom strategy octave s previous es = .error f → ∃ k, f = .key k := by
  intro es
  induction es with
  | nil => intro previous _ h; cases h
  | cons e es ih =>
    intro previous htones h
    obtain ⟨hhead, htail⟩ := List.forall_mem_cons.mp htones
    unfold timelineFrom at h
    unfold Entry.chord? at hhead
    cases hc : e.content with
    | rest => rw [hc] at h; exact ih htail h
    | tie => rw [hc] at h; exact ih htail h
    | chord c =>
      rw [hc] at h hhead
      rcases of_bind_eq_error h with hvoice | ⟨placed, -, h⟩
      · exact exists_keyFault_of_voice (hhead c rfl) hvoice
      · rw [placed.fit_whole] at h
        rcases of_bind_eq_error h with hfit | ⟨voiced, -, h⟩
        · cases hfit
        · rcases of_bind_eq_error h with hrest | ⟨rest, -, h⟩
          · exact ih htail hrest
          · cases h

theorem notes_timelineFrom {strategy : Strategy} {octave : Int} {s : Score Q} :
    ∀ {es : List (Entry Q)} {previous : Option (Voiced Int)} {ts : List (TimedChord Int Q)},
      timelineFrom strategy octave s previous es = .ok ts →
      ∀ t ∈ ts, ∀ n ∈ t.voiced.notes, 0 ≤ n ∧ n ≤ highestNote := by
  intro es
  induction es with
  | nil => intro previous ts h t ht; cases h; cases ht
  | cons e es ih =>
    intro previous ts h
    cases hc : e.content with
    | rest =>
      rw [timelineFrom_of_silent (by rw [Entry.chord?, hc]; rfl)] at h
      exact ih h
    | tie =>
      rw [timelineFrom_of_silent (by rw [Entry.chord?, hc]; rfl)] at h
      exact ih h
    | chord c =>
      obtain ⟨placed, voiced, rest, -, hfit, hrest, rfl⟩ := timelineFrom_of_chord hc h
      rw [placed.fit_whole] at hfit
      cases hfit
      refine List.forall_mem_cons.mpr ⟨fun n hn => ?_, ih hrest⟩
      rw [Voiced.notes_map] at hn
      obtain ⟨m, -, rfl⟩ := List.mem_map.mp hn
      exact ⟨wholeFit_nonneg m, wholeFit_le m⟩

theorem timeline_of_whole {settings : Settings Q} {octave : Number Q} {n : Int}
    (hoctave : settings.octave = .number octave) (hn : octave.asInt? = some n) (s : Score Q) :
    timeline settings s = (timelineFrom settings.voicing n s none s.entries).map
      (List.map (TimedChord.map .whole)) := by
  unfold timeline
  rw [hoctave]
  dsimp only
  rw [hn]

/-- **With a whole octave a score is played just when its degrees have a
key**, if its chords have tones. -/
theorem Score.exists_timeline_iff {settings : Settings Q} {octave : Number Q} {n : Int}
    (hoctave : settings.octave = .number octave) (hn : octave.asInt? = some n) {s : Score Q}
    (htones : ∀ e ∈ s.entries, ∀ c ∈ e.chord?, c.intervals ≠ []) :
    (∃ ts, timeline settings s = .ok ts) ↔ s.Keyed := by
  have hfrom := exists_timelineFrom_iff settings.voicing n s s.entries none htones
  rw [timeline_of_whole hoctave hn]
  refine Iff.trans ⟨?_, ?_⟩ hfrom
  · rintro ⟨ts, hts⟩
    obtain ⟨ts', hts', -⟩ := exists_of_map_eq_ok hts
    exact ⟨ts', hts'⟩
  · rintro ⟨ts, hts⟩
    rw [hts]
    exact ⟨_, rfl⟩

/-- **With a whole octave only a degree without a key keeps a score from being
played**, if its chords have tones. -/
theorem Score.exists_keyFault_of_timeline {settings : Settings Q} {octave : Number Q} {n : Int}
    (hoctave : settings.octave = .number octave) (hn : octave.asInt? = some n) {s : Score Q}
    (htones : ∀ e ∈ s.entries, ∀ c ∈ e.chord?, c.intervals ≠ []) {f : PlayFault}
    (h : timeline settings s = .error f) : ∃ k, f = .key k := by
  rw [timeline_of_whole hoctave hn] at h
  exact exists_keyFault_of_timelineFrom htones (of_map_eq_error h)

/-- **With a whole octave the notes of a score are whole and in range.** -/
theorem Score.notes_timeline {settings : Settings Q} {octave : Number Q} {n : Int}
    (hoctave : settings.octave = .number octave) (hn : octave.asInt? = some n) {s : Score Q}
    {ts : List (TimedChord (Number Q) Q)} (h : timeline settings s = .ok ts) :
    ∀ t ∈ ts, ∀ p ∈ t.voiced.notes, ∃ i, p = .whole i ∧ 0 ≤ i ∧ i ≤ highestNote := by
  rw [timeline_of_whole hoctave hn] at h
  obtain ⟨ts', hts, rfl⟩ := exists_of_map_eq_ok h
  intro t ht p hp
  obtain ⟨t', ht', rfl⟩ := List.mem_map.mp ht
  have hp : p ∈ (t'.voiced.map Number.whole).notes := hp
  rw [Voiced.notes_map] at hp
  obtain ⟨i, hi, rfl⟩ := List.mem_map.mp hp
  exact ⟨i, rfl, notes_timelineFrom hts t' ht' i hi⟩

end LeadSheet
