import LeadSheet.Proofs.Playing.KeyLoss

/-!
# Rewriting a score

A score that was read can be written with degrees or with pitches and read
again.  Conversion changes no tone (`Score.alike_of_convert`), so what is left
to ask is what the way through the text changes.

Pitches need no key, and their score is played as before in any case.  Degrees
are played as before up to the first chord without a key, where playing stops,
unless that chord comes under a key (`timelineFrom_shown`).  So a score in
degrees is played as before just when it does not lose its key:
`Score.soundsLike_of_rewritten`.
-/

namespace LeadSheet

variable {Q : Type}

/-! ### Conversion -/

theorem EntryContent.Converted.alike {f : RootConversion}
    (hf : ∀ (k : Option Key) (r r' : Root), f k r = .ok r' → r'.tone k = r.tone k)
    {key : Option Key} {a a' : EntryContent} (h : a.Converted f key a') : a.Alike key key a' := by
  cases h with
  | rest => exact .rest
  | tie => exact .tie
  | @chord c c' hc =>
    refine .chord ⟨hf _ _ _ hc.root, hc.quality, hc.extensions, ?_⟩
    have hbass := hc.bass
    generalize c.bass = bass at hbass ⊢
    generalize c'.bass = bass' at hbass ⊢
    cases hbass with
    | none => rfl
    | some hr => exact congrArg some (hf _ _ _ hr)

theorem Score.alike_of_convert {f : RootConversion} {s d : Score Q}
    (hf : ∀ (k : Option Key) (r r' : Root), f k r = .ok r' → r'.tone k = r.tone k)
    (hd : s.convert f = .ok d) : List.Forall₂ (Entry.Alike s d) s.entries d.entries := by
  obtain ⟨hkeys, hentries⟩ := Score.entries_of_convert hd
  refine hentries.imp fun e e' he => ⟨by rw [he.place], by rw [he.place], ?_⟩
  rw [Score.keyOf_of_converted hkeys he]
  exact he.content.alike hf

theorem Root.isDegree_of_toDegree {key : Option Key} {r r' : Root} (h : r.toDegree key = .ok r') :
    r'.isDegree = true := by
  cases r with
  | degree d => cases h; rfl
  | pitch p =>
    cases key with
    | none => cases h
    | some k => cases h; rfl

theorem Root.isDegree_of_toPitch {key : Option Key} {r r' : Root} (h : r.toPitch key = .ok r') :
    r'.isDegree = false := by
  cases r with
  | pitch p => cases h; rfl
  | degree d =>
    cases key with
    | none => cases h
    | some k => cases h; rfl

theorem Root.tone_of_pitch {r : Root} (h : r.isDegree = false) (key key' : Option Key) :
    r.tone key' = r.tone key := by
  cases r with
  | pitch p => rfl
  | degree d => cases h

theorem Chord.alike_of_pitches {c : Chord} (hroot : c.root.isDegree = false)
    (hbass : ∀ r ∈ c.bass, r.isDegree = false) (key key' : Option Key) :
    c.Alike key key' c := by
  refine ⟨Root.tone_of_pitch hroot key key', rfl, rfl, ?_⟩
  cases hc : c.bass with
  | none => rfl
  | some r => exact congrArg some (Root.tone_of_pitch (hbass r hc) key key')

theorem Strategy.voice_degree {ν : Type} [NoteNumber ν] (strategy : Strategy) (octave : ν)
    (previous : Option (Voiced ν)) {c : Chord} (h : c.root.isDegree = true) :
    ∃ f, strategy.voice octave none previous c = .error f := by
  cases hr : c.root with
  | pitch p => rw [hr] at h; cases h
  | degree d =>
    refine ⟨.key (.degreeNeedsKey d), ?_⟩
    unfold Strategy.voice
    rw [hr]
    rfl

theorem held_renumbered [Quantity Q] {es es' : List (Entry Q)}
    (h : List.Forall₂ (fun e e' => e' = { e with keyIndex := e'.keyIndex }) es es')
    (duration : Q) : held duration es' = held duration es :=
  held_congr (h.imp fun _ _ he => by rw [he]; exact ⟨rfl, Iff.rfl⟩) duration

variable [Quantity Q]

/-! ### The way through the text -/

theorem timelineFrom_shown {ν : Type} [NoteNumber ν] (strategy : Strategy) (octave : ν)
    {s s' : Score Q} : ∀ {es es' : List (Entry Q)} {index : Nat} {now : Option Key},
    s.Marks Key.Legible index es → Shows (s.keys.getD index none) now →
    List.Forall₂ (fun e e' => e' = { e with keyIndex := e'.keyIndex }) es es' →
    es'.map s'.keyOf = s.keysShown index now es →
    (∀ e ∈ es, ∀ c ∈ e.chord?, c.root.isDegree = true) →
    s.losesKeyFrom now.isSome es = false → ∀ previous : Option (Voiced ν),
    timelineFrom strategy octave s' previous es' = timelineFrom strategy octave s previous es := by
  intro es
  induction es with
  | nil =>
    intro es' index now _ _ hes _ _ _ previous
    cases hes
    rfl
  | cons e es ih =>
    intro es' index now hmarks hnow hes hkeys hdegrees hlost previous
    have hshows := Score.keyShown_shows hmarks.1 hnow
    obtain ⟨e', es', he, htail, rfl⟩ := List.forall₂_cons_left_iff.mp hes
    rw [List.map_cons, Score.keysShown] at hkeys
    obtain ⟨hkey', hkeys⟩ := List.cons.inj hkeys
    have hcontent : e'.content = e.content := by rw [he]
    have hbeat : e'.beat = e.beat := by rw [he]
    have hduration : e'.duration = e.duration := by rw [he]
    have hdegrees' := fun d hd => hdegrees d (List.mem_cons_of_mem e hd)
    rw [Score.losesKeyFrom] at hlost
    -- an entry with a key comes back under one like it; the first chord without a key fails on both
    -- sides, as no key is in effect there
    cases hkey : s.keyOf e with
    | some k =>
      rw [hkey] at hlost
      obtain ⟨k', hk', hlike⟩ := hshows k hkey
      have hk' : s.keyShown index now e = some k' := hk'
      have hrest := ih hmarks.2 hshows htail hkeys hdegrees' (by rw [hk']; exact hlost)
      unfold timelineFrom
      rw [hcontent, hkey', hk', hkey]
      cases e.content with
      | rest => exact hrest previous
      | tie => exact hrest previous
      | chord c =>
        dsimp only
        rw [strategy.voice_alike octave previous (c.alike_like hlike), hbeat, hduration,
          held_renumbered htail]
        simp only [hrest]
    | none =>
      rw [hkey] at hlost
      have hshown : s.keyShown index now e = now := Score.keyShown_of_none hkey
      rw [hshown] at hkey' hkeys
      unfold timelineFrom
      rw [hcontent]
      have hrest : e.chord? = none → ∀ previous : Option (Voiced ν),
          timelineFrom strategy octave s' previous es'
            = timelineFrom strategy octave s previous es := by
        intro hchord
        rw [hchord] at hlost
        refine ih hmarks.2 ?_ htail hkeys hdegrees' hlost
        rw [← hshown]
        exact hshows
      cases hc : e.content with
      | rest => exact hrest (by unfold Entry.chord?; rw [hc]; rfl) previous
      | tie => exact hrest (by unfold Entry.chord?; rw [hc]; rfl) previous
      | chord c =>
        have hchord : e.chord? = some c := by unfold Entry.chord?; rw [hc]; rfl
        rw [hchord] at hlost
        have hnone : now = none := Option.not_isSome_iff_eq_none.mp (by simpa using hlost)
        have hdegree := hdegrees e (List.mem_cons_self ..) c hchord
        obtain ⟨f, hvoice⟩ := strategy.voice_degree octave previous hdegree
        dsimp only
        rw [hkey', hnone, hkey, hvoice]
        rfl

/-! ### Degrees and pitches -/

namespace Score

theorem Legible.marks {key : Option Key} {s : Score Q} (h : s.Legible key)
    (hkey : ∀ k ∈ key, k.Legible) : s.Marks Key.Legible 0 s.entries := by
  obtain ⟨rest, hkeys, hrest⟩ := h.keys
  have hlegible : ∀ i k, s.keys.getD i none = some k → k.Legible := by
    intro i k hk
    rw [hkeys] at hk
    cases i with
    | zero => exact hkey k hk
    | succ i =>
      rw [List.getD_cons_succ, List.getD_eq_getElem?_getD, List.getElem?_map] at hk
      cases hget : rest[i]? with
      | none => rw [hget] at hk; cases hk
      | some k' =>
        rw [hget] at hk
        obtain rfl := Option.some.inj hk
        exact Key.legible_of_spelled (hrest k' (List.mem_of_getElem? hget))
  have hrun : ∀ (es : List (Entry Q)) (index : Nat), s.Marks Key.Legible index es := by
    intro es
    induction es with
    | nil => intro index; trivial
    | cons e es ih =>
      intro index
      exact ⟨fun k hk => hlegible e.keyIndex k (keyOf_of_newKey? hk), ih e.keyIndex⟩
  exact hrun s.entries 0

theorem Legible.intervals_ne_nil {key : Option Key} {s : Score Q} (h : s.Legible key) :
    ∀ e ∈ s.entries, ∀ c ∈ e.chord?, c.intervals ≠ [] := by
  intro e he c hc
  have hlegible := (h.entries e he).content
  unfold Entry.chord? at hc
  generalize e.content = a at hlegible hc
  cases a with
  | rest => cases hc
  | tie => cases hc
  | chord c' =>
    obtain rfl := Option.some.inj hc
    have hlegible : c'.Legible := hlegible
    exact List.ne_nil_of_mem (Chord.zero_mem_intervals hlegible.quality)

omit [Quantity Q] in
theorem chord?_of_renumbered {e e' : Entry Q} (h : e' = { e with keyIndex := e'.keyIndex }) :
    e'.chord? = e.chord? := by
  rw [h]
  rfl

/-- **Degrees read back are played as they were just when no key is lost.** -/
theorem timeline_renumbered_iff {settings : Settings Q} {octave : Number Q} {n : Int}
    (hoctave : settings.octave = .number octave) (hn : octave.asInt? = some n)
    {key : Option Key} {s : Score Q} (h : s.Legible key)
    (hmarks : s.Marks Key.Legible 0 s.entries)
    (hdegrees : ∀ e ∈ s.entries, ∀ c ∈ e.chord?, c.root.isDegree = true) :
    timeline settings (s.renumbered key) = timeline settings s ↔ s.losesKey = false := by
  have hstart : s.keys.getD 0 none = key := by
    obtain ⟨rest, hkeys, -⟩ := h.keys
    rw [hkeys]
    rfl
  have hshows : Shows (s.keys.getD 0 none) key := by
    intro x hx
    rw [hstart] at hx
    exact ⟨x, hx, rfl, rfl⟩
  have hentries : List.Forall₂ (fun e e' : Entry Q => e' = { e with keyIndex := e'.keyIndex })
      s.entries (s.renumbered key).entries := s.forall₂_renumber s.entries 0 [key] 0
  have hkeys := s.map_keyOf_renumbered key
  unfold losesKey
  rw [hstart]
  cases hlost : s.losesKeyFrom key.isSome s.entries with
  | false =>
    refine ⟨fun _ => rfl, fun _ => ?_⟩
    have hfrom := timelineFrom_shown settings.voicing n hmarks hshows hentries hkeys hdegrees hlost
      none
    unfold timeline
    rw [hoctave]
    dsimp only
    rw [hn]
    dsimp only
    rw [hfrom]
  | true =>
    refine ⟨fun heq => ?_, fun h => nomatch h⟩
    obtain ⟨hchords, e, he, hchord, hkey⟩ := chordsKeyed_of_losesKeyFrom hmarks hshows hlost
    -- The score stops at a degree without a key, and the one read back does not stop at all.
    have hstops : ¬ s.Keyed := by
      intro hkeyed
      obtain ⟨c, hc⟩ := Option.isSome_iff_exists.mp hchord
      have hpitch := (hkeyed e he c hc hkey).1
      rw [hdegrees e he c hc] at hpitch
      cases hpitch
    rw [← hkeys] at hchords
    have hchords := List.forall₂_map_right_iff.mp hchords
    have hplayed : (s.renumbered key).Keyed := by
      intro e' he' c hc hnone
      obtain ⟨e, -, hrenumber, hsome⟩ := exists_of_forall₂ (forall₂_and hentries hchords) e' he'
      rw [chord?_of_renumbered hrenumber] at hc
      rw [hnone] at hsome
      cases hsome (Option.isSome_iff_exists.mpr ⟨c, hc⟩)
    have htones : ∀ e ∈ (s.renumbered key).entries, ∀ c ∈ e.chord?, c.intervals ≠ [] := by
      intro e' he' c hc
      obtain ⟨e, he, hrenumber⟩ := exists_of_forall₂ hentries e' he'
      rw [chord?_of_renumbered hrenumber] at hc
      exact h.intervals_ne_nil e he c hc
    rw [← exists_timeline_iff hoctave hn h.intervals_ne_nil] at hstops
    rw [← exists_timeline_iff hoctave hn htones, heq] at hplayed
    exact absurd hplayed hstops

/-- **Pitches read back are played as they were**, under any keys. -/
theorem timeline_renumbered_of_pitches (settings : Settings Q) (key : Option Key) {s : Score Q}
    (hpitches : ∀ e ∈ s.entries, ∀ c ∈ e.chord?,
      c.root.isDegree = false ∧ ∀ r ∈ c.bass, r.isDegree = false) :
    timeline settings (s.renumbered key) = timeline settings s := by
  have hentries := (List.forall₂_and_left _ _).mpr ⟨hpitches, s.forall₂_renumber s.entries 0 [key] 0⟩
  refine timeline_alike settings (hentries.imp fun e e' he => ?_)
  obtain ⟨hchord, hrenumber⟩ := he
  rw [hrenumber]
  refine ⟨rfl, rfl, ?_⟩
  dsimp only
  unfold Entry.chord? at hchord
  generalize e.content = a at hchord ⊢
  cases a with
  | rest => exact .rest
  | tie => exact .tie
  | chord c =>
    obtain ⟨hroot, hbass⟩ := hchord c rfl
    exact .chord (Chord.alike_of_pitches hroot hbass _ _)

/-- A score that was read, or one of its conversions, can be written: from a
datum it can come back to the first key, which then has to be legible. -/
theorem legible_and_marks {key : Option Key} {text : String} {s₀ s : Score Q}
    (hread : Score.read Table.standard key text = .ok s₀
      ∨ Score.readDatum Table.standard key text = .ok s₀ ∧ ∀ k ∈ key, k.Legible)
    (hs : s₀.toDegrees = .ok s ∨ s₀.toPitches = .ok s) :
    s.Legible key ∧ s.Marks Key.Legible 0 s.entries := by
  rcases hread with hread | ⟨hread, hkey⟩
  · obtain ⟨hlegible, hforward⟩ := legible_and_forward hread (.inr hs)
    exact ⟨hlegible, (hforward.kept hlegible.keys).2.imp fun k => Key.legible_of_spelled⟩
  · have hlegible : s.Legible key := by
      rcases hs with hs | hs
      · exact (legible_of_readDatum hread).convert (fun _ _ _ => Root.legible_toDegree) hs
      · exact (legible_of_readDatum hread).convert (fun _ _ _ => Root.legible_toPitch) hs
    exact ⟨hlegible, hlegible.marks hkey⟩

omit [Quantity Q] in
theorem losesKey_of_convert {f : RootConversion} {s d : Score Q} (hd : s.convert f = .ok d) :
    d.losesKey = s.losesKey := by
  obtain ⟨hkeys, hentries⟩ := entries_of_convert hd
  unfold losesKey
  rw [hkeys]
  refine losesKeyFrom_congr (hentries.imp fun e e' he => ⟨keyOf_of_converted hkeys he, ?_⟩) _
  have hcontent := he.content
  unfold Entry.chord?
  generalize e.content = a at hcontent ⊢
  generalize e'.content = a' at hcontent ⊢
  cases hcontent <;> rfl

/-- **Rewriting a score does not change what is played unless a key is lost.**
A score that was read, written with degrees and read again under the same key
is played as before just when it does not lose its key, which no score text
does.  Written with pitches, it is played as before without any key. -/
theorem soundsLike_of_rewritten (hQ : Faithful Q) {key : Option Key} {text : String} {s : Score Q}
    (hread : Score.read Table.standard key text = .ok s
      ∨ Score.readDatum Table.standard key text = .ok s ∧ ∀ k ∈ key, k.Legible)
    {settings : Settings Q} {octave : Number Q} {n : Int}
    (hoctave : settings.octave = .number octave) (hn : octave.asInt? = some n) :
    (Score.read Table.standard key text = .ok s → s.losesKey = false)
      ∧ (∀ d, s.toDegrees = .ok d → ∃ s' : Score Q,
          Score.read Table.standard key d.text = .ok s'
            ∧ (s.SoundsLike settings s' ↔ s.losesKey = false))
      ∧ (∀ p, s.toPitches = .ok p → ∃ s' : Score Q,
          Score.read Table.standard none p.text = .ok s' ∧ s.SoundsLike settings s') := by
  refine ⟨fun htext => ?_, fun d hd => ?_, fun p hp => ?_⟩
  · obtain ⟨hlegible, hforward⟩ := legible_and_forward htext (.inl rfl)
    exact (hforward.kept hlegible.keys).1.losesKeyFrom_eq_false
  · obtain ⟨hlegible, hmarks⟩ := legible_and_marks hread (.inl hd)
    refine ⟨d.renumbered key, read_text hQ key hlegible.chained hlegible.entries hmarks, ?_⟩
    have hdegrees := roots_of_convert hd fun _ _ _ => Root.isDegree_of_toDegree
    have halike := alike_of_convert (fun _ _ _ => Root.resolve_toDegree) hd
    rw [soundsLike_iff, ← timeline_alike settings halike, ← losesKey_of_convert hd]
    exact timeline_renumbered_iff hoctave hn hlegible hmarks fun e he c hc =>
      (hdegrees e he c hc).1
  · obtain ⟨hlegible, hmarks⟩ := legible_and_marks hread (.inr hp)
    refine ⟨p.renumbered none, read_text hQ none hlegible.chained hlegible.entries hmarks, ?_⟩
    have hpitches := roots_of_convert hp fun _ _ _ => Root.isDegree_of_toPitch
    have halike := alike_of_convert
      (fun _ _ _ h => congrArg (Except.map PitchClass.value) (Root.resolve_toPitch h)) hp
    rw [soundsLike_iff, ← timeline_alike settings halike]
    exact timeline_renumbered_of_pitches settings none hpitches

/-- A measure in a key and one without: read back from `@D I | I`, the second
is in D as well. -/
theorem soundsLike_of_rewritten_lost_key :
    Faithful Rat ∧ (Settings.standard : Settings Rat).octave = .number (.whole 4)
      ∧ ∃ s s' : Score Rat,
        Score.readDatum Table.standard none "(score (keyed D (I)) (I))" = .ok s
        ∧ s.toDegrees = .ok s
        ∧ Score.read Table.standard none s.text = .ok s'
        ∧ ¬ s.SoundsLike Settings.standard s' := by
  have hread : Score.readDatum (Q := Rat) Table.standard none "(score (keyed D (I)) (I))"
      = .ok ⟨[⟨.chord ⟨.degree ⟨0, .natural, false⟩, Quality.majorTriad, [], none⟩, 0, 0, 1, 1, 0⟩,
          ⟨.chord ⟨.degree ⟨0, .natural, false⟩, Quality.majorTriad, [], none⟩, 1, 1, 1, 0, 0⟩],
        [none, some ⟨⟨2, some "D"⟩, .major⟩]⟩ := by
    decide +kernel
  have hoctave : (Settings.standard : Settings Rat).octave = .number (.whole 4) := rfl
  have hn : (Number.whole 4 : Number Rat).asInt? = some 4 := rfl
  have hplayed := soundsLike_of_rewritten Exact.faithful
    (.inr ⟨hread, fun k hk => nomatch hk⟩) hoctave hn
  obtain ⟨s', hread', hsounds⟩ := hplayed.2.1 _ rfl
  refine ⟨Exact.faithful, rfl, _, s', hread, rfl, hread', fun h => ?_⟩
  cases hsounds.mp h

end Score

end LeadSheet
