import LeadSheet.Proofs.Playing.Rewriting

/-!
# Degrees and pitches, there and back

Writing a score with degrees, or with pitches, fails just where a chord without
a key has a root or a bass of the other kind (`Score.toDegrees_eq_error_iff`,
`Score.toPitches_eq_error_iff`).  Otherwise nothing but roots and basses
changes, and these stand for the tones they stood for (`Score.Respelled`).

Two conversions, one after the other, are one (`Score.convert_convert`), so
what a way there and back does to a score is what it does to a root under a
key.  A pitch and its degree have the same tone, and the degree is found by the
tone alone (`Degree.ofPitch_congr`).  `Score.canonical_of_conversion` says all
of this.
-/

namespace LeadSheet

/-! ### What can be converted -/

namespace Root

theorem exists_toDegree_iff {key : Option Key} {r : Root} :
    (∃ r', r.toDegree key = .ok r') ↔ ¬(key = none ∧ r.isDegree = false) := by
  cases r with
  | degree d => simp [toDegree, isDegree]
  | pitch p => cases key <;> simp [toDegree, isDegree]

theorem exists_toPitch_iff {key : Option Key} {r : Root} :
    (∃ r', r.toPitch key = .ok r') ↔ ¬(key = none ∧ r.isDegree = true) := by
  cases r with
  | pitch p => simp [toPitch, isDegree]
  | degree d => cases key <;> simp [toPitch, isDegree]

end Root

theorem Chord.Converted.exists_root {f : RootConversion} {key : Option Key} {c c' : Chord}
    (h : c.Converted f key c') : ∀ r ∈ c.roots, ∃ r' ∈ c'.roots, f key r = .ok r' := by
  intro r hr
  rcases List.mem_cons.mp hr with rfl | hr
  · exact ⟨c'.root, List.mem_cons_self .., h.root⟩
  · have hbass := h.bass
    rw [Option.mem_toList.mp hr] at hbass
    generalize hc' : c'.bass = bass' at hbass
    cases hbass with
    | some hr' => exact ⟨_, mem_roots_of_bass hc', hr'⟩

variable {Q : Type}

theorem Entry.Converted.exists_chord {f : RootConversion} {key : Option Key} {e e' : Entry Q}
    (h : e.Converted f key e') : ∀ c ∈ e.chord?, ∃ c' ∈ e'.chord?, c.Converted f key c' := by
  intro c hc
  have hcontent := h.content
  unfold Entry.chord? at hc ⊢
  generalize e.content = a at hcontent hc
  generalize e'.content = a' at hcontent ⊢
  cases hcontent with
  | chord hc' =>
    obtain rfl := Option.some.inj hc
    exact ⟨_, rfl, hc'⟩
  | rest => cases hc
  | tie => cases hc

namespace Score

/-- **A score can be converted just when all its roots and basses can.** -/
theorem exists_convert_iff {f : RootConversion} {s : Score Q} :
    (∃ d, s.convert f = .ok d)
      ↔ ∀ e ∈ s.entries, ∀ c ∈ e.chord?, ∀ r ∈ c.roots, ∃ r', f (s.keyOf e) r = .ok r' := by
  refine ⟨?_, exists_convert⟩
  rintro ⟨d, hd⟩ e he c hc r hr
  obtain ⟨e', -, hconverted⟩ := exists_of_forall₂ (entries_of_convert hd).2.flip e he
  obtain ⟨c', -, hchord⟩ := hconverted.exists_chord c hc
  obtain ⟨r', -, hr'⟩ := hchord.exists_root r hr
  exact ⟨r', hr'⟩

/-- Some chord without a key has a root or a bass that is a degree, or else a
pitch. -/
def LacksKey (s : Score Q) (degree : Bool) : Prop :=
  ∃ e ∈ s.entries, s.keyOf e = none ∧ ∃ c ∈ e.chord?, ∃ r ∈ c.roots, r.isDegree = degree

theorem convert_eq_error_iff {f : RootConversion} {degree : Bool}
    (hf : ∀ key r, (∃ r', f key r = .ok r') ↔ ¬(key = none ∧ r.isDegree = degree)) {s : Score Q} :
    (∃ fault, s.convert f = .error fault) ↔ s.LacksKey degree := by
  rw [exists_eq_error_iff, exists_convert_iff, LacksKey]
  simp only [hf]
  push Not
  constructor
  · rintro ⟨e, he, c, hc, r, hr, hkey, hdegree⟩
    exact ⟨e, he, hkey, c, hc, r, hr, hdegree⟩
  · rintro ⟨e, he, hkey, c, hc, r, hr, hdegree⟩
    exact ⟨e, he, c, hc, r, hr, hkey, hdegree⟩

theorem toDegrees_eq_error_iff {s : Score Q} :
    (∃ fault, s.toDegrees = .error fault) ↔ s.LacksKey false :=
  convert_eq_error_iff fun _ _ => Root.exists_toDegree_iff

theorem toPitches_eq_error_iff {s : Score Q} :
    (∃ fault, s.toPitches = .error fault) ↔ s.LacksKey true :=
  convert_eq_error_iff fun _ _ => Root.exists_toPitch_iff

end Score

/-! ### What a conversion leaves alone -/

/-- An entry that may differ in the root and the bass of its chord, which stand
for the same tones. -/
structure Entry.Respelled (key : Option Key) (e e' : Entry Q) : Prop where
  content : e.content.Alike key key e'.content
  place : e' = { e with content := e'.content }

namespace Score

/-- A score that may differ in roots and basses, which stand for the same tones
or lack a key as before. -/
structure Respelled (s s' : Score Q) : Prop where
  keys : s'.keys = s.keys
  entries : List.Forall₂ (fun e e' => e.Respelled (s.keyOf e) e') s.entries s'.entries

/-- Every root and every bass is a degree, or else every one is a pitch. -/
def WrittenIn (s : Score Q) (degree : Bool) : Prop :=
  ∀ e ∈ s.entries, ∀ c ∈ e.chord?, ∀ r ∈ c.roots, r.isDegree = degree

theorem respelled_of_convert {f : RootConversion}
    (hf : ∀ (k : Option Key) (r r' : Root), f k r = .ok r' → r'.tone k = r.tone k)
    {s d : Score Q} (hd : s.convert f = .ok d) : s.Respelled d := by
  obtain ⟨hkeys, hentries⟩ := entries_of_convert hd
  exact ⟨hkeys, hentries.imp fun e e' he => ⟨he.content.alike hf, he.place⟩⟩

theorem writtenIn_of_convert {f : RootConversion} {degree : Bool}
    (hf : ∀ (k : Option Key) (r r' : Root), f k r = .ok r' → r'.isDegree = degree)
    {s d : Score Q} (hd : s.convert f = .ok d) : d.WrittenIn degree := by
  intro e he c hc r hr
  obtain ⟨hroot, hbass⟩ := roots_of_convert hd hf e he c hc
  rcases List.mem_cons.mp hr with rfl | hr
  · exact hroot
  · exact hbass r (Option.mem_toList.mp hr)

end Score

/-! ### One conversion after the other -/

/-- The conversion that goes on with another one. -/
def RootConversion.andThen (f g : RootConversion) : RootConversion :=
  fun key r => f key r >>= g key

section Composition

variable {f g : RootConversion} {key : Option Key}

theorem Chord.Converted.convert_eq {c c' : Chord} (h : c.Converted f key c') :
    c'.convert g key = c.convert (f.andThen g) key := by
  have hroot : g key c'.root = f.andThen g key c.root := by
    rw [RootConversion.andThen, h.root, ok_bind]
  have hbass : c'.bass.mapM (g key) = c.bass.mapM (f.andThen g key) := by
    have hrel := h.bass
    generalize c.bass = bass at hrel ⊢
    generalize c'.bass = bass' at hrel ⊢
    cases hrel with
    | none => rfl
    | some hr => rw [Option.mapM_some, Option.mapM_some, RootConversion.andThen, hr, ok_bind]
  unfold Chord.convert
  simp only [hroot, hbass, h.quality, h.extensions]

theorem Entry.Converted.convert_eq {e e' : Entry Q} (h : e.Converted f key e') :
    e'.convert g key = e.convert (f.andThen g) key := by
  obtain ⟨hcontent, hplace⟩ := h
  rw [hplace]
  obtain ⟨a, measure, beat, duration, index, line⟩ := e
  generalize e'.content = a' at hcontent ⊢
  cases hcontent with
  | rest => rfl
  | tie => rfl
  | chord hchord =>
    unfold Entry.convert
    dsimp only
    rw [hchord.convert_eq]

theorem mapM_eq_of_forall₂ {ε α β γ : Type} {F : α → Except ε γ} {G : β → Except ε γ}
    {as : List α} {bs : List β} (h : List.Forall₂ (fun a b => G b = F a) as bs) :
    bs.mapM G = as.mapM F := by
  induction h with
  | nil => rfl
  | cons hab _ ih => rw [List.mapM_cons, List.mapM_cons, hab, ih]

/-- **Two conversions, one after the other, are one.** -/
theorem Score.convert_convert {s d : Score Q} (h : s.convert f = .ok d) :
    d.convert g = s.convert (f.andThen g) := by
  obtain ⟨hkeys, hentries⟩ := entries_of_convert h
  have hrun : (d.entries.mapM fun (e : Entry Q) => e.convert g (d.keyOf e))
      = s.entries.mapM fun (e : Entry Q) => e.convert (f.andThen g) (s.keyOf e) := by
    refine mapM_eq_of_forall₂ (hentries.imp fun e e' he => ?_)
    rw [keyOf_of_converted hkeys he, he.convert_eq]
  unfold Score.convert
  rw [hrun, hkeys]

theorem Chord.convert_congr {c : Chord} (h : ∀ r ∈ c.roots, f key r = g key r) :
    c.convert f key = c.convert g key := by
  have hbass : c.bass.mapM (f key) = c.bass.mapM (g key) := by
    cases hc : c.bass with
    | none => rfl
    | some r => rw [Option.mapM_some, Option.mapM_some, h r (mem_roots_of_bass hc)]
  unfold Chord.convert
  rw [hbass, h c.root (List.mem_cons_self ..)]

theorem Score.convert_congr {s : Score Q} (h : ∀ e ∈ s.entries, ∀ c ∈ e.chord?, ∀ r ∈ c.roots,
    f (s.keyOf e) r = g (s.keyOf e) r) : s.convert f = s.convert g := by
  have hrun : ∀ e ∈ s.entries, e.convert f (s.keyOf e) = e.convert g (s.keyOf e) := by
    intro e he
    have hroots := h e he
    unfold Entry.chord? at hroots
    unfold Entry.convert
    cases hc : e.content with
    | rest => rfl
    | tie => rfl
    | chord c =>
      rw [hc] at hroots
      dsimp only
      rw [Chord.convert_congr (hroots c rfl)]
  unfold Score.convert
  rw [mapM_eq_of_forall₂ (List.forall₂_same.mpr hrun)]

end Composition

/-! ### There and back -/

theorem Degree.ofPitch_congr {p q : PitchClass} (h : p.value = q.value) (k : Key) :
    Degree.ofPitch p k = Degree.ofPitch q k := by
  have hinterval : k.tonic.interval p = k.tonic.interval q := by
    unfold PitchClass.interval
    rw [h]
  unfold Degree.ofPitch
  simp only [hinterval]

namespace Root

def unspelled : Root → Root
  | pitch p => pitch ⟨p.value, none⟩
  | degree d => degree d

/-- Taking the spelling away is a conversion that needs no key. -/
def unspell : RootConversion := fun _ r => .ok r.unspelled

/-- A root as a degree, by way of its pitch. -/
def toCanonicalDegree : RootConversion := RootConversion.andThen toPitch toDegree

/-- A root as a pitch, by way of that degree. -/
def toCanonicalPitch : RootConversion := toCanonicalDegree.andThen toPitch

theorem toCanonicalDegree_some (k : Key) (r : Root) : ∃ p : PitchClass,
    r.toPitch (some k) = .ok (pitch p)
      ∧ toCanonicalDegree (some k) r = .ok (degree (Degree.ofPitch p k)) := by
  cases r with
  | pitch p => exact ⟨p, rfl, rfl⟩
  | degree d => exact ⟨d.pitch k, rfl, rfl⟩

theorem toDegree_toCanonicalPitch (k : Key) (r : Root) :
    (toCanonicalPitch.andThen toDegree) (some k) r = toCanonicalDegree (some k) r := by
  obtain ⟨p, -, hr⟩ := toCanonicalDegree_some k r
  rw [RootConversion.andThen, toCanonicalPitch, RootConversion.andThen, hr]
  exact congrArg (fun d => Except.ok (degree d))
    (Degree.ofPitch_congr (Degree.pitch_ofPitch p k) k)

/-- **The way through the degree of a pitch leads back to the pitch**, spelling
apart. -/
theorem unspell_toCanonicalPitch (k : Key) (r : Root) :
    (toCanonicalPitch.andThen unspell) (some k) r
      = (RootConversion.andThen toPitch unspell) (some k) r := by
  obtain ⟨p, hp, hr⟩ := toCanonicalDegree_some k r
  rw [RootConversion.andThen, RootConversion.andThen, toCanonicalPitch, RootConversion.andThen, hr,
    hp]
  exact congrArg (fun v => Except.ok (pitch ⟨v, none⟩)) (Degree.pitch_ofPitch p k)

end Root

def Chord.unspelled (c : Chord) : Chord :=
  { c with root := c.root.unspelled, bass := c.bass.map Root.unspelled }

def EntryContent.unspelled : EntryContent → EntryContent
  | chord c => chord c.unspelled
  | rest => rest
  | tie => tie

theorem Entry.convert_unspell (key : Option Key) (e : Entry Q) :
    e.convert Root.unspell key = .ok { e with content := e.content.unspelled } := by
  obtain ⟨a, measure, beat, duration, index, line⟩ := e
  cases a with
  | rest => rfl
  | tie => rfl
  | chord c =>
    obtain ⟨root, quality, extensions, bass⟩ := c
    cases bass <;> rfl

namespace Score

def unspelled (s : Score Q) : Score Q :=
  { s with entries := s.entries.map fun e => { e with content := e.content.unspelled } }

theorem convert_unspell (s : Score Q) : s.convert Root.unspell = .ok s.unspelled := by
  have hrun : (s.entries.mapM fun (e : Entry Q) => e.convert Root.unspell (s.keyOf e))
      = .ok (s.entries.map fun e => { e with content := e.content.unspelled }) :=
    mapM_eq_ok_iff.mpr (List.forall₂_map_right_iff.mpr
      (List.forall₂_same.mpr fun e _ => e.convert_unspell (s.keyOf e)))
  unfold convert
  rw [hrun]
  rfl

def ChordsHaveKeys (s : Score Q) : Prop :=
  ∀ e ∈ s.entries, e.chord?.isSome → (s.keyOf e).isSome

theorem ChordsHaveKeys.convert_congr {f g : RootConversion} {s : Score Q} (h : s.ChordsHaveKeys)
    (hfg : ∀ (k : Key) (r : Root), f (some k) r = g (some k) r) : s.convert f = s.convert g := by
  refine Score.convert_congr fun e he c hc r _ => ?_
  obtain ⟨k, hk⟩ := Option.isSome_iff_exists.mp (h e he (Option.isSome_of_mem hc))
  rw [hk, hfg]

theorem ChordsHaveKeys.exists_convert {f : RootConversion} {s : Score Q} (h : s.ChordsHaveKeys)
    (hf : ∀ (k : Key) (r : Root), ∃ r', f (some k) r = .ok r') : ∃ d, s.convert f = .ok d := by
  refine Score.exists_convert fun e he c hc r _ => ?_
  obtain ⟨k, hk⟩ := Option.isSome_iff_exists.mp (h e he (Option.isSome_of_mem hc))
  rw [hk]
  exact hf k r

/-- **Where every chord has a key, there and back changes nothing** that was
written that way before, the spelling of pitches apart. -/
theorem ChordsHaveKeys.exists_there_and_back {s : Score Q} (h : s.ChordsHaveKeys) :
    ∃ p d p' : Score Q, s.toPitches = .ok p ∧ p.toDegrees = .ok d ∧ d.toPitches = .ok p'
      ∧ p'.toDegrees = .ok d ∧ p'.unspelled = p.unspelled := by
  -- all three scores come from `s` by a single conversion each
  obtain ⟨p, hp⟩ := h.exists_convert (f := Root.toPitch) fun k r => by
    obtain ⟨q, hr, -⟩ := Root.toCanonicalDegree_some k r
    exact ⟨_, hr⟩
  obtain ⟨d, hd⟩ := h.exists_convert (f := Root.toCanonicalDegree) fun k r => by
    obtain ⟨q, -, hr⟩ := Root.toCanonicalDegree_some k r
    exact ⟨_, hr⟩
  obtain ⟨p', hp'⟩ := h.exists_convert (f := Root.toCanonicalPitch) fun k r => by
    obtain ⟨q, -, hr⟩ := Root.toCanonicalDegree_some k r
    exact ⟨_, by rw [Root.toCanonicalPitch, RootConversion.andThen, hr]; rfl⟩
  have hpd : p.toDegrees = .ok d := (convert_convert hp).trans hd
  have hdp : d.toPitches = .ok p' := (convert_convert hd).trans hp'
  refine ⟨p, d, p', hp, hpd, hdp, ?_, ?_⟩
  · calc p'.toDegrees = s.convert (Root.toCanonicalPitch.andThen Root.toDegree) :=
          convert_convert hp'
      _ = s.convert Root.toCanonicalDegree := h.convert_congr Root.toDegree_toCanonicalPitch
      _ = .ok d := hd
  · -- unspelling is a conversion too, so it may come last on both sides
    refine Except.ok.inj (ε := KeyFault) ?_
    calc .ok p'.unspelled = p'.convert Root.unspell := p'.convert_unspell.symm
      _ = s.convert (Root.toCanonicalPitch.andThen Root.unspell) := convert_convert hp'
      _ = s.convert (RootConversion.andThen Root.toPitch Root.unspell) :=
          h.convert_congr Root.unspell_toCanonicalPitch
      _ = p.convert Root.unspell := (convert_convert hp).symm
      _ = .ok p.unspelled := p.convert_unspell

/-- **Writing a score with degrees, or with pitches, is canonical.**  It fails
just where a chord without a key has a root or a bass of the other kind.
Otherwise every root and bass becomes one of the kind that was asked for, they
stand for the same tones, and nothing else changes.  Where every chord has a
key, the degrees of the pitches come back from their own pitches exactly, and
the pitches from these degrees but for their spelling. -/
theorem canonical_of_conversion (s : Score Q) :
    ((∃ fault, s.toDegrees = .error fault) ↔ s.LacksKey false)
      ∧ ((∃ fault, s.toPitches = .error fault) ↔ s.LacksKey true)
      ∧ (∀ d, s.toDegrees = .ok d → s.Respelled d ∧ d.WrittenIn true)
      ∧ (∀ p, s.toPitches = .ok p → s.Respelled p ∧ p.WrittenIn false)
      ∧ (s.ChordsHaveKeys → ∃ p d p' : Score Q, s.toPitches = .ok p ∧ p.toDegrees = .ok d
          ∧ d.toPitches = .ok p' ∧ p'.toDegrees = .ok d ∧ p'.unspelled = p.unspelled) := by
  refine ⟨toDegrees_eq_error_iff, toPitches_eq_error_iff, fun d hd => ⟨?_, ?_⟩,
    fun p hp => ⟨?_, ?_⟩, ChordsHaveKeys.exists_there_and_back⟩
  · exact respelled_of_convert (fun _ _ _ => Root.resolve_toDegree) hd
  · exact writtenIn_of_convert (fun _ _ _ => Root.isDegree_of_toDegree) hd
  · exact respelled_of_convert
      (fun _ _ _ h => congrArg (Except.map PitchClass.value) (Root.resolve_toPitch h)) hp
  · exact writtenIn_of_convert (fun _ _ _ => Root.isDegree_of_toPitch) hp

/-- In C the pitch `Gb` is `#IV` and comes back as `F#`; in A minor `bVII` is
read as `Gb`, which is `#VI` there. -/
theorem canonical_of_conversion_tune :
    ∃ s p d p' : Score Rat,
      Score.read Table.standard (some ⟨⟨0, some "C"⟩, .major⟩) "C/G ii7 | Gb/IV _\n@Am bVII i/E"
        = .ok s
      ∧ s.ChordsHaveKeys
      ∧ s.toPitches = .ok p ∧ p.text = "C/G Dm7 | Gb/F _\n@Am Gb Am/E"
      ∧ p.toDegrees = .ok d ∧ d.text = "I/V ii7 | #IV/IV _\n@Am #VI i/V"
      ∧ d.toPitches = .ok p' ∧ p'.text = "C/G Dm7 | F#/F _\n@Am F# Am/E"
      ∧ p'.toDegrees = .ok d ∧ p'.unspelled = p.unspelled := by
  have hrun : (Score.read (Q := Rat) Table.standard (some ⟨⟨0, some "C"⟩, .major⟩)
      "C/G ii7 | Gb/IV _\n@Am bVII i/E").toOption.map (fun s =>
        (s.entries.all fun e => (s.keyOf e).isSome, s.toPitches.toOption.map fun p =>
          (p.text, p.toDegrees.toOption.map fun d =>
            (d.text, d.toPitches.toOption.map Score.text))))
      = some (true, some ("C/G Dm7 | Gb/F _\n@Am Gb Am/E", some
          ("I/V ii7 | #IV/IV _\n@Am #VI i/V", some "C/G Dm7 | F#/F _\n@Am F# Am/E"))) := by
    decide +kernel
  obtain ⟨s, hread, hs⟩ := Option.map_eq_some_iff.mp hrun
  obtain ⟨hall, hs⟩ := Prod.mk.inj hs
  have hkeys : s.ChordsHaveKeys := fun e he _ => List.all_eq_true.mp hall e he
  obtain ⟨p, d, p', hp, hd, hp', hd', hspelling⟩ := (canonical_of_conversion s).2.2.2.2 hkeys
  simp only [hp, hd, hp', Except.toOption, Option.map_some, Option.some.injEq,
    Prod.mk.injEq] at hs
  obtain ⟨htext, htext', htext''⟩ := hs
  exact ⟨s, p, d, p', eq_ok_of_toOption hread, hkeys, hp, htext, hd, htext', hp', htext'', hd',
    hspelling⟩

end Score

end LeadSheet
