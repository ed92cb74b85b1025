import LeadSheet.Proofs.Writing.Reread

/-!
# Transposing through degrees

A score that is written with degrees can be read in another key.  In a key of
the same mode every degree lies higher by as much as the tonic does
(`Degree.pitch_shift`), so a root that becomes a degree in one key and a pitch
in the other has moved by the interval of the tonics
(`Root.moved_of_converted`).

Which entries are under which key is told by the marks: reading in another key
puts that key where the score started and leaves the others as they are
(`Score.forall₂_renumbered`).  Hence `Score.moved_of_toDegrees`: up to the
first mark a score is transposed, and from there on it stays.
-/

namespace LeadSheet

/-! ### Roots that have moved -/

theorem PitchClass.value_shift_congr {p q : PitchClass} (h : p.value = q.value) (semitones : Int) :
    (p.shift semitones).value = (q.shift semitones).value := by
  unfold shift
  rw [h]

theorem PitchClass.interval_self (p : PitchClass) : (p.interval p).val = 0 := by
  unfold interval
  rw [Int.sub_self]
  rfl

theorem Degree.pitch_shift (d : Degree) {k k' : Key} (hmode : k'.mode = k.mode) :
    (d.pitch k').value = ((d.pitch k).shift (k.tonic.interval k'.tonic).val).value := by
  unfold PitchClass.shift
  rw [Degree.pitch_value, Degree.pitch_value, hmode]
  apply Fin.ext
  simp only [PitchClass.wrap, PitchClass.interval]
  omega

/-- A root that is the pitch some semitones above the tone of another one. -/
def Root.Moved (semitones : Nat) (key : Option Key) (r r' : Root) : Prop :=
  ∃ p p' : PitchClass, r.resolve key = .ok p ∧ r' = .pitch p'
    ∧ p'.value = (p.shift semitones).value

/-- A chord whose root and bass have moved by the same. -/
structure Chord.Moved (semitones : Nat) (key : Option Key) (c c' : Chord) : Prop where
  root : c.root.Moved semitones key c'.root
  quality : c'.quality = c.quality
  extensions : c'.extensions = c.extensions
  bass : Option.Rel (Root.Moved semitones key) c.bass c'.bass

/-- A content of an entry whose chord, if any, has moved. -/
inductive EntryContent.Moved (semitones : Nat) (key : Option Key) :
    EntryContent → EntryContent → Prop
  | chord {c c' : Chord} (h : c.Moved semitones key c') : Moved semitones key (.chord c) (.chord c')
  | rest : Moved semitones key .rest .rest
  | tie : Moved semitones key .tie .tie

/-- An entry in its place whose chord, if any, has moved. -/
structure Entry.Moved {Q : Type} (semitones : Nat) (key : Option Key) (e e' : Entry Q) :
    Prop where
  content : e.content.Moved semitones key e'.content
  measure : e'.measure = e.measure
  beat : e'.beat = e.beat
  duration : e'.duration = e.duration
  line : e'.line = e.line

/-- **A root goes from key to key through its degree** by the interval of the
tonics. -/
theorem Root.moved_of_converted {k k' : Key} (hmode : k'.mode = k.mode) {r r₁ r₂ : Root}
    (h₁ : r.toDegree (some k) = .ok r₁) (h₂ : r₁.toPitch (some k') = .ok r₂) :
    r.Moved (k.tonic.interval k'.tonic) (some k) r₂ := by
  cases r with
  | degree d =>
    cases h₁
    cases h₂
    exact ⟨d.pitch k, d.pitch k', rfl, rfl, d.pitch_shift hmode⟩
  | pitch p =>
    cases h₁
    cases h₂
    refine ⟨p, (Degree.ofPitch p k).pitch k', rfl, rfl, ?_⟩
    rw [Degree.pitch_shift _ hmode]
    exact PitchClass.value_shift_congr (Degree.pitch_ofPitch p k) _

theorem Chord.moved_of_converted {k k' : Key} (hmode : k'.mode = k.mode) {c c₁ c₂ : Chord}
    (h₁ : c.Converted Root.toDegree (some k) c₁) (h₂ : c₁.Converted Root.toPitch (some k') c₂) :
    c.Moved (k.tonic.interval k'.tonic) (some k) c₂ := by
  refine ⟨Root.moved_of_converted hmode h₁.root h₂.root, h₂.quality.trans h₁.quality,
    h₂.extensions.trans h₁.extensions, ?_⟩
  have hbass₁ := h₁.bass
  have hbass₂ := h₂.bass
  generalize c.bass = bass at hbass₁ ⊢
  generalize c₁.bass = bass₁ at hbass₁ hbass₂
  generalize c₂.bass = bass₂ at hbass₂ ⊢
  cases hbass₁ with
  | none =>
    cases hbass₂
    exact .none
  | some hr₁ =>
    cases hbass₂ with
    | some hr₂ => exact .some (Root.moved_of_converted hmode hr₁ hr₂)

theorem EntryContent.moved_of_converted {k k' : Key} (hmode : k'.mode = k.mode)
    {a a₁ a₂ : EntryContent} (h₁ : a.Converted Root.toDegree (some k) a₁)
    (h₂ : a₁.Converted Root.toPitch (some k') a₂) :
    a.Moved (k.tonic.interval k'.tonic) (some k) a₂ := by
  cases h₁ with
  | chord hc₁ =>
    cases h₂ with
    | chord hc₂ => exact .chord (Chord.moved_of_converted hmode hc₁ hc₂)
  | rest => cases h₂; exact .rest
  | tie => cases h₂; exact .tie

variable {Q : Type}

/-- An entry that was converted, written and read back: its key may have
another number. -/
structure Entry.Rewritten (f : RootConversion) (key : Option Key) (e e' : Entry Q) : Prop where
  content : e.content.Converted f key e'.content
  place : e' = { e with content := e'.content, keyIndex := e'.keyIndex }

/-- **An entry goes from key to key through degrees.** -/
theorem Entry.moved_of_rewritten {k k' : Key} (hmode : k'.mode = k.mode) {e e₁ e₂ : Entry Q}
    (h₁ : e.Rewritten Root.toDegree (some k) e₁) (h₂ : e₁.Rewritten Root.toPitch (some k') e₂) :
    e.Moved (k.tonic.interval k'.tonic) (some k) e₂ := by
  have hcontent := EntryContent.moved_of_converted hmode h₁.content h₂.content
  rw [h₂.place, h₁.place]
  exact ⟨hcontent, rfl, rfl, rfl, rfl⟩

/-! ### The keys of a score that is read again -/

namespace Score

/-- Until the first mark the key in effect stays, and from there on the marks
tell the keys of the entries. -/
theorem keysShown_of_ascending {s : Score Q} {index : Nat} {now : Option Key} :
    ∀ {es : List (Entry Q)}, (∀ e ∈ es, index ≤ e.keyIndex) →
      (es.map Entry.keyIndex).Pairwise (· ≤ ·) → s.Kept index es →
      s.Marks (fun k => k.tonic.Spelled) index es →
      s.keysShown index now es
        = es.map fun e => if e.keyIndex = index then now else s.keyOf e := by
  intro es
  induction es with
  | nil => intro _ _ _ _; rfl
  | cons e es ih =>
    intro hbehind hascending hkept hmarks
    rw [List.map_cons, List.pairwise_cons] at hascending
    rw [keysShown, List.map_cons]
    by_cases hi : e.keyIndex = index
    · subst hi
      have hshown : s.keyShown e.keyIndex now e = now := by
        rw [keyShown, newKey?_of_eq rfl]
      rw [hshown, if_pos rfl, ih (fun d hd => hbehind d (List.mem_cons_of_mem e hd))
        hascending.2 hkept.2 hmarks.2]
    · have hlt : index < e.keyIndex :=
        Nat.lt_of_le_of_ne (hbehind e (List.mem_cons_self ..)) (Ne.symm hi)
      have hlater : ∀ d ∈ es, d.keyIndex ≠ index := fun d hd =>
        Nat.ne_of_gt (Nat.lt_of_lt_of_le hlt (hascending.1 _ (List.mem_map_of_mem hd)))
      rw [keyShown_of_ne hi (hkept.1.resolve_left hi) hmarks.1, if_neg hi]
      refine congrArg _ ((keysShown_of_kept hkept.2 hmarks.2).trans ?_)
      exact List.map_congr_left fun d hd => (if_neg (hlater d hd)).symm

theorem forall₂_renumbered {start : Option Key} {s : Score Q} (hkeys : KeysFrom start s.keys)
    (h : s.Forward) (key : Option Key) :
    List.Forall₂ (fun e e' => e' = { e with keyIndex := e'.keyIndex }
        ∧ (s.renumbered key).keyOf e' = if e.keyIndex = 0 then key else s.keyOf e)
      s.entries (s.renumbered key).entries := by
  obtain ⟨hkept, hmarks⟩ := h.kept hkeys
  refine forall₂_and (s.forall₂_renumber s.entries 0 [key] 0) (forall₂_of_map_eq ?_)
  rw [map_keyOf_renumbered]
  exact keysShown_of_ascending (fun e _ => Nat.zero_le _) h.ascending hkept hmarks

theorem forall₂_rewritten {f : RootConversion} {start : Option Key} {s d : Score Q}
    (hd : s.convert f = .ok d) (hkeys : KeysFrom start d.keys) (h : d.Forward)
    (key : Option Key) :
    List.Forall₂ (fun e e' => e.Rewritten f (s.keyOf e) e'
        ∧ (d.renumbered key).keyOf e' = if e.keyIndex = 0 then key else s.keyOf e)
      s.entries (d.renumbered key).entries := by
  obtain ⟨hsame, hentries⟩ := entries_of_convert hd
  refine (forall₂_comp hentries (forall₂_renumbered hkeys h key)).imp fun e e' he => ?_
  obtain ⟨e₁, h₁, hplace, hkey⟩ := he
  rw [keyOf_of_converted hsame h₁, h₁.place] at hkey
  refine ⟨⟨?_, ?_⟩, hkey⟩
  · rw [hplace]
    exact h₁.content
  · rw [hplace, h₁.place]

theorem read_text_of_legible [Quantity Q] (hQ : Faithful Q) {start : Option Key} {s : Score Q}
    (hlegible : s.Legible start) (hforward : s.Forward) (key : Option Key) :
    Score.read Table.standard key s.text = .ok (s.renumbered key) :=
  read_text hQ key hlegible.chained hlegible.entries
    ((hforward.kept hlegible.keys).2.imp fun _ => Key.legible_of_spelled)

/-- How far an entry moves when a score is read in another key: by the interval
of the tonics while it is under the key that the score starts in. -/
def move (k k' : Key) (e : Entry Q) : Nat :=
  if e.keyIndex = 0 then k.tonic.interval k'.tonic else 0

theorem exists_keyOf_move {k₁ k₂ : Key} (hmode : k₂.mode = k₁.mode) {s : Score Q}
    (hkeys : KeysFrom (some k₁) s.keys) (h : s.Forward) {e : Entry Q} (he : e ∈ s.entries) :
    ∃ k k' : Key, s.keyOf e = some k
      ∧ (if e.keyIndex = 0 then some k₂ else s.keyOf e) = some k'
      ∧ k'.mode = k.mode ∧ move k₁ k₂ e = k.tonic.interval k'.tonic := by
  unfold move
  by_cases hi : e.keyIndex = 0
  · obtain ⟨rest, hrest, -⟩ := hkeys
    rw [if_pos hi, if_pos hi]
    exact ⟨k₁, k₂, by rw [keyOf, hrest, hi]; rfl, rfl, hmode, rfl⟩
  · obtain ⟨k, hk, -⟩ := exists_keyOf_of_pos hkeys (Nat.pos_of_ne_zero hi) (h.index e he)
    rw [if_neg hi, if_neg hi]
    exact ⟨k, k, hk, hk, rfl, k.tonic.interval_self.symm⟩

theorem exists_toPitches {s : Score Q} (h : ∀ e ∈ s.entries, (s.keyOf e).isSome) :
    ∃ p, s.toPitches = .ok p := by
  refine exists_convert fun e he _ _ r _ => ?_
  obtain ⟨k, hk⟩ := Option.isSome_iff_exists.mp (h e he)
  rw [hk]
  cases r with
  | pitch p => exact ⟨.pitch p, rfl⟩
  | degree d => exact ⟨.pitch (d.pitch k), rfl⟩

/-! ### From key to key -/

variable [Quantity Q]

/-- **Transposition through degrees is exact.**  Let a score, read in a key, be
written with degrees.  In another key of the same mode these can be read and
written with pitches.  Whatever key the pitches are read in, they are the
entries of the score in their places: up to the first mark every root and bass
lies higher by the interval of the tonics, and after it where it lay. -/
theorem moved_of_toDegrees (hQ : Faithful Q) {k₁ k₂ : Key} (hmode : k₂.mode = k₁.mode)
    {text : String} {s d : Score Q} (hread : Score.read Table.standard (some k₁) text = .ok s)
    (hd : s.toDegrees = .ok d) :
    ∃ s₂ p : Score Q, Score.read Table.standard (some k₂) d.text = .ok s₂ ∧ s₂.toPitches = .ok p
      ∧ ∀ key : Option Key, ∃ s' : Score Q, Score.read Table.standard key p.text = .ok s'
        ∧ List.Forall₂ (fun e e' => e.Moved (move k₁ k₂ e) (s.keyOf e) e')
            s.entries s'.entries := by
  have hlegible := legible_of_read hread
  have hforward := forward_of_read hread
  obtain ⟨hlegible₁, hforward₁⟩ := legible_and_forward hread (.inr (.inl hd))
  have hread₂ := read_text_of_legible hQ hlegible₁ hforward₁ (some k₂)
  have hdegrees := forall₂_rewritten hd hlegible₁.keys hforward₁ (some k₂)
  have hkeyed : ∀ e' ∈ (d.renumbered (some k₂)).entries,
      ((d.renumbered (some k₂)).keyOf e').isSome := by
    intro e' he'
    obtain ⟨e, he, -, hkey⟩ := exists_of_forall₂ hdegrees e' he'
    obtain ⟨-, k', -, hk', -⟩ := exists_keyOf_move hmode hlegible.keys hforward he
    rw [hkey, hk']
    rfl
  obtain ⟨p, hp⟩ := exists_toPitches hkeyed
  obtain ⟨hlegible₂, hforward₂⟩ := legible_and_forward hread₂ (.inr (.inr hp))
  refine ⟨_, p, hread₂, hp, fun key => ⟨_, read_text_of_legible hQ hlegible₂ hforward₂ key, ?_⟩⟩
  -- entry by entry, the way into degrees and back is followed by the one into pitches and back
  have hpitches := forall₂_rewritten hp hlegible₂.keys hforward₂ key
  have hall := (List.forall₂_and_left _ _).mpr
    ⟨fun e he => exists_keyOf_move hmode hlegible.keys hforward he, forall₂_comp hdegrees hpitches⟩
  refine hall.imp fun e e' h => ?_
  obtain ⟨⟨k, k', hk, hk', hmode', hmove⟩, e₁, ⟨h₁, hkey⟩, h₂, -⟩ := h
  rw [hkey, hk'] at h₂
  rw [hk] at h₁ ⊢
  rw [hmove]
  exact Entry.moved_of_rewritten hmode' h₁ h₂

/-- A tune goes from C to E flat, up to its change of key. -/
theorem moved_of_toDegrees_tune :
    Faithful Rat ∧ ∃ k₁ k₂ : Key, k₁.text = "C" ∧ k₂.text = "Eb" ∧ k₂.mode = k₁.mode
      ∧ ∃ s d : Score Rat,
        Score.read Table.standard (some k₁) "C/G:0.5 F#m7b5 | = V7(b9)\n@F#m vi Bb _" = .ok s
        ∧ s.toDegrees = .ok d ∧ d.text = "I/V:0.5 #ivø7 | = V7(b9)\n@F#m vi #III _"
        ∧ ∃ s₂ p : Score Rat, Score.read Table.standard (some k₂) d.text = .ok s₂
          ∧ s₂.toPitches = .ok p
          ∧ ∀ key : Option Key, ∃ s' : Score Rat, Score.read Table.standard key p.text = .ok s'
            ∧ List.Forall₂ (fun e e' => e.Moved (move k₁ k₂ e) (s.keyOf e) e')
                s.entries s'.entries := by
  have hmode : (⟨⟨3, some "Eb"⟩, .major⟩ : Key).mode = (⟨⟨0, some "C"⟩, .major⟩ : Key).mode := rfl
  have htext : ((Score.read (Q := Rat) Table.standard (some ⟨⟨0, some "C"⟩, .major⟩)
      "C/G:0.5 F#m7b5 | = V7(b9)\n@F#m vi Bb _").toOption.bind fun s => s.toDegrees.toOption).map
        Score.text = some "I/V:0.5 #ivø7 | = V7(b9)\n@F#m vi #III _" := by
    decide +kernel
  obtain ⟨d, hd, htext⟩ := Option.map_eq_some_iff.mp htext
  obtain ⟨s, hread, hd⟩ := Option.bind_eq_some_iff.mp hd
  have hread := eq_ok_of_toOption hread
  have hd := eq_ok_of_toOption hd
  exact ⟨Exact.faithful, ⟨⟨0, some "C"⟩, .major⟩, ⟨⟨3, some "Eb"⟩, .major⟩, rfl, rfl, hmode, s, d,
    hread, hd, htext, moved_of_toDegrees Exact.faithful hmode hread hd⟩

end Score

end LeadSheet
