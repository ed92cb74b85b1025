import LeadSheet.Proofs.Score.Growth
import LeadSheet.Score.Conversion

/-!
# Converted scores

A conversion changes the roots and the basses of chords and nothing else:
`Score.entries_of_convert`, by way of `Chord.Converted` and `Entry.Converted`.
It succeeds where every root can be converted (`Score.exists_convert`), keeps
scores legible if it keeps roots so (`Score.Legible.convert`), and keeps keys
going forward (`Score.Forward.convert`).
-/

namespace LeadSheet

def Chord.roots (c : Chord) : List Root :=
  c.root :: c.bass.toList

theorem Chord.mem_roots_of_bass {c : Chord} {r : Root} (h : c.bass = some r) : r ∈ c.roots :=
  List.mem_cons_of_mem _ (Option.mem_toList.mpr h)

/-- A chord that differs in its root and bass, as a conversion makes them. -/
structure Chord.Converted (f : RootConversion) (key : Option Key) (c c' : Chord) : Prop where
  root : f key c.root = .ok c'.root
  quality : c'.quality = c.quality
  extensions : c'.extensions = c.extensions
  bass : Option.Rel (fun r r' => f key r = .ok r') c.bass c'.bass

inductive EntryContent.Converted (f : RootConversion) (key : Option Key) :
    EntryContent → EntryContent → Prop
  | chord {c c' : Chord} (h : c.Converted f key c') : Converted f key (.chord c) (.chord c')
  | rest : Converted f key .rest .rest
  | tie : Converted f key .tie .tie

variable {Q : Type}

/-- An entry that differs in its content, as a conversion makes it. -/
structure Entry.Converted (f : RootConversion) (key : Option Key) (e e' : Entry Q) : Prop where
  content : e.content.Converted f key e'.content
  place : e' = { e with content := e'.content }

theorem Chord.converted_of_convert {f : RootConversion} {key : Option Key} {c c' : Chord}
    (h : c.convert f key = .ok c') : c.Converted f key c' := by
  unfold convert at h
  obtain ⟨bass, hbass, h⟩ := exists_of_bind_eq_ok h
  obtain ⟨root, hroot, h⟩ := exists_of_bind_eq_ok h
  cases h
  refine ⟨hroot, rfl, rfl, ?_⟩
  dsimp only
  cases hc : c.bass with
  | none =>
    rw [hc] at hbass
    cases hbass
    exact .none
  | some b =>
    rw [hc] at hbass
    obtain ⟨r, hr, heq⟩ := exists_of_map_eq_ok (x := f key b) (f := some) hbass
    rw [← heq]
    exact .some hr

theorem Chord.Converted.exists_bass {f : RootConversion} {key : Option Key} {c c' : Chord}
    (h : c.Converted f key c') : ∀ r' ∈ c'.bass, ∃ r ∈ c.bass, f key r = .ok r' := by
  intro r' hr'
  have hbass := h.bass
  rw [Option.mem_def.mp hr'] at hbass
  generalize c.bass = bass at hbass
  cases hbass with
  | some hr => exact ⟨_, rfl, hr⟩

theorem Entry.converted_of_convert {f : RootConversion} {key : Option Key} {e e' : Entry Q}
    (h : e.convert f key = .ok e') : e.Converted f key e' := by
  unfold convert at h
  cases hc : e.content with
  | chord c =>
    rw [hc] at h
    obtain ⟨c', hc', rfl⟩ := exists_of_map_eq_ok h
    exact ⟨by rw [hc]; exact .chord (Chord.converted_of_convert hc'), rfl⟩
  | rest =>
    rw [hc] at h
    cases h
    exact ⟨by rw [hc]; exact .rest, rfl⟩
  | tie =>
    rw [hc] at h
    cases h
    exact ⟨by rw [hc]; exact .tie, rfl⟩

theorem Chord.exists_convert {f : RootConversion} {key : Option Key} (c : Chord)
    (h : ∀ r ∈ c.roots, ∃ r', f key r = .ok r') : ∃ c', c.convert f key = .ok c' := by
  obtain ⟨root, hroot⟩ := h c.root (List.mem_cons_self ..)
  have hbass : ∃ bass, c.bass.mapM (f key) = .ok bass := by
    cases hc : c.bass with
    | none => exact ⟨none, rfl⟩
    | some r =>
      obtain ⟨r', hr'⟩ := h r (mem_roots_of_bass hc)
      exact ⟨some r', by rw [Option.mapM_some, hr']; rfl⟩
  obtain ⟨bass, hbass⟩ := hbass
  exact ⟨{ c with root, bass }, by rw [convert, hbass, hroot]; rfl⟩

theorem Entry.exists_convert {f : RootConversion} {key : Option Key} (e : Entry Q)
    (h : ∀ c ∈ e.chord?, ∀ r ∈ c.roots, ∃ r', f key r = .ok r') :
    ∃ e', e.convert f key = .ok e' := by
  unfold chord? at h
  unfold convert
  cases hc : e.content with
  | rest => exact ⟨e, rfl⟩
  | tie => exact ⟨e, rfl⟩
  | chord c =>
    rw [hc] at h
    obtain ⟨c', hc'⟩ := c.exists_convert (h c rfl)
    exact ⟨{ e with content := .chord c' }, by dsimp only; rw [hc']; rfl⟩

namespace Score

/-- **A conversion changes roots and basses and nothing else.** -/
theorem entries_of_convert {f : RootConversion} {s d : Score Q} (h : s.convert f = .ok d) :
    d.keys = s.keys
      ∧ List.Forall₂ (fun e e' => e.Converted f (s.keyOf e) e') s.entries d.entries := by
  obtain ⟨entries, hentries, heq⟩ := exists_of_map_eq_ok h
  cases heq
  exact ⟨rfl, (mapM_eq_ok_iff.mp hentries).imp fun _ _ he => Entry.converted_of_convert he⟩

theorem exists_convert {f : RootConversion} {s : Score Q}
    (h : ∀ e ∈ s.entries, ∀ c ∈ e.chord?, ∀ r ∈ c.roots, ∃ r', f (s.keyOf e) r = .ok r') :
    ∃ d, s.convert f = .ok d := by
  obtain ⟨ds, hds⟩ := exists_mapM_eq_ok fun (e : Entry Q) he => e.exists_convert (h e he)
  exact ⟨{ s with entries := ds }, by rw [convert, hds]; rfl⟩

theorem keyOf_of_converted {f : RootConversion} {key : Option Key} {s d : Score Q}
    (hkeys : d.keys = s.keys) {e e' : Entry Q} (h : e.Converted f key e') :
    d.keyOf e' = s.keyOf e := by
  rw [h.place]
  unfold keyOf
  rw [hkeys]

end Score

theorem forall₂_and {α β : Type} {R S : α → β → Prop} {as : List α} {bs : List β}
    (h : List.Forall₂ R as bs) (h' : List.Forall₂ S as bs) :
    List.Forall₂ (fun a b => R a b ∧ S a b) as bs := by
  induction h with
  | nil => exact .nil
  | cons hab _ ih =>
    obtain ⟨hab', htail⟩ := List.forall₂_cons.mp h'
    exact .cons ⟨hab, hab'⟩ (ih htail)

theorem forall₂_comp {α β γ : Type} {R : α → β → Prop} {S : β → γ → Prop} {as : List α}
    {bs : List β} {cs : List γ} (h : List.Forall₂ R as bs) (h' : List.Forall₂ S bs cs) :
    List.Forall₂ (fun a c => ∃ b, R a b ∧ S b c) as cs := by
  induction h generalizing cs with
  | nil => cases h'; exact .nil
  | cons hab _ ih =>
    cases h' with
    | cons hbc htail => exact .cons ⟨_, hab, hbc⟩ (ih htail)

theorem forall₂_of_map_eq {α β γ : Type} {f : α → γ} {g : β → γ} {as : List α} {bs : List β}
    (h : bs.map g = as.map f) : List.Forall₂ (fun a b => g b = f a) as bs := by
  have hsame : List.Forall₂ (fun x y => y = x) (as.map f) (bs.map g) := by
    rw [h]
    exact List.forall₂_same.mpr fun x _ => rfl
  exact List.forall₂_map_left_iff.mp (List.forall₂_map_right_iff.mp hsame)

theorem Score.roots_of_convert {f : RootConversion} {P : Root → Prop} {s d : Score Q}
    (hd : s.convert f = .ok d)
    (hP : ∀ (k : Option Key) (r r' : Root), f k r = .ok r' → P r') :
    ∀ e ∈ d.entries, ∀ c ∈ e.chord?, P c.root ∧ ∀ r ∈ c.bass, P r := by
  intro e' he' c' hc'
  obtain ⟨e, -, hconverted⟩ := exists_of_forall₂ (Score.entries_of_convert hd).2 e' he'
  have hcontent := hconverted.content
  unfold Entry.chord? at hc'
  generalize e.content = a at hcontent
  generalize e'.content = a' at hcontent hc'
  cases hcontent with
  | rest => cases hc'
  | tie => cases hc'
  | chord h =>
    obtain rfl := Option.some.inj hc'
    refine ⟨hP _ _ _ h.root, fun r' hr' => ?_⟩
    obtain ⟨r, -, hr⟩ := h.exists_bass r' hr'
    exact hP _ _ _ hr

variable [Quantity Q]

theorem Score.Legible.convert {f : RootConversion} {key : Option Key} {s d : Score Q}
    (h : s.Legible key)
    (hf : ∀ (k : Option Key) (r r' : Root), r.Legible → f k r = .ok r' → r'.Legible)
    (hd : s.convert f = .ok d) : d.Legible key := by
  obtain ⟨hkeys, hentries⟩ := Score.entries_of_convert hd
  refine ⟨?_, ?_, by rw [hkeys]; exact h.keys⟩
  · refine chained_congr (hentries.imp fun e e' he => ?_) h.chained
    rw [he.place]
    exact ⟨rfl, rfl, rfl, rfl⟩
  · intro e' he'
    obtain ⟨e, he, hconverted⟩ := exists_of_forall₂ hentries e' he'
    obtain ⟨hlegible, hduration⟩ := h.entries e he
    have hcontent := hconverted.content
    refine ⟨?_, by rw [hconverted.place]; exact hduration⟩
    generalize e.content = a at hcontent hlegible
    generalize e'.content = a' at hcontent ⊢
    cases hcontent with
    | rest => trivial
    | tie => trivial
    | @chord c c' hc =>
      have hlegible : c.Legible := hlegible
      refine Chord.Legible.mk (hf _ _ _ hlegible.root hc.root) ?_ ?_
      · rw [hc.quality]
        exact hlegible.quality
      · intro r' hr'
        obtain ⟨r, hr, hconvert⟩ := hc.exists_bass r' hr'
        exact hf _ _ _ (hlegible.bass r hr) hconvert

omit [Quantity Q] in
theorem Score.Forward.convert {f : RootConversion} {s d : Score Q} (h : s.Forward)
    (hd : s.convert f = .ok d) : d.Forward := by
  obtain ⟨hkeys, hentries⟩ := Score.entries_of_convert hd
  refine ⟨?_, ?_⟩
  · have hindex : ∀ {es ds : List (Entry Q)},
        List.Forall₂ (fun e e' => e.Converted f (s.keyOf e) e') es ds →
        ds.map Entry.keyIndex = es.map Entry.keyIndex := by
      intro es ds h
      induction h with
      | nil => rfl
      | cons he _ ih => rw [List.map_cons, List.map_cons, ih, he.place]
    rw [hindex hentries]
    exact h.ascending
  · intro e' he'
    obtain ⟨e, he, hconverted⟩ := exists_of_forall₂ hentries e' he'
    rw [hkeys, hconverted.place]
    exact h.index e he

end LeadSheet
