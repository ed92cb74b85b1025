import LeadSheet.Number.Quantity
import LeadSheet.Proofs.Datum.Atoms
import LeadSheet.Proofs.Text.Ends
import LeadSheet.Quality.Standard

/-!
# Keys are scoped as measures nest

A measure of a datum comes down to one list of atoms, in the key of the
innermost keyed measure around it (`Datum.Scoped`).  Reading it adds an entry
for every atom, in that key, and leaves the builder in the key it was in
(`tookMeasure_readMeasure`).  Keys are only added, so an entry stays in the key that it
was read in (`PlacedAtom.Entered.mono`).

`Score.entered_of_readDatum`: the entries of a score are those of its atoms, in
order, and measures without atoms are not counted.  A word that changes the key
is an atom without an entry, so there must be none.
-/

namespace LeadSheet

/-! ### Scopes -/

structure ScopedMeasure where
  key : Option Key
  atoms : List Source

/-- What a measure comes down to when it stands in a key: its atoms in that key,
or in the key of a keyed measure what stands inside. -/
inductive Datum.Scoped : Option Key → Datum → ScopedMeasure → Prop
  | plain (key : Option Key) {line column : Int} {atoms : List Source}
      (h : startsWith "keyed" (atoms.map atom) = false) :
      Scoped key (.list line column (atoms.map atom)) ⟨key, atoms⟩
  | keyed (key : Option Key) {line column : Int} {head measure : Datum} {tonic : Source} {k : Key}
      {m : ScopedMeasure} (h : startsWith "keyed" [head, .atom tonic, measure] = true)
      (hk : Key.read (String.ofList tonic.text) = .ok k) (hm : Scoped (some k) measure m) :
      Scoped key (.list line column [head, .atom tonic, measure]) m

/-- An atom with the key it stands in and the number of its measure. -/
structure PlacedAtom where
  measure : Nat
  key : Option Key
  atom : Source

/-- The atoms of measures that have any, numbered from some measure on. -/
def numbered (start : Nat) (ms : List ScopedMeasure) : List PlacedAtom :=
  ((ms.filter fun m => !m.atoms.isEmpty).zipIdx start).flatMap fun m =>
    m.1.atoms.map fun a => ⟨m.2, m.1.key, a⟩

theorem numbered_cons (start : Nat) (m : ScopedMeasure) (ms : List ScopedMeasure) :
    numbered start (m :: ms) = m.atoms.map (fun a => ⟨start, m.key, a⟩)
      ++ numbered (if m.atoms.isEmpty then start else start + 1) ms := by
  unfold numbered
  cases h : m.atoms with
  | nil => simp [h]
  | cons a as => simp [h]

/-! ### Entries -/

/-- What a sound makes of an entry; a repetition makes it some chord. -/
inductive Sound.Makes : Sound → EntryContent → Prop
  | chord (c : Chord) : Makes (.chord c) (.chord c)
  | rest : Makes .rest .rest
  | tie : Makes .tie .tie
  | again (c : Chord) : Makes .again (.chord c)

variable {Q : Type} [Quantity Q]

/-- The entry of an atom, the keys being those of its score. -/
structure PlacedAtom.Entered (table : Table) (keys : List (Option Key)) (p : PlacedAtom)
    (e : Entry Q) : Prop where
  key : keys[e.keyIndex]? = some p.key
  measure : e.measure = p.measure
  line : e.line = 0
  word : ∃ sound duration, TokenContent.read table p.atom = .ok (.sound sound duration)
    ∧ sound.Makes e.content ∧ e.duration = duration.getD usualDuration

theorem PlacedAtom.Entered.mono {table : Table} {keys keys' : List (Option Key)} {p : PlacedAtom}
    {e : Entry Q} (h : p.Entered table keys e) (hkeys : keys <+: keys') :
    p.Entered table keys' e := by
  refine ⟨?_, h.measure, h.line, h.word⟩
  obtain ⟨more, rfl⟩ := hkeys
  have hlt : e.keyIndex < keys.length := (List.getElem?_eq_some_iff.mp h.key).1
  rw [List.getElem?_append_left hlt]
  exact h.key

/-- A builder took some atoms: it has their entries, and is in the key it was
in. -/
structure Builder.Took (table : Table) (b b' : Builder Q) (ps : List PlacedAtom) : Prop where
  keys : b.keys <+: b'.keys
  keyIndex : b'.keyIndex = b.keyIndex
  line : b'.line = b.line
  entries : ∃ es, b'.entries = b.entries ++ es
    ∧ List.Forall₂ (PlacedAtom.Entered table b'.keys) ps es

namespace Builder.Took

variable {table : Table} {b b' b'' : Builder Q} {ps qs : List PlacedAtom}

theorem refl (b : Builder Q) : b.Took table b [] :=
  ⟨List.prefix_rfl, rfl, rfl, [], (List.append_nil _).symm, .nil⟩

theorem trans (h : b.Took table b' ps) (h' : b'.Took table b'' qs) :
    b.Took table b'' (ps ++ qs) := by
  obtain ⟨es, hes, hps⟩ := h.entries
  obtain ⟨ds, hds, hqs⟩ := h'.entries
  refine ⟨h.keys.trans h'.keys, h'.keyIndex.trans h.keyIndex, h'.line.trans h.line, es ++ ds, ?_, ?_⟩
  · rw [hds, hes, List.append_assoc]
  · exact List.rel_append (hps.imp fun _ _ he => he.mono h'.keys) hqs

theorem closeMeasure (h : b.Took table b' ps) : b.Took table b'.closeMeasure ps := by
  refine ⟨?_, ?_, ?_, ?_⟩
  · rw [keys_closeMeasure]
    exact h.keys
  · rw [keyIndex_closeMeasure]
    exact h.keyIndex
  · rw [line_closeMeasure]
    exact h.line
  · rw [entries_closeMeasure, keys_closeMeasure]
    exact h.entries

theorem getElem?_keys (h : b.Took table b' ps) {key : Option Key}
    (hkey : b.keys[b.keyIndex]? = some key) : b'.keys[b'.keyIndex]? = some key := by
  obtain ⟨more, hmore⟩ := h.keys
  have hlt : b.keyIndex < b.keys.length := (List.getElem?_eq_some_iff.mp hkey).1
  rw [h.keyIndex, ← hmore, List.getElem?_append_left hlt]
  exact hkey

end Builder.Took

/-! ### Measures -/

def Source.Plain (a : Source) : Prop :=
  a.text.head? ≠ some '@'

theorem exists_sound_of_plain {table : Table} {a : Source} (h : a.Plain) {content : TokenContent Q}
    (hread : TokenContent.read table a = .ok content) :
    ∃ sound duration, content = .sound sound duration := by
  unfold TokenContent.read at hread
  split at hread
  · rename_i name htext
    exact absurd (by rw [htext]; rfl) h
  · obtain ⟨⟨body, duration⟩, -, hread⟩ := exists_of_bind_eq_ok hread
    obtain ⟨sound, -, hread⟩ := exists_of_bind_eq_ok hread
    exact ⟨sound, duration, (Except.ok.inj hread).symm⟩

theorem Builder.feed_sound {b b' : Builder Q} {t : Token Q} {sound : Sound} {duration : Option Q}
    (ht : t.content = .sound sound duration) (h : b.feed t = .ok b') :
    ∃ content previous, sound.Makes content ∧ b' = { b.append content duration with previous } := by
  unfold feed at h
  rw [ht] at h
  cases sound with
  | chord c => exact ⟨.chord c, _, .chord c, (Except.ok.inj h).symm⟩
  | rest => exact ⟨.rest, _, .rest, (Except.ok.inj h).symm⟩
  | tie => exact ⟨.tie, _, .tie, (Except.ok.inj h).symm⟩
  | again =>
    dsimp only at h
    split at h
    · rename_i c _
      exact ⟨.chord c, _, .again c, (Except.ok.inj h).symm⟩
    · cases h

theorem took_readMeasureItem {table : Table} {b b' : Builder Q} {key : Option Key} {a : Source}
    (hkey : b.keys[b.keyIndex]? = some key) (hline : b.line = 0) (ha : a.Plain)
    (h : b.readMeasureItem table (.atom a) = .ok b') :
    b.Took table b' [⟨b.measure, key, a⟩] ∧ b'.measure = b.measure ∧ b'.measureOpen = true := by
  obtain ⟨t, ht, hfeed⟩ := exists_of_bind_eq_ok h
  obtain ⟨content, hcontent, rfl⟩ := exists_of_map_eq_ok ht
  obtain ⟨sound, duration, rfl⟩ := exists_sound_of_plain ha hcontent
  obtain ⟨content, previous, hmakes, rfl⟩ := Builder.feed_sound rfl hfeed
  exact ⟨⟨List.prefix_rfl, rfl, rfl, _, rfl,
    .cons ⟨hkey, rfl, hline, sound, duration, hcontent, hmakes, rfl⟩ .nil⟩, rfl, rfl⟩

theorem took_items {table : Table} {key : Option Key} : ∀ {items : List Datum} {b b' : Builder Q},
    items.foldlM (Builder.readMeasureItem table) b = .ok b' → b.keys[b.keyIndex]? = some key →
    b.line = 0 → (∀ a, .atom a ∈ items → a.Plain) →
    ∃ atoms : List Source, items = atoms.map Datum.atom
      ∧ b.Took table b' (atoms.map fun a => ⟨b.measure, key, a⟩)
      ∧ b'.measure = b.measure ∧ b'.measureOpen = (b.measureOpen || !atoms.isEmpty) := by
  intro items
  induction items with
  | nil =>
    intro b b' h _ _ _
    cases h
    exact ⟨[], rfl, .refl b, rfl, (Bool.or_false _).symm⟩
  | cons d items ih =>
    intro b b' h hkey hline hplain
    rw [List.foldlM_cons] at h
    obtain ⟨b₁, hd, hrest⟩ := exists_of_bind_eq_ok h
    cases d with
    | list line column ds => cases hd
    | atom a =>
      -- an atom changes neither key nor measure, so what follows starts as it did
      obtain ⟨htook, hmeasure, hopen⟩ :=
        took_readMeasureItem hkey hline (hplain a (List.mem_cons_self ..)) hd
      obtain ⟨atoms, rfl, htook', hmeasure', hopen'⟩ :=
        ih hrest (htook.getElem?_keys hkey) (htook.line.trans hline) fun a ha =>
          hplain a (List.mem_cons_of_mem _ ha)
      rw [hmeasure] at htook' hmeasure'
      refine ⟨a :: atoms, rfl, htook.trans htook', hmeasure', ?_⟩
      rw [hopen', hopen]
      simp

structure Builder.Between (b : Builder Q) (key : Option Key) : Prop where
  key : b.keys[b.keyIndex]? = some key
  line : b.line = 0
  closed : b.measureOpen = false

/-- A builder took the atoms of a measure and closed it, which counts if there
are any. -/
structure Builder.TookMeasure (table : Table) (b b' : Builder Q) (m : ScopedMeasure) : Prop where
  took : b.Took table b' (m.atoms.map fun a => ⟨b.measure, m.key, a⟩)
  closed : b'.measureOpen = false
  measure : b'.measure = if m.atoms.isEmpty then b.measure else b.measure + 1

theorem Builder.TookMeasure.between {table : Table} {b b' : Builder Q} {m : ScopedMeasure}
    (h : b.TookMeasure table b' m) {key : Option Key} (hb : b.Between key) : b'.Between key :=
  ⟨h.took.getElem?_keys hb.key, h.took.line.trans hb.line, h.closed⟩

theorem tookMeasure_items {table : Table} {key : Option Key} {items : List Datum}
    {b b' : Builder Q} (h : (items.foldlM (Builder.readMeasureItem table) b).map Builder.closeMeasure
      = .ok b') (hb : b.Between key) (hplain : ∀ a, .atom a ∈ items → a.Plain) :
    ∃ atoms : List Source, items = atoms.map Datum.atom ∧ b.TookMeasure table b' ⟨key, atoms⟩ := by
  obtain ⟨b₁, hitems, rfl⟩ := exists_of_map_eq_ok h
  obtain ⟨atoms, rfl, htook, hmeasure, hopen⟩ := took_items hitems hb.key hb.line hplain
  rw [hb.closed, Bool.false_or] at hopen
  refine ⟨atoms, rfl, htook.closeMeasure, b₁.measureOpen_closeMeasure, ?_⟩
  rw [Builder.measure_closeMeasure, hopen, hmeasure]
  cases atoms with
  | nil => rfl
  | cons a atoms => rfl

/-- Going over to a key, taking a measure and going back is taking the measure,
in the key that was gone over to. -/
theorem Builder.TookMeasure.restoreKey {table : Table} {b inner b' : Builder Q} {k : Option Key}
    {m : ScopedMeasure} (h : (b.changeKey k).TookMeasure table inner m) {key : Option Key}
    (hb : b.Between key) (hback : inner.restoreKey b.keyIndex = .ok b') :
    b.TookMeasure table b' m := by
  have hkeys : b.keys <+: inner.keys := (List.prefix_append _ _).trans h.took.keys
  have hlt : b.keyIndex < b.keys.length := (List.getElem?_eq_some_iff.mp hb.key).1
  rw [restoreKey_of_lt (Nat.lt_of_lt_of_le hlt hkeys.length_le)] at hback
  obtain rfl := Except.ok.inj hback
  exact ⟨⟨hkeys, rfl, h.took.line, h.took.entries⟩, h.closed, h.measure⟩

/-- **Reading a measure adds the entries of its atoms** in the key of their scope,
and the builder is in the key before again. -/
theorem tookMeasure_readMeasure {table : Table} (d : Datum) :
    ∀ {b b' : Builder Q} {key : Option Key}, b.readMeasure table d = .ok b' → b.Between key →
    d.All Source.Plain → ∃ m, d.Scoped key m ∧ b.TookMeasure table b' m := by
  induction d using Datum.steps.induct with
  | case1 s =>
    intro b b' key h
    rw [Builder.readMeasure] at h
    cases h
  | case2 line column head tonic measure k hk hkeyed ih =>
    intro b b' key h hb hplain
    rw [Builder.readMeasure, if_pos hkeyed] at h
    simp only [hk] at h
    obtain ⟨inner, hinner, hback⟩ := exists_of_bind_eq_ok h
    -- inside, the key of the measure is in effect, and behind it the one outside is again
    have hchange : (b.changeKey (some k)).Between (some k) :=
      ⟨b.getElem?_changeKey (some k), hb.line, hb.closed⟩
    obtain ⟨m, hscoped, htook⟩ :=
      ih hinner hchange (Datum.all_list.mp hplain measure (by simp))
    exact ⟨m, .keyed key hkeyed hk hscoped, htook.restoreKey hb (eq_ok_of_mapError hback)⟩
  | case3 line column head tonic measure e he hkeyed =>
    intro b b' key h
    rw [Builder.readMeasure, if_pos hkeyed] at h
    simp only [he] at h
    cases h
  | case4 line column items hitems hkeyed =>
    intro b b' key h
    rw [Builder.readMeasure, if_pos hkeyed] at h
    · cases h
    · exact hitems
  | case5 line column items hkeyed =>
    intro b b' key h hb hplain
    rw [Builder.readMeasure.eq_def] at h
    dsimp only at h
    rw [if_neg hkeyed] at h
    obtain ⟨atoms, rfl, htook⟩ := tookMeasure_items (eq_ok_of_mapError h) hb fun a ha =>
      hplain a (.item ha .atom)
    exact ⟨⟨key, atoms⟩, .plain key (by simpa using hkeyed), htook⟩

theorem took_measures {table : Table} {key : Option Key} : ∀ {ds : List Datum} {b b' : Builder Q},
    ds.foldlM (Builder.readMeasure table) b = .ok b' → b.Between key →
    (∀ d ∈ ds, d.All Source.Plain) →
    ∃ ms, List.Forall₂ (Datum.Scoped key) ds ms ∧ b.Took table b' (numbered b.measure ms) := by
  intro ds
  induction ds with
  | nil =>
    intro b b' h _ _
    cases h
    exact ⟨[], .nil, .refl b⟩
  | cons d ds ih =>
    intro b b' h hb hplain
    rw [List.foldlM_cons] at h
    obtain ⟨b₁, hd, hrest⟩ := exists_of_bind_eq_ok h
    obtain ⟨m, hm, htook⟩ :=
      tookMeasure_readMeasure d hd hb (hplain d (List.mem_cons_self ..))
    obtain ⟨ms, hms, htook'⟩ := ih hrest (htook.between hb) fun d hd =>
      hplain d (List.mem_cons_of_mem _ hd)
    refine ⟨m :: ms, .cons hm hms, ?_⟩
    rw [numbered_cons, ← htook.measure]
    exact htook.took.trans htook'

/-! ### Scores -/

theorem PlacedAtom.Entered.keyOf_eq {table : Table} {s : Score Q} {p : PlacedAtom} {e : Entry Q}
    (h : p.Entered table s.keys e) : s.keyOf e = p.key := by
  unfold Score.keyOf
  rw [List.getD_eq_getElem?_getD, h.key]
  rfl

/-- **Keys are scoped as measures nest**: the entries of a score are those of
the atoms of its measures, in order.  Each is in the key of the innermost keyed
measure around its atom, or in the key at the start if there is none; measures
that have atoms are numbered one after the other, and all is one line. -/
theorem Score.entered_of_readDatum {table : Table} {key : Option Key} {text : String} {s : Score Q}
    (h : Score.readDatum table key text = .ok s)
    (hplain : ∀ a, .atom a ∈ lexDatum text → a.Plain) :
    ∃ d ds ms, Datum.read text = .ok d ∧ d.measures = .ok ds
      ∧ List.Forall₂ (Datum.Scoped key) ds ms
      ∧ List.Forall₂ (fun p e => p.Entered table s.keys e ∧ s.keyOf e = p.key)
        (numbered 0 ms) s.entries := by
  have hnested : Score.readNested table key text = .ok s := by
    rw [Score.readNested_eq, h]
    rfl
  obtain ⟨d, hd, hmeasures⟩ := exists_of_bind_eq_ok hnested
  obtain ⟨ds, hds, hread⟩ := exists_of_bind_eq_ok hmeasures
  obtain ⟨b, hb, hs⟩ := exists_of_bind_eq_ok hread
  have hd : Datum.read text = .ok d := eq_ok_of_mapError hd
  have hds : d.measures = .ok ds := eq_ok_of_mapError hds
  obtain rfl : b.closeLine.score = s := Except.ok.inj hs
  obtain ⟨ms, hms, htook⟩ := took_measures hb ⟨rfl, rfl, rfl⟩
    (Datum.all_of_measures (Datum.all_of_read hplain hd) hds)
  obtain ⟨es, hes, hentered⟩ := htook.entries
  have hkeys : b.closeLine.score.keys = b.keys := b.keys_closeLine
  have hentries : b.closeLine.score.entries = es := b.entries_closeLine.trans hes
  rw [← hkeys] at hentered
  rw [hentries]
  exact ⟨d, ds, ms, hd, hds, hms, hentered.imp fun p e he => ⟨he, he.keyOf_eq⟩⟩

/-- A key in a key, with an empty measure before it and one in it. -/
theorem Score.entered_keys_in_keys :
    (∀ a, .atom a ∈ lexDatum "(score (I %:2) () (keyed D (keyed G (V =))) (keyed D ()) (IV))"
        → a.Plain)
      ∧ ∃ s : Score Rat, Score.readDatum .standard (some ⟨⟨0, some "C"⟩, .major⟩)
          "(score (I %:2) () (keyed D (keyed G (V =))) (keyed D ()) (IV))" = .ok s
        ∧ s.entries.map (fun e => (e.measure, (s.keyOf e).map (·.tonic.value)))
          = [(0, some 0), (0, some 0), (1, some 7), (1, some 7), (2, some 0)]
        ∧ ∃ d ds ms,
          Datum.read "(score (I %:2) () (keyed D (keyed G (V =))) (keyed D ()) (IV))" = .ok d
          ∧ d.measures = .ok ds
          ∧ List.Forall₂ (Datum.Scoped (some ⟨⟨0, some "C"⟩, .major⟩)) ds ms
          ∧ List.Forall₂ (fun p e => p.Entered .standard s.keys e ∧ s.keyOf e = p.key)
            (numbered 0 ms) s.entries := by
  have hplain : ∀ l ∈ lexDatum "(score (I %:2) () (keyed D (keyed G (V =))) (keyed D ()) (IV))",
      l.text.head? ≠ some '@' := by
    decide +kernel
  obtain ⟨s, hs, hkeys⟩ : ∃ s ∈ (Score.readDatum (Q := Rat) .standard
      (some ⟨⟨0, some "C"⟩, .major⟩)
      "(score (I %:2) () (keyed D (keyed G (V =))) (keyed D ()) (IV))").toOption,
      s.entries.map (fun e => (e.measure, (s.keyOf e).map (·.tonic.value)))
        = [(0, some 0), (0, some 0), (1, some 7), (1, some 7), (2, some 0)] :=
    exists_mem_option_of_any (by decide +kernel)
  have hread := eq_ok_of_toOption hs
  exact ⟨fun a ha => hplain _ ha, s, hread, hkeys,
    Score.entered_of_readDatum hread fun a ha => hplain _ ha⟩

end LeadSheet
