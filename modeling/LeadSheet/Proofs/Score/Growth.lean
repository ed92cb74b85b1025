import LeadSheet.Proofs.Datum.Nesting
import LeadSheet.Proofs.Reading.Piece
import LeadSheet.Proofs.Writing.Entry
import Mathlib.Data.List.Forall2

/-!
# How scores grow

Every entry of a score starts where the one before it ends, and stands in the
same measure, in the next one, or in the next one on the next line
(`Follows`, `Chained`).  A builder knows where the next entry is going to
stand (`Builder.Built`), and every step of reading keeps it so:
`Builder.Built.feed` for tokens, `Builder.Built.perform` for the steps of a
datum.

So every score that is read is chained, and made of durations that are read,
of chords that its table reads and of keys that are spelled, the first one
apart (`Score.made_of_read`, `Score.made_of_readDatum`).  With the standard
table it is `Score.Legible`.  In a score text the keys only go forward
(`Score.forward_of_read`).
-/

namespace LeadSheet

variable {Q : Type} [Quantity Q]

/-! ### Chains -/

/-- The entry stands right behind another one, or at the start. -/
def Follows (previous : Option (Entry Q)) (e : Entry Q) : Prop :=
  match previous with
  | none => e.beat = Quantity.ofInt 0 ∧ e.measure = 0 ∧ e.line = 0
  | some p =>
    e.beat = p.finish
      ∧ (e.line = p.line ∧ (e.measure = p.measure ∨ e.measure = p.measure + 1)
        ∨ e.line = p.line + 1 ∧ e.measure = p.measure + 1)

/-- Every entry stands right behind the one before it. -/
def Chained (previous : Option (Entry Q)) : List (Entry Q) → Prop
  | [] => True
  | e :: es => Follows previous e ∧ Chained (some e) es

theorem chained_append : ∀ (es : List (Entry Q)) (previous : Option (Entry Q))
    (ds : List (Entry Q)),
    Chained previous (es ++ ds) ↔ Chained previous es ∧ Chained (es.getLast?.or previous) ds := by
  intro es
  induction es with
  | nil =>
    intro previous ds
    simp [Chained]
  | cons e es ih =>
    intro previous ds
    have hlast : (e :: es).getLast?.or previous = es.getLast?.or (some e) := by
      cases es with
      | nil => rfl
      | cons e' es => rw [List.getLast?_cons_cons, List.getLast?_eq_some_getLast (by simp)]; rfl
    rw [List.cons_append, Chained, Chained, ih, hlast, and_assoc]

theorem chained_concat (es : List (Entry Q)) (previous : Option (Entry Q)) (e : Entry Q) :
    Chained previous (es ++ [e]) ↔ Chained previous es ∧ Follows (es.getLast?.or previous) e := by
  rw [chained_append, Chained, Chained, and_true]

structure SamePlace (e d : Entry Q) : Prop where
  beat : d.beat = e.beat
  duration : d.duration = e.duration
  measure : d.measure = e.measure
  line : d.line = e.line

theorem SamePlace.follows {p q e d : Entry Q} (hp : SamePlace p q) (he : SamePlace e d)
    (h : Follows (some p) e) : Follows (some q) d := by
  have hfinish : q.finish = p.finish := by
    unfold Entry.finish
    rw [hp.beat, hp.duration]
  obtain ⟨hbeat, hplace⟩ := h
  refine ⟨?_, ?_⟩
  · rw [he.beat, hfinish]
    exact hbeat
  · rw [he.line, he.measure, hp.line, hp.measure]
    exact hplace

theorem chained_congr {es ds : List (Entry Q)} (h : List.Forall₂ SamePlace es ds)
    (hes : Chained none es) : Chained none ds := by
  have hrest : ∀ {es ds : List (Entry Q)}, List.Forall₂ SamePlace es ds →
      ∀ {p q : Entry Q}, SamePlace p q → Chained (some p) es → Chained (some q) ds := by
    intro es ds h
    induction h with
    | nil => intro p q _ _; trivial
    | cons he _ ih =>
      intro p q hpq hchain
      exact ⟨hpq.follows he hchain.1, ih he hchain.2⟩
  cases h with
  | nil => trivial
  | cons he htail =>
    obtain ⟨⟨hbeat, hmeasure, hline⟩, hchain⟩ := hes
    exact ⟨⟨he.beat.trans hbeat, he.measure.trans hmeasure, he.line.trans hline⟩,
      hrest htail he hchain⟩

/-! ### Builders -/

/-- What a token says, as reading makes it of chords with a property. -/
def TokenContent.Made (P : Chord → Prop) : TokenContent Q → Prop
  | .sound s d => (∀ c, s = .chord c → P c) ∧ ∀ x ∈ d, IsBeats x
  | .key k => k.tonic.Spelled
  | _ => True

/-- An entry as reading makes it of chords with a property. -/
structure Entry.Made (P : Chord → Prop) (e : Entry Q) : Prop where
  chord : ∀ c ∈ e.chord?, P c
  duration : IsBeats e.duration ∨ e.duration = usualDuration

/-- Keys of which only the first may be missing or misspelled. -/
def KeysFrom (key : Option Key) (keys : List (Option Key)) : Prop :=
  ∃ rest : List Key, keys = key :: rest.map some ∧ ∀ k ∈ rest, k.tonic.Spelled

/-- Where the next entry of a builder is going to stand. -/
def Builder.Next (b : Builder Q) : Prop :=
  match b.entries.getLast? with
  | none =>
    b.beat = Quantity.ofInt 0 ∧ b.measure = 0 ∧ b.line = 0 ∧ b.measureOpen = false
      ∧ b.lineOpen = false
  | some p =>
    b.beat = p.finish
      ∧ (b.lineOpen = true ∧ b.line = p.line
          ∧ (b.measureOpen = true ∧ b.measure = p.measure
            ∨ b.measureOpen = false ∧ b.measure = p.measure + 1)
        ∨ b.lineOpen = false ∧ b.measureOpen = false ∧ b.line = p.line + 1
          ∧ b.measure = p.measure + 1)

/-- A builder whose entries are chained and that knows where the next one is
going to stand. -/
structure Builder.Placed (b : Builder Q) : Prop where
  chained : Chained none b.entries
  next : b.Next

/-- A builder that was started in a key and only given what reading makes of
chords with a property. -/
structure Builder.Built (P : Chord → Prop) (key : Option Key) (b : Builder Q) : Prop where
  chained : Chained none b.entries
  next : b.Next
  made : ∀ e ∈ b.entries, e.Made P
  previous : ∀ c ∈ b.previous, P c
  keys : KeysFrom key b.keys

namespace Builder

theorem Next.follows {b : Builder Q} (h : b.Next) (content : EntryContent) (duration : Q) :
    Follows b.entries.getLast? ⟨content, b.measure, b.beat, duration, b.keyIndex, b.line⟩ := by
  unfold Next at h
  unfold Follows
  cases hlast : b.entries.getLast? with
  | none =>
    rw [hlast] at h
    obtain ⟨h₁, h₂, h₃, -⟩ := h
    exact ⟨h₁, h₂, h₃⟩
  | some p =>
    rw [hlast] at h
    obtain ⟨hbeat, ⟨-, hline, hmeasure⟩ | ⟨-, -, hline, hmeasure⟩⟩ := h
    · refine ⟨hbeat, .inl ⟨hline, ?_⟩⟩
      rcases hmeasure with ⟨-, hm⟩ | ⟨-, hm⟩
      · exact .inl hm
      · exact .inr hm
    · exact ⟨hbeat, .inr ⟨hline, hmeasure⟩⟩

variable {b : Builder Q}

namespace Placed

theorem start (key : Option Key) : (Builder.start key : Builder Q).Placed :=
  ⟨trivial, rfl, rfl, rfl, rfl, rfl⟩

theorem append (h : b.Placed) (content : EntryContent) (d : Option Q) :
    (b.append content d).Placed := by
  refine ⟨?_, ?_⟩
  · refine (chained_concat _ _ _).mpr ⟨h.chained, ?_⟩
    rw [Option.or_none]
    exact h.next.follows content _
  · unfold Next Builder.append
    dsimp only
    rw [List.getLast?_concat]
    exact ⟨rfl, .inl ⟨rfl, rfl, .inl ⟨rfl, rfl⟩⟩⟩

theorem closeMeasure (h : b.Placed) : b.closeMeasure.Placed := by
  by_cases hopen : b.measureOpen = true
  · have heq : b.closeMeasure = { b with measure := b.measure + 1, measureOpen := false } := by
      rw [Builder.closeMeasure, if_pos hopen]
    have hnext := h.next
    rw [heq]
    refine ⟨h.chained, ?_⟩
    unfold Next at hnext ⊢
    dsimp only
    cases hlast : b.entries.getLast? with
    | none =>
      rw [hlast] at hnext
      rw [hopen] at hnext
      exact absurd hnext.2.2.2.1 (by decide)
    | some p =>
      rw [hlast, hopen] at hnext
      obtain ⟨hbeat, ⟨hl, hline, hmeasure⟩ | ⟨-, hm, -⟩⟩ := hnext
      · refine ⟨hbeat, .inl ⟨hl, hline, .inr ⟨rfl, ?_⟩⟩⟩
        rcases hmeasure with ⟨-, hm⟩ | ⟨hm, -⟩
        · rw [hm]
        · cases hm
      · cases hm
  · rw [closeMeasure_of_closed (by simpa using hopen)]
    exact h

theorem closeLine (h : b.Placed) : b.closeLine.Placed := by
  have hclosed := h.closeMeasure
  unfold Builder.closeLine
  dsimp only
  generalize hm : b.closeMeasure = m at hclosed
  have hmeasure : m.measureOpen = false := by
    rw [← hm]
    exact b.measureOpen_closeMeasure
  by_cases hopen : m.lineOpen = true
  · have hnext := hclosed.next
    rw [if_pos hopen]
    refine ⟨hclosed.chained, ?_⟩
    unfold Next at hnext ⊢
    dsimp only
    cases hlast : m.entries.getLast? with
    | none =>
      rw [hlast, hopen] at hnext
      exact absurd hnext.2.2.2.2 (by decide)
    | some p =>
      rw [hlast, hopen, hmeasure] at hnext
      obtain ⟨hbeat, ⟨-, hline, ⟨hm', -⟩ | ⟨-, hm'⟩⟩ | ⟨hl, -⟩⟩ := hnext
      · cases hm'
      · exact ⟨hbeat, .inr ⟨rfl, hmeasure, by rw [hline], hm'⟩⟩
      · cases hl
  · rw [if_neg hopen]
    exact hclosed

end Placed

variable {P : Chord → Prop} {key : Option Key}

theorem built_start (P : Chord → Prop) (key : Option Key) :
    (Builder.start key : Builder Q).Built P key where
  chained := (Placed.start key).chained
  next := (Placed.start key).next
  made e he := by cases he
  previous c hc := by cases hc
  keys := ⟨[], rfl, fun k hk => by cases hk⟩

namespace Built

theorem placed (h : b.Built P key) : b.Placed :=
  ⟨h.chained, h.next⟩

theorem append (h : b.Built P key) {content : EntryContent} (hc : ∀ c ∈ content.chord?, P c)
    {d : Option Q} (hd : ∀ x ∈ d, IsBeats x) : (b.append content d).Built P key := by
  have hplaced := h.placed.append content d
  have hduration : IsBeats (d.getD usualDuration) ∨ d.getD usualDuration = usualDuration := by
    cases d with
    | none => exact .inr rfl
    | some x => exact .inl (hd x rfl)
  refine ⟨hplaced.chained, hplaced.next, ?_, h.previous, h.keys⟩
  intro e he
  rcases List.mem_append.mp he with he | he
  · exact h.made e he
  · obtain rfl := List.mem_singleton.mp he
    exact ⟨hc, hduration⟩

theorem setPrevious (h : b.Built P key) {c : Chord} (hc : P c) :
    { b with previous := some c }.Built P key := by
  refine ⟨h.chained, h.next, h.made, ?_, h.keys⟩
  intro c' hc'
  obtain rfl := Option.some.inj hc'
  exact hc

theorem closeMeasure (h : b.Built P key) : b.closeMeasure.Built P key := by
  have hplaced := h.placed.closeMeasure
  refine ⟨hplaced.chained, hplaced.next, ?_, ?_, ?_⟩
  · rw [b.entries_closeMeasure]
    exact h.made
  · rw [b.previous_closeMeasure]
    exact h.previous
  · rw [b.keys_closeMeasure]
    exact h.keys

theorem closeLine (h : b.Built P key) : b.closeLine.Built P key := by
  have hplaced := h.placed.closeLine
  refine ⟨hplaced.chained, hplaced.next, ?_, ?_, ?_⟩
  · rw [b.entries_closeLine]
    exact h.made
  · rw [b.previous_closeLine]
    exact h.previous
  · rw [b.keys_closeLine]
    exact h.keys

theorem changeKey (h : b.Built P key) {k : Key} (hk : k.tonic.Spelled) :
    (b.changeKey (some k)).Built P key := by
  obtain ⟨rest, hkeys, hrest⟩ := h.keys
  refine ⟨h.chained, h.next, h.made, h.previous, rest ++ [k], ?_, ?_⟩
  · show b.keys ++ [some k] = _
    rw [hkeys, List.map_append]
    rfl
  · intro k' hk'
    rcases List.mem_append.mp hk' with hk' | hk'
    · exact hrest k' hk'
    · obtain rfl := List.mem_singleton.mp hk'
      exact hk

theorem returnTo (h : b.Built P key) (index : Nat) : (b.returnTo index).Built P key :=
  ⟨h.chained, h.next, h.made, h.previous, h.keys⟩

theorem feed (h : b.Built P key) {t : Token Q} (ht : t.content.Made P) {b' : Builder Q}
    (hb : b.feed t = .ok b') : b'.Built P key := by
  unfold Builder.feed at hb
  cases hc : t.content with
  | sound s d =>
    rw [hc] at hb ht
    obtain ⟨hchord, hbeats⟩ := ht
    have hrest : ∀ c ∈ EntryContent.rest.chord?, P c := fun c hc => by cases hc
    have htie : ∀ c ∈ EntryContent.tie.chord?, P c := fun c hc => by cases hc
    have hsome : ∀ {c : Chord}, P c → ∀ c' ∈ (EntryContent.chord c).chord?, P c' := by
      intro c hc c' hc'
      obtain rfl := Option.some.inj hc'
      exact hc
    cases s with
    | chord c =>
      cases hb
      have hc : P c := hchord c rfl
      exact (h.append (hsome hc) hbeats).setPrevious hc
    | again =>
      cases hp : b.previous with
      | none => rw [hp] at hb; cases hb
      | some c =>
        rw [hp] at hb
        cases hb
        exact h.append (hsome (h.previous c hp)) hbeats
    | tie => cases hb; exact h.append htie hbeats
    | rest => cases hb; exact h.append hrest hbeats
  | key k =>
    rw [hc] at hb ht
    cases hb
    exact h.changeKey ht
  | bar =>
    rw [hc] at hb
    cases hb
    exact h.closeMeasure
  | newline =>
    rw [hc] at hb
    cases hb
    exact h.closeLine

end Built

end Builder

/-! ### What is read -/

theorem isBeats_of_splitDuration {line column : Int} {word body : List Char} {d : Option Q}
    (h : splitDuration line column word = .ok (body, d)) : ∀ x ∈ d, IsBeats x := by
  intro x hx
  unfold splitDuration at h
  split at h
  · cases h
    cases hx
  · split at h
    · cases h
      cases hx
    · split at h
      · rename_i beats hbeats
        cases h
        obtain rfl := Option.some.inj hx
        exact isBeats_of_readBeats hbeats
      · cases h

theorem Sound.legible_of_read {s : Source} {c : Chord}
    (h : Sound.read Table.standard s = .ok (.chord c)) : c.Legible := by
  unfold Sound.read at h
  split at h
  · cases h
  · split at h
    · cases h
    · split at h
      · cases h
      · obtain ⟨c', hc', heq⟩ := exists_of_map_eq_ok h
        cases heq
        exact Chord.legible_of_read hc'

def Table.Reads (table : Table) (P : Chord → Prop) : Prop :=
  ∀ (s : Source) (c : Chord), Sound.read table s = .ok (.chord c) → P c

theorem Table.reads_standard : Table.standard.Reads Chord.Legible :=
  fun _ _ => Sound.legible_of_read

variable {table : Table} {P : Chord → Prop}

theorem TokenContent.made_of_read (hP : table.Reads P) {s : Source} {content : TokenContent Q}
    (h : TokenContent.read table s = .ok content) : content.Made P := by
  unfold TokenContent.read at h
  split at h
  · split at h
    · rename_i k hk
      cases h
      exact Key.spelled_of_read hk
    · cases h
  · obtain ⟨⟨body, d⟩, hsplit, h⟩ := exists_of_bind_eq_ok h
    obtain ⟨sound, hsound, h⟩ := exists_of_bind_eq_ok h
    cases h
    refine ⟨?_, isBeats_of_splitDuration hsplit⟩
    intro c hc
    subst hc
    exact hP _ c hsound

theorem Token.made_of_read (hP : table.Reads P) {s : Source} {t : Token Q}
    (h : Token.read table s = .ok t) : t.content.Made P := by
  obtain ⟨content, hcontent, heq⟩ := exists_of_map_eq_ok h
  cases heq
  exact TokenContent.made_of_read hP hcontent

theorem Builder.Built.take (hP : table.Reads P) {key : Option Key} {b b' : Builder Q}
    (h : b.Built P key) {p : Piece} (hp : b.take table p = .ok b') : b'.Built P key := by
  unfold Builder.take at hp
  obtain ⟨content, hcontent, hfeed⟩ := exists_of_bind_eq_ok hp
  refine h.feed ?_ hfeed
  cases p with
  | word cs => exact TokenContent.made_of_read hP hcontent
  | bar => cases hcontent; trivial
  | newline => cases hcontent; trivial

/-- The step of a measure is one that reading makes. -/
def MeasureStep.Legible : MeasureStep → Prop
  | .enter k _ _ => k.tonic.Spelled
  | _ => True

theorem Datum.legible_steps (d : Datum) : ∀ st ∈ d.steps, st.Legible := by
  intro st hst
  cases Datum.stepOf_of_mem hst with
  | enter hk line column => exact Key.spelled_of_read hk
  | _ => trivial

theorem Builder.Built.perform (hP : table.Reads P) {key : Option Key} {b b' : ScoreBuilding Q}
    {st : MeasureStep} (h : b.builder.Built P key) (hst : st.Legible)
    (hb : b.perform table st = .ok b') : b'.builder.Built P key := by
  cases st with
  | enter k line column =>
    cases hb
    exact h.changeKey hst
  | leave =>
    unfold ScoreBuilding.perform at hb
    dsimp only at hb
    split at hb
    · cases hb
      exact h.returnTo _
    · cases hb
      exact h
  | word s =>
    obtain ⟨t, ht, hb⟩ := exists_of_bind_eq_ok hb
    obtain ⟨b₁, hfeed, hb⟩ := exists_of_bind_eq_ok hb
    cases hb
    exact h.feed (Token.made_of_read hP ht) hfeed
  | close =>
    cases hb
    exact h.closeMeasure
  | fail f => cases hb

namespace Score

/-- A score as reading makes it of chords with a property, started in a key. -/
structure Made (P : Chord → Prop) (key : Option Key) (s : Score Q) : Prop where
  chained : Chained none s.entries
  entries : ∀ e ∈ s.entries, e.Made P
  keys : KeysFrom key s.keys

/-- **A score is made of what its tokens are made of.** -/
theorem made_of_ofTokens {key : Option Key} {ts : List (Token Q)} {s : Score Q}
    (hts : ∀ t ∈ ts, t.content.Made P) (h : Score.ofTokens key ts = .ok s) : s.Made P key := by
  obtain ⟨b, hb, rfl⟩ := exists_of_map_eq_ok h
  have hbuilt : b.Built P key :=
    foldlM_keeps (Builder.Built P key) (fun t ht _ _ hb hfeed => hb.feed (hts t ht) hfeed)
      (Builder.built_start P key) hb
  exact ⟨hbuilt.chained, hbuilt.made, hbuilt.keys⟩

/-- **A score text is made of what chords are read.** -/
theorem made_of_read (hP : table.Reads P) {key : Option Key} {text : String} {s : Score Q}
    (h : Score.read table key text = .ok s) : s.Made P key := by
  have hrun := (Score.read_agree (Q := Q) table key text).eq_ok h
  obtain ⟨b, hb, rfl⟩ := exists_of_map_eq_ok hrun
  have hbuilt : b.Built P key :=
    foldlM_keeps (Builder.Built P key) (fun _ _ _ _ hb hp => hb.take hP hp)
      (Builder.built_start P key) hb
  exact ⟨hbuilt.chained, hbuilt.made, hbuilt.keys⟩

/-- **A datum is made of what chords are read.** -/
theorem made_of_readDatum (hP : table.Reads P) {key : Option Key} {text : String} {s : Score Q}
    (h : Score.readDatum table key text = .ok s) : s.Made P key := by
  unfold Score.readDatum at h
  obtain ⟨d, -, h⟩ := exists_of_bind_eq_ok h
  obtain ⟨measures, -, h⟩ := exists_of_bind_eq_ok h
  obtain ⟨b, hb, h⟩ := exists_of_bind_eq_ok h
  cases h
  have hbuilt : b.builder.Built P key := by
    refine foldlM_keeps (fun b => b.builder.Built P key) (fun st hst b b' hb hp => ?_)
      (Builder.built_start P key) hb
    obtain ⟨d, -, hst⟩ := List.mem_flatMap.mp hst
    exact hb.perform hP (d.legible_steps st hst) hp
  have hclosed := hbuilt.closeLine
  exact ⟨hclosed.chained, hclosed.made, hclosed.keys⟩

/-- A score as reading with the standard table makes it, started in a key. -/
structure Legible (key : Option Key) (s : Score Q) : Prop where
  chained : Chained none s.entries
  entries : ∀ e ∈ s.entries, e.Legible
  keys : KeysFrom key s.keys

theorem Made.legible {key : Option Key} {s : Score Q} (h : s.Made Chord.Legible key) :
    s.Legible key := by
  refine ⟨h.chained, fun e he => ?_, h.keys⟩
  obtain ⟨hchord, hduration⟩ := h.entries e he
  refine ⟨?_, hduration⟩
  unfold Entry.chord? at hchord
  generalize e.content = a at hchord ⊢
  cases a with
  | chord c => exact hchord c rfl
  | rest => trivial
  | tie => trivial

theorem legible_of_read {key : Option Key} {text : String} {s : Score Q}
    (h : Score.read Table.standard key text = .ok s) : s.Legible key :=
  (made_of_read Table.reads_standard h).legible

theorem legible_of_readDatum {key : Option Key} {text : String} {s : Score Q}
    (h : Score.readDatum Table.standard key text = .ok s) : s.Legible key :=
  (made_of_readDatum Table.reads_standard h).legible

end Score

/-! ### Keys of a score text -/

structure Builder.Forward (b : Builder Q) : Prop where
  ascending : (b.entries.map Entry.keyIndex).Pairwise (· ≤ ·)
  behind : ∀ e ∈ b.entries, e.keyIndex ≤ b.keyIndex
  index : b.keyIndex < b.keys.length

namespace Builder.Forward

theorem start (key : Option Key) : (Builder.start key : Builder Q).Forward := by
  refine ⟨List.Pairwise.nil, ?_, Nat.one_pos⟩
  intro e he
  cases he

variable {b : Builder Q}

theorem append (h : b.Forward) (content : EntryContent) (d : Option Q) :
    (b.append content d).Forward := by
  refine ⟨?_, ?_, h.index⟩
  · unfold Builder.append
    dsimp only
    rw [List.map_append, List.pairwise_append]
    refine ⟨h.ascending, List.pairwise_singleton _ _, ?_⟩
    intro i hi j hj
    obtain ⟨e, he, rfl⟩ := List.mem_map.mp hi
    obtain rfl : j = b.keyIndex := List.mem_singleton.mp hj
    exact h.behind e he
  · intro e he
    rcases List.mem_append.mp he with he | he
    · exact h.behind e he
    · obtain rfl := List.mem_singleton.mp he
      exact Nat.le_refl _

omit [Quantity Q] in
theorem congr (h : b.Forward) {b' : Builder Q} (hentries : b'.entries = b.entries)
    (hkeys : b'.keys = b.keys) (hindex : b'.keyIndex = b.keyIndex) : b'.Forward := by
  refine ⟨?_, ?_, ?_⟩
  · rw [hentries]
    exact h.ascending
  · rw [hentries, hindex]
    exact h.behind
  · rw [hkeys, hindex]
    exact h.index

omit [Quantity Q] in
theorem closeMeasure (h : b.Forward) : b.closeMeasure.Forward :=
  h.congr b.entries_closeMeasure b.keys_closeMeasure b.keyIndex_closeMeasure

omit [Quantity Q] in
theorem closeLine (h : b.Forward) : b.closeLine.Forward :=
  h.congr b.entries_closeLine b.keys_closeLine b.keyIndex_closeLine

omit [Quantity Q] in
theorem changeKey (h : b.Forward) (k : Option Key) : (b.changeKey k).Forward := by
  refine ⟨h.ascending, ?_, ?_⟩
  · intro e he
    have hindex := h.index
    have hbehind := h.behind e he
    show e.keyIndex ≤ b.keys.length
    omega
  · show b.keys.length < (b.keys ++ [k]).length
    rw [List.length_append, List.length_singleton]
    exact Nat.lt_succ_self _

theorem feed (h : b.Forward) {t : Token Q} {b' : Builder Q} (hb : b.feed t = .ok b') :
    b'.Forward := by
  unfold Builder.feed at hb
  split at hb
  · rename_i c d _
    cases hb
    exact (h.append (.chord c) d).congr rfl rfl rfl
  · split at hb
    · cases hb
      exact h.append _ _
    · cases hb
  · cases hb
    exact h.append _ _
  · cases hb
    exact h.append _ _
  · cases hb
    exact h.changeKey _
  · cases hb
    exact h.closeMeasure
  · cases hb
    exact h.closeLine

end Builder.Forward

structure Score.Forward (s : Score Q) : Prop where
  ascending : (s.entries.map Entry.keyIndex).Pairwise (· ≤ ·)
  index : ∀ e ∈ s.entries, e.keyIndex < s.keys.length

/-- **In a score text keys only go forward.** -/
theorem Score.forward_of_read {table : Table} {key : Option Key} {text : String} {s : Score Q}
    (h : Score.read table key text = .ok s) : s.Forward := by
  have hrun := (Score.read_agree (Q := Q) table key text).eq_ok h
  obtain ⟨b, hb, rfl⟩ := exists_of_map_eq_ok hrun
  have hforward : b.Forward := by
    refine foldlM_keeps Builder.Forward (fun p _ b b' hb hp => ?_) (Builder.Forward.start key) hb
    unfold Builder.take at hp
    obtain ⟨content, -, hfeed⟩ := exists_of_bind_eq_ok hp
    exact hb.feed hfeed
  exact ⟨hforward.ascending, fun e he => Nat.lt_of_le_of_lt (hforward.behind e he) hforward.index⟩

end LeadSheet
