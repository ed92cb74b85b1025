import LeadSheet.Proofs.Playing.Partition
import LeadSheet.Proofs.Reading.Row
import Mathlib.Data.Finset.Card
import Mathlib.Order.Interval.Finset.Nat

/-!
# Texts one below the other

Two score texts with a line end between them are read as one score: that of the
first text, followed by that of the second one moved behind it
(`Score.read_joined`).  The second text has to be readable on its own, so it
repeats no chord of the first.

At the end of a row nothing is open, and `Builder.behind` is what a builder is
like with all that another one holds in front of it.  Taking a token gets on
with it (`Builder.feed_behind`), and so does taking rows
(`Builder.foldlM_takeRow_behind`).  A builder that has closed its last line
knows how long its score is (`Builder.Built.beat_eq_length`) and how many
measures and lines it has (`Builder.Built.measure_eq_measures`).
-/

namespace LeadSheet

/-! ### Scores -/

/-- An entry with something in front of it. -/
def Entry.moved (beat : Rat) (measure line keyIndex : Nat) (e : Entry Rat) : Entry Rat :=
  { e with
    beat := e.beat + beat
    measure := e.measure + measure
    line := e.line + line
    keyIndex := e.keyIndex + keyIndex }

namespace Score

def measures (s : Score Rat) : Nat :=
  (s.entries.map Entry.measure).toFinset.card

def lines (s : Score Rat) : Nat :=
  (s.entries.map Entry.line).toFinset.card

def lastKey (s : Score Rat) : Option Key :=
  s.keys.getLastD none

/-- A score and another one behind it, which starts in the last key of the
first. -/
def followedBy (s d : Score Rat) : Score Rat where
  entries := s.entries ++ d.entries.map
    (Entry.moved s.length s.measures s.lines (s.keys.length - 1))
  keys := s.keys ++ d.keys.tail

end Score

/-! ### Builders -/

namespace Builder

/-- A builder with all that another one holds in front of it. -/
def behind (d b : Builder Rat) : Builder Rat where
  entries := b.entries ++ d.entries.map (Entry.moved b.beat b.measure b.line (b.keys.length - 1))
  keys := b.keys ++ d.keys.tail
  keyIndex := d.keyIndex + (b.keys.length - 1)
  measure := d.measure + b.measure
  line := d.line + b.line
  beat := d.beat + b.beat
  measureOpen := d.measureOpen
  lineOpen := d.lineOpen
  previous := d.previous.or b.previous

def InLastKey (b : Builder Rat) : Prop :=
  b.keyIndex + 1 = b.keys.length

variable {table : Table} {b d d' : Builder Rat}

theorem inLastKey_start (key : Option Key) : (start key).InLastKey := rfl

theorem append_behind (b d : Builder Rat) (content : EntryContent) (duration : Option Rat) :
    (d.behind b).append content duration = (d.append content duration).behind b := by
  have hfinish : d.beat + b.beat + duration.getD usualDuration
      = d.beat + duration.getD usualDuration + b.beat := by
    ring
  simp only [append, behind, Entry.finish, hfinish, List.map_append, List.map_cons, List.map_nil,
    List.append_assoc, Entry.moved]

theorem closeMeasure_behind (b d : Builder Rat) :
    (d.behind b).closeMeasure = d.closeMeasure.behind b := by
  unfold closeMeasure
  cases hopen : d.measureOpen with
  | true =>
    have hmeasure : d.measure + b.measure + 1 = d.measure + 1 + b.measure := by omega
    simp [behind, hopen, hmeasure]
  | false => simp [behind, hopen]

theorem closeLine_behind (b d : Builder Rat) :
    (d.behind b).closeLine = d.closeLine.behind b := by
  unfold closeLine
  rw [closeMeasure_behind]
  generalize d.closeMeasure = d
  cases hopen : d.lineOpen with
  | true =>
    have hline : d.line + b.line + 1 = d.line + 1 + b.line := by omega
    simp [behind, hopen, hline]
  | false => simp [behind, hopen]

theorem changeKey_behind (hb : b.InLastKey) (hd : d.InLastKey) (k : Option Key) :
    (d.behind b).changeKey k = (d.changeKey k).behind b := by
  have hne : d.keys ≠ [] := by
    rintro hnil
    rw [InLastKey, hnil] at hd
    cases hd
  have hpos : b.keyIndex + 1 = b.keys.length := hb
  have hpos' : d.keyIndex + 1 = d.keys.length := hd
  have hindex : (b.keys ++ d.keys.tail).length = d.keys.length + (b.keys.length - 1) := by
    rw [List.length_append, List.length_tail]
    omega
  simp only [changeKey, behind, hindex, List.append_assoc, List.tail_append_of_ne_nil hne]

theorem InLastKey.feed (hd : d.InLastKey) {t : Token Rat} (h : d.feed t = .ok d') :
    d'.InLastKey := by
  unfold Builder.feed at h
  split at h
  · cases h
    exact hd
  · split at h
    · cases h
      exact hd
    · cases h
  · cases h
    exact hd
  · cases h
    exact hd
  · cases h
    simp [InLastKey, changeKey]
  · cases h
    unfold InLastKey
    rw [keyIndex_closeMeasure, keys_closeMeasure]
    exact hd
  · cases h
    unfold InLastKey
    rw [keyIndex_closeLine, keys_closeLine]
    exact hd

theorem InLastKey.take (hd : d.InLastKey) {p : Piece} (h : d.take table p = .ok d') :
    d'.InLastKey := by
  obtain ⟨content, -, hfeed⟩ := exists_of_bind_eq_ok h
  exact hd.feed hfeed

theorem InLastKey.takeRow (hd : d.InLastKey) {r : List Char} (h : d.takeRow table r = .ok d') :
    d'.InLastKey := by
  obtain ⟨m, hm, rfl⟩ := exists_of_map_eq_ok h
  have hlast := foldlM_keeps InLastKey (fun _ _ _ _ hd hp => hd.take hp) hd hm
  unfold InLastKey
  rw [keyIndex_closeLine, keys_closeLine]
  exact hlast

theorem feed_behind (hb : b.InLastKey) (hd : d.InLastKey) {t : Token Rat}
    (h : d.feed t = .ok d') : (d.behind b).feed t = .ok (d'.behind b) := by
  unfold feed at h ⊢
  cases hcontent : t.content with
  | sound sound duration =>
    rw [hcontent] at h
    cases sound with
    | chord c =>
      cases h
      dsimp only
      rw [append_behind]
      rfl
    | rest =>
      cases h
      exact congrArg Except.ok (append_behind ..)
    | tie =>
      cases h
      exact congrArg Except.ok (append_behind ..)
    | again =>
      dsimp only at h ⊢
      cases hprevious : d.previous with
      | none => rw [hprevious] at h; cases h
      | some c =>
        rw [hprevious] at h
        cases h
        have hsame : (d.behind b).previous = some c := by simp [behind, hprevious]
        rw [hsame]
        exact congrArg Except.ok (append_behind ..)
  | key k =>
    rw [hcontent] at h
    cases h
    exact congrArg Except.ok (changeKey_behind hb hd (some k))
  | bar =>
    rw [hcontent] at h
    cases h
    exact congrArg Except.ok (closeMeasure_behind b d)
  | newline =>
    rw [hcontent] at h
    cases h
    exact congrArg Except.ok (closeLine_behind b d)

theorem foldlM_take_behind (hb : b.InLastKey) : ∀ {ps : List Piece} {d : Builder Rat},
    d.InLastKey → ps.foldlM (take table) d = .ok d' →
    ps.foldlM (take table) (d.behind b) = .ok (d'.behind b) := by
  intro ps
  induction ps with
  | nil =>
    intro d _ h
    cases h
    rfl
  | cons p ps ih =>
    intro d hd h
    rw [List.foldlM_cons] at h ⊢
    obtain ⟨m, hm, htail⟩ := exists_of_bind_eq_ok h
    obtain ⟨content, hcontent, hfeed⟩ := exists_of_bind_eq_ok hm
    have hp : (d.behind b).take table p = .ok (m.behind b) := by
      unfold take
      rw [hcontent]
      exact feed_behind hb hd hfeed
    rw [hp]
    exact ih (hd.take hm) htail

/-- **Rows are taken with anything in front.** -/
theorem foldlM_takeRow_behind (hb : b.InLastKey) : ∀ {rs : List (List Char)} {d : Builder Rat},
    d.InLastKey → rs.foldlM (takeRow table) d = .ok d' →
    rs.foldlM (takeRow table) (d.behind b) = .ok (d'.behind b) := by
  intro rs
  induction rs with
  | nil =>
    intro d _ h
    cases h
    rfl
  | cons r rs ih =>
    intro d hd h
    rw [List.foldlM_cons] at h ⊢
    obtain ⟨m, hm, htail⟩ := exists_of_bind_eq_ok h
    have hrow : (d.behind b).takeRow table r = .ok (m.behind b) := by
      obtain ⟨m', hpieces, rfl⟩ := exists_of_map_eq_ok hm
      unfold takeRow
      rw [foldlM_take_behind hb hd hpieces, ← closeLine_behind]
      rfl
    rw [hrow]
    exact ih (hd.takeRow hm) htail

theorem start_behind (hb : b.Closed) (hlast : b.InLastKey) (key : Option Key) :
    (start key).behind b = b := by
  have hindex : b.keys.length - 1 = b.keyIndex := by
    have : b.keyIndex + 1 = b.keys.length := hlast
    omega
  have hbeat : (Quantity.ofInt 0 : Rat) + b.beat = b.beat := zero_add _
  obtain ⟨hmeasure, hline⟩ := hb
  cases b
  subst hmeasure hline
  simpa [behind, start, hbeat] using hindex

end Builder

/-! ### Counting -/

theorem finish_of_getLast? {es : List (Entry Rat)} {p : Entry Rat} (hchain : Chained none es)
    (hlast : es.getLast? = some p) : p.finish = lasts es := by
  cases es with
  | nil => cases hlast
  | cons e es =>
    obtain ⟨⟨hbeat, -⟩, htail⟩ := hchain
    have hp : es.getLast?.getD e = p := by
      rw [List.getLast?_cons] at hlast
      exact Option.some.inj hlast
    have hstart : e.finish = e.duration := by
      show e.beat + e.duration = e.duration
      rw [hbeat]
      exact zero_add _
    rw [← hp, finish_eq_lasts htail, hstart, lasts_cons]

theorem toFinset_of_chained {f : Entry Rat → Nat}
    (hstep : ∀ p e, Follows (some p) e → f e = f p ∨ f e = f p + 1) :
    ∀ {es : List (Entry Rat)} {q : Entry Rat}, Chained (some q) es →
      f q ≤ f (es.getLast?.getD q)
        ∧ ((q :: es).map f).toFinset = Finset.Icc (f q) (f (es.getLast?.getD q)) := by
  intro es
  induction es with
  | nil => intro q _; simp
  | cons e es ih =>
    intro q hchain
    obtain ⟨hfollows, htail⟩ := hchain
    obtain ⟨hle, hset⟩ := ih htail
    rw [List.getLast?_cons, Option.getD_some]
    have hnext := hstep q e hfollows
    refine ⟨by omega, ?_⟩
    rw [List.map_cons, List.toFinset_cons, hset]
    ext n
    rw [Finset.mem_insert, Finset.mem_Icc, Finset.mem_Icc]
    omega

theorem card_toFinset_of_chained {f : Entry Rat → Nat} (hzero : ∀ e, Follows none e → f e = 0)
    (hstep : ∀ p e, Follows (some p) e → f e = f p ∨ f e = f p + 1) {es : List (Entry Rat)}
    {p : Entry Rat} (hchain : Chained none es) (hlast : es.getLast? = some p) :
    (es.map f).toFinset.card = f p + 1 := by
  cases es with
  | nil => cases hlast
  | cons e es =>
    obtain ⟨hfirst, htail⟩ := hchain
    have hp : es.getLast?.getD e = p := by
      rw [List.getLast?_cons] at hlast
      exact Option.some.inj hlast
    rw [(toFinset_of_chained hstep htail).2, hp, hzero e hfirst, Nat.card_Icc]
    rfl

namespace Builder

variable {P : Chord → Prop} {key : Option Key} {b : Builder Rat}

theorem Built.beat_eq_length (h : b.Built P key) : b.beat = b.score.length := by
  have hnext := h.next
  unfold Next at hnext
  split at hnext
  · rename_i hnone
    have hentries : b.score.entries = [] := List.getLast?_eq_none_iff.mp hnone
    unfold Score.length
    rw [hentries]
    exact hnext.1
  · rename_i p hlast
    rw [hnext.1, Score.length_eq_lasts h.chained (lasting_of_made h.made)]
    exact finish_of_getLast? h.chained hlast

theorem Built.measure_eq_measures (h : b.Built P key) (hb : b.Closed) :
    b.measure = b.score.measures ∧ b.line = b.score.lines := by
  have hnext := h.next
  unfold Next at hnext
  split at hnext
  · rename_i hnone
    have hentries : b.score.entries = [] := List.getLast?_eq_none_iff.mp hnone
    unfold Score.measures Score.lines
    rw [hentries]
    exact ⟨hnext.2.1, hnext.2.2.1⟩
  · rename_i p hlast
    obtain ⟨hline, hmeasure⟩ : b.line = p.line + 1 ∧ b.measure = p.measure + 1 := by
      obtain ⟨-, ⟨hopen, -⟩ | ⟨-, -, hplace⟩⟩ := hnext
      · rw [hb.line] at hopen
        cases hopen
      · exact hplace
    unfold Score.measures Score.lines
    refine ⟨hmeasure.trans (card_toFinset_of_chained ?_ ?_ h.chained hlast).symm,
      hline.trans (card_toFinset_of_chained ?_ ?_ h.chained hlast).symm⟩
    · exact fun e he => he.2.1
    · rintro p e ⟨-, ⟨-, hm⟩ | ⟨-, hm⟩⟩
      · exact hm
      · exact .inr hm
    · exact fun e he => he.2.2
    · rintro p e ⟨-, ⟨hl, -⟩ | ⟨hl, -⟩⟩
      · exact .inl hl
      · exact .inr hl

theorem Built.takeRows {table : Table} (hP : table.Reads P) {b' : Builder Rat}
    (h : b.Built P key) {rs : List (List Char)} (hrows : rs.foldlM (takeRow table) b = .ok b') :
    b'.Built P key := by
  refine foldlM_keeps (Built P key) (fun r _ d d' hd hrow => ?_) h hrows
  obtain ⟨m, hm, rfl⟩ := exists_of_map_eq_ok hrow
  exact (foldlM_keeps (Built P key) (fun _ _ _ _ hb hp => hb.take hP hp) hd hm).closeLine

end Builder

/-! ### Texts -/

theorem rows_append (text₁ text₂ : String) :
    rows (text₁ ++ "\n" ++ text₂) = rows text₁ ++ rows text₂ := by
  unfold rows
  rw [String.toList_append, String.toList_append, List.append_assoc]
  exact List.splitOn_append_cons_self _ _

/-- **Two texts one below the other are read as the two scores one behind the
other.** -/
theorem Score.read_joined {table : Table} {key : Option Key} {text₁ text₂ : String}
    {s₁ s₂ : Score Rat} (h₁ : Score.read table key text₁ = .ok s₁)
    (h₂ : Score.read table s₁.lastKey text₂ = .ok s₂) :
    Score.read table key (text₁ ++ "\n" ++ text₂) = .ok (s₁.followedBy s₂) := by
  obtain ⟨b, hb, rfl⟩ := Score.read_iff_rows.mp h₁
  obtain ⟨d, hd, rfl⟩ := Score.read_iff_rows.mp h₂
  have hclosed := Builder.closed_of_takeRows (Builder.closed_start key) hb
  have hbuilt := (Builder.built_start (fun _ => True) key).takeRows (fun _ _ _ => trivial) hb
  have hlast : b.InLastKey :=
    foldlM_keeps Builder.InLastKey (fun _ _ _ _ hd hr => hd.takeRow hr)
      (Builder.inLastKey_start key) hb
  have hsecond := Builder.foldlM_takeRow_behind hlast (Builder.inLastKey_start _) hd
  rw [Builder.start_behind hclosed hlast] at hsecond
  obtain ⟨hmeasure, hline⟩ := hbuilt.measure_eq_measures hclosed
  refine Score.read_iff_rows.mpr ⟨d.behind b, ?_, ?_⟩
  · rw [rows_append, List.foldlM_append, hb]
    exact hsecond
  · unfold Score.followedBy
    rw [← hbuilt.beat_eq_length, ← hmeasure, ← hline]
    rfl

/-- A text that ends in a carriage return, a key and a bar, and one that starts
with a comment and goes on in another key. -/
theorem Score.read_joined_tune : ∃ s₁ s₂ : Score Rat,
    Score.read Table.standard none "I:2 | =\n% @D V7 @G | \r" = .ok s₁
      ∧ Score.read Table.standard s₁.lastKey "# da capo\n\nI @Em %:.5" = .ok s₂
      ∧ Score.read Table.standard none
          ("I:2 | =\n% @D V7 @G | \r" ++ "\n" ++ "# da capo\n\nI @Em %:.5")
        = .ok (s₁.followedBy s₂)
      ∧ (s₁.followedBy s₂).entries.map (fun e => (e.beat, e.measure, e.line, e.keyIndex))
        = [(0, 0, 0, 0), (2, 1, 0, 0), (3, 2, 1, 0), (4, 2, 1, 1), (5, 3, 2, 2), (6, 3, 2, 3)] := by
  have hplaces : ((Score.read (Q := Rat) Table.standard none
      "I:2 | =\n% @D V7 @G | \r").toOption.bind fun s₁ =>
        (Score.read Table.standard s₁.lastKey "# da capo\n\nI @Em %:.5").toOption.map fun s₂ =>
          (s₁.followedBy s₂).entries.map fun e => (e.beat, e.measure, e.line, e.keyIndex))
      = some
        [(0, 0, 0, 0), (2, 1, 0, 0), (3, 2, 1, 0), (4, 2, 1, 1), (5, 3, 2, 2), (6, 3, 2, 3)] := by
    decide +kernel
  obtain ⟨s₁, h₁, hplaces⟩ := Option.bind_eq_some_iff.mp hplaces
  obtain ⟨s₂, h₂, hplaces⟩ := Option.map_eq_some_iff.mp hplaces
  have h₁ := eq_ok_of_toOption h₁
  have h₂ := eq_ok_of_toOption h₂
  exact ⟨s₁, s₂, h₁, h₂, Score.read_joined h₁ h₂, hplaces⟩

end LeadSheet
