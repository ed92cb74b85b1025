import LeadSheet.Proofs.Playing.Span

/-!
# The timeline divides the time of a score

Read off the entries, a chord sounds from its own beat to the beat of the next
entry that is no tie (`Score.release`), and what is left is silence: rests, and
ties that have nothing to hold on (`Entry.silentAfter`).  `Score.Divided` says
that a timeline is just that.

The timeline looks ahead for ties.  `Player` takes one entry after the other
and remembers whether anything sounds; both come to the same (`foldlM_take`).

* `Score.release_eq`: a chord that is held sounds until it is released.
* `silent_apart`: no chord sounds in a silence.
* `sum_timelineFrom`: sound and silence add up.
* `Score.divided_of_ofTokens`: so the timeline of a score that was built from
  tokens divides its time.
-/

namespace LeadSheet

/-! ### Sound and silence -/

section Sounding

variable {Q : Type}

/-- Whether something sounds on behind some entries: the last of them that is
no tie is a chord. -/
def soundsAfter (before : List (Entry Q)) : Bool :=
  (before.reverse.find? fun e => e.content ≠ .tie).any fun e => e.chord?.isSome

/-- Whether an entry is silent behind some others.  A rest is, and so is a tie
that has nothing to hold on. -/
def Entry.silentAfter (before : List (Entry Q)) (e : Entry Q) : Bool :=
  match e.content with
  | .chord _ => false
  | .rest => true
  | .tie => !soundsAfter before

/-- The silent ones of some entries behind some others. -/
def silences (before : List (Entry Q)) : List (Entry Q) → List (Entry Q)
  | [] => []
  | e :: es =>
    (if e.silentAfter before then [e] else []) ++ silences (before ++ [e]) es

/-- Where what sounds behind some entries ends: at the beat of the next entry
that is no tie, or at the end of the score. -/
def Score.release [Quantity Q] (s : Score Q) (rest : List (Entry Q)) : Q :=
  ((rest.find? fun e => e.content ≠ .tie).map Entry.beat).getD s.length

theorem soundsAfter_concat (before : List (Entry Q)) (e : Entry Q) :
    soundsAfter (before ++ [e]) = match e.content with
      | .chord _ => true
      | .rest => false
      | .tie => soundsAfter before := by
  unfold soundsAfter Entry.chord?
  rw [List.reverse_concat, List.find?_cons]
  cases hc : e.content <;> simp [hc, EntryContent.chord?]

theorem soundsAfter_tie {before : List (Entry Q)} {e : Entry Q} (h : e.content = .tie) :
    soundsAfter (before ++ [e]) = soundsAfter before := by
  rw [soundsAfter_concat, h]

end Sounding

/-! ### One entry after the other -/

section Player

variable {ν Q : Type} [NoteNumber ν] [Quantity Q]

/-- What was placed so far, the notes placed last, and whether they sound
on. -/
structure Player (ν Q : Type) where
  placed : List (TimedChord ν Q) := []
  previous : Option (Voiced ν) := none
  sounding : Bool := false

def lengthenLast (d : Q) (ts : List (TimedChord ν Q)) : List (TimedChord ν Q) :=
  match ts.getLast? with
  | some t => ts.dropLast ++ [{ t with duration := t.duration + d }]
  | none => ts

/-- Takes one entry: a chord is placed, a rest is the end of what sounds, and a
tie lengthens what sounds, if anything does. -/
def Player.take (strategy : Strategy) (octave : ν) (s : Score Q) (p : Player ν Q) (e : Entry Q) :
    Except PlayFault (Player ν Q) :=
  match e.content with
  | .tie =>
    .ok (if p.sounding then { p with placed := lengthenLast e.duration p.placed } else p)
  | .rest => .ok { p with sounding := false }
  | .chord c => do
    let placed ← strategy.voice octave (s.keyOf e) p.previous c
    let voiced ← placed.fit
    pure ⟨p.placed ++ [⟨e.beat, e.duration, voiced⟩], some voiced, true⟩

omit [NoteNumber ν] in
theorem lengthenLast_concat (d : Q) (ts : List (TimedChord ν Q)) (t : TimedChord ν Q) :
    lengthenLast d (ts ++ [t]) = ts ++ [{ t with duration := t.duration + d }] := by
  unfold lengthenLast
  rw [List.getLast?_concat, List.dropLast_concat]

variable {strategy : Strategy} {octave : ν} {s : Score Q}

/-- **Looking ahead for ties comes to the same as lengthening what sounds.** -/
theorem foldlM_take : ∀ (es : List (Entry Q)) (ts : List (TimedChord ν Q))
    (previous : Option (Voiced ν)),
    ((es.foldlM (Player.take strategy octave s) ⟨ts, previous, false⟩).map Player.placed
        = (timelineFrom strategy octave s previous es).map (ts ++ ·))
      ∧ ∀ t : TimedChord ν Q,
        (es.foldlM (Player.take strategy octave s) ⟨ts ++ [t], previous, true⟩).map Player.placed
          = (timelineFrom strategy octave s previous es).map
            fun rest => ts ++ { t with duration := held t.duration es } :: rest := by
  intro es
  induction es with
  | nil =>
    intro ts previous
    refine ⟨?_, fun t => rfl⟩
    show Except.ok ts = .ok (ts ++ [])
    rw [List.append_nil]
  | cons e es ih =>
    intro ts previous
    -- the same chord is placed, whatever was before
    have hchord : ∀ c (ts : List (TimedChord ν Q)) (sounding : Bool), e.content = .chord c →
        ((e :: es).foldlM (Player.take strategy octave s) ⟨ts, previous, sounding⟩).map
            Player.placed
          = (timelineFrom strategy octave s previous (e :: es)).map (ts ++ ·) := by
      intro c ts sounding hc
      rw [List.foldlM_cons, Player.take, timelineFrom]
      simp only [hc]
      cases strategy.voice octave (s.keyOf e) previous c with
      | error f => rfl
      | ok placed =>
        show ((placed.fit >>= _) >>= _ : Except PlayFault (Player ν Q)).map _
          = (placed.fit >>= _ : Except PlayFault _).map _
        cases placed.fit with
        | error f => rfl
        | ok voiced =>
          show (es.foldlM (Player.take strategy octave s)
            ⟨ts ++ [⟨e.beat, e.duration, voiced⟩], some voiced, true⟩).map Player.placed = _
          rw [((ih ts (some voiced)).2 ⟨e.beat, e.duration, voiced⟩)]
          show _ = (timelineFrom strategy octave s (some voiced) es >>= _).map _
          cases timelineFrom strategy octave s (some voiced) es <;> rfl
    cases hc : e.content with
    | chord c =>
      refine ⟨hchord c ts false hc, fun t => ?_⟩
      rw [hchord c (ts ++ [t]) true hc]
      have hheld : held t.duration (e :: es) = t.duration := by rw [held, hc]
      simp only [hheld, List.append_assoc, List.singleton_append]
    | rest =>
      have hnone : e.chord? = none := by rw [Entry.chord?, hc]; rfl
      have hheld : ∀ d, held d (e :: es) = d := fun d => by rw [held, hc]
      rw [timelineFrom_of_silent hnone]
      refine ⟨?_, fun t => ?_⟩
      · rw [List.foldlM_cons, Player.take, hc]
        exact (ih ts previous).1
      · rw [List.foldlM_cons, Player.take, hc, hheld]
        have hrest := (ih (ts ++ [t]) previous).1
        simp only [List.append_assoc, List.singleton_append] at hrest
        exact hrest
    | tie =>
      have hnone : e.chord? = none := by rw [Entry.chord?, hc]; rfl
      have hheld : ∀ d, held d (e :: es) = held (d + e.duration) es := fun d => by rw [held, hc]
      rw [timelineFrom_of_silent hnone]
      refine ⟨?_, fun t => ?_⟩
      · rw [List.foldlM_cons, Player.take, hc]
        exact (ih ts previous).1
      · rw [List.foldlM_cons, Player.take, hc, hheld]
        simp only [if_true, lengthenLast_concat]
        exact (ih ts previous).2 { t with duration := t.duration + e.duration }

end Player

/-! ### Times -/

def lasts (es : List (Entry Rat)) : Rat :=
  (es.map Entry.duration).sum

@[simp] theorem lasts_cons (e : Entry Rat) (es : List (Entry Rat)) :
    lasts (e :: es) = e.duration + lasts es := by
  simp [lasts]

@[simp] theorem lasts_append (es ds : List (Entry Rat)) :
    lasts (es ++ ds) = lasts es + lasts ds := by
  simp [lasts]

theorem held_eq : ∀ (es : List (Entry Rat)) (d : Rat), held d es = d + held 0 es := by
  intro es
  induction es with
  | nil => intro d; exact (add_zero d).symm
  | cons e es ih =>
    intro d
    unfold held
    cases e.content with
    | chord c => exact (add_zero d).symm
    | rest => exact (add_zero d).symm
    | tie =>
      show held (d + e.duration) es = d + held (0 + e.duration) es
      rw [ih (d + e.duration), ih (0 + e.duration)]
      ring

theorem held_tie {e : Entry Rat} (h : e.content = .tie) (es : List (Entry Rat)) :
    held 0 (e :: es) = e.duration + held 0 es := by
  have hheld : held 0 (e :: es) = held (0 + e.duration) es := by rw [held, h]
  rw [hheld, held_eq]
  ring

theorem held_of_ne_tie {e : Entry Rat} (h : e.content ≠ .tie) (es : List (Entry Rat)) :
    held 0 (e :: es) = 0 := by
  unfold held
  cases hc : e.content with
  | chord c => rfl
  | rest => rfl
  | tie => exact absurd hc h

theorem finish_eq_lasts : ∀ {es : List (Entry Rat)} {p : Entry Rat}, Chained (some p) es →
    (es.getLast?.getD p).finish = p.finish + lasts es := by
  intro es
  induction es with
  | nil => intro p _; exact (add_zero _).symm
  | cons e es ih =>
    intro p hchain
    obtain ⟨⟨hbeat, -⟩, hchain⟩ := hchain
    have hlast : (e :: es).getLast?.getD p = es.getLast?.getD e := by
      rw [List.getLast?_cons]
      rfl
    rw [hlast, ih hchain, lasts_cons, ← add_assoc, ← hbeat]
    rfl

theorem chained_behind {p : Option (Entry Rat)} {before rest : List (Entry Rat)} {e : Entry Rat}
    (h : Chained p (before ++ e :: rest)) : Chained (some e) rest :=
  ((chained_append before p (e :: rest)).mp h).2.2

theorem finish_le_beat : ∀ {es : List (Entry Rat)} {p : Entry Rat}, Chained (some p) es →
    Lasting es → ∀ e ∈ es, p.finish ≤ e.beat := by
  intro es
  induction es with
  | nil => intro p _ _ e he; cases he
  | cons d es ih =>
    intro p hchain hlasting e he
    obtain ⟨⟨hbeat, -⟩, hchain⟩ := hchain
    rcases List.mem_cons.mp he with rfl | he
    · exact le_of_eq hbeat.symm
    · have hd : d.beat ≤ d.finish := Entry.beat_le_finish (hlasting d (List.mem_cons_self ..))
      rw [← hbeat]
      exact le_trans hd (ih hchain hlasting.tail e he)

theorem Score.length_eq_lasts {s : Score Rat} (hchain : Chained none s.entries)
    (hlasting : Lasting s.entries) : s.length = lasts s.entries := by
  have hlater : ∀ {es : List (Entry Rat)} {p : Entry Rat}, Chained (some p) es → Lasting es →
      (es.map Entry.finish).foldl later p.finish = p.finish + lasts es := by
    intro es
    induction es with
    | nil => intro p _ _; exact (add_zero _).symm
    | cons e es ih =>
      intro p hchain hlasting
      obtain ⟨⟨hbeat, -⟩, hchain⟩ := hchain
      have hle : p.finish ≤ e.finish := by
        rw [← hbeat]
        exact Entry.beat_le_finish (hlasting e (List.mem_cons_self ..))
      have hstep : later p.finish e.finish = e.finish := by
        unfold later
        split
        · rfl
        · rename_i hless
          exact le_antisymm hle (not_lt.mp fun hlt => hless (decide_eq_true hlt))
      rw [List.map_cons, List.foldl_cons, hstep, ih hchain hlasting.tail, lasts_cons, ← add_assoc,
        ← hbeat]
      rfl
  unfold Score.length
  cases hes : s.entries with
  | nil => rfl
  | cons e es =>
    rw [hes] at hchain hlasting
    obtain ⟨⟨hbeat, -⟩, hchain⟩ := hchain
    have hstart : e.finish = e.duration := by
      show e.beat + e.duration = e.duration
      rw [hbeat]
      exact zero_add _
    show (es.map Entry.finish).foldl later e.finish = _
    rw [hlater hchain hlasting.tail, lasts_cons, hstart]

/-- What sounds behind an entry sounds up to the next entry that is no tie, or
to the end. -/
theorem finish_add_held : ∀ {es : List (Entry Rat)} {p : Entry Rat}, Chained (some p) es →
    p.finish + held 0 es
      = ((es.find? fun e => e.content ≠ .tie).map Entry.beat).getD (p.finish + lasts es) := by
  intro es
  induction es with
  | nil => intro p _; rfl
  | cons e es ih =>
    intro p hchain
    obtain ⟨⟨hbeat, -⟩, hchain⟩ := hchain
    by_cases htie : e.content = .tie
    · have hfind : (e :: es).find? (fun e => e.content ≠ .tie)
          = es.find? fun e => e.content ≠ .tie := by
        rw [List.find?_cons_of_neg (by simp [htie])]
      have hfinish : p.finish + e.duration = e.finish := by
        rw [← hbeat]
        rfl
      rw [hfind, held_tie htie, lasts_cons, ← add_assoc, ← add_assoc, hfinish, ih hchain]
    · rw [List.find?_cons_of_pos (by simpa using htie), held_of_ne_tie htie, add_zero]
      exact hbeat.symm

variable {s : Score Rat} {before rest : List (Entry Rat)} {e : Entry Rat}

/-- **A chord that is held sounds until it is released.** -/
theorem Score.release_eq (hchain : Chained none s.entries) (hlasting : Lasting s.entries)
    (hs : s.entries = before ++ e :: rest) : e.beat + held e.duration rest = s.release rest := by
  rw [hs] at hchain
  obtain ⟨hbefore, hfollows, hrest⟩ := (chained_append _ _ _).mp hchain
  have hbeat : e.beat = lasts before := by
    cases before with
    | nil => exact hfollows.1
    | cons b before =>
      obtain ⟨⟨hstart, -⟩, hbefore⟩ := hbefore
      have hlast : (b :: before).getLast?.or none = some (before.getLast?.getD b) := by
        rw [List.getLast?_cons]
        rfl
      rw [hlast] at hfollows
      rw [hfollows.1, finish_eq_lasts hbefore, lasts_cons]
      show b.beat + b.duration + lasts before = _
      rw [hstart]
      exact congrArg (· + lasts before) (zero_add _)
  have hend : e.finish + lasts rest = s.length := by
    rw [Score.length_eq_lasts (hs ▸ hchain) hlasting, hs, lasts_append, lasts_cons, ← hbeat,
      ← add_assoc]
    rfl
  have hheld : e.beat + held e.duration rest = e.finish + held 0 rest := by
    rw [held_eq rest, ← add_assoc]
    rfl
  rw [hheld, finish_add_held hrest, hend]
  rfl

/-! ### Chords and silences -/

section Placing

variable {strategy : Strategy} {octave : Int}

theorem held_le_beat : ∀ {gap : List (Entry Rat)} {before : List (Entry Rat)} {p d : Entry Rat}
    {rest : List (Entry Rat)}, Chained (some p) (gap ++ d :: rest) → Lasting (gap ++ d :: rest) →
    soundsAfter before = true → d.silentAfter (before ++ gap) = true →
    p.finish + held 0 (gap ++ d :: rest) ≤ d.beat := by
  intro gap
  induction gap with
  | nil =>
    intro before p d rest hchain _ hsounds hsilent
    obtain ⟨⟨hbeat, -⟩, -⟩ := hchain
    have hrest : d.content ≠ .tie := by
      intro htie
      rw [List.append_nil, Entry.silentAfter, htie] at hsilent
      dsimp only at hsilent
      rw [hsounds] at hsilent
      cases hsilent
    rw [List.nil_append, held_of_ne_tie hrest, add_zero]
    exact le_of_eq hbeat.symm
  | cons m gap ih =>
    intro before p d rest hchain hlasting hsounds hsilent
    by_cases htie : m.content = .tie
    · obtain ⟨⟨hbeat, -⟩, hchain⟩ := hchain
      have hfinish : p.finish + m.duration = m.finish := by
        rw [← hbeat]
        rfl
      have hstill : soundsAfter (before ++ [m]) = true := (soundsAfter_tie htie).trans hsounds
      rw [List.cons_append, held_tie htie, ← add_assoc, hfinish]
      refine ih hchain hlasting.tail hstill ?_
      rwa [List.append_assoc, List.singleton_append]
    · rw [List.cons_append, held_of_ne_tie htie, add_zero]
      exact finish_le_beat hchain hlasting d (List.mem_append_right _ (List.mem_cons_self ..))

theorem exists_split_of_mem : ∀ {es : List (Entry Rat)} {previous : Option (Voiced Int)}
    {ts : List (TimedChord Int Rat)}, timelineFrom strategy octave s previous es = .ok ts →
    ∀ t ∈ ts, ∃ before e rest c, es = before ++ e :: rest ∧ e.content = .chord c
      ∧ t.start = e.beat ∧ t.duration = held e.duration rest := by
  intro es
  induction es with
  | nil => intro previous ts h t ht; cases h; cases ht
  | cons e es ih =>
    intro previous ts h t ht
    have hlater : ∀ {previous : Option (Voiced Int)} {ts : List (TimedChord Int Rat)},
        timelineFrom strategy octave s previous es = .ok ts → t ∈ ts →
        ∃ before d rest c, e :: es = before ++ d :: rest ∧ d.content = .chord c
          ∧ t.start = d.beat ∧ t.duration = held d.duration rest := by
      intro previous ts h ht
      obtain ⟨before, d, rest, c, hes, hplace⟩ := ih h t ht
      exact ⟨e :: before, d, rest, c, by rw [hes, List.cons_append], hplace⟩
    rcases timelineFrom_cons h with ⟨-, hrest⟩ | ⟨c, voiced, ts', hc, -, hrest, rfl⟩
    · exact hlater hrest ht
    · rcases List.mem_cons.mp ht with rfl | ht
      · exact ⟨[], e, es, c, rfl, hc, rfl, rfl⟩
      · exact hlater hrest ht

/-- **No chord sounds in a silence.** -/
theorem silent_apart {ts : List (TimedChord Int Rat)} {d : Entry Rat}
    (hchain : Chained none s.entries) (hlasting : Lasting s.entries)
    (hts : timelineFrom strategy octave s none s.entries = .ok ts)
    (hs : s.entries = before ++ d :: rest) (hd : d.silentAfter before = true) :
    ∀ t ∈ ts, t.finish ≤ d.beat ∨ d.finish ≤ t.start := by
  intro t ht
  obtain ⟨before', e, rest', c, hs', hc, hstart, hduration⟩ := exists_split_of_mem hts t ht
  have hchord : e ≠ d := by
    rintro rfl
    rw [Entry.silentAfter, hc] at hd
    cases hd
  have hchain' : Chained (some e) rest' := chained_behind (hs' ▸ hchain)
  have hlasting' : Lasting rest' := fun b hb =>
    hlasting b (hs' ▸ List.mem_append_right _ (List.mem_cons_of_mem e hb))
  rcases List.append_eq_append_iff.mp (hs'.symm.trans hs) with ⟨gap, hb, hr⟩ | ⟨gap, hb, hr⟩
  · -- the chord stands in front of the silence
    rcases List.cons_eq_append_iff.mp hr with ⟨-, hr⟩ | ⟨gap, rfl, rfl⟩
    · exact absurd (List.cons.inj hr).1.symm hchord
    · have hsounds : soundsAfter (before' ++ [e]) = true := by rw [soundsAfter_concat, hc]
      have hsilent : d.silentAfter ((before' ++ [e]) ++ gap) = true := by
        rwa [List.append_assoc, List.singleton_append, ← hb]
      have hheld := held_le_beat hchain' hlasting' hsounds hsilent
      left
      show t.start + t.duration ≤ d.beat
      rw [hstart, hduration, held_eq, ← add_assoc]
      exact hheld
  · -- it stands behind it
    rcases List.cons_eq_append_iff.mp hr with ⟨-, hr⟩ | ⟨gap, rfl, rfl⟩
    · exact absurd (List.cons.inj hr).1 hchord
    · have hafter : Chained (some d) (gap ++ e :: rest') := chained_behind (hs ▸ hchain)
      have hlast : Lasting (gap ++ e :: rest') := fun b hb =>
        hlasting b (hs ▸ List.mem_append_right _ (List.mem_cons_of_mem d hb))
      right
      rw [hstart]
      exact finish_le_beat hafter hlast e (List.mem_append_right _ (List.mem_cons_self ..))

/-- **Sound and silence add up.**  What sounds on behind the entries before is
counted with them. -/
theorem sum_timelineFrom : ∀ {es : List (Entry Rat)} (before : List (Entry Rat))
    {previous : Option (Voiced Int)} {ts : List (TimedChord Int Rat)},
    timelineFrom strategy octave s previous es = .ok ts →
    (ts.map TimedChord.duration).sum + lasts (silences before es)
      + (if soundsAfter before then held 0 es else 0) = lasts es := by
  intro es
  induction es with
  | nil =>
    intro before previous ts h
    cases h
    simp [silences, lasts, held]
  | cons e es ih =>
    intro before previous ts h
    have hsilences : ∀ silent, e.silentAfter before = silent →
        silences before (e :: es)
          = (if silent then [e] else []) ++ silences (before ++ [e]) es := by
      rintro silent rfl
      rfl
    -- what `e` lasts goes to the sound or to the silence; a tie goes where what is before it went
    cases hc : e.content with
    | chord c =>
      obtain ⟨placed, voiced, rest, -, -, hrest, rfl⟩ := timelineFrom_of_chord hc h
      have hih := ih (before ++ [e]) hrest
      rw [soundsAfter_concat, hc] at hih
      rw [hsilences false (by rw [Entry.silentAfter, hc]),
        held_of_ne_tie (by rw [hc]; simp), List.map_cons, List.sum_cons, lasts_cons]
      show held e.duration es + _ + lasts (silences (before ++ [e]) es) + _ = _
      rw [held_eq, ← hih]
      simp only [if_true, ite_self]
      ring
    | rest =>
      have hnone : e.chord? = none := by rw [Entry.chord?, hc]; rfl
      rw [timelineFrom_of_silent hnone] at h
      have hih := ih (before ++ [e]) h
      rw [soundsAfter_concat, hc] at hih
      rw [hsilences true (by rw [Entry.silentAfter, hc]),
        held_of_ne_tie (by rw [hc]; simp), lasts_append, lasts_cons, ← hih]
      simp only [if_true, ite_self, lasts, List.map_cons, List.map_nil, List.sum_cons, List.sum_nil]
      simp
      ring
    | tie =>
      have hnone : e.chord? = none := by rw [Entry.chord?, hc]; rfl
      rw [timelineFrom_of_silent hnone] at h
      have hih := ih (before ++ [e]) h
      rw [soundsAfter_tie hc] at hih
      rw [held_tie hc, lasts_cons, ← hih]
      cases hsounds : soundsAfter before with
      | true =>
        rw [hsilences false (by rw [Entry.silentAfter, hc]; simp [hsounds])]
        simp
        ring
      | false =>
        rw [hsilences true (by rw [Entry.silentAfter, hc]; simp [hsounds])]
        simp
        ring

theorem length_timelineFrom : ∀ {es : List (Entry Rat)} {previous : Option (Voiced Int)}
    {ts : List (TimedChord Int Rat)}, timelineFrom strategy octave s previous es = .ok ts →
    ts.length = (es.filterMap Entry.chord?).length := by
  intro es
  induction es with
  | nil => intro previous ts h; cases h; rfl
  | cons e es ih =>
    intro previous ts h
    rcases timelineFrom_cons h with ⟨hnone, hrest⟩ | ⟨c, voiced, rest, hc, -, hrest, rfl⟩
    · rw [List.filterMap_cons_none hnone, ih hrest]
    · rw [List.filterMap_cons_some (Entry.chord?_eq_some_iff.mpr hc), List.length_cons,
        List.length_cons, ih hrest]

theorem getElem?_timelineFrom {e : Entry Rat} {rest : List (Entry Rat)} {c : Chord}
    (hc : e.content = .chord c) : ∀ {before : List (Entry Rat)} {previous : Option (Voiced Int)}
    {ts : List (TimedChord Int Rat)},
    timelineFrom strategy octave s previous (before ++ e :: rest) = .ok ts →
    ∃ placed voiced,
      strategy.voice octave (s.keyOf e)
          (((ts.take (before.filterMap Entry.chord?).length).getLast?.map
            TimedChord.voiced).or previous) c = .ok placed
        ∧ placed.fit = .ok voiced
        ∧ ts[(before.filterMap Entry.chord?).length]?
          = some ⟨e.beat, held e.duration rest, voiced⟩ := by
  intro before
  induction before with
  | nil =>
    intro previous ts h
    obtain ⟨placed, voiced, ts', hplaced, hfit, -, rfl⟩ := timelineFrom_of_chord hc h
    exact ⟨placed, voiced, hplaced, hfit, rfl⟩
  | cons b before ih =>
    intro previous ts h
    rw [List.cons_append] at h
    rcases timelineFrom_cons h with ⟨hnone, hrest⟩ | ⟨c', v, ts', hc', -, hrest, rfl⟩
    · rw [List.filterMap_cons_none hnone]
      exact ih hrest
    · obtain ⟨placed, voiced, hplaced, hfit, hget⟩ := ih hrest
      rw [List.filterMap_cons_some (Entry.chord?_eq_some_iff.mpr hc'), List.length_cons]
      refine ⟨placed, voiced, ?_, hfit, hget⟩
      rw [← hplaced, List.take_succ_cons, List.getLast?_cons]
      cases (ts'.take (before.filterMap Entry.chord?).length).getLast? <;> rfl

end Placing

/-! ### Scores -/

/-- A token as a word at some place or a score text gives it, whatever the
table. -/
def Token.Producible {Q : Type} [Quantity Q] (t : Token Q) : Prop :=
  (∃ table source, Token.read table source = .ok t)
    ∨ ∃ table text ts, tokenize table text = .ok ts ∧ t ∈ ts

theorem Token.Producible.made {Q : Type} [Quantity Q] {t : Token Q} (h : t.Producible) :
    t.content.Made fun _ => True := by
  have hword : ∀ {table : Table} {source : Source}, Token.read table source = .ok t →
      t.content.Made fun _ => True :=
    Token.made_of_read fun _ _ _ => trivial
  rcases h with ⟨table, source, ht⟩ | ⟨table, text, ts, hts, ht⟩
  · exact hword ht
  · obtain ⟨l, -, hl⟩ := exists_of_mem_mapM hts ht
    cases l with
    | word source => exact hword hl
    | bar line column => cases hl; trivial
    | newline line column => cases hl; trivial

namespace Score

/-- How a timeline divides the time of a score. -/
structure Divided (strategy : Strategy) (octave : Int) (s : Score Rat)
    (ts : List (TimedChord Int Rat)) : Prop where
  count : ts.length = s.chords.length
  /-- The chord of an entry is voiced behind the one before it in the timeline.
  It starts with its entry and ends with the next entry that is no tie. -/
  placed : ∀ before e rest c, s.entries = before ++ e :: rest → e.content = .chord c →
    ∃ t placed, ts[(before.filterMap Entry.chord?).length]? = some t
      ∧ strategy.voice octave (s.keyOf e)
          ((ts.take (before.filterMap Entry.chord?).length).getLast?.map TimedChord.voiced) c
        = .ok placed
      ∧ placed.fit = .ok t.voiced
      ∧ t.start = e.beat ∧ t.finish = s.release rest
  spaced : Spaced ts
  /-- Nothing sounds in a rest or in a tie that holds nothing on. -/
  silent : ∀ before d rest, s.entries = before ++ d :: rest → d.silentAfter before = true →
    ∀ t ∈ ts, t.finish ≤ d.beat ∨ d.finish ≤ t.start
  total : (ts.map TimedChord.duration).sum + lasts (silences [] s.entries) = s.length

theorem divided_of_timelineFrom {strategy : Strategy} {octave : Int} {s : Score Rat}
    {ts : List (TimedChord Int Rat)} (hchain : Chained none s.entries)
    (hlasting : Lasting s.entries)
    (hts : timelineFrom strategy octave s none s.entries = .ok ts) :
    s.Divided strategy octave ts where
  count := length_timelineFrom hts
  placed before e rest c hs hc := by
    rw [hs] at hts
    obtain ⟨placed, voiced, hplaced, hfit, hget⟩ := getElem?_timelineFrom hc hts
    rw [Option.or_none] at hplaced
    exact ⟨_, placed, hget, hplaced, hfit, rfl, release_eq hchain hlasting hs⟩
  spaced := spaced_timelineFrom hchain hlasting hts
  silent before d rest hs hd := silent_apart hchain hlasting hts hs hd
  total := by
    rw [length_eq_lasts hchain hlasting, ← sum_timelineFrom [] hts]
    exact (add_zero _).symm

/-- **The timeline divides the time of a score.**  It is what comes out when
chords are placed, lengthened and ended entry by entry. -/
theorem divided_of_ofTokens {key : Option Key} {tokens : List (Token Rat)} {s : Score Rat}
    {settings : Settings Rat} {octave : Number Rat} {n : Int}
    {ts : List (TimedChord (Number Rat) Rat)} (htokens : ∀ t ∈ tokens, t.Producible)
    (hs : Score.ofTokens key tokens = .ok s) (hoctave : settings.octave = .number octave)
    (hn : octave.asInt? = some n) (hts : timeline settings s = .ok ts) :
    ∃ ts' : List (TimedChord Int Rat), ts = ts'.map (TimedChord.map .whole)
      ∧ s.Divided settings.voicing n ts'
      ∧ (s.entries.foldlM (Player.take settings.voicing n s) {}).map Player.placed = .ok ts' := by
  have hmade : s.Made (fun _ => True) key :=
    made_of_ofTokens (fun t ht => (htokens t ht).made) hs
  unfold timeline at hts
  rw [hoctave] at hts
  dsimp only at hts
  rw [hn] at hts
  obtain ⟨ts', hts', rfl⟩ := exists_of_map_eq_ok hts
  refine ⟨ts', rfl, divided_of_timelineFrom hmade.chained (lasting_of_made hmade.entries) hts', ?_⟩
  rw [(foldlM_take s.entries [] none).1, hts']
  rfl

/-- A tune that starts with a tie and has one behind a rest. -/
theorem divided_of_ofTokens_tune :
    ∃ (tokens : List (Token Rat)) (s : Score Rat) (ts : List (TimedChord (Number Rat) Rat)),
      tokenize Table.standard "= C:2 = | _ = @G V:0.5 %" = .ok tokens
        ∧ (∀ t ∈ tokens, t.Producible) ∧ Score.ofTokens none tokens = .ok s
        ∧ timeline Settings.standard s = .ok ts
        ∧ ts.map (fun t => (t.start, t.duration)) = [(1, 3), (6, 1 / 2), (13 / 2, 1)]
        ∧ ∃ ts' : List (TimedChord Int Rat), ts = ts'.map (TimedChord.map .whole)
          ∧ s.Divided .close 4 ts'
          ∧ (s.entries.foldlM (Player.take .close (4 : Int) s) {}).map Player.placed
            = .ok ts' := by
  have htimes : ((tokenize (Q := Rat) Table.standard "= C:2 = | _ = @G V:0.5 %").toOption.bind
      fun tokens => (Score.ofTokens none tokens).toOption.bind fun s =>
        (timeline Settings.standard s).toOption).map
          (fun ts => ts.map fun t => (t.start, t.duration))
      = some [(1, 3), (6, 1 / 2), (13 / 2, 1)] := by
    decide +kernel
  obtain ⟨ts, hfound, htimes⟩ := Option.map_eq_some_iff.mp htimes
  obtain ⟨tokens, htokens, hfound⟩ := Option.bind_eq_some_iff.mp hfound
  obtain ⟨s, hs, hts⟩ := Option.bind_eq_some_iff.mp hfound
  have htokens := eq_ok_of_toOption htokens
  have hs := eq_ok_of_toOption hs
  have hts := eq_ok_of_toOption hts
  have hproducible : ∀ t ∈ tokens, t.Producible := fun t ht => .inr ⟨_, _, tokens, htokens, ht⟩
  exact ⟨tokens, s, ts, htokens, hproducible, hs, hts, htimes,
    divided_of_ofTokens hproducible hs rfl rfl hts⟩

end Score

end LeadSheet
