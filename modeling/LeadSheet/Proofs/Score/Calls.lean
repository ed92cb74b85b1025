import LeadSheet.Proofs.Score.Growth
import Mathlib.Data.List.Induction

/-!
# Calls on a builder

Whoever holds a builder may call it in any order, and may go on with it after
a call that failed.  `InPlace` is such work: one field is changed after the
other, and nothing is taken back when a fault comes up.

* `Call.inPlace_eq`: **a call that fails has changed nothing**, and any other
  leaves the builder that the operation of the same name makes.
* `Builder.Consistent` is how the fields of a builder hang together.  Every
  call keeps it (`Builder.Consistent.carryOut`), so it is true after any calls
  at all: `Builder.consistent_after`.
-/

namespace LeadSheet

inductive Call (Q : Type) where
  | feed (t : Token Q)
  | closeMeasure
  | closeLine
  | changeKey (k : Option Key)
  | restoreKey (index : Int)

inductive CallFault where
  | read (fault : ReadFault)
  | keyIndex (fault : KeyIndexFault)
deriving DecidableEq

variable {Q : Type}

/-! ### Work in place -/

/-- Work on a builder in place.  What was changed before a fault stays
changed. -/
abbrev InPlace (Q : Type) :=
  EStateM CallFault (Builder Q)

namespace InPlace

def closeMeasure : InPlace Q Unit := do
  if (← get).measureOpen then
    modify fun b => { b with measure := b.measure + 1 }
    modify fun b => { b with measureOpen := false }

def closeLine : InPlace Q Unit := do
  closeMeasure
  if (← get).lineOpen then
    modify fun b => { b with line := b.line + 1 }
    modify fun b => { b with lineOpen := false }

def changeKey (k : Option Key) : InPlace Q Unit := do
  modify fun b => { b with keys := b.keys ++ [k] }
  modify fun b => { b with keyIndex := b.keys.length - 1 }

def restoreKey (index : Int) : InPlace Q Unit := do
  if 0 ≤ index ∧ index < (← get).keys.length then
    modify fun b => { b with keyIndex := index.toNat }
  else throw (.keyIndex ⟨index⟩)

variable [Quantity Q]

def append (content : EntryContent) (duration : Option Q) : InPlace Q Unit := do
  let b ← get
  let e : Entry Q :=
    { content, measure := b.measure, beat := b.beat, duration := duration.getD usualDuration,
      keyIndex := b.keyIndex, line := b.line }
  modify fun b => { b with entries := b.entries ++ [e] }
  modify fun b => { b with beat := e.finish }
  modify fun b => { b with measureOpen := true }
  modify fun b => { b with lineOpen := true }

def feed (t : Token Q) : InPlace Q Unit :=
  match t.content with
  | .sound (.chord c) d => do
    modify fun b => { b with previous := some c }
    append (.chord c) d
  | .sound .again d => do
    match (← get).previous with
    | some c => append (.chord c) d
    | none => throw (.read (.misreading ⟨.nothingToRepeat, t.line, t.column, t.text⟩))
  | .sound .tie d => append .tie d
  | .sound .rest d => append .rest d
  | .key k => changeKey (some k)
  | .bar => closeMeasure
  | .newline => closeLine

end InPlace

/-- What an attempt makes of a builder that it replaces only if it
succeeds. -/
def Builder.replaceBy (b : Builder Q) :
    Except CallFault (Builder Q) → EStateM.Result CallFault (Builder Q) Unit
  | .ok b' => .ok () b'
  | .error f => .error f b

/-- The builder that is left after work in place, whether it failed or not. -/
def leftBehind : EStateM.Result CallFault (Builder Q) Unit → Builder Q
  | .ok _ b => b
  | .error _ b => b

namespace InPlace

theorem closeMeasure_eq (b : Builder Q) : closeMeasure b = b.replaceBy (.ok b.closeMeasure) := by
  unfold Builder.closeMeasure
  by_cases h : b.measureOpen = true
  · rw [if_pos h]
    show (if b.measureOpen = true then _ else _ : InPlace Q Unit) b = _
    rw [if_pos h]
    rfl
  · rw [if_neg h]
    show (if b.measureOpen = true then _ else _ : InPlace Q Unit) b = _
    rw [if_neg h]
    rfl

theorem closeLine_eq (b : Builder Q) : closeLine b = b.replaceBy (.ok b.closeLine) := by
  have hmeasure := closeMeasure_eq b
  unfold Builder.closeLine
  dsimp only
  generalize b.closeMeasure = m at hmeasure
  have hbind : ∀ work : InPlace Q Unit, (closeMeasure >>= fun _ => work) b = work m := by
    intro work
    show EStateM.bind closeMeasure (fun _ => work) b = _
    unfold EStateM.bind
    rw [hmeasure]
    rfl
  show (closeMeasure >>= fun _ => _ : InPlace Q Unit) b = _
  rw [hbind]
  by_cases h : m.lineOpen = true
  · rw [if_pos h]
    show (if m.lineOpen = true then _ else _ : InPlace Q Unit) m = _
    rw [if_pos h]
    rfl
  · rw [if_neg h]
    show (if m.lineOpen = true then _ else _ : InPlace Q Unit) m = _
    rw [if_neg h]
    rfl

theorem changeKey_eq (k : Option Key) (b : Builder Q) :
    changeKey k b = b.replaceBy (.ok (b.changeKey k)) := by
  have hlen : (b.keys ++ [k]).length - 1 = b.keys.length := by simp
  unfold Builder.changeKey
  rw [← hlen]
  rfl

theorem restoreKey_eq (index : Int) (b : Builder Q) :
    restoreKey index b = b.replaceBy ((b.restoreKey index).mapError .keyIndex) := by
  unfold Builder.restoreKey
  by_cases h : 0 ≤ index ∧ index < b.keys.length
  · rw [if_pos h]
    show (if 0 ≤ index ∧ index < b.keys.length then _ else _ : InPlace Q Unit) b = _
    rw [if_pos h]
    rfl
  · rw [if_neg h]
    show (if 0 ≤ index ∧ index < b.keys.length then _ else _ : InPlace Q Unit) b = _
    rw [if_neg h]
    rfl

variable [Quantity Q]

theorem append_eq (content : EntryContent) (d : Option Q) (b : Builder Q) :
    append content d b = b.replaceBy (.ok (b.append content d)) := rfl

theorem feed_eq (t : Token Q) (b : Builder Q) :
    feed t b = b.replaceBy ((b.feed t).mapError .read) := by
  unfold feed Builder.feed
  cases t.content with
  | sound s d =>
    cases s with
    | chord c => rfl
    | rest => exact append_eq _ _ b
    | tie => exact append_eq _ _ b
    | again =>
      show (match b.previous with
        | some c => append (.chord c) d
        | none => throw (.read (.misreading ⟨.nothingToRepeat, t.line, t.column, t.text⟩)) :
          InPlace Q Unit) b = _
      cases b.previous with
      | some c => exact append_eq _ _ b
      | none => rfl
  | key k => exact changeKey_eq (some k) b
  | bar => exact closeMeasure_eq b
  | newline => exact closeLine_eq b

end InPlace

namespace Call

variable [Quantity Q]

def inPlace : Call Q → InPlace Q Unit
  | feed t => InPlace.feed t
  | closeMeasure => InPlace.closeMeasure
  | closeLine => InPlace.closeLine
  | changeKey k => InPlace.changeKey k
  | restoreKey index => InPlace.restoreKey index

def carryOut (b : Builder Q) : Call Q → Except CallFault (Builder Q)
  | feed t => (b.feed t).mapError .read
  | closeMeasure => .ok b.closeMeasure
  | closeLine => .ok b.closeLine
  | changeKey k => .ok (b.changeKey k)
  | restoreKey index => (b.restoreKey index).mapError .keyIndex

/-- **A call that fails has changed nothing.** -/
theorem inPlace_eq (c : Call Q) (b : Builder Q) : c.inPlace b = b.replaceBy (c.carryOut b) := by
  cases c with
  | feed t => exact InPlace.feed_eq t b
  | closeMeasure => exact InPlace.closeMeasure_eq b
  | closeLine => exact InPlace.closeLine_eq b
  | changeKey k => exact InPlace.changeKey_eq k b
  | restoreKey index => exact InPlace.restoreKey_eq index b

end Call

/-! ### How the fields hang together -/

section Last

variable [Quantity Q]

theorem Follows.le {p e : Entry Q} (h : Follows (some p) e) :
    p.measure ≤ e.measure ∧ p.line ≤ e.line := by
  obtain ⟨-, ⟨hline, hmeasure⟩ | ⟨hline, hmeasure⟩⟩ := h <;> omega

theorem le_last_of_chained : ∀ (es : List (Entry Q)) {p : Entry Q}, Chained none es →
    es.getLast? = some p → ∀ e ∈ es, e.measure ≤ p.measure ∧ e.line ≤ p.line := by
  intro es
  induction es using List.reverseRecOn with
  | nil => intro p _ _ e he; cases he
  | append_singleton es d ih =>
    intro p hchain hlast e he
    rw [List.getLast?_concat] at hlast
    obtain rfl := Option.some.inj hlast
    obtain ⟨hchain, hfollows⟩ := (chained_concat es none d).mp hchain
    rcases List.mem_append.mp he with he | he
    · cases hprevious : es.getLast? with
      | none => rw [List.getLast?_eq_none_iff.mp hprevious] at he; cases he
      | some q =>
        rw [hprevious] at hfollows
        have hle := ih hchain hprevious e he
        have hstep := hfollows.le
        omega
    · obtain rfl := List.mem_singleton.mp he
      exact ⟨Nat.le_refl _, Nat.le_refl _⟩

end Last

namespace Builder

variable [Quantity Q]

/-- A builder that could have come from calls. -/
structure Consistent (b : Builder Q) : Prop where
  chained : Chained none b.entries
  /-- The next entry starts where the last one ends. -/
  beat : b.beat = (b.entries.getLast?.map Entry.finish).getD (Quantity.ofInt 0)
  measureOpen : b.measureOpen = true ↔ ∃ e ∈ b.entries, e.measure = b.measure
  lineOpen : b.lineOpen = true ↔ ∃ e ∈ b.entries, e.line = b.line
  lineOpen_of_measureOpen : b.measureOpen = true → b.lineOpen = true
  /-- A key is in effect. -/
  keyIndex : b.keyIndex < b.keys.length
  /-- What is repeated is the last chord there is. -/
  previous : b.previous = b.score.chords.getLast?

/-- A builder whose keys and chord to repeat are as they should be. -/
structure Sourced (b : Builder Q) : Prop where
  keyIndex : b.keyIndex < b.keys.length
  previous : b.previous = b.score.chords.getLast?

variable {b : Builder Q}

theorem Placed.consistent (h : b.Placed) (hs : b.Sourced) : b.Consistent := by
  obtain ⟨hchain, hnext⟩ := h
  have hle := fun p => le_last_of_chained b.entries (p := p) hchain
  unfold Next at hnext
  cases hlast : b.entries.getLast? with
  | none =>
    rw [hlast] at hnext
    obtain ⟨hbeat, -, -, hmeasure, hline⟩ := hnext
    have hnil : b.entries = [] := List.getLast?_eq_none_iff.mp hlast
    refine ⟨hchain, ?_, ?_, ?_, ?_, hs.keyIndex, hs.previous⟩
    · rw [hlast, hbeat]
      rfl
    · simp [hnil, hmeasure]
    · simp [hnil, hline]
    · rw [hmeasure]
      exact fun h => nomatch h
  | some p =>
    have hmem : p ∈ b.entries := List.mem_of_getLast? hlast
    rw [hlast] at hnext
    obtain ⟨hbeat, hplace⟩ := hnext
    refine ⟨hchain, ?_, ?_, ?_, ?_, hs.keyIndex, hs.previous⟩
    · rw [hlast, hbeat]
      rfl
    · constructor
      · -- what is open is that of the last entry, and no entry stands behind that
        intro hopen
        refine ⟨p, hmem, ?_⟩
        rcases hplace with ⟨-, -, ⟨-, hm⟩ | ⟨hclosed, -⟩⟩ | ⟨-, hclosed, -⟩
        · exact hm.symm
        · rw [hopen] at hclosed; cases hclosed
        · rw [hopen] at hclosed; cases hclosed
      · rintro ⟨e, he, hm⟩
        have hbehind := (hle p hlast e he).1
        rcases hplace with ⟨-, -, ⟨hopen, -⟩ | ⟨-, hm'⟩⟩ | ⟨-, -, -, hm'⟩
        · exact hopen
        · omega
        · omega
    · constructor
      · intro hopen
        refine ⟨p, hmem, ?_⟩
        rcases hplace with ⟨-, hl, -⟩ | ⟨hclosed, -⟩
        · exact hl.symm
        · rw [hopen] at hclosed; cases hclosed
      · rintro ⟨e, he, hl⟩
        have hbehind := (hle p hlast e he).2
        rcases hplace with ⟨hopen, -⟩ | ⟨-, -, hl', -⟩
        · exact hopen
        · omega
    · intro hopen
      rcases hplace with ⟨hl, -⟩ | ⟨-, hclosed, -⟩
      · exact hl
      · rw [hopen] at hclosed; cases hclosed

end Builder

/-! ### What a call does -/

theorem Score.getLast?_chords_concat (es : List (Entry Q)) (e : Entry Q)
    (keys : List (Option Key)) :
    (Score.mk (es ++ [e]) keys).chords.getLast?
      = e.chord?.or (Score.mk es keys).chords.getLast? := by
  unfold Score.chords
  dsimp only
  rw [List.filterMap_append]
  cases h : e.chord? with
  | none => simp [h]
  | some c => simp [h]

variable [Quantity Q]

/-- **What a call does**: it leaves the entries and the chord to repeat alone,
or it adds an entry under the key in effect.  A key stays in effect. -/
theorem Call.carryOut_cases {c : Call Q} {b b' : Builder Q} (h : c.carryOut b = .ok b')
    (hkey : b.keyIndex < b.keys.length) :
    b'.keyIndex < b'.keys.length
      ∧ (b'.entries = b.entries ∧ b'.previous = b.previous
        ∨ ∃ e : Entry Q, b'.entries = b.entries ++ [e] ∧ e.keyIndex = b.keyIndex
          ∧ b'.previous = e.chord?.or b.previous) := by
  -- every way to add an entry goes through `append`
  have happend : ∀ (content : EntryContent) (d : Option Q) (previous : Option Chord),
      previous = content.chord?.or b.previous →
      ∃ e : Entry Q, { b.append content d with previous }.entries = b.entries ++ [e]
        ∧ e.keyIndex = b.keyIndex ∧ previous = e.chord?.or b.previous :=
    fun content d previous hprevious => ⟨_, rfl, rfl, hprevious⟩
  have hclose : b.closeMeasure.keyIndex < b.closeMeasure.keys.length := by simpa using hkey
  have hcloseLine : b.closeLine.keyIndex < b.closeLine.keys.length := by simpa using hkey
  have hchange : ∀ k, (b.changeKey k).keyIndex < (b.changeKey k).keys.length := by
    intro k
    simp [Builder.changeKey]
  cases c with
  | feed t =>
    have h := eq_ok_of_mapError h
    unfold Builder.feed at h
    cases hc : t.content with
    | sound s d =>
      rw [hc] at h
      cases s with
      | chord c => cases h; exact ⟨hkey, .inr (happend _ _ _ rfl)⟩
      | rest => cases h; exact ⟨hkey, .inr (happend .rest d _ rfl)⟩
      | tie => cases h; exact ⟨hkey, .inr (happend .tie d _ rfl)⟩
      | again =>
        cases hp : b.previous with
        | none => rw [hp] at h; cases h
        | some c =>
          rw [hp] at h
          cases h
          exact ⟨hkey, .inr ⟨_, rfl, rfl, hp⟩⟩
    | key k => rw [hc] at h; cases h; exact ⟨hchange _, .inl ⟨rfl, rfl⟩⟩
    | bar => rw [hc] at h; cases h; exact ⟨hclose, .inl ⟨by simp, by simp⟩⟩
    | newline => rw [hc] at h; cases h; exact ⟨hcloseLine, .inl ⟨by simp, by simp⟩⟩
  | closeMeasure => cases h; exact ⟨hclose, .inl ⟨by simp, by simp⟩⟩
  | closeLine => cases h; exact ⟨hcloseLine, .inl ⟨by simp, by simp⟩⟩
  | changeKey k => cases h; exact ⟨hchange k, .inl ⟨rfl, rfl⟩⟩
  | restoreKey index =>
    have h := eq_ok_of_mapError h
    unfold Builder.restoreKey at h
    split at h
    · rename_i hindex
      cases h
      refine ⟨?_, .inl ⟨rfl, rfl⟩⟩
      show index.toNat < b.keys.length
      omega
    · cases h

namespace Builder

variable {b b' : Builder Q} {c : Call Q}

theorem Sourced.carryOut (h : b.Sourced) (hb : c.carryOut b = .ok b') : b'.Sourced := by
  obtain ⟨hkey, ⟨hentries, hprevious⟩ | ⟨e, hentries, -, hprevious⟩⟩ :=
    Call.carryOut_cases hb h.keyIndex
  · refine ⟨hkey, ?_⟩
    rw [hprevious, h.previous]
    unfold score Score.chords
    rw [hentries]
  · refine ⟨hkey, ?_⟩
    rw [hprevious, h.previous]
    unfold score
    rw [hentries, Score.getLast?_chords_concat]
    rfl

theorem Placed.feed (h : b.Placed) {t : Token Q} (hb : b.feed t = .ok b') : b'.Placed := by
  unfold Builder.feed at hb
  split at hb
  · rename_i c d _
    cases hb
    have happend := h.append (.chord c) d
    exact ⟨happend.chained, happend.next⟩
  · split at hb
    · cases hb
      exact h.append _ _
    · cases hb
  · cases hb
    exact h.append _ _
  · cases hb
    exact h.append _ _
  · cases hb
    exact ⟨h.chained, h.next⟩
  · cases hb
    exact h.closeMeasure
  · cases hb
    exact h.closeLine

theorem Placed.carryOut (h : b.Placed) (hb : c.carryOut b = .ok b') : b'.Placed := by
  cases c with
  | feed t => exact h.feed (eq_ok_of_mapError hb)
  | closeMeasure => cases hb; exact h.closeMeasure
  | closeLine => cases hb; exact h.closeLine
  | changeKey k => cases hb; exact ⟨h.chained, h.next⟩
  | restoreKey index =>
    have hb := eq_ok_of_mapError hb
    unfold Builder.restoreKey at hb
    split at hb
    · cases hb; exact ⟨h.chained, h.next⟩
    · cases hb

theorem Forward.carryOut (h : b.Forward) (hc : ∀ index, c ≠ .restoreKey index)
    (hb : c.carryOut b = .ok b') : b'.Forward := by
  cases c with
  | feed t => exact h.feed (eq_ok_of_mapError hb)
  | closeMeasure => cases hb; exact h.closeMeasure
  | closeLine => cases hb; exact h.closeLine
  | changeKey k => cases hb; exact h.changeKey k
  | restoreKey index => exact absurd rfl (hc index)

/-! ### Runs -/

/-- The builder after some calls, failed ones among them. -/
def after (b : Builder Q) (calls : List (Call Q)) : Builder Q :=
  calls.foldl (fun b c => leftBehind (c.inPlace b)) b

theorem after_concat (b : Builder Q) (calls : List (Call Q)) (c : Call Q) :
    b.after (calls ++ [c]) = leftBehind (c.inPlace (b.after calls)) := by
  unfold after
  rw [List.foldl_append]
  rfl

theorem leftBehind_inPlace (c : Call Q) (b : Builder Q) :
    (∃ b', c.carryOut b = .ok b' ∧ leftBehind (c.inPlace b) = b')
      ∨ (∃ f, c.carryOut b = .error f) ∧ leftBehind (c.inPlace b) = b := by
  rw [c.inPlace_eq]
  cases c.carryOut b with
  | ok b' => exact .inl ⟨b', rfl, rfl⟩
  | error f => exact .inr ⟨⟨f, rfl⟩, rfl⟩

theorem after_keeps (P : Builder Q → Prop) {b : Builder Q} (hb : P b) (calls : List (Call Q))
    (hstep : ∀ c ∈ calls, ∀ b b', P b → c.carryOut b = .ok b' → P b') : P (b.after calls) := by
  induction calls using List.reverseRecOn with
  | nil => exact hb
  | append_singleton calls c ih =>
    have hP := ih fun d hd => hstep d (List.mem_append_left _ hd)
    rw [after_concat]
    rcases leftBehind_inPlace c (b.after calls) with ⟨b', hok, heq⟩ | ⟨-, heq⟩
    · rw [heq]
      exact hstep c (List.mem_append_right _ (List.mem_singleton.mpr rfl)) _ b' hP hok
    · rw [heq]
      exact hP

theorem sourced_start (key : Option Key) : (Builder.start key : Builder Q).Sourced :=
  ⟨Nat.one_pos, rfl⟩

theorem sourced_after (key : Option Key) (calls : List (Call Q)) :
    ((Builder.start key).after calls).Sourced :=
  after_keeps Sourced (sourced_start key) calls fun _ _ _ _ => Sourced.carryOut

/-- One of some calls added an entry behind others, under a key that was
there. -/
def AddedKeyed (key : Option Key) (calls : List (Call Q)) (es : List (Entry Q)) (e : Entry Q) :
    Prop :=
  ∃ before c rest, calls = before ++ c :: rest
    ∧ ((start key).after before).entries = es
    ∧ ((start key).after (before ++ [c])).entries = es ++ [e]
    ∧ e.keyIndex < ((start key).after before).keys.length

theorem AddedKeyed.concat {key : Option Key} {calls : List (Call Q)} {es : List (Entry Q)}
    {e : Entry Q} (h : AddedKeyed key calls es e) (c : Call Q) :
    AddedKeyed key (calls ++ [c]) es e := by
  obtain ⟨before, c', rest, rfl, hfound⟩ := h
  exact ⟨before, c', rest ++ [c], by simp, hfound⟩

/-- **Every entry was added under a key that was there.** -/
theorem addedKeyed_of_entries_after (key : Option Key) (calls : List (Call Q)) :
    ∀ {es es' : List (Entry Q)} {e : Entry Q},
      ((start key).after calls).entries = es ++ e :: es' → AddedKeyed key calls es e := by
  induction calls using List.reverseRecOn with
  | nil => intro es es' e h; cases es <;> cases h
  | append_singleton calls c ih =>
    intro es es' e h
    have hkey := (sourced_after key calls).keyIndex
    have hconcat := after_concat (start key) calls c
    rcases leftBehind_inPlace c ((start key).after calls) with ⟨b', hok, heq⟩ | ⟨-, heq⟩
    · rw [heq] at hconcat
      obtain ⟨-, ⟨hentries, -⟩ | ⟨d, hentries, hindex, -⟩⟩ := Call.carryOut_cases hok hkey
      · rw [hconcat, hentries] at h
        exact (ih h).concat c
      · rw [hconcat, hentries] at h
        -- the entry looked for is the one just added, or stands in front of it
        rcases List.eq_nil_or_concat es' with rfl | ⟨init, last, rfl⟩
        · obtain ⟨hes, he⟩ := List.append_inj' h rfl
          obtain rfl := List.head_eq_of_cons_eq he
          refine ⟨calls, c, [], rfl, hes, ?_, by rw [hindex]; exact hkey⟩
          rw [hconcat, hentries, hes]
        · have h : ((start key).after calls).entries ++ [d] = (es ++ e :: init) ++ [last] := by
            simpa using h
          exact (ih (List.append_inj' h rfl).1).concat c
    · rw [hconcat, heq] at h
      exact (ih h).concat c

/-- **A builder is consistent after any calls**, failed ones among them: an
entry was always added under a key that was there, keys only go forward unless
one is gone back to, and a call either leaves the builder that it carries out or
fails and leaves the builder as it was. -/
theorem consistent_after (key : Option Key) (calls : List (Call Q)) :
    ((start key).after calls).Consistent
      ∧ (∀ es e es', ((start key).after calls).entries = es ++ e :: es' →
          AddedKeyed key calls es e)
      ∧ ((∀ c ∈ calls, ∀ index, c ≠ .restoreKey index) →
          (((start key).after calls).entries.map Entry.keyIndex).Pairwise (· ≤ ·))
      ∧ ∀ c : Call Q,
          (∃ b, c.carryOut ((start key).after calls) = .ok b
              ∧ c.inPlace ((start key).after calls) = .ok () b)
            ∨ ∃ f, c.carryOut ((start key).after calls) = .error f
              ∧ c.inPlace ((start key).after calls) = .error f ((start key).after calls) := by
  refine ⟨?_, fun es e es' h => addedKeyed_of_entries_after key calls h, fun hcalls => ?_,
    fun c => ?_⟩
  · have hplaced : ((start key).after calls).Placed :=
      after_keeps Placed (Placed.start key) calls fun _ _ _ _ => Placed.carryOut
    exact hplaced.consistent (sourced_after key calls)
  · have hforward : ((start key).after calls).Forward :=
      after_keeps Forward (Forward.start key) calls fun c hc _ _ h => h.carryOut (hcalls c hc)
    exact hforward.ascending
  · rw [c.inPlace_eq]
    cases c.carryOut ((start key).after calls) with
    | ok b => exact .inl ⟨b, rfl, rfl⟩
    | error f => exact .inr ⟨f, rfl, rfl⟩

end Builder

end LeadSheet
