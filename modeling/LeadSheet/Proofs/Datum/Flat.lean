import LeadSheet.Datum.Score
import LeadSheet.Number.Quantity
import LeadSheet.Proofs.Reading.Piece
import LeadSheet.Proofs.Text.Ends
import LeadSheet.Quality.Standard
import Mathlib.Data.List.Infix

/-!
# One score in two notations

A row of measures, each a row of words, can be written between bars
(`barred`) and as a datum (`bracketed`).  Words that both notations cut alike
are `IsFlatWord`s.  The two readers go different ways: one cuts and reads all
words before it builds anything and closes the line at its end, the other
builds while it reads and closes every measure.

Both come to `takeMeasures`, which takes the words of one measure after the
other: `foldlM_textPieces_barred` for the bars, `foldlM_steps` for the datum.
So they read the same score or none (`readDatum_bracketed_eq_ok_iff`).
-/

namespace LeadSheet

open Text

/-- A word that stands for itself in both notations. -/
structure IsFlatWord (w : List Char) : Prop where
  ne_nil : w ≠ []
  blank : ∀ c ∈ w, isBlank c = false
  special : ∀ c ∈ w, c ≠ '(' ∧ c ≠ ')' ∧ c ≠ ';' ∧ c ≠ '|'
  /-- No bracket is closed before it is opened. -/
  opened : ∀ p ∈ w.inits, p.count ']' ≤ p.count '['
  /-- Every bracket is closed. -/
  closed : w.count '[' = w.count ']'
  music : w ≠ ['#']

instance (w : List Char) : Decidable (IsFlatWord w) :=
  decidable_of_iff (w ≠ []
      ∧ (w.all fun c => decide (isBlank c = false ∧ c ≠ '(' ∧ c ≠ ')' ∧ c ≠ ';' ∧ c ≠ '|'))
      ∧ (w.inits.all fun p => decide (p.count ']' ≤ p.count '['))
      ∧ w.count '[' = w.count ']' ∧ w ≠ ['#'])
    ⟨fun ⟨h₁, h₂, h₃, h₄, h₅⟩ => ⟨h₁, fun c hc => (forall_mem_of_all h₂ c hc).1,
        fun c hc => (forall_mem_of_all h₂ c hc).2, forall_mem_of_all h₃, h₄, h₅⟩,
     fun ⟨h₁, h₂, h₃, h₄, h₅, h₆⟩ => ⟨h₁,
        List.all_eq_true.mpr fun c hc => decide_eq_true ⟨h₂ c hc, h₃ c hc⟩,
        List.all_eq_true.mpr fun p hp => decide_eq_true (h₄ p hp), h₅, h₆⟩⟩

def barred (measures : List (List String)) : String :=
  " | ".intercalate (measures.map " ".intercalate)

def bracketed (measures : List (List String)) : String :=
  "(score" ++ String.join (measures.map fun m => " (" ++ " ".intercalate m ++ ")") ++ ")"

/-! ### Words -/

/-- The depth behind a text in which only square brackets count, as long as
none is closed before it is opened. -/
theorem foldl_depthAfter : ∀ (w : List Char) (depth : Nat),
    (∀ c ∈ w, c ≠ '(' ∧ c ≠ ')') → (∀ p ∈ w.inits, p.count ']' ≤ depth + p.count '[') →
    w.foldl depthAfter depth + w.count ']' = depth + w.count '[' := by
  intro w
  induction w with
  | nil => intro depth _ _; rfl
  | cons c w ih =>
    intro depth hc ho
    obtain ⟨h₁, h₂⟩ := hc c (List.mem_cons_self ..)
    have hrest : ∀ d ∈ w, d ≠ '(' ∧ d ≠ ')' := fun d hd => hc d (List.mem_cons_of_mem c hd)
    have hinits : ∀ p ∈ w.inits, (c :: p).count ']' ≤ depth + (c :: p).count '[' := by
      intro p hp
      refine ho (c :: p) ?_
      rw [List.inits_cons]
      exact List.mem_cons_of_mem _ (List.mem_map_of_mem hp)
    rw [List.foldl_cons]
    -- only a closing bracket asks for something: it must not be closed at depth zero
    by_cases hopen : c = '['
    · subst hopen
      have hd : depthAfter depth '[' = depth + 1 := by simp [depthAfter]
      have hih := ih (depth + 1) hrest fun p hp => by
        have := hinits p hp
        simp only [List.count_cons_self, List.count_cons_of_ne (show '[' ≠ ']' by decide)] at this
        omega
      rw [hd, List.count_cons_self, List.count_cons_of_ne (by decide)]
      omega
    · by_cases hclose : c = ']'
      · subst hclose
        have hd : depthAfter depth ']' = depth - 1 := by simp [depthAfter]
        have hpos : 1 ≤ depth := by
          have := hinits [] (by simp)
          simpa using this
        have hih := ih (depth - 1) hrest fun p hp => by
          have := hinits p hp
          simp only [List.count_cons_self, List.count_cons_of_ne (show ']' ≠ '[' by decide)] at this
          omega
        rw [hd, List.count_cons_self, List.count_cons_of_ne (by decide)]
        omega
      · have hd : depthAfter depth c = depth := by simp [depthAfter, h₁, h₂, hopen, hclose]
        have hih := ih depth hrest fun p hp => by
          have := hinits p hp
          simpa only [List.count_cons_of_ne hopen, List.count_cons_of_ne hclose] using this
        rw [hd, List.count_cons_of_ne hclose, List.count_cons_of_ne hopen]
        exact hih

theorem IsFlatWord.isWord {w : List Char} (h : IsFlatWord w) : IsWord w where
  ne_nil := h.ne_nil
  blank := h.blank
  bar hm := (h.special _ hm).2.2.2 rfl
  closed := by
    have hd := foldl_depthAfter w 0 (fun c hc => ⟨(h.special c hc).1, (h.special c hc).2.1⟩)
      fun p hp => by have := h.opened p hp; omega
    have := h.closed
    omega
  music := h.music

theorem IsFlatWord.endsAtom {w : List Char} (h : IsFlatWord w) :
    ∀ c ∈ w, (!endsAtom c) = true := by
  intro c hc
  obtain ⟨h₁, h₂, h₃, -⟩ := h.special c hc
  simp [LeadSheet.endsAtom, h.blank c hc, h₁, h₂, h₃]

/-! ### Between bars -/

section Bars

variable {Q : Type} [Quantity Q]

/-- Takes the words of measures and closes each measure behind them. -/
def takeMeasures (table : Table) (b : Builder Q) :
    List (List (List Char)) → Except ReadFault (Builder Q)
  | [] => .ok b
  | m :: ms => do
    let b ← (m.map Piece.word).foldlM (Builder.take table) b
    takeMeasures table b.closeMeasure ms

theorem textPieces_words : ∀ (ws : List (List Char)) (started : Bool) (cs : List Char),
    (∀ w ∈ ws, IsWord w) → AtGap cs →
    textPieces started ([' '].intercalate ws ++ cs)
      = ws.map Piece.word ++ textPieces (started || !ws.isEmpty) cs := by
  intro ws
  induction ws with
  | nil => intro started cs _ _; simp
  | cons w ws ih =>
    intro started cs hw hg
    have hword : IsWord w := hw w (List.mem_cons_self ..)
    cases ws with
    | nil => rw [List.intercalate_singleton, textPieces_word started hword hg]; simp
    | cons w' ws =>
      rw [List.intercalate_cons_cons, List.append_assoc, List.append_assoc, List.singleton_append,
        textPieces_word started hword (atGap_cons (.inl (by decide)) _), textPieces_space,
        ih true cs (fun v hv => hw v (List.mem_cons_of_mem w hv)) hg]
      simp

/-- **Measures between bars are taken one after the other**, and the line is
closed behind them. -/
theorem foldlM_textPieces_barred (table : Table) : ∀ (ms : List (List (List Char)))
    (started : Bool) (b : Builder Q), (∀ m ∈ ms, ∀ w ∈ m, IsWord w) →
    (started = false → b.measureOpen = false ∧ b.lineOpen = false) →
    (textPieces started ([' ', '|', ' '].intercalate (ms.map [' '].intercalate))).foldlM
        (Builder.take table) b
      = (takeMeasures table b ms).map Builder.closeLine := by
  intro ms
  induction ms with
  | nil =>
    intro started b _ hb
    rw [List.map_nil, List.intercalate_nil, textPieces_nil, takeMeasures]
    cases started with
    | true => rfl
    | false =>
      obtain ⟨h₁, h₂⟩ := hb rfl
      show Except.ok b = Except.ok b.closeLine
      rw [Builder.closeLine_of_closed h₁ h₂]
  | cons m ms ih =>
    intro started b hw hb
    have hm : ∀ w ∈ m, IsWord w := hw m (List.mem_cons_self ..)
    cases ms with
    | nil =>
      have hpieces := textPieces_words m started [] hm atGap_nil
      rw [List.append_nil, textPieces_nil] at hpieces
      rw [List.map_singleton, List.intercalate_singleton, hpieces, List.foldlM_append, takeMeasures]
      cases hst : started || !m.isEmpty with
      | true =>
        cases (m.map Piece.word).foldlM (Builder.take table) b with
        | error e => rfl
        | ok b' =>
          show Except.ok b'.closeLine = Except.ok b'.closeMeasure.closeLine
          rw [b'.closeLine_closeMeasure]
      | false =>
        -- nothing is written, so the line is not ended, and nothing stood on it
        obtain ⟨hs, he⟩ := Bool.or_eq_false_iff.mp hst
        obtain rfl : m = [] := by simpa using he
        obtain ⟨h₁, h₂⟩ := hb hs
        show Except.ok b = Except.ok b.closeMeasure.closeLine
        rw [b.closeLine_closeMeasure, Builder.closeLine_of_closed h₁ h₂]
    | cons m' ms =>
      have hih := fun b' : Builder Q => ih true b' (fun n hn => hw n (List.mem_cons_of_mem m hn))
        (fun h => absurd h (by decide))
      rw [List.map_cons] at hih
      rw [List.map_cons, List.map_cons, List.intercalate_cons_cons, List.append_assoc,
        List.cons_append, List.cons_append, List.cons_append, List.nil_append,
        textPieces_words m started _ hm (atGap_cons (.inl (by decide)) _), textPieces_space,
        textPieces_bar, textPieces_space, List.foldlM_append, takeMeasures]
      cases (m.map Piece.word).foldlM (Builder.take table) b with
      | error e => rfl
      | ok b' => exact hih b'.closeMeasure

end Bars

/-! ### As a datum -/

/-- The pieces of a measure that starts and ends in some columns. -/
def measureLexemes (m : Int × List Source × Int) : List DatumLexeme :=
  .opening 1 m.1 :: (m.2.1.map DatumLexeme.atom ++ [.closing 1 m.2.2])

def measureDatum (m : Int × List Source × Int) : Datum :=
  .list 1 m.1 (m.2.1.map Datum.atom)

theorem lexDatumLine_space (line column : Int) (cs : List Char) :
    lexDatumLine line column (' ' :: cs) = lexDatumLine line (column + 1) cs := by
  rw [lexDatumLine, if_pos (by decide)]

theorem lexDatumLine_opening (line column : Int) (cs : List Char) :
    lexDatumLine line column ('(' :: cs)
      = .opening line column :: lexDatumLine line (column + 1) cs := by
  rw [lexDatumLine, if_neg (by decide), if_neg (by decide), if_pos rfl]

theorem lexDatumLine_closing (line column : Int) (cs : List Char) :
    lexDatumLine line column (')' :: cs)
      = .closing line column :: lexDatumLine line (column + 1) cs := by
  rw [lexDatumLine, if_neg (by decide), if_neg (by decide), if_neg (by decide), if_pos rfl]

theorem lexDatumLine_atom {w : List Char} (hw : w ≠ []) (ha : ∀ c ∈ w, (!endsAtom c) = true)
    {c : Char} (hc : endsAtom c = true) (line column : Int) (cs : List Char) :
    ∃ column', lexDatumLine line column (w ++ c :: cs)
      = .atom ⟨w, line, column⟩ :: lexDatumLine line column' (c :: cs) := by
  cases w with
  | nil => exact absurd rfl hw
  | cons d w =>
    have hd := ha d (List.mem_cons_self ..)
    simp only [endsAtom, Bool.not_eq_true', Bool.or_eq_false_iff, decide_eq_false_iff_not] at hd
    obtain ⟨⟨⟨h₁, h₂⟩, h₃⟩, h₄⟩ := hd
    have hrest : ∀ e ∈ w, (!endsAtom e) = true := fun e he => ha e (List.mem_cons_of_mem d he)
    have hstop : ∀ e ∈ (c :: cs).head?, (!endsAtom e) = false := by
      intro e he
      obtain rfl : c = e := Option.some.inj he
      simp [hc]
    refine ⟨column + 1 + w.length, ?_⟩
    rw [List.cons_append, lexDatumLine, if_neg (by simp [h₁]), if_neg h₄, if_neg h₂, if_neg h₃]
    simp only [takeWhile_append_stop hrest hstop, dropWhile_append_stop hrest hstop]

theorem lexDatumLine_words : ∀ (ws : List (List Char)) (line column : Int) (cs : List Char),
    (∀ w ∈ ws, IsFlatWord w) →
    ∃ (ss : List Source) (column' : Int), ss.map Source.text = ws
      ∧ lexDatumLine line column ([' '].intercalate ws ++ ')' :: cs)
        = ss.map DatumLexeme.atom ++ lexDatumLine line column' (')' :: cs) := by
  intro ws
  induction ws with
  | nil => intro line column cs _; exact ⟨[], column, rfl, rfl⟩
  | cons w ws ih =>
    intro line column cs hw
    have hword : IsFlatWord w := hw w (List.mem_cons_self ..)
    cases ws with
    | nil =>
      obtain ⟨column', hlex⟩ :=
        lexDatumLine_atom hword.ne_nil hword.endsAtom (c := ')') (by decide) line column cs
      refine ⟨[⟨w, line, column⟩], column', rfl, ?_⟩
      rw [List.intercalate_singleton, hlex]
      rfl
    | cons w' ws =>
      obtain ⟨column₁, hlex₁⟩ :=
        lexDatumLine_atom hword.ne_nil hword.endsAtom (c := ' ') (by decide) line column
          ([' '].intercalate (w' :: ws) ++ ')' :: cs)
      obtain ⟨ss, column₂, htext, hlex₂⟩ :=
        ih line (column₁ + 1) cs fun v hv => hw v (List.mem_cons_of_mem w hv)
      refine ⟨⟨w, line, column⟩ :: ss, column₂, by rw [List.map_cons, htext], ?_⟩
      rw [List.intercalate_cons_cons, List.append_assoc, List.append_assoc, List.singleton_append,
        hlex₁, lexDatumLine_space, hlex₂]
      rfl

def measuresText (ms : List (List (List Char))) : List Char :=
  ms.flatMap fun m => ' ' :: '(' :: ([' '].intercalate m ++ [')'])

theorem lexDatumLine_measures : ∀ (ms : List (List (List Char))) (column : Int) (cs : List Char),
    (∀ m ∈ ms, ∀ w ∈ m, IsFlatWord w) →
    ∃ (xs : List (Int × List Source × Int)) (column' : Int),
      xs.map (fun x => x.2.1.map Source.text) = ms
      ∧ lexDatumLine 1 column (measuresText ms ++ cs)
        = xs.flatMap measureLexemes ++ lexDatumLine 1 column' cs := by
  intro ms
  induction ms with
  | nil => intro column cs _; exact ⟨[], column, rfl, rfl⟩
  | cons m ms ih =>
    intro column cs hw
    obtain ⟨ss, column₁, htext, hlex₁⟩ := lexDatumLine_words m 1 (column + 1 + 1)
      (measuresText ms ++ cs) (hw m (List.mem_cons_self ..))
    obtain ⟨xs, column₂, htexts, hlex₂⟩ := ih (column₁ + 1) cs
      fun n hn => hw n (List.mem_cons_of_mem m hn)
    refine ⟨(column + 1, ss, column₁) :: xs, column₂, by rw [List.map_cons, htexts, ← htext], ?_⟩
    have htext' : measuresText (m :: ms) ++ cs
        = ' ' :: '(' :: ([' '].intercalate m ++ ')' :: (measuresText ms ++ cs)) := by
      simp [measuresText]
    rw [htext', lexDatumLine_space, lexDatumLine_opening, hlex₁, lexDatumLine_closing, hlex₂]
    simp [measureLexemes]

/-! ### Reading the datum -/

theorem foldlM_take_atoms (o : OpenList) (os : List OpenList) : ∀ (ss : List Source)
    (items : List Datum),
    (ss.map DatumLexeme.atom).foldlM DatumReader.take ⟨{ o with items := items } :: os, none⟩
      = .ok ⟨{ o with items := items ++ ss.map Datum.atom } :: os, none⟩ := by
  intro ss
  induction ss with
  | nil => intro items; simp [pure, Except.pure]
  | cons s ss ih =>
    intro items
    rw [List.map_cons, List.foldlM_cons]
    show (ss.map DatumLexeme.atom).foldlM DatumReader.take
      ⟨{ o with items := items ++ [.atom s] } :: os, none⟩ = _
    rw [ih]
    simp

theorem foldlM_take_measures (line column : Int) : ∀ (xs : List (Int × List Source × Int))
    (items : List Datum),
    (xs.flatMap measureLexemes).foldlM DatumReader.take ⟨[⟨line, column, items⟩], none⟩
      = .ok ⟨[⟨line, column, items ++ xs.map measureDatum⟩], none⟩ := by
  intro xs
  induction xs with
  | nil => intro items; simp [pure, Except.pure]
  | cons x xs ih =>
    intro items
    have hx : (measureLexemes x).foldlM DatumReader.take ⟨[⟨line, column, items⟩], none⟩
        = .ok ⟨[⟨line, column, items ++ [measureDatum x]⟩], none⟩ := by
      rw [measureLexemes, List.foldlM_cons]
      show (x.2.1.map DatumLexeme.atom ++ [DatumLexeme.closing 1 x.2.2]).foldlM DatumReader.take
        ⟨[⟨1, x.1, []⟩, ⟨line, column, items⟩], none⟩ = _
      rw [List.foldlM_append, foldlM_take_atoms ⟨1, x.1, []⟩]
      rfl
    rw [List.flatMap_cons, List.foldlM_append, hx]
    show (xs.flatMap measureLexemes).foldlM DatumReader.take
      ⟨[⟨line, column, items ++ [measureDatum x]⟩], none⟩ = _
    rw [ih]
    simp

theorem toList_bracketed (ms : List (List String)) :
    (bracketed ms).toList = '(' :: ("score".toList
      ++ (measuresText (ms.map fun m => m.map String.toList) ++ [')'])) := by
  simp [bracketed, measuresText, String.toList_intercalate, List.flatMap_map]

theorem newline_notMem_bracketed {ms : List (List String)}
    (h : ∀ m ∈ ms, ∀ w ∈ m, IsFlatWord w.toList) : '\n' ∉ (bracketed ms).toList := by
  have hwords : ∀ ws : List (List Char), (∀ w ∈ ws, IsFlatWord w) →
      '\n' ∉ [' '].intercalate ws := by
    intro ws
    induction ws with
    | nil => intro _ hm; cases hm
    | cons w ws ih =>
      intro hw hm
      have hword : '\n' ∉ w := fun hin =>
        absurd ((hw w (List.mem_cons_self ..)).blank '\n' hin) (by decide)
      cases ws with
      | nil => exact hword (by rwa [List.intercalate_singleton] at hm)
      | cons w' ws =>
        rw [List.intercalate_cons_cons, List.append_assoc, List.mem_append, List.mem_append] at hm
        rcases hm with hm | hm | hm
        · exact hword hm
        · exact absurd hm (by decide)
        · exact ih (fun v hv => hw v (List.mem_cons_of_mem w hv)) hm
  rw [toList_bracketed]
  intro hm
  have hbody : '\n' ∈ measuresText (ms.map fun m => m.map String.toList) := by
    simpa using hm
  obtain ⟨m, hmem, hin⟩ := List.mem_flatMap.mp hbody
  obtain ⟨m', hm', rfl⟩ := List.mem_map.mp hmem
  refine hwords (m'.map String.toList) (fun w hw => ?_) (by simpa using hin)
  obtain ⟨w', hw', rfl⟩ := List.mem_map.mp hw
  exact h m' hm' w' hw'

/-- **A bracketed score is read as the datum it shows.** -/
theorem read_bracketed {ms : List (List String)} (h : ∀ m ∈ ms, ∀ w ∈ m, IsFlatWord w.toList) :
    ∃ xs : List (Int × List Source × Int),
      xs.map (fun x => x.2.1.map Source.text) = ms.map (fun m => m.map String.toList)
      ∧ Datum.read (bracketed ms)
        = .ok (.list 1 1 (.atom ⟨"score".toList, 1, 2⟩ :: xs.map measureDatum)) := by
  have hflat : ∀ m ∈ ms.map (fun m => m.map String.toList), ∀ w ∈ m, IsFlatWord w := by
    intro m hm w hw
    obtain ⟨m', hm', rfl⟩ := List.mem_map.mp hm
    obtain ⟨w', hw', rfl⟩ := List.mem_map.mp hw
    exact h m' hm' w' hw'
  -- behind the head stands a space or the closing parenthesis
  obtain ⟨c, cs, hcs, hc⟩ : ∃ c cs, measuresText (ms.map fun m => m.map String.toList) ++ [')']
      = c :: cs ∧ endsAtom c = true := by
    cases ms with
    | nil => exact ⟨')', [], rfl, by decide⟩
    | cons m ms => exact ⟨' ', _, rfl, by decide⟩
  obtain ⟨column, hhead⟩ :=
    lexDatumLine_atom (w := "score".toList) (by decide) (forall_mem_of_all (by decide)) hc 1 2 cs
  obtain ⟨xs, column', htext, hlex⟩ := lexDatumLine_measures _ column [')'] hflat
  refine ⟨xs, htext, ?_⟩
  have hclose : lexDatumLine 1 column' [')'] = [.closing 1 column'] := by
    rw [lexDatumLine_closing, lexDatumLine]
  have hlines : lexDatum (bracketed ms) = .opening 1 1 :: .atom ⟨"score".toList, 1, 2⟩
      :: (xs.flatMap measureLexemes ++ [.closing 1 column']) := by
    unfold lexDatum
    rw [lines_eq_singleton (newline_notMem_bracketed h), toList_bracketed, lexDatumLines,
      lexDatumLines, List.append_nil, lexDatumLine_opening, hcs]
    show _ :: lexDatumLine 1 2 ("score".toList ++ c :: cs) = _
    rw [hhead, ← hcs, hlex, hclose]
  unfold Datum.read
  rw [hlines]
  show ((xs.flatMap measureLexemes ++ [DatumLexeme.closing 1 column']).foldlM DatumReader.take
    ⟨[⟨1, 1, [.atom ⟨"score".toList, 1, 2⟩]⟩], none⟩ >>= DatumReader.finish) = _
  rw [List.foldlM_append, foldlM_take_measures]
  rfl

/-! ### Building from the datum -/

section Steps

variable {Q : Type} [Quantity Q]

theorem steps_measureDatum {x : Int × List Source × Int}
    (h : Datum.startsWith "keyed" (x.2.1.map Datum.atom) = false) :
    (measureDatum x).steps = x.2.1.map MeasureStep.word ++ [.close] := by
  rw [measureDatum, Datum.steps.eq_def]
  dsimp only
  rw [if_neg (by simp [h])]
  simp [Datum.itemStep, Function.comp_def]

theorem perform_keyed (table : Table) (b : ScoreBuilding Q) {x : Int × List Source × Int}
    (h : Datum.startsWith "keyed" (x.2.1.map Datum.atom) = true) :
    ∃ e, (measureDatum x).steps.foldlM (ScoreBuilding.perform table) b = .error e := by
  rw [measureDatum, Datum.steps.eq_def]
  dsimp only
  rw [if_pos h]
  split
  · rename_i head tonic measure hitems
    obtain ⟨s, hs⟩ : ∃ s, measure = Datum.atom s := by
      have hm : measure ∈ x.2.1.map Datum.atom := by rw [hitems]; simp
      obtain ⟨s, -, hs⟩ := List.mem_map.mp hm
      exact ⟨s, hs.symm⟩
    subst hs
    split
    · exact ⟨_, rfl⟩
    · exact ⟨_, rfl⟩
  · exact ⟨_, rfl⟩

theorem take_keyed (table : Table) (b : Builder Q) :
    ∃ e, b.take table (.word "keyed".toList) = .error e := by
  have hroot : Root.take "keyed".toList = none := by decide +kernel
  have hchord : ∃ e, Chord.read table ⟨"keyed".toList, 1, 1⟩ = .error e := by
    unfold Chord.read readRoot
    rw [hroot]
    exact ⟨_, rfl⟩
  obtain ⟨e, he⟩ := hchord
  have hsplit : (splitDuration 1 1 "keyed".toList : Except ReadFault (List Char × Option Q))
      = .ok ("keyed".toList, none) := by
    have hcolon : splitColon "keyed".toList = none := by decide
    unfold splitDuration
    rw [hcolon]
  have hsound : Sound.read table ⟨"keyed".toList, 1, 1⟩ = .error e := by
    unfold Sound.read
    rw [if_neg (by decide), if_neg (by decide), if_neg (by decide), he]
    rfl
  have hread : (Piece.word "keyed".toList).read (Q := Q) table = .error e := by
    show TokenContent.read table ⟨"keyed".toList, 1, 1⟩ = _
    rw [TokenContent.read_sound table (by decide), hsplit]
    show (Sound.read table ⟨"keyed".toList, 1, 1⟩).map (TokenContent.sound · none) = _
    rw [hsound]
    rfl
  exact ⟨e, by unfold Builder.take; rw [hread]; rfl⟩

theorem foldlM_words_agree (table : Table) : ∀ (ss : List Source) (b : Builder Q),
    Agree ((ss.map MeasureStep.word).foldlM (ScoreBuilding.perform table) ⟨b, []⟩)
      (((ss.map fun s => Piece.word s.text).foldlM (Builder.take table) b).map (⟨·, []⟩)) := by
  intro ss
  induction ss with
  | nil => intro b; exact Agree.refl _
  | cons s ss ih =>
    intro b
    rw [List.map_cons, List.map_cons, List.foldlM_cons, List.foldlM_cons]
    have hs := Builder.take_agree table b (.word s)
    change Agree (Token.read table s >>= b.feed) (b.take table (.word s.text)) at hs
    have hperform : ScoreBuilding.perform table ⟨b, []⟩ (.word s)
        = (Token.read table s >>= b.feed).map (⟨·, []⟩) := by
      show (Token.read table s >>= fun t => b.feed t >>= fun b' =>
        pure (⟨b', []⟩ : ScoreBuilding Q)) = _
      cases (Token.read table s : Except ReadFault (Token Q)) with
      | error e => rfl
      | ok t =>
        show (b.feed t >>= fun b' => pure (⟨b', []⟩ : ScoreBuilding Q)) = (b.feed t).map _
        cases b.feed t with
        | error e => rfl
        | ok b' => rfl
    rw [hperform]
    cases hfeed : Token.read table s >>= b.feed with
    | error e =>
      obtain ⟨e', he'⟩ := hs.exists_error hfeed
      rw [he']
      exact agree_error e e'
    | ok b' =>
      rw [hs.eq_ok hfeed]
      exact ih b'

/-- **A datum of measures is taken like the measures between bars.** -/
theorem foldlM_steps (table : Table) : ∀ (xs : List (Int × List Source × Int)) (b : Builder Q),
    Agree (((xs.map measureDatum).flatMap Datum.steps).foldlM (ScoreBuilding.perform table)
        ⟨b, []⟩)
      ((takeMeasures table b (xs.map fun x => x.2.1.map Source.text)).map (⟨·, []⟩)) := by
  intro xs
  induction xs with
  | nil => intro b; exact Agree.refl _
  | cons x xs ih =>
    intro b
    rw [List.map_cons, List.flatMap_cons, List.foldlM_append, List.map_cons, takeMeasures]
    cases hk : Datum.startsWith "keyed" (x.2.1.map Datum.atom) with
    | true =>
      -- neither reader gets past the word
      obtain ⟨e, he⟩ := perform_keyed table ⟨b, []⟩ hk
      obtain ⟨s, ss, hss⟩ : ∃ s ss, x.2.1 = s :: ss := by
        cases hx : x.2.1 with
        | nil => rw [hx] at hk; cases hk
        | cons s ss => exact ⟨s, ss, rfl⟩
      have hs : s.text = "keyed".toList := by
        rw [hss] at hk
        simpa [Datum.startsWith] using hk
      obtain ⟨e', he'⟩ := take_keyed table b
      rw [he, hss, List.map_cons, List.map_cons, List.foldlM_cons, hs, he']
      exact agree_error e e'
    | false =>
      have hwords := foldlM_words_agree table x.2.1 b
      rw [steps_measureDatum hk, List.foldlM_append]
      have hpieces : (x.2.1.map Source.text).map Piece.word
          = x.2.1.map fun s => Piece.word s.text := by
        rw [List.map_map]
        rfl
      rw [hpieces]
      cases htake : (x.2.1.map fun s => Piece.word s.text).foldlM (Builder.take table) b with
      | error e =>
        rw [htake] at hwords
        obtain ⟨e', he'⟩ := hwords.symm.exists_error rfl
        rw [he']
        exact agree_error e' e
      | ok b' =>
        rw [htake] at hwords
        rw [hwords.symm.eq_ok rfl]
        exact ih b'.closeMeasure

end Steps

/-! ### Both notations -/

section Notations

variable {Q : Type} [Quantity Q]

theorem readDatum_agree (table : Table) (key : Option Key) {ms : List (List String)}
    (h : ∀ m ∈ ms, ∀ w ∈ m, IsFlatWord w.toList) :
    Agree (Score.readDatum table key (bracketed ms) : Except ReadFault (Score Q))
      ((takeMeasures table (Builder.start key) (ms.map fun m => m.map String.toList)).map
        fun b => b.closeLine.score) := by
  obtain ⟨xs, htext, hread⟩ := read_bracketed h
  unfold Score.readDatum
  rw [hread]
  show Agree (((xs.map measureDatum).flatMap Datum.steps).foldlM (ScoreBuilding.perform table)
    ⟨Builder.start key, []⟩ >>= fun b => pure b.builder.closeLine.score) _
  have hsteps := foldlM_steps table xs (Builder.start (Q := Q) key)
  rw [htext] at hsteps
  refine (hsteps.bind fun b => Agree.refl _).trans ?_
  cases takeMeasures table (Builder.start (Q := Q) key) (ms.map fun m => m.map String.toList) with
  | error e => rfl
  | ok b => rfl

theorem read_barred_agree (table : Table) (key : Option Key) {ms : List (List String)}
    (h : ∀ m ∈ ms, ∀ w ∈ m, IsFlatWord w.toList) :
    Agree (Score.read table key (barred ms) : Except ReadFault (Score Q))
      ((takeMeasures table (Builder.start key) (ms.map fun m => m.map String.toList)).map
        fun b => b.closeLine.score) := by
  have htext : (barred ms).toList = [' ', '|', ' '].intercalate
      ((ms.map fun m => m.map String.toList).map [' '].intercalate) := by
    simp [barred, String.toList_intercalate, Function.comp_def]
  have hwords : ∀ m ∈ ms.map (fun m => m.map String.toList), ∀ w ∈ m, IsWord w := by
    intro m hm w hw
    obtain ⟨m', hm', rfl⟩ := List.mem_map.mp hm
    obtain ⟨w', hw', rfl⟩ := List.mem_map.mp hw
    exact (h m' hm' w' hw').isWord
  have hread := Score.read_agree (Q := Q) table key (barred ms)
  rw [htext, foldlM_textPieces_barred table _ false _ hwords fun _ => ⟨rfl, rfl⟩] at hread
  refine hread.trans ?_
  cases takeMeasures table (Builder.start (Q := Q) key) (ms.map fun m => m.map String.toList) with
  | error e => rfl
  | ok b => rfl

/-- **Flat measures are the same score in either notation.** -/
theorem readDatum_bracketed_eq_ok_iff (table : Table) (key : Option Key) {ms : List (List String)}
    (h : ∀ m ∈ ms, ∀ w ∈ m, IsFlatWord w.toList) (s : Score Q) :
    Score.readDatum table key (bracketed ms) = .ok s
      ↔ Score.read table key (barred ms) = .ok s := by
  have hagree : Agree (Score.readDatum table key (bracketed ms) : Except ReadFault (Score Q))
      (Score.read table key (barred ms)) :=
    (readDatum_agree table key h).trans (read_barred_agree table key h).symm
  exact ⟨hagree.eq_ok, hagree.symm.eq_ok⟩

end Notations

/-- A key mark, a repetition, an empty measure and a tie. -/
theorem readDatum_flat_tune :
    (∀ m ∈ [["@D", "I", "%:2"], [], ["C[b9]", "="]], ∀ w ∈ m, IsFlatWord w.toList)
    ∧ Score.readDatum (Q := Rat) .standard none
        (bracketed [["@D", "I", "%:2"], [], ["C[b9]", "="]])
      = .ok ⟨[⟨.chord ⟨.degree ⟨0, .natural, false⟩, Quality.majorTriad, [], none⟩, 0, 0, 1, 1, 0⟩,
          ⟨.chord ⟨.degree ⟨0, .natural, false⟩, Quality.majorTriad, [], none⟩, 0, 1, 2, 1, 0⟩,
          ⟨.chord ⟨.pitch ⟨0, some "C"⟩, Quality.majorTriad, [⟨.ninth, .alter .flat⟩], none⟩,
            1, 3, 1, 1, 0⟩,
          ⟨.tie, 1, 4, 1, 1, 0⟩],
        [none, some ⟨⟨2, some "D"⟩, .major⟩]⟩ :=
  ⟨by decide, (readDatum_bracketed_eq_ok_iff .standard none (by decide) _).mpr (by decide +kernel)⟩

end LeadSheet
