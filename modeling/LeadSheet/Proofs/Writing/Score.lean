import LeadSheet.Proofs.Score.Growth
import LeadSheet.Score.Printer

/-!
# Written scores read back

A score is written with a mark in front of the first entry under every new
key, and reading adds a key for each mark.  So a legible score is read from
its text as itself with the keys numbered anew: `Score.renumbered` does that,
and `Score.read_text` says so.

`run_entriesText` carries this along the text.  In front of an entry stand a
separator and perhaps a mark, and a builder that takes them comes to the place
of the entry (`run_separator`, `run_keyMark`); then `Builder.take_text` adds
it.
-/

namespace LeadSheet

open Text

variable {Q : Type}

/-! ### Numbering keys anew -/

namespace Score

/-- The key that is marked in front of an entry, behind an entry under some
key. -/
def newKey? (s : Score Q) (index : Nat) (e : Entry Q) : Option Key :=
  if e.keyIndex = index then none else s.keyOf e

theorem newKey?_of_eq {s : Score Q} {index : Nat} {e : Entry Q} (h : e.keyIndex = index) :
    s.newKey? index e = none :=
  if_pos h

theorem newKey?_of_ne {s : Score Q} {index : Nat} {e : Entry Q} (h : e.keyIndex ≠ index) :
    s.newKey? index e = s.keyOf e :=
  if_neg h

theorem keyOf_of_newKey? {s : Score Q} {index : Nat} {e : Entry Q} {k : Key}
    (h : s.newKey? index e = some k) : s.keyOf e = some k :=
  (Option.ite_none_left_eq_some.mp h).2

/-- What is true of every key that is marked in front of some entries. -/
def Marks (P : Key → Prop) (s : Score Q) (index : Nat) : List (Entry Q) → Prop
  | [] => True
  | e :: es => (∀ k, s.newKey? index e = some k → P k) ∧ Marks P s e.keyIndex es

/-- Some entries behind an entry under some key, with their keys numbered as
they are marked: the marks add keys to a row of them, of which one is in
effect. -/
def renumber (s : Score Q) (index : Nat) (keys : List (Option Key)) (now : Nat) :
    List (Entry Q) → List (Entry Q) × List (Option Key)
  | [] => ([], keys)
  | e :: es =>
    match s.newKey? index e with
    | none =>
      let r := renumber s e.keyIndex keys now es
      ({ e with keyIndex := now } :: r.1, r.2)
    | some k =>
      let r := renumber s e.keyIndex (keys ++ [some k.reread]) keys.length es
      ({ e with keyIndex := keys.length } :: r.1, r.2)

def renumbered (s : Score Q) (key : Option Key) : Score Q :=
  ⟨(s.renumber 0 [key] 0 s.entries).1, (s.renumber 0 [key] 0 s.entries).2⟩

theorem keyMark_eq (s : Score Q) (index : Nat) (e : Entry Q) :
    s.keyMark index e = match s.newKey? index e with
      | some k => "@" ++ k.text ++ " "
      | none => "" := by
  unfold keyMark newKey?
  by_cases hi : e.keyIndex = index
  · rw [if_pos hi, if_pos hi]
  · cases s.keyOf e with
    | none => rw [if_neg hi, if_neg hi]
    | some k => rw [if_neg hi, if_neg hi]

end Score

variable [Quantity Q]

/-! ### The way to an entry -/

/-- The index of the key that the entry before is under. -/
def indexBehind (previous : Option (Entry Q)) : Nat :=
  (previous.map Entry.keyIndex).getD 0

/-- A builder that has just added an entry, or nothing. -/
def Builder.Behind (b : Builder Q) (previous : Option (Entry Q)) : Prop :=
  match previous with
  | none => b.beat = Quantity.ofInt 0 ∧ b.measure = 0 ∧ b.line = 0
  | some p =>
    b.beat = p.finish ∧ b.measure = p.measure ∧ b.line = p.line ∧ b.measureOpen = true
      ∧ b.lineOpen = true

/-- A builder that is about to add an entry. -/
structure Builder.Before (b : Builder Q) (e : Entry Q) : Prop where
  beat : b.beat = e.beat
  measure : b.measure = e.measure
  line : b.line = e.line

/-- Goes over to a key as it is read back, if there is one. -/
def Builder.goOver (b : Builder Q) : Option Key → Builder Q
  | none => b
  | some k => b.changeKey (some k.reread)

theorem run_separator {previous : Option (Entry Q)} {e : Entry Q} {b : Builder Q}
    (hb : b.Behind previous) (he : Follows previous e) :
    ∃ (started : Bool) (b' : Builder Q), b'.Before e ∧ b'.entries = b.entries ∧ b'.keys = b.keys
      ∧ b'.keyIndex = b.keyIndex ∧ ∀ cs,
        (textPieces previous.isSome ((e.separator previous).toList ++ cs)).foldlM
            (Builder.take Table.standard) b
          = (textPieces started cs).foldlM (Builder.take Table.standard) b' := by
  cases previous with
  | none =>
    obtain ⟨hbeat, hmeasure, hline⟩ := hb
    obtain ⟨hbeat', hmeasure', hline'⟩ := he
    refine ⟨false, b, ⟨?_, ?_, ?_⟩, rfl, rfl, rfl, fun cs => rfl⟩
    · rw [hbeat, hbeat']
    · rw [hmeasure, hmeasure']
    · rw [hline, hline']
  | some p =>
    obtain ⟨hbeat, hmeasure, hline, hmeasureOpen, hlineOpen⟩ := hb
    obtain ⟨hbeat', hplace⟩ := he
    have hclose : b.closeMeasure = { b with measure := b.measure + 1, measureOpen := false } := by
      rw [Builder.closeMeasure, if_pos hmeasureOpen]
    -- a blank, a bar or a line feed, as the places of the two entries have it
    by_cases hl : p.line = e.line
    · by_cases hm : p.measure = e.measure
      · refine ⟨true, b, ⟨?_, ?_, ?_⟩, rfl, rfl, rfl, fun cs => ?_⟩
        · rw [hbeat, hbeat']
        · rw [hmeasure, hm]
        · rw [hline, hl]
        · have hsep : (e.separator (some p)).toList = [' '] := by
            simp [Entry.separator, hl, hm]
          rw [hsep, List.singleton_append, textPieces_space]
          rfl
      · refine ⟨true, b.closeMeasure, ⟨?_, ?_, ?_⟩, ?_, ?_, ?_, fun cs => ?_⟩
        · rw [hclose, hbeat']
          exact hbeat
        · rw [hclose]
          show b.measure + 1 = e.measure
          omega
        · rw [hclose]
          show b.line = e.line
          omega
        · rw [hclose]
        · rw [hclose]
        · rw [hclose]
        · have hsep : (e.separator (some p)).toList = [' ', '|', ' '] := by
            simp [Entry.separator, hl, hm]
          rw [hsep]
          show (textPieces true (' ' :: '|' :: ' ' :: cs)).foldlM _ b = _
          rw [textPieces_space, textPieces_bar, textPieces_space]
          rfl
    · have hcloseLine : b.closeLine = { b with
          measure := b.measure + 1, measureOpen := false, line := b.line + 1, lineOpen := false } := by
        unfold Builder.closeLine
        rw [hclose]
        dsimp only
        rw [if_pos hlineOpen]
      refine ⟨false, b.closeLine, ⟨?_, ?_, ?_⟩, ?_, ?_, ?_, fun cs => ?_⟩
      · rw [hcloseLine, hbeat']
        exact hbeat
      · rw [hcloseLine]
        show b.measure + 1 = e.measure
        omega
      · rw [hcloseLine]
        show b.line + 1 = e.line
        omega
      · rw [hcloseLine]
      · rw [hcloseLine]
      · rw [hcloseLine]
      · have hsep : (e.separator (some p)).toList = ['\n'] := by
          simp [Entry.separator, hl]
        rw [hsep]
        show (textPieces true ('\n' :: cs)).foldlM _ b = _
        rw [textPieces_newline]
        rfl

theorem run_keyMark {s : Score Q} {index : Nat} {e : Entry Q} (started : Bool) (b : Builder Q)
    (hk : ∀ k, s.newKey? index e = some k → k.Legible) :
    ∃ started' : Bool, ∀ cs,
      (textPieces started ((s.keyMark index e).toList ++ cs)).foldlM
          (Builder.take Table.standard) b
        = (textPieces started' cs).foldlM (Builder.take Table.standard)
            (b.goOver (s.newKey? index e)) := by
  rw [Score.keyMark_eq]
  cases hkey : s.newKey? index e with
  | none => exact ⟨started, fun cs => rfl⟩
  | some k =>
    have hlegible := hk k hkey
    refine ⟨true, fun cs => ?_⟩
    have htext : ("@" ++ k.text ++ " ").toList ++ cs = k.mark ++ ' ' :: cs := by
      simp [Key.mark]
    dsimp only
    rw [htext, textPieces_word started (Key.isWord_mark hlegible)
      (atGap_cons (.inl (by decide)) cs), textPieces_space, List.foldlM_cons,
      Builder.take_mark b hlegible]
    rfl

/-! ### Whole texts -/

theorem atGap_entriesText (s : Score Q) (p : Entry Q) (es : List (Entry Q)) :
    AtGap (s.entriesText (some p) es).toList := by
  cases es with
  | nil => exact atGap_nil
  | cons e es =>
    have hsep : ∃ c cs, (e.separator (some p)).toList = c :: cs ∧ isBlank c = true := by
      unfold Entry.separator
      dsimp only
      split
      · exact ⟨'\n', [], rfl, by decide⟩
      · split
        · exact ⟨' ', ['|', ' '], rfl, by decide⟩
        · exact ⟨' ', [], rfl, by decide⟩
    obtain ⟨c, cs, hsep, hc⟩ := hsep
    rw [Score.entriesText, String.toList_append, String.toList_append, String.toList_append, hsep]
    exact atGap_cons (.inl hc) _

theorem Builder.Before.behind {b : Builder Q} {e : Entry Q} (h : b.Before e)
    (previous : Option Chord) :
    { b.append e.content (some e.duration) with previous }.Behind (some e)
    ∧ (b.append e.content (some e.duration)).entries
      = b.entries ++ [{ e with keyIndex := b.keyIndex }] := by
  obtain ⟨hbeat, hmeasure, hline⟩ := h
  refine ⟨⟨?_, hmeasure, hline, rfl, rfl⟩, ?_⟩
  · show b.beat + e.duration = e.beat + e.duration
    rw [hbeat]
  · show b.entries ++ [_] = _
    rw [hmeasure, hline, hbeat]
    rfl

theorem run_entriesText (hQ : Faithful Q) (s : Score Q) : ∀ (es : List (Entry Q))
    (previous : Option (Entry Q)) (b : Builder Q), (∀ e ∈ es, e.Legible) →
    s.Marks Key.Legible (indexBehind previous) es → Chained previous es → b.Behind previous →
    ∃ b' : Builder Q,
      (textPieces previous.isSome (s.entriesText previous es).toList).foldlM
          (Builder.take Table.standard) b = .ok b'
      ∧ b'.entries = b.entries ++ (s.renumber (indexBehind previous) b.keys b.keyIndex es).1
      ∧ b'.keys = (s.renumber (indexBehind previous) b.keys b.keyIndex es).2 := by
  intro es
  induction es with
  | nil =>
    intro previous b _ _ _ _
    have htext : (s.entriesText previous []).toList = [] := rfl
    rw [htext, textPieces_nil]
    cases previous with
    | none => exact ⟨b, rfl, (List.append_nil _).symm, rfl⟩
    | some p =>
      refine ⟨b.closeLine, rfl, ?_, ?_⟩
      · rw [Builder.entries_closeLine]
        exact (List.append_nil _).symm
      · rw [Builder.keys_closeLine]
        rfl
  | cons e es ih =>
    intro previous b hes hkeys hchain hb
    have he := hes e (List.mem_cons_self ..)
    -- separator, mark and word are taken one after the other, each in front of any text
    obtain ⟨started, b₁, hbefore, hentries₁, hkeys₁, hindex₁, hrun₁⟩ :=
      run_separator hb hchain.1
    obtain ⟨started', hrun₂⟩ := run_keyMark started b₁ hkeys.1
    generalize hb₂ : b₁.goOver (s.newKey? (indexBehind previous) e) = b₂ at hrun₂
    have hbefore₂ : b₂.Before e := by
      rw [← hb₂]
      cases s.newKey? (indexBehind previous) e with
      | none => exact hbefore
      | some k => exact ⟨hbefore.beat, hbefore.measure, hbefore.line⟩
    obtain ⟨chord, htake⟩ := Builder.take_text hQ b₂ he
    obtain ⟨hbehind, hentries₃⟩ := hbefore₂.behind chord
    obtain ⟨b', hrun, hentries, hkeys'⟩ := ih (some e) _
      (fun d hd => hes d (List.mem_cons_of_mem e hd)) hkeys.2 hchain.2 hbehind
    have htext : (s.entriesText previous (e :: es)).toList
        = (e.separator previous).toList ++ ((s.keyMark (indexBehind previous) e).toList
          ++ (e.text.toList ++ (s.entriesText (some e) es).toList)) := by
      rw [Score.entriesText, String.toList_append, String.toList_append, String.toList_append,
        List.append_assoc, List.append_assoc]
      rfl
    refine ⟨b', ?_, ?_, ?_⟩
    · rw [htext, hrun₁, hrun₂, textPieces_word started' (Entry.isWord_text hQ he)
        (atGap_entriesText s e es), List.foldlM_cons, htake]
      exact hrun
    · rw [hentries, hentries₃, List.append_assoc, Score.renumber, ← hentries₁, ← hkeys₁, ← hindex₁,
        ← hb₂]
      cases s.newKey? (indexBehind previous) e with
      | none => rfl
      | some k => rfl
    · rw [hkeys', Score.renumber, ← hkeys₁, ← hindex₁, ← hb₂]
      cases s.newKey? (indexBehind previous) e with
      | none => rfl
      | some k => rfl

/-- **A legible score is read from its text with its keys numbered anew**,
whatever key the reading starts in. -/
theorem Score.read_text (hQ : Faithful Q) {s : Score Q} (key : Option Key)
    (hchain : Chained none s.entries) (hentries : ∀ e ∈ s.entries, e.Legible)
    (hkeys : s.Marks Key.Legible 0 s.entries) :
    Score.read Table.standard key s.text = .ok (s.renumbered key) := by
  obtain ⟨b, hrun, hb, hk⟩ := run_entriesText hQ s s.entries none (Builder.start key) hentries
    hkeys hchain ⟨rfl, rfl, rfl⟩
  have hread := Score.read_agree (Q := Q) Table.standard key s.text
  have htext : (textPieces false s.text.toList).foldlM (Builder.take Table.standard)
      (Builder.start key) = .ok b := hrun
  rw [htext] at hread
  refine (hread.symm.eq_ok rfl).trans ?_
  show Except.ok (Score.mk b.entries b.keys) = _
  rw [hb, hk]
  rfl

end LeadSheet
