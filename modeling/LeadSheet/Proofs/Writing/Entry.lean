import LeadSheet.Proofs.Reading.Piece
import LeadSheet.Proofs.Writing.Beats
import LeadSheet.Proofs.Writing.Chord

/-!
# Written entries read back

An entry is written as one word, and so is a change of key
(`Entry.isWord_text`, `Key.isWord_mark`).  A builder that takes the word of a
legible entry adds that very entry where it stands (`Builder.take_text`), and
one that takes the mark of a key goes over to the key (`Builder.take_mark`).
-/

namespace LeadSheet

open Text

/-- A character of an entry apart from the colon: no stop, or one of those a
chord has. -/
def IsChordChar (c : Char) : Prop :=
  isPlain c = true ∨ c ∈ ['(', ')', ',', '/']

/-- What takes up the time of an entry, as reading makes it. -/
def EntryContent.Legible : EntryContent → Prop
  | .chord c => c.Legible
  | _ => True

variable {Q : Type} [Quantity Q]

/-- An entry as reading makes it: the duration is read or the usual one. -/
structure Entry.Legible (e : Entry Q) : Prop where
  content : e.content.Legible
  duration : IsBeats e.duration ∨ e.duration = usualDuration

/-! ### Words -/

theorem foldl_depthAfter_of_notMem : ∀ (w : List Char) (depth : Nat),
    (∀ c ∈ w, c ∉ ['(', '[', ')', ']']) → w.foldl depthAfter depth = depth := by
  intro w
  induction w with
  | nil => intro depth _; rfl
  | cons c w ih =>
    intro depth h
    have hc := h c (List.mem_cons_self ..)
    simp only [List.mem_cons, List.not_mem_nil, or_false, not_or] at hc
    have hd : depthAfter depth c = depth := by simp [depthAfter, hc]
    rw [List.foldl_cons, hd]
    exact ih depth fun d hm => h d (List.mem_cons_of_mem c hm)

theorem notMem_stops_of_isPlain {c : Char} (h : isPlain c = true) :
    c ∉ ['|', '(', ')', '[', ']', ':', ',', '/'] := by
  simp only [isPlain, Bool.and_eq_true, Bool.not_eq_true', decide_eq_false_iff_not] at h
  exact h.2

theorem notMem_brackets_of_isPlain {c : Char} (h : isPlain c = true) :
    c ∉ ['(', '[', ')', ']'] := by
  have hstop := notMem_stops_of_isPlain h
  simp only [List.mem_cons, List.not_mem_nil, or_false, not_or] at hstop ⊢
  obtain ⟨-, h₁, h₂, h₃, h₄, -⟩ := hstop
  exact ⟨h₁, h₃, h₂, h₄⟩

theorem foldl_depthAfter_of_isPlain {w : List Char} (h : ∀ c ∈ w, isPlain c = true) (depth : Nat) :
    w.foldl depthAfter depth = depth :=
  foldl_depthAfter_of_notMem w depth fun c hc => notMem_brackets_of_isPlain (h c hc)

theorem IsChordChar.isBlank {c : Char} (h : IsChordChar c) : isBlank c = false := by
  rcases h with h | h
  · exact isBlank_of_isPlain h
  · simp only [List.mem_cons, List.not_mem_nil, or_false] at h
    rcases h with rfl | rfl | rfl | rfl <;> decide

theorem IsChordChar.notMem {c : Char} (h : IsChordChar c) : c ∉ ['|', ':', '\n'] := by
  rcases h with h | h
  · intro hm
    simp only [List.mem_cons, List.not_mem_nil, or_false] at hm
    rcases hm with rfl | rfl | rfl
    all_goals exact absurd h (by decide)
  · simp only [List.mem_cons, List.not_mem_nil, or_false] at h
    rcases h with rfl | rfl | rfl | rfl <;> decide

/-! ### Chords as words -/

namespace Chord

theorem isChordChar_text {c : Chord} (h : c.Legible) : ∀ d ∈ c.text.toList, IsChordChar d := by
  have hbass : ∀ d ∈ (bassText c.bass).toList, IsChordChar d := by
    cases hb : c.bass with
    | none => intro d hd; cases hd
    | some r =>
      intro d hd
      have htext : (bassText (some r)).toList = '/' :: r.text.toList := by simp [bassText]
      rw [htext] at hd
      rcases List.mem_cons.mp hd with rfl | hd
      · exact .inr (by decide)
      · exact .inl (Root.isPlain_text (h.bass r hb) false d hd)
  have hextension : ∀ d ∈ (extensionText c.extensions).toList, IsChordChar d := by
    by_cases he : c.extensions = []
    · rw [he]
      intro d hd
      cases hd
    · rw [toList_extensionText he]
      intro d hd
      rcases List.mem_cons.mp hd with rfl | hd
      · exact .inr (by decide)
      · rcases List.mem_append.mp hd with hd | hd
        · rcases mem_extensionChars hd with rfl | hp
          · exact .inr (by decide)
          · exact .inl hp
        · obtain rfl := List.mem_singleton.mp hd
          exact .inr (by decide)
  intro d hd
  rw [toList_text, tailChars] at hd
  simp only [List.mem_append] at hd
  rcases hd with hd | hd | hd | hd
  · exact .inl (Root.isPlain_text h.root _ d hd)
  · exact .inl (isPlain_suffix h d hd)
  · exact hextension d hd
  · exact hbass d hd

theorem foldl_depthAfter_text {c : Chord} (h : c.Legible) :
    c.text.toList.foldl depthAfter 0 = 0 := by
  have hextension : (extensionText c.extensions).toList.foldl depthAfter 0 = 0 := by
    by_cases he : c.extensions = []
    · rw [he]
      rfl
    · have hinner : (extensionChars c.extensions).foldl depthAfter 1 = 1 := by
        refine foldl_depthAfter_of_notMem _ 1 fun d hd => ?_
        rcases mem_extensionChars hd with rfl | hp
        · decide
        · exact notMem_brackets_of_isPlain hp
      rw [toList_extensionText he, List.foldl_cons, List.foldl_append,
        show depthAfter 0 '(' = 1 from rfl, hinner]
      rfl
  have hbass : (bassText c.bass).toList.foldl depthAfter 0 = 0 := by
    cases hb : c.bass with
    | none => rfl
    | some r =>
      have htext : (bassText (some r)).toList = '/' :: r.text.toList := by simp [bassText]
      rw [htext, List.foldl_cons, show depthAfter 0 '/' = 0 from rfl]
      exact foldl_depthAfter_of_isPlain (Root.isPlain_text (h.bass r hb) false) 0
  rw [toList_text, tailChars, List.foldl_append, List.foldl_append, List.foldl_append,
    foldl_depthAfter_of_isPlain (Root.isPlain_text h.root _),
    foldl_depthAfter_of_isPlain (isPlain_suffix h), hextension, hbass]

theorem exists_cons_text {c : Chord} (h : c.Legible) :
    ∃ d ds, c.text.toList = d :: ds ∧ d ∉ ['_', '=', '%', 'N', '@'] ∧ (d = '#' → ds ≠ []) := by
  obtain ⟨d, ds, hroot, hd, hsharp⟩ := Root.exists_cons_text h.root c.quality.minor
  refine ⟨d, ds ++ (c.suffix.toList ++ c.tailChars), ?_, hd, ?_⟩
  · rw [toList_text, hroot, List.cons_append]
  · intro he hnil
    exact hsharp he (List.append_eq_nil_iff.mp hnil).1

end Chord

/-! ### Entries as words -/

namespace EntryContent

/-- What is written to take up the time of an entry. -/
def sound : EntryContent → Sound
  | chord c => .chord c
  | rest => .rest
  | tie => .tie

theorem isChordChar_text {c : EntryContent} (h : c.Legible) :
    ∀ d ∈ c.text.toList, IsChordChar d := by
  cases c with
  | chord c => exact Chord.isChordChar_text h
  | rest =>
    intro d hd
    obtain rfl : d = '_' := by simpa [text] using hd
    exact .inl (by decide)
  | tie =>
    intro d hd
    obtain rfl : d = '=' := by simpa [text] using hd
    exact .inl (by decide)

theorem foldl_depthAfter_text {c : EntryContent} (h : c.Legible) :
    c.text.toList.foldl depthAfter 0 = 0 := by
  cases c with
  | chord c => exact Chord.foldl_depthAfter_text h
  | rest => rfl
  | tie => rfl

theorem exists_cons_text {c : EntryContent} (h : c.Legible) :
    ∃ d ds, c.text.toList = d :: ds ∧ d ≠ '@' ∧ (d = '#' → ds ≠ []) := by
  cases c with
  | chord c =>
    obtain ⟨d, ds, htext, hd, hsharp⟩ := Chord.exists_cons_text h
    simp only [List.mem_cons, List.not_mem_nil, or_false, not_or] at hd
    exact ⟨d, ds, htext, hd.2.2.2.2, hsharp⟩
  | rest => exact ⟨'_', [], rfl, by decide, by decide⟩
  | tie => exact ⟨'=', [], rfl, by decide, by decide⟩

theorem read_text {c : EntryContent} (h : c.Legible) (line column : Int) :
    Sound.read Table.standard ⟨c.text.toList, line, column⟩ = .ok c.sound := by
  cases c with
  | chord c =>
    obtain ⟨d, ds, htext, hd, -⟩ := Chord.exists_cons_text h
    simp only [List.mem_cons, List.not_mem_nil, or_false, not_or] at hd
    obtain ⟨h₁, h₂, h₃, h₄, -⟩ := hd
    show Sound.read Table.standard ⟨c.text.toList, line, column⟩ = _
    have hread := Chord.read_text h line column
    unfold Sound.read
    rw [hread]
    dsimp only
    rw [htext, if_neg (by simp [h₁, h₄]), if_neg (by simp [h₂]), if_neg (by simp [h₃])]
    rfl
  | rest => rfl
  | tie => rfl

end EntryContent

namespace Entry

theorem durationText_cases (hQ : Faithful Q) {e : Entry Q} (h : e.Legible) :
    (e.durationText = "" ∧ e.duration = usualDuration)
    ∨ ∃ value, e.durationText.toList = ':' :: value ∧ (∀ c ∈ value, isPlain c = true)
      ∧ readBeats value = .ok e.duration := by
  unfold durationText
  by_cases hsame : sameQuantity e.duration usualDuration = true
  · rw [if_pos hsame]
    refine .inl ⟨rfl, ?_⟩
    rcases h.duration with hbeats | husual
    · exact hQ.usual e.duration hbeats hsame
    · exact husual
  · rw [if_neg hsame]
    rcases h.duration with hbeats | husual
    · obtain ⟨hplain, hread⟩ := beatsText_spec hQ.readsBack hbeats
      refine .inr ⟨(beatsText e.duration).toList, ?_, hplain, hread⟩
      rw [String.toList_append]
      rfl
    · rw [husual] at hsame
      exact absurd hQ.usual_self hsame

theorem toList_text (e : Entry Q) :
    e.text.toList = e.content.text.toList ++ e.durationText.toList := by
  rw [text, String.toList_append]

/-- **An entry is one word.** -/
theorem isWord_text (hQ : Faithful Q) {e : Entry Q} (h : e.Legible) : IsWord e.text.toList := by
  have hchar := EntryContent.isChordChar_text h.content
  have hdepth := EntryContent.foldl_depthAfter_text h.content
  obtain ⟨d, ds, htext, -, hsharp⟩ := EntryContent.exists_cons_text h.content
  have hduration : (∀ c ∈ e.durationText.toList, isBlank c = false ∧ c ≠ '|')
      ∧ e.durationText.toList.foldl depthAfter 0 = 0 := by
    rcases durationText_cases hQ h with ⟨hnone, -⟩ | ⟨value, hvalue, hplain, -⟩
    · rw [hnone]
      refine ⟨?_, rfl⟩
      intro c hc
      cases hc
    · rw [hvalue]
      refine ⟨?_, ?_⟩
      · intro c hc
        rcases List.mem_cons.mp hc with rfl | hc
        · decide
        · have hp := hplain c hc
          exact ⟨isBlank_of_isPlain hp, fun he => by subst he; exact absurd hp (by decide)⟩
      · rw [List.foldl_cons, show depthAfter 0 ':' = 0 from rfl]
        exact foldl_depthAfter_of_isPlain hplain 0
  have hmem : ∀ c ∈ e.text.toList, isBlank c = false ∧ c ≠ '|' := by
    intro c hc
    rw [toList_text] at hc
    rcases List.mem_append.mp hc with hc | hc
    · refine ⟨(hchar c hc).isBlank, fun he => ?_⟩
      subst he
      exact (hchar '|' hc).notMem (by decide)
    · exact hduration.1 c hc
  refine ⟨?_, fun c hc => (hmem c hc).1, fun hbar => (hmem '|' hbar).2 rfl, ?_, ?_⟩
  · rw [toList_text, htext]
    exact List.cons_ne_nil _ _
  · rw [toList_text, List.foldl_append, hdepth]
    exact hduration.2
  · intro he
    rw [toList_text, htext, List.cons_append] at he
    obtain ⟨hd, hnil⟩ := List.cons.inj he
    exact hsharp hd (List.append_eq_nil_iff.mp hnil).1

theorem splitDuration_text (hQ : Faithful Q) {e : Entry Q} (h : e.Legible) (line column : Int) :
    ∃ d : Option Q, d.getD usualDuration = e.duration
      ∧ splitDuration line column e.text.toList = .ok (e.content.text.toList, d) := by
  have hchar := EntryContent.isChordChar_text h.content
  obtain ⟨c, cs, htext, -, -⟩ := EntryContent.exists_cons_text h.content
  rcases durationText_cases hQ h with ⟨hnone, husual⟩ | ⟨value, hvalue, hplain, hread⟩
  · have hword : e.text.toList = e.content.text.toList := by
      rw [toList_text, hnone]
      exact List.append_nil _
    rw [hword]
    exact ⟨none, husual.symm, splitDuration_of_notMem fun hm => (hchar ':' hm).notMem (by decide)⟩
  · rw [toList_text, hvalue, htext]
    have hline : '\n' ∉ e.content.text.toList := fun hm => (hchar '\n' hm).notMem (by decide)
    exact ⟨some e.duration, rfl, splitDuration_append (List.cons_ne_nil c cs) (htext ▸ hline)
      (fun hm => absurd (hplain ':' hm) (by decide)) hread⟩

end Entry

/-- **Taking the word of an entry adds the entry.** -/
theorem Builder.take_text (hQ : Faithful Q) (b : Builder Q) {e : Entry Q} (h : e.Legible) :
    ∃ previous, b.take Table.standard (.word e.text.toList)
      = .ok { b.append e.content (some e.duration) with previous } := by
  obtain ⟨d, hd, hsplit⟩ := Entry.splitDuration_text hQ h 1 1
  obtain ⟨c, cs, htext, hat, -⟩ := EntryContent.exists_cons_text h.content
  have hhead : e.text.toList.head? ≠ some '@' := by
    rw [Entry.toList_text, htext]
    intro he
    exact hat (Option.some.inj he)
  have hread : (Piece.word e.text.toList).read (Q := Q) Table.standard
      = .ok (.sound e.content.sound d) := by
    show TokenContent.read Table.standard ⟨e.text.toList, 1, 1⟩ = _
    rw [TokenContent.read_sound Table.standard hhead, hsplit]
    show (Sound.read Table.standard ⟨e.content.text.toList, 1, 1⟩).map _ = _
    rw [EntryContent.read_text h.content]
    rfl
  have happend : b.append e.content d = b.append e.content (some e.duration) := by
    unfold append
    rw [hd]
    rfl
  unfold take
  rw [hread]
  show ∃ previous, b.feed ⟨.sound e.content.sound d, "", 1, 1⟩ = _
  rw [← happend]
  cases he : e.content with
  | chord c => exact ⟨some c, rfl⟩
  | rest => exact ⟨b.previous, rfl⟩
  | tie => exact ⟨b.previous, rfl⟩

/-! ### Marks of keys -/

def Key.mark (k : Key) : List Char :=
  '@' :: k.text.toList

theorem Key.isWord_mark {k : Key} (h : k.Legible) : IsWord k.mark := by
  obtain ⟨p, hp, -⟩ := h
  have hmode : ∀ m : Mode, ∀ c ∈ (modeText m).toList,
      isBlank c = false ∧ c ≠ '|' ∧ c ∉ ['(', '[', ')', ']'] := by
    intro m
    refine forall_mem_of_all ?_
    cases m <;> decide
  have hmem : ∀ c ∈ k.text.toList, isBlank c = false ∧ c ≠ '|' ∧ c ∉ ['(', '[', ')', ']'] := by
    intro c hc
    rw [toList_text] at hc
    rcases List.mem_append.mp hc with hc | hc
    · have hplain := PitchClass.isPlain_of_takeName hp c hc
      exact ⟨isBlank_of_isPlain hplain, fun he => by subst he; exact absurd hplain (by decide),
        notMem_brackets_of_isPlain hplain⟩
    · exact hmode k.mode c hc
  refine ⟨List.cons_ne_nil _ _, ?_, ?_, ?_, ?_⟩
  · intro c hc
    rcases List.mem_cons.mp hc with rfl | hc
    · decide
    · exact (hmem c hc).1
  · intro hbar
    rcases List.mem_cons.mp hbar with he | hc
    · exact absurd he (by decide)
    · exact (hmem '|' hc).2.1 rfl
  · rw [mark, List.foldl_cons, show depthAfter 0 '@' = 0 from rfl]
    exact foldl_depthAfter_of_notMem _ 0 fun c hc => (hmem c hc).2.2
  · intro he
    exact absurd (List.cons.inj he).1 (by decide)

theorem Key.read_mark (table : Table) {k : Key} (h : k.Legible) :
    (Piece.word k.mark).read (Q := Q) table = .ok (.key k.reread) := by
  obtain ⟨p, hp, -⟩ := h
  have hkey : Key.read (String.ofList k.text.toList) = .ok k.reread := by
    rw [String.ofList_toList, Key.read_text hp, Key.reread_eq hp]
  unfold Piece.read
  exact TokenContent.read_key table hkey 1 1

theorem Builder.take_mark (b : Builder Q) {k : Key} (h : k.Legible) :
    b.take Table.standard (.word k.mark) = .ok (b.changeKey (some k.reread)) := by
  unfold take
  rw [Key.read_mark Table.standard h]
  rfl

end LeadSheet
