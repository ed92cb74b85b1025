import LeadSheet.Number.Quantity
import LeadSheet.Proofs.Datum.Atoms
import LeadSheet.Proofs.Datum.Flat
import LeadSheet.Proofs.Reading.Fault
import LeadSheet.Proofs.Reading.Piece
import LeadSheet.Proofs.Writing.Chord
import LeadSheet.Score.Reader

/-!
# Every text is read or misread

Whatever a text holds, reading it as a score comes to a score, to a misreading
or to a bad key, with one exception: a number of more than `maxDigits` digits
is not read at all (`Score.reads_text`).

The words of a text and the atoms of a datum stand in the text
(`infix_of_mem_lex`, `infix_of_mem_lexDatum`), so the exception needs as many
digits in a row there.  With a group of nothing but digits (`groupOf`) it does
come up.
-/

namespace LeadSheet

open Text

/-! ### Words stand in their text -/

theorem infix_of_first {cs : List Char}
    (h : ∀ {l : List Char} {ls : List (List Char)}, lines cs = l :: ls →
      l <+: cs ∧ ∀ m ∈ ls, m <:+: cs) : ∀ m ∈ lines cs, m <:+: cs := by
  intro m hm
  obtain ⟨l, ls, hl⟩ := List.exists_cons_of_ne_nil (lines_ne_nil cs)
  rw [hl] at hm
  rcases List.mem_cons.mp hm with rfl | hm
  · exact (h hl).1.isInfix
  · exact (h hl).2 m hm

theorem infix_of_lines_eq {cs l : List Char} {ls : List (List Char)} (h : lines cs = l :: ls) :
    l <+: cs ∧ ∀ m ∈ ls, m <:+: cs := by
  fun_induction lines cs generalizing l ls with
  | case1 =>
    obtain ⟨rfl, rfl⟩ := List.cons.inj h
    exact ⟨List.prefix_refl _, fun m hm => absurd hm List.not_mem_nil⟩
  | case2 cs ih =>
    obtain ⟨rfl, rfl⟩ := List.cons.inj h
    exact ⟨List.nil_prefix, fun m hm => List.infix_cons (infix_of_first ih m hm)⟩
  | case3 cs ih =>
    obtain ⟨rfl, rfl⟩ := List.cons.inj h
    exact ⟨List.nil_prefix, fun m hm => List.infix_cons (List.infix_cons (infix_of_first ih m hm))⟩
  | case4 c cs _ _ hl ih => exact absurd hl (lines_ne_nil cs)
  | case5 c cs _ _ l' ls' hl ih =>
    obtain ⟨rfl, rfl⟩ := List.cons.inj h
    obtain ⟨hfirst, hothers⟩ := ih hl
    exact ⟨(List.prefix_cons_inj c).mpr hfirst, fun m hm => List.infix_cons (hothers m hm)⟩

theorem infix_of_mem_lines {cs l : List Char} (h : l ∈ lines cs) : l <:+: cs :=
  infix_of_first infix_of_lines_eq l h

/-- A text that stands in another one, between what is before and after it. -/
structure Source.Inside (s whole : Source) (before after : List Char) : Prop where
  text : whole.text = before ++ s.text ++ after
  line : s.line = whole.line
  column : s.column = whole.column + before.length

theorem Source.Inside.append {s : Source} {cs before after : List Char} {line column : Int}
    (front : List Char) (h : s.Inside ⟨cs, line, column + front.length⟩ before after) :
    s.Inside ⟨front ++ cs, line, column⟩ (front ++ before) after := by
  obtain ⟨htext, hline, hcolumn⟩ := h
  refine ⟨?_, hline, ?_⟩
  · rw [show cs = before ++ s.text ++ after from htext]
    simp
  · dsimp only at hcolumn ⊢
    rw [List.length_append]
    omega

theorem exists_inside_of_mem_lexLine {line column : Int} {cs : List Char} {s : Source}
    (h : .word s ∈ lexLine line column cs) :
    ∃ before after, s.Inside ⟨cs, line, column⟩ before after ∧ AtGap after := by
  fun_induction lexLine line column cs with
  | case1 => cases h
  | case2 column c cs hblank ih =>
    obtain ⟨before, after, hin, hgap⟩ := ih h
    exact ⟨c :: before, after, hin.append [c], hgap⟩
  | case3 column cs hblank ih =>
    rcases List.mem_cons.mp h with h | h
    · cases h
    · obtain ⟨before, after, hin, hgap⟩ := ih h
      exact ⟨'|' :: before, after, hin.append ['|'], hgap⟩
  | case4 => cases h
  | case5 column c cs hblank hbar hcomment tail ih =>
    have hcs : c :: cs = (c :: tail.1) ++ tail.2 := by rw [List.cons_append, flatten_takeWord]
    rw [hcs]
    rcases List.mem_cons.mp h with h | h
    · cases h
      exact ⟨[], tail.2, ⟨rfl, rfl, by simp⟩, atGap_takeWord (depthAfter 0 c) cs⟩
    · rw [column_cons column c tail.1] at ih h
      obtain ⟨before, after, hin, hgap⟩ := ih h
      exact ⟨(c :: tail.1) ++ before, after, hin.append _, hgap⟩

theorem exists_inside_of_mem_lexLines {s : Source} : ∀ {ls : List (List Char)} {line : Int},
    .word s ∈ lexLines line ls → ∃ (n : Nat) (cs : List Char) (before after : List Char),
      ls[n]? = some cs ∧ s.Inside ⟨cs, line + n, 1⟩ before after ∧ AtGap after := by
  intro ls
  induction ls with
  | nil => intro line h; cases h
  | cons l ls ih =>
    intro line h
    rcases List.mem_append.mp h with h | h
    · have hword : .word s ∈ lexLine line 1 l := by
        unfold lexWholeLine at h
        dsimp only at h
        split at h
        · cases h
        · simpa using h
      obtain ⟨before, after, hin⟩ := exists_inside_of_mem_lexLine hword
      exact ⟨0, l, before, after, rfl, by simpa using hin⟩
    · obtain ⟨n, cs, before, after, hcs, hin⟩ := ih h
      refine ⟨n + 1, cs, before, after, hcs, ?_⟩
      rwa [show line + ((n + 1 : Nat) : Int) = line + 1 + n by omega]

theorem infix_of_mem_lex {text : String} {s : Source} (h : .word s ∈ lex text) :
    s.text <:+: text.toList := by
  obtain ⟨n, l, before, after, hl, hin, -⟩ := exists_inside_of_mem_lexLines h
  have hword : s.text <:+: l := ⟨before, after, hin.text.symm⟩
  exact hword.trans (infix_of_mem_lines (List.mem_of_getElem? hl))

def DatumLexeme.source (l : DatumLexeme) : Source :=
  ⟨l.text, l.line, l.column⟩

theorem exists_inside_of_mem_lexDatumLine {line column : Int} {cs : List Char} {l : DatumLexeme}
    (h : l ∈ lexDatumLine line column cs) :
    ∃ before after, l.source.Inside ⟨cs, line, column⟩ before after := by
  fun_induction lexDatumLine line column cs with
  | case1 => cases h
  | case2 column c cs hblank ih =>
    obtain ⟨before, after, hin⟩ := ih h
    exact ⟨c :: before, after, hin.append [c]⟩
  | case3 => cases h
  | case4 column cs _ _ ih =>
    rcases List.mem_cons.mp h with rfl | h
    · exact ⟨[], cs, rfl, rfl, by simp [DatumLexeme.source, DatumLexeme.column]⟩
    · obtain ⟨before, after, hin⟩ := ih h
      exact ⟨'(' :: before, after, hin.append ['(']⟩
  | case5 column cs _ _ _ ih =>
    rcases List.mem_cons.mp h with rfl | h
    · exact ⟨[], cs, rfl, rfl, by simp [DatumLexeme.source, DatumLexeme.column]⟩
    · obtain ⟨before, after, hin⟩ := ih h
      exact ⟨')' :: before, after, hin.append [')']⟩
  | case6 column c cs _ _ _ _ tail ih =>
    have hcs : c :: cs = (c :: tail) ++ cs.dropWhile (fun c => !endsAtom c) := by
      rw [List.cons_append, List.takeWhile_append_dropWhile]
    rw [hcs]
    rcases List.mem_cons.mp h with rfl | h
    · exact ⟨[], _, rfl, rfl, by simp [DatumLexeme.source, DatumLexeme.column]⟩
    · rw [column_cons column c tail] at ih h
      obtain ⟨before, after, hin⟩ := ih h
      exact ⟨(c :: tail) ++ before, after, hin.append _⟩

theorem exists_inside_of_mem_lexDatumLines {l : DatumLexeme} : ∀ {ls : List (List Char)}
    {line : Int}, l ∈ lexDatumLines line ls → ∃ (n : Nat) (cs before after : List Char),
      ls[n]? = some cs ∧ l.source.Inside ⟨cs, line + n, 1⟩ before after := by
  intro ls
  induction ls with
  | nil => intro line h; cases h
  | cons cs ls ih =>
    intro line h
    rcases List.mem_append.mp h with h | h
    · obtain ⟨before, after, hin⟩ := exists_inside_of_mem_lexDatumLine h
      exact ⟨0, cs, before, after, rfl, by simpa using hin⟩
    · obtain ⟨n, cs', before, after, hcs, hin⟩ := ih h
      refine ⟨n + 1, cs', before, after, hcs, ?_⟩
      rwa [show line + ((n + 1 : Nat) : Int) = line + 1 + n by omega]

theorem infix_of_mem_lexDatum {text : String} {l : DatumLexeme} (h : l ∈ lexDatum text) :
    l.text <:+: text.toList := by
  obtain ⟨n, cs, before, after, hcs, hin⟩ := exists_inside_of_mem_lexDatumLines h
  have hpiece : l.text <:+: cs := ⟨before, after, hin.text.symm⟩
  exact hpiece.trans (infix_of_mem_lines (List.mem_of_getElem? hcs))

/-! ### Data -/

def Datum.Within (text : List Char) (d : Datum) : Prop :=
  d.All fun s => s.text <:+: text

theorem DatumReader.reads_take (text : List Char) (r : DatumReader) (l : DatumLexeme) :
    Reads text (fun _ => True) (r.take l) := by
  unfold take
  split
  · exact .misread _
  · split
    · exact .done trivial
    · split
      · exact .misread _
      · exact .done trivial
    · exact .done trivial

theorem DatumReader.reads_finish (text : List Char) (r : DatumReader) :
    Reads text (fun _ => True) r.finish := by
  unfold finish
  split
  · exact .misread _
  · exact .done trivial
  · exact .misread _

theorem Datum.reads (text : String) :
    Reads text.toList (·.Within text.toList) (Datum.read text) := by
  have hrun : Reads text.toList (fun _ => True) (Datum.read text) :=
    (Reads.foldlM_true _ fun r l _ => DatumReader.reads_take text.toList r l).bind fun r _ =>
      DatumReader.reads_finish text.toList r
  exact hrun.of_eq_ok fun d hd => all_of_read (fun s hs => infix_of_mem_lexDatum hs) hd

theorem Datum.reads_measures {text : List Char} {d : Datum} (h : d.Within text) :
    Reads text (fun ds => ∀ d ∈ ds, d.Within text) d.measures := by
  cases d with
  | atom => exact .misread _
  | list line column items =>
    simp only [measures]
    split
    · exact .done fun d hd => all_list.mp h d (List.mem_of_mem_tail hd)
    · exact .misread _

section Building

variable {Q : Type} [Quantity Q]

theorem ScoreBuilding.reads_step {table : Table} (h : "" ∈ table.symbols) {text : List Char}
    {d : Datum} (hd : d.Within text) {step : MeasureStep} (hstep : d.StepOf step)
    (b : ScoreBuilding Q) : Reads text (fun _ => True) (ScoreBuilding.perform table b step) := by
  cases hstep with
  | enter => exact .done trivial
  | leave =>
    obtain ⟨builder, outer⟩ := b
    cases outer <;> exact .done trivial
  | word hs =>
    refine ((Token.reads h _).mono (hd _ hs) fun _ h => h).bind fun t _ => ?_
    exact (Builder.reads_feed text b.builder t).bind fun _ _ => .done trivial
  | close => exact .done trivial
  | misread m => exact .misread m
  | badKey line column f => exact .badKey line column f

/-! ### Scores -/

/-- **A score in brackets is read or misread**, as soon as the table has a
quality for a bare root. -/
theorem Score.readDatum_reads {table : Table} (h : "" ∈ table.symbols) (key : Option Key)
    (text : String) :
    Reads text.toList (fun _ => True)
      (Score.readDatum table key text : Except ReadFault (Score Q)) := by
  unfold Score.readDatum
  refine (Datum.reads text).bind fun d hd => (Datum.reads_measures hd).bind fun ds hds => ?_
  refine (Reads.foldlM_true _ fun b step hstep => ?_).bind fun _ _ => .done trivial
  obtain ⟨d', hd', hmem⟩ := List.mem_flatMap.mp hstep
  exact ScoreBuilding.reads_step h (hds d' hd') (Datum.stepOf_of_mem hmem) b

/-- **A score text is read or misread**, as soon as the table has a quality for
a bare root. -/
theorem Score.read_reads {table : Table} (h : "" ∈ table.symbols) (key : Option Key)
    (text : String) :
    Reads text.toList (fun _ => True)
      (Score.read table key text : Except ReadFault (Score Q)) := by
  unfold Score.read tokenize Score.ofTokens
  refine Reads.bind (Reads.mapM fun l hl => ?_) fun ts _ => ?_
  · cases l with
    | word s => exact (Token.reads h s).mono (infix_of_mem_lex hl) fun _ h => h
    | bar => exact .done trivial
    | newline => exact .done trivial
  · exact (Reads.foldlM_true _ fun b t _ => Builder.reads_feed text.toList b t).map
      fun _ _ => trivial

/-! ### Numbers of too many digits -/

theorem ne_of_isDigit {c d : Char} (h : isDigit c = true) (hd : isDigit d = false) : c ≠ d := by
  rintro rfl
  rw [h] at hd
  cases hd

theorem isBlank_of_isDigit {c : Char} (h : isDigit c = true) : isBlank c = false := by
  have hrows : ∀ row ∈ zeros, (0x30 ≤ row ∧ row ≤ 0x30) ∨ (0x660 ≤ row ∧ row ≤ 0x1090)
      ∨ (0x17E0 ≤ row ∧ row ≤ 0x1C50) ∨ 0xA620 ≤ row := by decide
  obtain ⟨v, hv⟩ := Option.isSome_iff_exists.mp h
  obtain ⟨row, hrow, -⟩ := Option.map_eq_some_iff.mp hv
  have hin := List.find?_some hrow
  simp only [Bool.and_eq_true, decide_eq_true_eq] at hin
  have hmem := hrows row (List.mem_of_find?_eq_some hrow)
  simp only [isBlank, Bool.or_eq_false_iff, Bool.and_eq_false_iff, decide_eq_false_iff_not,
    beq_eq_false_iff_ne]
  omega

/-- A chord on C with a group that holds nothing but some digits. -/
def groupOf (ds : List Char) : List Char :=
  'C' :: '[' :: (ds ++ [']'])

variable {ds : List Char}

theorem mem_groupOf {c : Char} (h : c ∈ groupOf ds) : c ∈ "C[]".toList ∨ c ∈ ds := by
  simp only [groupOf, List.mem_cons, List.mem_append, List.not_mem_nil, or_false] at h
  rcases h with rfl | rfl | h | rfl
  · exact .inl (by decide)
  · exact .inl (by decide)
  · exact .inr h
  · exact .inl (by decide)

theorem isFlatWord_groupOf (h : ∀ c ∈ ds, isDigit c = true) : IsFlatWord (groupOf ds) := by
  have hopening : '[' ∉ ds := fun hm => absurd (h _ hm) (by decide)
  have hclosing : ']' ∉ ds := fun hm => absurd (h _ hm) (by decide)
  have hends : ∀ c ∈ "C[]".toList, isBlank c = false ∧ c ≠ '(' ∧ c ≠ ')' ∧ c ≠ ';' ∧ c ≠ '|' :=
    forall_mem_of_all (by decide)
  refine ⟨by simp [groupOf], fun c hc => ?_, fun c hc => ?_, fun p hp => ?_, ?_, by simp [groupOf]⟩
  · rcases mem_groupOf hc with hc | hc
    · exact (hends c hc).1
    · exact isBlank_of_isDigit (h c hc)
  · rcases mem_groupOf hc with hc | hc
    · exact (hends c hc).2
    · have hd := h c hc
      exact ⟨ne_of_isDigit hd (by decide), ne_of_isDigit hd (by decide),
        ne_of_isDigit hd (by decide), ne_of_isDigit hd (by decide)⟩
  · rw [List.mem_inits] at hp
    have hone : (groupOf ds).count ']' = 1 := by
      simp [groupOf, List.count_eq_zero_of_not_mem hclosing]
    have hle : p.count ']' ≤ 1 := hone ▸ hp.sublist.count_le _
    -- a first part without the opening bracket is too short to hold the closing one
    rcases List.prefix_cons_iff.mp hp with rfl | ⟨p', rfl, hp'⟩
    · exact Nat.le_refl _
    · rcases List.prefix_cons_iff.mp hp' with rfl | ⟨p'', rfl, -⟩
      · decide
      · have hpos : 1 ≤ ('C' :: '[' :: p'').count '[' := by simp
        exact Nat.le_trans hle hpos
  · simp [groupOf, List.count_eq_zero_of_not_mem hclosing,
      List.count_eq_zero_of_not_mem hopening]

theorem read?_digits (hne : ds ≠ []) (h : ∀ c ∈ ds, isDigit c = true) :
    Item.read? ds = some ⟨none, .natural, ds⟩ := by
  obtain ⟨d, ds', rfl⟩ := List.exists_cons_of_ne_nil hne
  have hd : isDigit d = true := h d (List.mem_cons_self ..)
  have hword : Item.takeWord (d :: ds') = (none, d :: ds') := by
    have htake : ItemWord.take? (d :: ds') = none := by
      refine List.findSome?_eq_none_iff.mpr fun w _ => ?_
      have hw : after? w.text.toList (d :: ds') = none := by
        cases w
        · exact if_neg (ne_of_isDigit hd (by decide)).symm
        · exact if_neg (ne_of_isDigit hd (by decide)).symm
        · exact if_neg (ne_of_isDigit hd (by decide)).symm
      rw [hw]
      rfl
    rw [Item.takeWord, htake]
  have hsign : Item.takeSign (d :: ds') = (.natural, d :: ds') := by
    have hnone : Accidental.ofSign? d = none := by
      have hne' : ∀ c, isDigit c = false → d ≠ c := fun c hc => ne_of_isDigit hd hc
      unfold Accidental.ofSign? Accidental.ofChar?
      rw [if_neg (hne' _ (by decide)), if_neg (hne' _ (by decide)),
        if_neg (not_or.mpr ⟨hne' _ (by decide), hne' _ (by decide)⟩),
        if_neg (not_or.mpr ⟨hne' _ (by decide), hne' _ (by decide)⟩)]
    rw [Item.takeSign, hnone]
  have hall : (d :: ds').all isDigit = true := List.all_eq_true.mpr h
  simp only [Item.read?, hword, hsign, hall]
  rfl

theorem readGroup_digits (h : ∀ c ∈ ds, isDigit c = true) (hlong : maxDigits < ds.length)
    (s : Source) (start : Nat) : readGroup s start ds = .error (.numberTooLong ds.length) := by
  have hne : ds ≠ [] := by rintro rfl; exact absurd hlong (by decide)
  have htrim : trim ds = ds := trim_eq_self fun c hc => isBlank_of_isDigit (h c hc)
  have hcomma : ds.splitOn ',' = [ds] :=
    List.splitOn_eq_singleton fun hm => absurd (h _ hm) (by decide)
  unfold readGroup
  rw [hcomma, locateItems, locateItems, List.mapM_cons, htrim]
  dsimp only
  unfold readItem Item.toExtension
  rw [read?_digits hne h]
  dsimp only
  rw [if_pos hlong]
  rfl

theorem readQuality_bracket (s : Source) (cs : List Char) :
    readQuality Table.standard s false ('[' :: cs)
      = .ok ((Quality.majorTriad, []), '[' :: cs) := by
  have hsymbols : ∀ s ∈ Table.standard.symbols, '[' ∉ s.toList := by decide +kernel
  have htake : Table.standard.take? ([] ++ '[' :: cs) = some (Quality.majorTriad, '[' :: cs) := by
    refine Table.take?_append (fun c hc => ?_) (by decide +kernel)
    obtain rfl : '[' = c := Option.some.inj hc
    exact hsymbols
  have hbare : readBare s ('[' :: cs) [] = .ok ([], []) := by rw [readBare]; rfl
  have htail : ('[' :: cs).dropWhile (fun c => !endsHead c) = '[' :: cs := rfl
  rw [List.nil_append] at htake
  unfold readQuality
  rw [htake]
  simp only [htail, Nat.lt_irrefl, if_false, Nat.sub_self, List.take_zero, hbare]
  rfl

theorem Chord.read_groupOf (h : ∀ c ∈ ds, isDigit c = true) (hlong : maxDigits < ds.length)
    {s : Source} (hs : s.text = groupOf ds) :
    Chord.read Table.standard s = .error (.numberTooLong ds.length) := by
  have hne : ds ≠ [] := by rintro rfl; exact absurd hlong (by decide)
  have htrim : trim ds = ds := trim_eq_self fun c hc => isBlank_of_isDigit (h c hc)
  have hsplit : splitAt? ']' (ds ++ [']']) = some (ds, []) :=
    splitAt?_append [] fun hm => absurd (h _ hm) (by decide)
  have hroot : readRoot s .chord s.text
      = .ok ((.pitch ⟨0, some "C"⟩, false), '[' :: (ds ++ [']'])) := by
    rw [hs]
    rfl
  rw [Chord.read_of_head hroot (readQuality_bracket s _),
    readGroups_cons s rfl hsplit (by rw [htrim]; simpa using hne), readGroup_digits h hlong]
  rfl

theorem Token.read_groupOf (h : ∀ c ∈ ds, isDigit c = true) (hlong : maxDigits < ds.length)
    {s : Source} (hs : s.text = groupOf ds) :
    (Token.read Table.standard s : Except ReadFault (Token Q))
      = .error (.numberTooLong ds.length) := by
  have hcolon : splitColon s.text = none := by
    cases hc : splitColon s.text with
    | none => rfl
    | some r =>
      have hmem : ':' ∈ groupOf ds := by
        rw [← hs, (splitColon_eq_some.mp hc).1]
        simp
      rcases mem_groupOf hmem with hm | hm
      · exact absurd hm (by decide)
      · exact absurd (h _ hm) (by decide)
  have hsplit : (splitDuration s.line s.column s.text : Except ReadFault (List Char × Option Q))
      = .ok (s.text, none) := by
    unfold splitDuration
    rw [hcolon]
  have hsound : Sound.read Table.standard s = .error (.numberTooLong ds.length) := by
    have hother : s.text ≠ ['_'] ∧ s.text ≠ "N.C.".toList ∧ s.text ≠ ['='] ∧ s.text ≠ ['%'] := by
      rw [hs]
      simp [groupOf]
    obtain ⟨h₁, h₂, h₃, h₄⟩ := hother
    unfold Sound.read
    rw [if_neg (not_or.mpr ⟨h₁, h₂⟩), if_neg h₃, if_neg h₄, Chord.read_groupOf h hlong hs]
    rfl
  unfold Token.read
  rw [TokenContent.read_sound Table.standard (by rw [hs]; simp [groupOf]), hsplit]
  show Except.map _ ((Sound.read Table.standard s).map _) = _
  rw [hsound]
  rfl

theorem Score.read_groupOf (h : ∀ c ∈ ds, isDigit c = true) (hlong : maxDigits < ds.length)
    (key : Option Key) :
    (Score.read Table.standard key (String.ofList (groupOf ds)) : Except ReadFault (Score Q))
      = .error (.numberTooLong ds.length) := by
  have hword : IsWord (groupOf ds) := (isFlatWord_groupOf h).isWord
  obtain ⟨column, hlex⟩ := lexLine_word hword atGap_nil 1 1
  have hlines : lines (groupOf ds) = [groupOf ds] :=
    lines_eq_singleton fun hm => absurd (hword.blank _ hm) (by decide)
  have hpieces : ∃ ls, lex (String.ofList (groupOf ds)) = .word ⟨groupOf ds, 1, 1⟩ :: ls := by
    unfold lex
    rw [String.toList_ofList, hlines, lexLines, lexWholeLine]
    rw [List.append_nil] at hlex
    rw [hlex]
    exact ⟨_, rfl⟩
  obtain ⟨ls, hls⟩ := hpieces
  unfold Score.read tokenize
  rw [hls, List.mapM_cons]
  show (((Token.read Table.standard ⟨groupOf ds, 1, 1⟩ >>= _) >>= _ :
    Except ReadFault (Score Q))) = _
  rw [Token.read_groupOf h hlong rfl]
  rfl

theorem Score.readDatum_groupOf (h : ∀ c ∈ ds, isDigit c = true) (hlong : maxDigits < ds.length)
    (key : Option Key) :
    (Score.readDatum Table.standard key (bracketed [[String.ofList (groupOf ds)]])
        : Except ReadFault (Score Q)) = .error (.numberTooLong ds.length) := by
  have hflat : ∀ m ∈ [[String.ofList (groupOf ds)]], ∀ w ∈ m, IsFlatWord w.toList := by
    intro m hm w hw
    obtain rfl := List.mem_singleton.mp hm
    obtain rfl := List.mem_singleton.mp hw
    rw [String.toList_ofList]
    exact isFlatWord_groupOf h
  obtain ⟨xs, htext, hread⟩ := read_bracketed hflat
  -- the datum holds one measure, and that holds one atom
  obtain ⟨column, s, column', hs, rfl⟩ : ∃ (column : Int) (s : Source) (column' : Int),
      s.text = groupOf ds ∧ xs = [(column, [s], column')] := by
    obtain ⟨⟨column, ss, column'⟩, rfl, hx⟩ := List.map_eq_singleton_iff.mp htext
    obtain ⟨s, rfl, hs⟩ := List.map_eq_singleton_iff.mp hx
    exact ⟨column, s, column', by rw [hs, String.toList_ofList], rfl⟩
  have hkeyed : Datum.startsWith "keyed" ([s].map Datum.atom) = false := by
    simp [Datum.startsWith, hs, groupOf]
  unfold Score.readDatum
  rw [hread]
  show (([measureDatum (column, [s], column')].flatMap Datum.steps).foldlM
    (ScoreBuilding.perform Table.standard) _ >>= _) = _
  rw [List.flatMap_singleton, steps_measureDatum hkeyed]
  show (((Token.read Table.standard s >>= _) >>= _) >>= _ : Except ReadFault (Score Q)) = _
  rw [Token.read_groupOf h hlong hs]
  rfl

/-! ### Every text -/

/-- **Every text is read as a score, in either notation, or misread, or found to
name a bad key, unless a number of too many digits stands in it.**  The
measures of a datum nest, and the key to go back to behind a keyed one is
always there.  Every number of too many digits does fail in either notation,
where it stands in a group. -/
theorem Score.reads_text (key : Option Key) (text : String) :
    Reads text.toList (fun _ => True)
        (Score.read Table.standard key text : Except ReadFault (Score Q))
      ∧ Reads text.toList (fun _ => True)
        (Score.readDatum Table.standard key text : Except ReadFault (Score Q))
      ∧ (Score.readNested Table.standard key text : Except (ReadFault ⊕ KeyIndexFault) (Score Q))
        = (Score.readDatum Table.standard key text).mapError .inl
      ∧ ∀ ds, (∀ c ∈ ds, isDigit c = true) → maxDigits < ds.length →
        (Score.read Table.standard key (String.ofList (groupOf ds)) : Except ReadFault (Score Q))
            = .error (.numberTooLong ds.length)
          ∧ (Score.readDatum Table.standard key (bracketed [[String.ofList (groupOf ds)]])
            : Except ReadFault (Score Q)) = .error (.numberTooLong ds.length) := by
  have hplain : "" ∈ Table.standard.symbols := by decide
  exact ⟨Score.read_reads hplain key text, Score.readDatum_reads hplain key text,
    Score.readNested_eq Table.standard key text,
    fun ds h hlong => ⟨Score.read_groupOf h hlong key, Score.readDatum_groupOf h hlong key⟩⟩

/-- A number of 4301 digits in a group. -/
theorem Score.reads_text_nines :
    (∀ c ∈ List.replicate 4301 '9', isDigit c = true)
      ∧ maxDigits < (List.replicate 4301 '9').length
      ∧ (Score.read Table.standard none (String.ofList (groupOf (List.replicate 4301 '9')))
        : Except ReadFault (Score Rat)) = .error (.numberTooLong 4301) := by
  have hdigit : ∀ c ∈ List.replicate 4301 '9', isDigit c = true := by
    intro c hc
    rw [List.eq_of_mem_replicate hc]
    decide
  have hlong : maxDigits < (List.replicate 4301 '9').length := by
    rw [List.length_replicate]
    decide
  have hread := ((Score.reads_text (Q := Rat) none "").2.2.2 _ hdigit hlong).1
  rw [List.length_replicate] at hread
  exact ⟨hdigit, hlong, hread⟩

end Building

end LeadSheet
