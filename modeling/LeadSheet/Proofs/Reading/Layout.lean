import LeadSheet.Number.Quantity
import LeadSheet.Proofs.Reading.Row
import LeadSheet.Quality.Standard
import Mathlib.Logic.Relation

/-!
# Layout does not change a score

A text can be laid out in other ways (`Relaid`): with more rows that hold
nothing but blanks and comments, with comments behind its lines, with other
gaps behind its tokens, with more bars at the ends of its lines and beside its
bars, and with carriage returns in its line ends.

No such step changes what a closed builder comes to when it takes the row
(`RowStep.takeRow`) or all the rows (`LayoutStep.foldlM_takeRow`).  So a text
that is read as a score is read as the very same score in any layout
(`Score.read_of_relaid`).  What makes this work is that every word of such a
text is whole: no blank can be taken into it, and no gap behind it can be the
start of a comment.
-/

namespace LeadSheet

open Text

/-! ### Layouts -/

/-- A row with nothing on it but blanks and a comment, if anything. -/
def IsIdle (r : List Char) : Prop :=
  ∃ blanks rest, r = blanks ++ rest ∧ (∀ c ∈ blanks, isBlank c = true) ∧ AtEnd rest

structure IsGap (cs : List Char) : Prop where
  ne_nil : cs ≠ []
  blank : ∀ c ∈ cs, isBlank c = true

/-- A token of a row starts behind its first `n` characters. -/
def TokenStarts (r : List Char) (n : Nat) : Prop :=
  ∃ x ∈ lexLine 1 1 r, x.column = 1 + n

/-- A token of a row ends with its first `n` characters. -/
def TokenEnds (r : List Char) (n : Nat) : Prop :=
  ∃ x ∈ lexLine 1 1 r, x.column + x.text.length = 1 + n

/-- One change to the layout of a row. -/
inductive RowStep : List Char → List Char → Prop
  /-- A comment is written behind it. -/
  | comment (r t : List Char) : RowStep r (r ++ ' ' :: '#' :: ' ' :: t)
  /-- A gap behind a token becomes another one. -/
  | gap {a gap gap' b : List Char} (htoken : TokenEnds (a ++ gap ++ b) a.length)
      (hgap : IsGap gap) (hgap' : IsGap gap') : RowStep (a ++ gap ++ b) (a ++ gap' ++ b)
  /-- A bar is set in front of everything. -/
  | barFirst (r : List Char) : RowStep r (' ' :: '|' :: ' ' :: r)
  /-- A bar is set behind everything. -/
  | barLast (r : List Char) : RowStep r (r ++ [' ', '|', ' '])
  /-- A bar is set in front of a bar. -/
  | barBefore {a b : List Char} (hbar : TokenStarts (a ++ '|' :: b) a.length) :
      RowStep (a ++ '|' :: b) (a ++ ' ' :: '|' :: ' ' :: '|' :: b)
  /-- A bar is set behind a bar. -/
  | barBehind {a b : List Char} (hbar : TokenStarts (a ++ '|' :: b) a.length) :
      RowStep (a ++ '|' :: b) (a ++ '|' :: ' ' :: '|' :: ' ' :: b)
  /-- The row gets a carriage return for its line end. -/
  | crlf (r : List Char) : RowStep r (r ++ ['\r'])
  /-- The row changes in front of the carriage return of its line end. -/
  | within {r r' : List Char} (h : RowStep r r') : RowStep (r ++ ['\r']) (r' ++ ['\r'])

/-- One change to the layout of rows: one of them changes, or one is added on
which nothing stands. -/
inductive LayoutStep : List (List Char) → List (List Char) → Prop
  | change {r r' : List Char} (h : RowStep r r') (before after : List (List Char)) :
      LayoutStep (before ++ r :: after) (before ++ r' :: after)
  | insert {r : List Char} (h : IsIdle r) (before after : List (List Char)) :
      LayoutStep (before ++ after) (before ++ r :: after)

/-- One change to the layout of a text. -/
def Relaid (text text' : String) : Prop :=
  LayoutStep (rows text) (rows text')

/-! ### Rows -/

theorem linePieces_blanks {blanks : List Char} (h : ∀ c ∈ blanks, isBlank c = true)
    (rest : List Char) : linePieces (blanks ++ rest) = linePieces rest := by
  induction blanks with
  | nil => rfl
  | cons c blanks ih =>
    obtain ⟨hc, hblanks⟩ := List.forall_mem_cons.mp h
    rw [List.cons_append, linePieces_blank hc, ih hblanks]

theorem linePieces_spaced_bar (rest : List Char) :
    linePieces (' ' :: '|' :: ' ' :: rest) = .bar :: linePieces rest := by
  rw [linePieces_blank (by decide), linePieces_bar, linePieces_blank (by decide)]

theorem linePieces_of_isIdle {r : List Char} (h : IsIdle r) : linePieces r = [] := by
  obtain ⟨blanks, rest, rfl, hblanks, hend⟩ := h
  rw [linePieces_blanks hblanks]
  rcases hend with rfl | hcomment
  · exact linePieces_nil
  · exact linePieces_of_startsComment hcomment

theorem IsGap.atGap {gap : List Char} (h : IsGap gap) (rest : List Char) :
    AtGap (gap ++ rest) := by
  obtain ⟨c, cs, rfl⟩ := List.exists_cons_of_ne_nil h.ne_nil
  exact atGap_cons (.inl (h.blank c (List.mem_cons_self ..))) _

/-- The pieces of a line up to the end of a token do not depend on the gap that
follows. -/
theorem exists_pieces_of_tokenEnds {a rest : List Char} (h : TokenEnds (a ++ rest) a.length)
    (hwhole : IsWholeLine (a ++ rest)) : ∃ ps, linePieces (a ++ rest) = ps ++ linePieces rest
      ∧ ∀ rest', AtGap rest' → linePieces (a ++ rest') = ps ++ linePieces rest' := by
  obtain ⟨x, hx, hends⟩ := h
  obtain ⟨front, left, ps, htext, hcolumn, hscan, htoken⟩ := exists_scan_token hwhole hx
  have hlength : (front ++ x.text).length = a.length := by
    rw [List.length_append]
    omega
  have hscan := hscan.trans htoken
  obtain ⟨rfl, rfl⟩ : a = front ++ x.text ∧ rest = left :=
    List.append_inj (htext.trans (List.append_assoc ..).symm) hlength.symm
  refine ⟨ps ++ [x.piece], hscan.linePieces, fun rest' hgap => ?_⟩
  obtain ⟨front', hfront, hchange⟩ := hscan.change
  obtain rfl := List.append_cancel_right hfront
  exact (hchange rest' fun _ => hgap).linePieces

theorem exists_pieces_of_bar {a b : List Char} (h : TokenStarts (a ++ '|' :: b) a.length)
    (hwhole : IsWholeLine (a ++ '|' :: b)) :
    ∃ ps, linePieces (a ++ '|' :: b) = ps ++ .bar :: linePieces b
      ∧ ∀ rest, AtGap rest → linePieces (a ++ rest) = ps ++ linePieces rest := by
  obtain ⟨x, hx, hstarts⟩ := h
  obtain ⟨front, left, ps, htext, hcolumn, hscan, -⟩ := exists_scan_token hwhole hx
  have hlength : front.length = a.length := by omega
  obtain ⟨rfl, hrest⟩ := List.append_inj htext hlength.symm
  rw [← hrest] at hscan
  refine ⟨ps, by rw [hscan.linePieces, linePieces_bar], fun rest hgap => ?_⟩
  obtain ⟨front', hfront, hchange⟩ := hscan.change
  obtain rfl := List.append_cancel_right hfront
  exact (hchange rest fun _ => hgap).linePieces

variable {Q : Type} [Quantity Q] {table : Table}

namespace Builder

variable {b b' : Builder Q}

theorem takeRow_of_isIdle (hb : b.Closed) {r : List Char} (h : IsIdle r) :
    b.takeRow table r = .ok b := by
  unfold takeRow
  rw [linePieces_of_isIdle h]
  show Except.ok b.closeLine = .ok b
  rw [closeLine_of_closed hb.measure hb.line]

theorem map_closeLine_bar (ps : List Piece) :
    ((ps ++ [Piece.bar]).foldlM (take table) b).map closeLine
      = (ps.foldlM (take table) b).map closeLine := by
  rw [List.foldlM_append]
  cases ps.foldlM (take table) b with
  | error e => rfl
  | ok d =>
    show Except.ok d.closeMeasure.closeLine = .ok d.closeLine
    rw [closeLine_closeMeasure]

theorem foldlM_bar_bar (ps qs : List Piece) :
    (ps ++ .bar :: .bar :: qs).foldlM (take table) b
      = (ps ++ .bar :: qs).foldlM (take table) b := by
  rw [List.foldlM_append, List.foldlM_append]
  cases ps.foldlM (take table) b with
  | error e => rfl
  | ok d =>
    show qs.foldlM (take table) d.closeMeasure.closeMeasure = qs.foldlM (take table) d.closeMeasure
    rw [closeMeasure_closeMeasure]

end Builder

/-- **A change to the layout of a row does not change what a builder comes to.** -/
theorem RowStep.takeRow {r r' : List Char} (h : RowStep r r') {b b' : Builder Q} (hb : b.Closed)
    (hrow : b.takeRow table r = .ok b') : b.takeRow table r' = .ok b' := by
  have hwhole := Builder.isWholeLine_of_takeRow hrow
  -- a change stands between whole words, whose pieces stay as they are
  induction h with
  | comment r t =>
    have hcomment : linePieces ('#' :: ' ' :: t) = [] := linePieces_of_startsComment rfl
    have hsame : linePieces (r ++ ' ' :: '#' :: ' ' :: t) = linePieces r := by
      rcases linePieces_append hwhole (c := ' ') (by decide) ('#' :: ' ' :: t) with h | h
      · rw [h, hcomment, List.append_nil]
      · exact h
    unfold Builder.takeRow at hrow ⊢
    rw [hsame]
    exact hrow
  | @gap a gap gap' rest htoken hgap hgap' =>
    rw [List.append_assoc] at htoken hwhole hrow ⊢
    obtain ⟨ps, hpieces, hother⟩ := exists_pieces_of_tokenEnds htoken hwhole
    unfold Builder.takeRow at hrow ⊢
    rw [hother _ (hgap'.atGap rest), linePieces_blanks hgap'.blank]
    rw [hpieces, linePieces_blanks hgap.blank] at hrow
    exact hrow
  | barFirst r =>
    unfold Builder.takeRow at hrow ⊢
    rw [linePieces_spaced_bar, List.foldlM_cons, Builder.take_bar,
      Builder.closeMeasure_of_closed hb.measure]
    exact hrow
  | barLast r =>
    have hbar : linePieces ['|', ' '] = [.bar] := by
      rw [linePieces_bar, linePieces_blank (by decide), linePieces_nil]
    unfold Builder.takeRow at hrow ⊢
    rcases linePieces_append hwhole (c := ' ') (by decide) ['|', ' '] with h | h
    · rw [h, hbar, Builder.map_closeLine_bar]
      exact hrow
    · rw [h]
      exact hrow
  | @barBefore a rest hbar =>
    obtain ⟨ps, hpieces, hother⟩ := exists_pieces_of_bar hbar hwhole
    unfold Builder.takeRow at hrow ⊢
    rw [hother _ (atGap_cons (.inl (by decide)) _), linePieces_spaced_bar, linePieces_bar,
      Builder.foldlM_bar_bar, ← hpieces]
    exact hrow
  | @barBehind a rest hbar =>
    obtain ⟨ps, hpieces, hother⟩ := exists_pieces_of_bar hbar hwhole
    unfold Builder.takeRow at hrow ⊢
    rw [hother _ (atGap_cons (.inr rfl) _), linePieces_bar, linePieces_spaced_bar,
      Builder.foldlM_bar_bar, ← hpieces]
    exact hrow
  | crlf r => exact Builder.takeRow_return.mpr hrow
  | within _ ih =>
    have hinner := Builder.takeRow_return.mp hrow
    exact Builder.takeRow_return.mpr (ih hinner (Builder.isWholeLine_of_takeRow hinner))

/-! ### Texts -/

theorem LayoutStep.foldlM_takeRow {rs rs' : List (List Char)} (h : LayoutStep rs rs')
    {b b' : Builder Q} (hb : b.Closed)
    (hrows : rs.foldlM (Builder.takeRow table) b = .ok b') :
    rs'.foldlM (Builder.takeRow table) b = .ok b' := by
  cases h with
  | @change r r' hstep before after =>
    rw [List.foldlM_append] at hrows ⊢
    obtain ⟨d, hbefore, hrows⟩ := exists_of_bind_eq_ok hrows
    rw [hbefore, ok_bind, List.foldlM_cons]
    rw [List.foldlM_cons] at hrows
    obtain ⟨d', hrow, hafter⟩ := exists_of_bind_eq_ok hrows
    rw [hstep.takeRow (Builder.closed_of_takeRows hb hbefore) hrow]
    exact hafter
  | @insert r hidle before after =>
    rw [List.foldlM_append] at hrows ⊢
    obtain ⟨d, hbefore, hafter⟩ := exists_of_bind_eq_ok hrows
    rw [hbefore, ok_bind, List.foldlM_cons,
      Builder.takeRow_of_isIdle (Builder.closed_of_takeRows hb hbefore) hidle]
    exact hafter

/-- **A score is read in any layout**, and it is always the same one. -/
theorem Score.read_of_relaid {key : Option Key} {text text' : String} {s : Score Q}
    (hlayout : Relation.ReflTransGen Relaid text text')
    (hread : Score.read table key text = .ok s) : Score.read table key text' = .ok s := by
  induction hlayout with
  | refl => exact hread
  | tail _ hstep ih =>
    obtain ⟨b, hrows, hscore⟩ := Score.read_iff_rows.mp ih
    exact Score.read_iff_rows.mpr
      ⟨b, LayoutStep.foldlM_takeRow hstep (Builder.closed_start key) hrows, hscore⟩

/-- A gap that is no blank of a group, a bar beside a bar, a comment, a line end
and an idle row between two lines. -/
theorem Score.read_of_relaid_tune :
    Relation.ReflTransGen Relaid "@C C(9, 13) % | G:2\n#iv"
        "@C C(9, 13)\t% | |  G:2 # end\r\n # coda\n#iv"
      ∧ ∃ s : Score Rat, Score.read Table.standard none "@C C(9, 13) % | G:2\n#iv" = .ok s
        ∧ Score.read Table.standard none "@C C(9, 13)\t% | |  G:2 # end\r\n # coda\n#iv"
          = .ok s := by
  have hgap : Relaid "@C C(9, 13) % | G:2\n#iv" "@C C(9, 13)\t% | G:2\n#iv" := by
    have htoken : TokenEnds ("@C C(9, 13)".toList ++ [' '] ++ "% | G:2".toList) 11 := by
      unfold TokenEnds
      decide +kernel
    have hspace : IsGap [' '] := ⟨by decide, forall_mem_of_all (by decide)⟩
    have htab : IsGap ['\t'] := ⟨by decide, forall_mem_of_all (by decide)⟩
    exact .change (.gap htoken hspace htab) [] ["#iv".toList]
  have hbar : Relaid "@C C(9, 13)\t% | G:2\n#iv" "@C C(9, 13)\t% | |  G:2\n#iv" := by
    have htoken : TokenStarts ("@C C(9, 13)\t% ".toList ++ '|' :: " G:2".toList) 14 := by
      unfold TokenStarts
      decide +kernel
    exact .change (.barBehind htoken) [] ["#iv".toList]
  have hcomment : Relaid "@C C(9, 13)\t% | |  G:2\n#iv" "@C C(9, 13)\t% | |  G:2 # end\n#iv" :=
    .change (.comment "@C C(9, 13)\t% | |  G:2".toList "end".toList) [] ["#iv".toList]
  have hcrlf : Relaid "@C C(9, 13)\t% | |  G:2 # end\n#iv"
      "@C C(9, 13)\t% | |  G:2 # end\r\n#iv" :=
    .change (.crlf "@C C(9, 13)\t% | |  G:2 # end".toList) [] ["#iv".toList]
  have hidle : Relaid "@C C(9, 13)\t% | |  G:2 # end\r\n#iv"
      "@C C(9, 13)\t% | |  G:2 # end\r\n # coda\n#iv" := by
    have hrow : IsIdle " # coda".toList :=
      ⟨[' '], "# coda".toList, rfl, forall_mem_of_all (by decide), .inr (by decide)⟩
    exact .insert hrow ["@C C(9, 13)\t% | |  G:2 # end\r".toList] ["#iv".toList]
  have hlayout := Relation.ReflTransGen.refl.tail hgap |>.tail hbar |>.tail hcomment
    |>.tail hcrlf |>.tail hidle
  have hread : (Score.read (Q := Rat) Table.standard none
      "@C C(9, 13) % | G:2\n#iv").toOption.isSome = true := by
    decide +kernel
  obtain ⟨s, hs⟩ := Option.isSome_iff_exists.mp hread
  have hs := eq_ok_of_toOption hs
  exact ⟨hlayout, s, hs, Score.read_of_relaid hlayout hs⟩

end LeadSheet
