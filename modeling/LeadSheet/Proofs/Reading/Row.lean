import LeadSheet.Proofs.Reading.Scan

/-!
# Reading a text row by row

The rows of a text are what stands between its line feeds, carriage returns
included.  Nothing is carried over from one row to the next but the builder:
it takes the pieces of a row and closes the line (`Builder.takeRow`), and a
text is read as a score just when its builder takes row after row
(`Score.read_iff_rows`).

A row that is taken holds whole words only (`isWholeLine_of_takeRow`), so the
carriage return of a line end may stay with its row (`Builder.takeRow_return`).
-/

namespace LeadSheet

open Text

def rows (text : String) : List (List Char) :=
  text.toList.splitOn '\n'

theorem forall₂_lines : ∀ cs : List Char,
    List.Forall₂ (fun l r => r = l ∨ r = l ++ ['\r']) (lines cs) (cs.splitOn '\n') := by
  intro cs
  fun_induction lines cs with
  | case1 => exact .cons (.inl rfl) .nil
  | case2 cs ih =>
    rw [List.splitOn_cons_eq_if_modifyHead]
    exact .cons (.inl rfl) ih
  | case3 cs ih =>
    rw [List.splitOn_cons_eq_if_modifyHead, List.splitOn_cons_eq_if_modifyHead]
    exact .cons (.inr rfl) ih
  | case4 c cs _ _ hl ih => exact absurd hl (lines_ne_nil cs)
  | case5 c cs hc hreturn l ls hl ih =>
    rw [hl] at ih
    obtain ⟨r, rs, hr, htail, hrows⟩ := List.forall₂_cons_left_iff.mp ih
    have hne : c ≠ '\n' := hc
    rw [List.splitOn_cons_eq_if_modifyHead, hrows, if_neg (by simpa using hne)]
    refine .cons ?_ htail
    rcases hr with rfl | rfl
    · exact .inl rfl
    · exact .inr rfl

variable {Q : Type}

namespace Builder

structure Closed (b : Builder Q) : Prop where
  measure : b.measureOpen = false
  line : b.lineOpen = false

theorem closed_closeLine (b : Builder Q) : b.closeLine.Closed := by
  have hmeasure := b.measureOpen_closeMeasure
  unfold closeLine
  dsimp only
  split
  · exact ⟨hmeasure, rfl⟩
  · rename_i hline
    exact ⟨hmeasure, by simpa using hline⟩

variable [Quantity Q]

theorem closed_start (key : Option Key) : (start key : Builder Q).Closed :=
  ⟨rfl, rfl⟩

/-- Takes the pieces of a row and closes the line. -/
def takeRow (table : Table) (b : Builder Q) (r : List Char) : Except ReadFault (Builder Q) :=
  ((linePieces r).foldlM (take table) b).map closeLine

variable {table : Table} {b b' : Builder Q} {r : List Char}

theorem isWhole_of_take : ∀ {ps : List Piece} {b : Builder Q}, ps.foldlM (take table) b = .ok b' →
    ∀ w, Piece.word w ∈ ps → IsWhole w := by
  intro ps
  induction ps with
  | nil => intro b _ w hw; cases hw
  | cons p ps ih =>
    intro b h w hw
    rw [List.foldlM_cons] at h
    obtain ⟨d, hd, htail⟩ := exists_of_bind_eq_ok h
    rcases List.mem_cons.mp hw with rfl | hw
    · obtain ⟨content, hcontent, -⟩ := exists_of_bind_eq_ok hd
      exact TokenContent.isWhole_of_read hcontent
    · exact ih htail w hw

theorem isWholeLine_of_takeRow (h : b.takeRow table r = .ok b') : IsWholeLine r := by
  obtain ⟨d, hd, -⟩ := exists_of_map_eq_ok h
  exact isWhole_of_take hd

theorem closed_of_takeRow (h : b.takeRow table r = .ok b') : b'.Closed := by
  obtain ⟨d, -, rfl⟩ := exists_of_map_eq_ok h
  exact d.closed_closeLine

theorem closed_of_takeRows {rs : List (List Char)} (hb : b.Closed)
    (h : rs.foldlM (takeRow table) b = .ok b') : b'.Closed :=
  foldlM_keeps Closed (fun _ _ _ _ _ => closed_of_takeRow) hb h

theorem takeRow_return : b.takeRow table (r ++ ['\r']) = .ok b' ↔ b.takeRow table r = .ok b' := by
  unfold takeRow
  constructor
  · intro h
    have hwhole := isWholeLine_of_concat (isWholeLine_of_takeRow h) (by decide)
    rw [linePieces_concat hwhole (by decide)] at h
    exact h
  · intro h
    rw [linePieces_concat (isWholeLine_of_takeRow h) (by decide)]
    exact h

theorem foldlM_takeRow_congr {ls rs : List (List Char)}
    (h : List.Forall₂ (fun l r => r = l ∨ r = l ++ ['\r']) ls rs) : ∀ {b : Builder Q},
    ls.foldlM (takeRow table) b = .ok b' ↔ rs.foldlM (takeRow table) b = .ok b' := by
  induction h with
  | nil => intro b; exact Iff.rfl
  | @cons l r ls rs hrow _ ih =>
    intro b
    have hstep : ∀ d, b.takeRow table l = .ok d ↔ b.takeRow table r = .ok d := by
      intro d
      rcases hrow with rfl | rfl
      · exact Iff.rfl
      · exact takeRow_return.symm
    rw [List.foldlM_cons, List.foldlM_cons]
    constructor
    · intro h
      obtain ⟨d, hd, htail⟩ := exists_of_bind_eq_ok h
      rw [(hstep d).mp hd]
      exact ih.mp htail
    · intro h
      obtain ⟨d, hd, htail⟩ := exists_of_bind_eq_ok h
      rw [(hstep d).mpr hd]
      exact ih.mpr htail

theorem foldlM_endLine (h : b.Closed) (l : List Char) :
    (endLine false (linePieces l)).foldlM (take table) b = b.takeRow table l := by
  unfold endLine takeRow
  cases linePieces l with
  | nil =>
    show Except.ok b = .ok b.closeLine
    rw [closeLine_of_closed h.measure h.line]
  | cons p ps =>
    show ((p :: ps) ++ [Piece.newline]).foldlM (take table) b = _
    rw [List.foldlM_append]
    cases (p :: ps).foldlM (take table) b with
    | error e => rfl
    | ok d => rfl

theorem foldlM_lexLines : ∀ {ls : List (List Char)} {line : Int} {b : Builder Q}, b.Closed →
    ((lexLines line ls).map Lexeme.piece).foldlM (take table) b = ls.foldlM (takeRow table) b := by
  intro ls
  induction ls with
  | nil => intro line b _; rfl
  | cons l ls ih =>
    intro line b hclosed
    rw [lexLines, List.map_append, map_piece_lexWholeLine, List.foldlM_append,
      foldlM_endLine hclosed, List.foldlM_cons]
    cases hrow : b.takeRow table l with
    | error e => rfl
    | ok d => exact ih (closed_of_takeRow hrow)

end Builder

variable [Quantity Q]

/-- **A text is read as a score row by row.** -/
theorem Score.read_iff_rows {table : Table} {key : Option Key} {text : String} {s : Score Q} :
    Score.read table key text = .ok s ↔ ∃ b : Builder Q,
      (rows text).foldlM (Builder.takeRow table) (Builder.start key) = .ok b ∧ b.score = s := by
  have hagree : Agree (Score.read table key text : Except ReadFault (Score Q)) _ :=
    Score.read_agree table key text
  have hpieces : (textPieces false text.toList).foldlM (Builder.take table)
      (Builder.start key : Builder Q)
        = (lines text.toList).foldlM (Builder.takeRow table) (Builder.start key) := by
    rw [← map_piece_lex]
    exact Builder.foldlM_lexLines (Builder.closed_start key)
  rw [hpieces] at hagree
  constructor
  · intro h
    obtain ⟨b, hb, hscore⟩ := exists_of_map_eq_ok (hagree.eq_ok h)
    exact ⟨b, (Builder.foldlM_takeRow_congr (forall₂_lines _)).mp hb, hscore⟩
  · rintro ⟨b, hb, rfl⟩
    refine hagree.symm.eq_ok ?_
    rw [(Builder.foldlM_takeRow_congr (forall₂_lines _)).mpr hb]
    rfl

end LeadSheet
