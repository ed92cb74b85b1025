import LeadSheet.Proofs.Reading.Place
import LeadSheet.Score.Reader

/-!
# The pieces of a score text

A text without its places is a row of pieces: words, bars and line ends.
`Score.read_agree` says that this row is all that reading a score depends on:
it is a run of a builder that takes the pieces one by one.

`textPieces` is the row for what is left of a text, given whether anything
stands on the line so far.  It can be read off the text from left to right:
`textPieces_word`, `textPieces_space`, `textPieces_bar` and
`textPieces_newline`.
-/

namespace LeadSheet

open Text

/-- A piece of a score text, wherever it stands. -/
inductive Piece where
  | word (cs : List Char)
  | bar
  | newline

def Lexeme.piece : Lexeme → Piece
  | word s => .word s.text
  | bar .. => .bar
  | newline .. => .newline

section Builder

variable {Q : Type} [Quantity Q]

def Piece.read (table : Table) : Piece → Except ReadFault (TokenContent Q)
  | word cs => TokenContent.read table ⟨cs, 1, 1⟩
  | bar => .ok .bar
  | newline => .ok .newline

def Builder.take (table : Table) (b : Builder Q) (p : Piece) : Except ReadFault (Builder Q) := do
  let content ← p.read table
  b.feed { content, text := "" }

@[simp] theorem Builder.take_bar (table : Table) (b : Builder Q) :
    b.take table .bar = .ok b.closeMeasure := rfl

theorem Builder.take_agree (table : Table) (b : Builder Q) (l : Lexeme) :
    Agree (l.token table >>= b.feed) (b.take table l.piece) := by
  cases l with
  | word s =>
    show Agree ((Token.read table s : Except ReadFault (Token Q)) >>= b.feed) _
    unfold Token.read
    have h : Agree (TokenContent.read table s : Except ReadFault (TokenContent Q))
        (TokenContent.read table ⟨s.text, 1, 1⟩) := TokenContent.read_agree table rfl
    cases hs : (TokenContent.read table s : Except ReadFault (TokenContent Q)) with
    | error e =>
      rw [hs] at h
      exact h.bind (f := fun content => b.feed ⟨content, String.ofList s.text, s.line, s.column⟩)
        fun content => Builder.feed_agree b rfl
    | ok content =>
      show Agree (b.feed _) (TokenContent.read table ⟨s.text, 1, 1⟩ >>= _)
      rw [h.eq_ok hs]
      exact Builder.feed_agree b rfl
  | bar line column => rfl
  | newline line column => rfl

/-- Reading everything first and taking it then comes to the same as taking
each thing when it is read. -/
theorem agree_mapM_foldlM {ε α β γ : Type} (f : α → Except ε β) (g : γ → β → Except ε γ) :
    ∀ (as : List α) (c : γ),
      Agree (as.mapM f >>= fun bs => bs.foldlM g c) (as.foldlM (fun c a => f a >>= g c) c) := by
  intro as
  induction as with
  | nil => intro c; exact Agree.refl _
  | cons a as ih =>
    intro c
    rw [List.mapM_cons, List.foldlM_cons]
    cases f a with
    | error e => exact agree_error e e
    | ok b =>
      show Agree ((as.mapM f >>= fun bs => pure (b :: bs)) >>= fun bs => bs.foldlM g c)
        (g c b >>= fun c' => as.foldlM (fun c a => f a >>= g c) c')
      cases hg : g c b with
      | error e =>
        -- reading everything first may fail at a later member, but it fails as well
        cases as.mapM f with
        | error e' => exact agree_error e' e
        | ok bs =>
          show Agree ((b :: bs).foldlM g c) _
          rw [List.foldlM_cons, hg]
          exact agree_error e e
      | ok c' =>
        have h := ih c'
        cases hm : as.mapM f with
        | error e' => rw [hm] at h; exact h
        | ok bs =>
          rw [hm] at h
          show Agree ((b :: bs).foldlM g c) _
          rw [List.foldlM_cons, hg]
          exact h

end Builder

/-! ### Lines -/

def linePieces (cs : List Char) : List Piece :=
  (lexLine 1 1 cs).map Lexeme.piece

theorem column_cons {α : Type} (column : Int) (a : α) (w : List α) :
    column + 1 + (w.length : Int) = column + (a :: w).length := by
  rw [List.length_cons]
  omega

theorem map_piece_lexLine (line column line' column' : Int) (cs : List Char) :
    (lexLine line column cs).map Lexeme.piece = (lexLine line' column' cs).map Lexeme.piece := by
  induction hn : cs.length using Nat.strongRecOn generalizing cs column column' with
  | ind n ih =>
    cases cs with
    | nil => rw [lexLine, lexLine]
    | cons c cs =>
      have hlt : cs.length < n := by rw [← hn]; exact Nat.lt_succ_self _
      rw [lexLine, lexLine]
      split
      · exact ih _ hlt _ _ _ rfl
      · split
        · simp only [List.map_cons, Lexeme.piece, ih _ hlt (column + 1) (column' + 1) _ rfl]
        · split
          · rfl
          · have hle := length_takeWord_le (depthAfter 0 c) cs
            simp only [List.map_cons, Lexeme.piece]
            rw [ih _ (Nat.lt_of_le_of_lt hle hlt) _ _ _ rfl]

theorem linePieces_eq (line column : Int) (cs : List Char) :
    (lexLine line column cs).map Lexeme.piece = linePieces cs :=
  map_piece_lexLine _ _ _ _ _

@[simp] theorem linePieces_nil : linePieces [] = [] := by
  rw [linePieces, lexLine]; rfl

theorem linePieces_blank {c : Char} (h : isBlank c = true) (cs : List Char) :
    linePieces (c :: cs) = linePieces cs := by
  rw [linePieces, lexLine, if_pos h, linePieces_eq]

theorem linePieces_bar (cs : List Char) : linePieces ('|' :: cs) = .bar :: linePieces cs := by
  rw [linePieces, lexLine, if_neg (by decide), if_pos rfl, List.map_cons, linePieces_eq]
  rfl

/-! ### Words -/

/-- A word that ends where a gap follows: it holds neither blanks nor bars, its
brackets are closed, and it does not open a comment. -/
structure IsWord (w : List Char) : Prop where
  ne_nil : w ≠ []
  blank : ∀ c ∈ w, isBlank c = false
  bar : '|' ∉ w
  closed : w.foldl depthAfter 0 = 0
  music : w ≠ ['#']

/-- The text goes on with a gap, or not at all. -/
def AtGap (cs : List Char) : Prop :=
  ∀ c ∈ cs.head?, isBlank c = true ∨ c = '|'

theorem atGap_nil : AtGap [] := by
  intro c hc; cases hc

theorem atGap_cons {c : Char} (h : isBlank c = true ∨ c = '|') (cs : List Char) :
    AtGap (c :: cs) := by
  intro d hd
  obtain rfl : c = d := by simpa using hd
  exact h

theorem atGap_takeWord (depth : Nat) (cs : List Char) : AtGap (takeWord depth cs).2 := by
  induction cs generalizing depth with
  | nil => exact atGap_nil
  | cons c cs ih =>
    rw [takeWord]
    split
    · rename_i hend
      refine atGap_cons ?_ cs
      simp only [endsWord, Bool.and_eq_true, Bool.or_eq_true, decide_eq_true_eq] at hend
      exact hend.2
    · exact ih _

theorem endsWord_eq_false {depth : Nat} {c : Char} (h : isBlank c = false) (hb : c ≠ '|') :
    endsWord depth c = false := by
  simp [endsWord, h, hb]

theorem takeWord_append : ∀ (w : List Char) (depth : Nat) (rest : List Char),
    (∀ c ∈ w, isBlank c = false) → '|' ∉ w → w.foldl depthAfter depth = 0 → AtGap rest →
    takeWord depth (w ++ rest) = (w, rest) := by
  intro w
  induction w with
  | nil =>
    intro depth rest _ _ hd hg
    obtain rfl : depth = 0 := hd
    cases rest with
    | nil => rfl
    | cons c cs =>
      have hc : endsWord 0 c = true := by
        rcases hg c rfl with h | rfl
        · simp [endsWord, h]
        · rfl
      rw [List.nil_append, takeWord, if_pos hc]
  | cons c w ih =>
    intro depth rest hw hb hd hg
    have hc : endsWord depth c = false :=
      endsWord_eq_false (hw c (List.mem_cons_self ..)) fun he => hb (he ▸ List.mem_cons_self ..)
    rw [List.cons_append, takeWord, if_neg (by simp [hc]),
      ih (depthAfter depth c) rest (fun d hm => hw d (List.mem_cons_of_mem c hm))
        (fun hm => hb (List.mem_cons_of_mem c hm)) hd hg]

theorem startsComment_cons {c : Char} {cs : List Char} :
    startsComment (c :: cs) = true ↔ c = '#' ∧ ∀ d ∈ cs.head?, isBlank d = true := by
  by_cases hc : c = '#'
  · subst hc
    cases cs <;> simp [startsComment]
  · simp [startsComment, hc]

theorem startsComment_eq_false {w rest : List Char} (h : IsWord w) :
    startsComment (w ++ rest) = false := by
  obtain ⟨hne, hblank, _, _, hmusic⟩ := h
  refine Bool.eq_false_iff.mpr fun hcomment => ?_
  match w, hne, hblank, hmusic with
  | [c], _, _, hmusic =>
    obtain ⟨rfl, -⟩ := startsComment_cons.mp hcomment
    exact hmusic rfl
  | c :: d :: w, _, hblank, _ =>
    obtain ⟨-, hd⟩ := startsComment_cons.mp hcomment
    have hnot := hblank d (by simp)
    rw [hd d rfl] at hnot
    cases hnot

theorem lexLine_word {w rest : List Char} (h : IsWord w) (hg : AtGap rest) (line column : Int) :
    ∃ column', lexLine line column (w ++ rest)
      = .word ⟨w, line, column⟩ :: lexLine line column' rest := by
  have hcomment : startsComment (w ++ rest) = false := startsComment_eq_false h
  obtain ⟨hne, hblank, hbar, hclosed, -⟩ := h
  cases w with
  | nil => exact absurd rfl hne
  | cons c w =>
    have hc : isBlank c = false := hblank c (List.mem_cons_self ..)
    have hcb : c ≠ '|' := fun he => hbar (he ▸ List.mem_cons_self ..)
    rw [List.cons_append] at hcomment ⊢
    have htake : takeWord (depthAfter 0 c) (w ++ rest) = (w, rest) :=
      takeWord_append w _ rest (fun d hm => hblank d (List.mem_cons_of_mem c hm))
        (fun hm => hbar (List.mem_cons_of_mem c hm)) hclosed hg
    rw [lexLine, if_neg (by simp [hc]), if_neg hcb, if_neg (by simp [hcomment])]
    simp only [htake]
    exact ⟨_, rfl⟩

theorem linePieces_word {w rest : List Char} (h : IsWord w) (hg : AtGap rest) :
    linePieces (w ++ rest) = .word w :: linePieces rest := by
  obtain ⟨column, hlex⟩ := lexLine_word h hg 1 1
  rw [linePieces, hlex, List.map_cons, linePieces_eq]
  rfl

/-! ### Texts -/

/-- The pieces of a line with its end, if anything stands on it. -/
def endLine (started : Bool) (ps : List Piece) : List Piece :=
  if started || !ps.isEmpty then ps ++ [.newline] else []

/-- The pieces of what is left of a text, given whether anything stands on the
line so far. -/
def textPieces (started : Bool) (cs : List Char) : List Piece :=
  match lines cs with
  | [] => []
  | l :: ls => endLine started (linePieces l) ++ (lexLines 1 ls).map Lexeme.piece

theorem map_piece_lexWholeLine (line : Int) (cs : List Char) :
    (lexWholeLine line cs).map Lexeme.piece = endLine false (linePieces cs) := by
  have h := linePieces_eq line 1 cs
  unfold lexWholeLine endLine
  rw [← h]
  cases hl : lexLine line 1 cs with
  | nil => rfl
  | cons l ls => simp [Lexeme.piece]

theorem map_piece_lexLines (line line' : Int) (ls : List (List Char)) :
    (lexLines line ls).map Lexeme.piece = (lexLines line' ls).map Lexeme.piece := by
  induction ls generalizing line line' with
  | nil => rfl
  | cons cs ls ih =>
    rw [lexLines, lexLines, List.map_append, List.map_append, map_piece_lexWholeLine,
      map_piece_lexWholeLine, ih (line + 1) (line' + 1)]

theorem map_piece_lex (text : String) :
    (lex text).map Lexeme.piece = textPieces false text.toList := by
  unfold lex textPieces
  cases lines text.toList with
  | nil => rfl
  | cons l ls =>
    show (lexLines 1 (l :: ls)).map Lexeme.piece = _
    rw [lexLines, List.map_append, map_piece_lexWholeLine, map_piece_lexLines (1 + 1) 1]

theorem lines_cons {c : Char} (h : c ≠ '\n') (h' : c ≠ '\r') {cs l : List Char}
    {ls : List (List Char)} (hl : lines cs = l :: ls) : lines (c :: cs) = (c :: l) :: ls := by
  rw [lines]
  · rw [hl]
  · exact h
  · intro _ he; exact absurd he h'

theorem lines_append {w cs l : List Char} {ls : List (List Char)}
    (h : ∀ c ∈ w, isBlank c = false) (hl : lines cs = l :: ls) :
    lines (w ++ cs) = (w ++ l) :: ls := by
  induction w with
  | nil => exact hl
  | cons c w ih =>
    have hc : isBlank c = false := h c (List.mem_cons_self ..)
    exact lines_cons (by rintro rfl; exact absurd hc (by decide))
      (by rintro rfl; exact absurd hc (by decide))
      (ih fun d hd => h d (List.mem_cons_of_mem c hd))

theorem AtGap.lines {cs l : List Char} {ls : List (List Char)} (h : AtGap cs)
    (hl : lines cs = l :: ls) : AtGap l := by
  unfold Text.lines at hl
  split at hl
  · obtain ⟨rfl, -⟩ := List.cons.inj hl; exact atGap_nil
  · obtain ⟨rfl, -⟩ := List.cons.inj hl; exact atGap_nil
  · obtain ⟨rfl, -⟩ := List.cons.inj hl; exact atGap_nil
  · rename_i c cs _ _
    have hc : isBlank c = true ∨ c = '|' := h c rfl
    split at hl
    · obtain ⟨rfl, -⟩ := List.cons.inj hl; exact atGap_cons hc _
    · obtain ⟨rfl, -⟩ := List.cons.inj hl; exact atGap_cons hc _

@[simp] theorem textPieces_nil (started : Bool) :
    textPieces started [] = if started then [.newline] else [] := by
  cases started <;> simp [textPieces, lines, endLine, lexLines]

theorem textPieces_newline (started : Bool) (cs : List Char) :
    textPieces started ('\n' :: cs)
      = (if started then [.newline] else []) ++ textPieces false cs := by
  unfold textPieces
  rw [lines]
  dsimp only
  cases hl : lines cs with
  | nil => exact absurd hl (lines_ne_nil cs)
  | cons l ls =>
    rw [lexLines, List.map_append, map_piece_lexWholeLine, map_piece_lexLines (1 + 1) 1]
    cases started <;> simp [endLine]

theorem textPieces_space (started : Bool) (cs : List Char) :
    textPieces started (' ' :: cs) = textPieces started cs := by
  obtain ⟨l, ls, hl⟩ := List.exists_cons_of_ne_nil (lines_ne_nil cs)
  unfold textPieces
  rw [lines_cons (by decide) (by decide) hl, hl]
  dsimp only
  rw [linePieces_blank (by decide)]

theorem endLine_cons (started : Bool) (p : Piece) (ps : List Piece) :
    endLine started (p :: ps) = p :: endLine true ps := by
  simp [endLine]

theorem textPieces_bar (started : Bool) (cs : List Char) :
    textPieces started ('|' :: cs) = .bar :: textPieces true cs := by
  obtain ⟨l, ls, hl⟩ := List.exists_cons_of_ne_nil (lines_ne_nil cs)
  unfold textPieces
  rw [lines_cons (by decide) (by decide) hl, hl]
  dsimp only
  rw [linePieces_bar, endLine_cons, List.cons_append]

theorem textPieces_word (started : Bool) {w cs : List Char} (h : IsWord w) (hg : AtGap cs) :
    textPieces started (w ++ cs) = .word w :: textPieces true cs := by
  obtain ⟨l, ls, hl⟩ := List.exists_cons_of_ne_nil (lines_ne_nil cs)
  unfold textPieces
  rw [lines_append h.blank hl, hl]
  dsimp only
  rw [linePieces_word h (hg.lines hl), endLine_cons, List.cons_append]

/-! ### Scores -/

variable {Q : Type} [Quantity Q]

/-- **Reading a score is a run over the pieces of its text.** -/
theorem Score.read_agree (table : Table) (key : Option Key) (text : String) :
    Agree (Score.read table key text : Except ReadFault (Score Q))
      (((textPieces false text.toList).foldlM (Builder.take table) (Builder.start key)).map
        Builder.score) := by
  have hfold : ∀ (ls : List Lexeme) (b : Builder Q),
      Agree (ls.foldlM (fun b l => l.token table >>= b.feed) b)
        ((ls.map Lexeme.piece).foldlM (Builder.take table) b) := by
    intro ls
    induction ls with
    | nil => intro b; exact Agree.refl _
    | cons l ls ih =>
      intro b
      rw [List.map_cons, List.foldlM_cons, List.foldlM_cons]
      exact (Builder.take_agree table b l).bind ih
  have hread : (Score.read table key text : Except ReadFault (Score Q))
      = ((lex text).mapM (Lexeme.token table) >>= fun ts =>
          ts.foldlM Builder.feed (Builder.start key)).map Builder.score := by
    unfold Score.read Score.ofTokens tokenize
    cases ((lex text).mapM (Lexeme.token table) : Except ReadFault (List (Token Q))) with
    | error e => rfl
    | ok ts => rfl
  rw [hread, ← map_piece_lex]
  refine Agree.map Builder.score ?_
  have h := agree_mapM_foldlM (Lexeme.token table) Builder.feed (lex text)
    (Builder.start (Q := Q) key)
  exact h.trans (hfold (lex text) (Builder.start key))

end LeadSheet
