import LeadSheet.Proofs.Reading.Scan

/-!
# Nothing of a text is lost

The tokens of a line cover it: each stands at its column, they follow one
another without an overlap, and what they leave over is blank or in a comment
(`IsCover`).  The reader of a line cuts one piece after the other off it, so a
cover is put together from the front: a character or a word with its stretch,
and a cover of what is behind (`IsCover.append`).

A text that is cut into tokens is cut line by line (`tokenize_rows`); every line
gives the tokens that cover it and its end, or nothing at all (`IsRow`).
-/

namespace LeadSheet

open Text

/-! ### Lines -/

/-- The text with every carriage return left out that a line feed follows. -/
def dropReturns : List Char → List Char
  | [] => []
  | '\r' :: '\n' :: cs => '\n' :: dropReturns cs
  | c :: cs => c :: dropReturns cs

theorem dropReturns_cons {c : Char} {cs : List Char}
    (h : ∀ cs', c = '\r' → cs = '\n' :: cs' → False) :
    dropReturns (c :: cs) = c :: dropReturns cs := by
  rw [dropReturns]
  exact h

/-- **The lines of a text** are what stands between its line feeds, when the
carriage returns in front of these are left out. -/
theorem lines_eq_splitOn (cs : List Char) : lines cs = (dropReturns cs).splitOn '\n' := by
  fun_induction lines cs with
  | case1 => rfl
  | case2 cs ih =>
    rw [dropReturns_cons fun _ h => absurd h (by decide), List.splitOn_cons_eq_if_modifyHead, ih]
    rfl
  | case3 cs ih =>
    rw [dropReturns, List.splitOn_cons_eq_if_modifyHead, ih]
    rfl
  | case4 c cs _ _ hl ih => exact absurd hl (lines_ne_nil cs)
  | case5 c cs hc hreturn l ls hl ih =>
    have hne : c ≠ '\n' := hc
    rw [dropReturns_cons hreturn, List.splitOn_cons_eq_if_modifyHead, if_neg (by simpa using hne),
      ← ih, hl]
    rfl

/-! ### Covers -/

theorem within_or_behind {front cs before after : List Char} {c : Char}
    (h : front ++ cs = before ++ c :: after) : (∃ rest, front = before ++ c :: rest)
      ∨ ∃ before', before = front ++ before' ∧ cs = before' ++ c :: after := by
  rcases List.append_eq_append_iff.mp h with hbehind | ⟨rest, rfl, hrest⟩
  · exact .inr hbehind
  · cases rest with
    | nil => exact .inr ⟨[], by simp, hrest.symm⟩
    | cons d rest =>
      obtain ⟨rfl, -⟩ := List.cons.inj hrest
      exact .inl ⟨rest, rfl⟩

structure Stretch where
  column : Int
  text : List Char

def Stretch.finish (s : Stretch) : Int :=
  s.column + s.text.length

/-- **How stretches cover a line** that starts at a column: each of them stands
in it, one behind the other, and a character that is in none of them is blank
or stands in the comment behind them all. -/
structure IsCover (column : Int) (cs : List Char) (ss : List Stretch) : Prop where
  stands : ∀ s ∈ ss, ∃ before after, cs = before ++ s.text ++ after
    ∧ s.column = column + before.length
  ordered : ss.Pairwise fun s t => s.finish ≤ t.column
  covered : ∀ before c after, cs = before ++ c :: after →
    (∃ s ∈ ss, s.column ≤ column + before.length ∧ column + before.length < s.finish)
    ∨ isBlank c = true
    ∨ ∃ front rest, cs = front ++ '#' :: rest ∧ (∀ d ∈ rest.head?, isBlank d = true)
      ∧ front.length ≤ before.length ∧ ∀ s ∈ ss, s.finish ≤ column + front.length

namespace IsCover

variable {column : Int} {front cs : List Char} {ss : List Stretch}

theorem nil (column : Int) : IsCover column [] [] where
  stands s hs := nomatch hs
  ordered := .nil
  covered before c after h := by simp at h

theorem comment (column : Int) (h : startsComment cs = true) : IsCover column cs [] where
  stands s hs := nomatch hs
  ordered := .nil
  covered before c after heq := by
    obtain ⟨d, rest, rfl⟩ : ∃ d rest, cs = d :: rest :=
      List.exists_cons_of_ne_nil (by rintro rfl; cases h)
    obtain ⟨rfl, hrest⟩ := startsComment_cons.mp h
    exact .inr (.inr ⟨[], rest, rfl, hrest, Nat.zero_le _, fun s hs => nomatch hs⟩)

theorem append (h : IsCover (column + front.length) cs ss) {here : Option Stretch}
    (hhere : ∀ s ∈ here, s = ⟨column, front⟩)
    (hblank : here = none → ∀ c ∈ front, isBlank c = true) :
    IsCover column (front ++ cs) (here.toList ++ ss) := by
  have hafter : ∀ s ∈ ss, column + front.length ≤ s.column := by
    intro s hs
    obtain ⟨before, after, -, hcolumn⟩ := h.stands s hs
    omega
  refine ⟨fun s hs => ?_, ?_, fun before c after heq => ?_⟩
  · rcases List.mem_append.mp hs with hs | hs
    · obtain rfl := hhere s (Option.mem_toList.mp hs)
      exact ⟨[], cs, rfl, by simp⟩
    · obtain ⟨before, after, rfl, hcolumn⟩ := h.stands s hs
      refine ⟨front ++ before, after, by simp, ?_⟩
      rw [hcolumn, List.length_append]
      omega
  · refine List.pairwise_append.mpr ⟨?_, h.ordered, fun s hs t ht => ?_⟩
    · cases here <;> simp
    · obtain rfl := hhere s (Option.mem_toList.mp hs)
      exact hafter t ht
  · -- a character of the front is in its stretch or a blank; any other one is covered as before
    rcases within_or_behind heq with ⟨rest, hfront⟩ | ⟨before, rfl, hcs⟩
    · cases here with
      | some s =>
        obtain rfl := hhere s rfl
        have hlength : front.length = before.length + (rest.length + 1) := by simp [hfront]
        refine .inl ⟨_, List.mem_cons_self .., ?_, ?_⟩
        · show column ≤ column + before.length
          omega
        · show column + before.length < column + front.length
          omega
      | none => exact .inr (.inl (hblank rfl c (by simp [hfront])))
    · rcases h.covered before c after hcs with
        ⟨s, hs, hfrom, hto⟩ | hc | ⟨begin, rest, rfl, hrest, hle, hfinish⟩
      · refine .inl ⟨s, List.mem_append_right _ hs, ?_, ?_⟩ <;> rw [List.length_append] <;> omega
      · exact .inr (.inl hc)
      · refine .inr (.inr ⟨front ++ begin, rest, by simp, hrest, by simp; omega, fun s hs => ?_⟩)
        rw [List.length_append]
        push_cast
        rcases List.mem_append.mp hs with hs | hs
        · obtain rfl := hhere s (Option.mem_toList.mp hs)
          show column + front.length ≤ _
          omega
        · have := hfinish s hs
          omega

theorem blank {c : Char} (hc : isBlank c = true) (h : IsCover (column + 1) cs ss) :
    IsCover column (c :: cs) ss :=
  @IsCover.append column [c] cs ss h none nofun (by simpa using hc)

theorem cons (h : IsCover (column + front.length) cs ss) :
    IsCover column (front ++ cs) (⟨column, front⟩ :: ss) :=
  @IsCover.append column front cs ss h (some ⟨column, front⟩) (by simp) nofun

end IsCover

/-! ### Lines of pieces -/

/-- The stretch of a line that a piece is written in. -/
def Lexeme.stretch (x : Lexeme) : Stretch :=
  ⟨x.column, x.text⟩

/-- **The pieces of a line cover it.** -/
theorem isCover_lexLine (line column : Int) (cs : List Char) :
    IsCover column cs ((lexLine line column cs).map Lexeme.stretch) := by
  fun_induction lexLine line column cs with
  | case1 column => exact .nil column
  | case2 column c cs hc ih => exact .blank hc ih
  | case3 column cs hc ih => exact @IsCover.cons column ['|'] cs _ ih
  | case4 column c cs hc hbar hcomment => exact .comment column hcomment
  | case5 column c cs hc hbar hcomment tail ih =>
    have hcs : c :: cs = (c :: tail.1) ++ tail.2 := by rw [List.cons_append, flatten_takeWord]
    rw [hcs, List.map_cons]
    rw [column_cons column c tail.1] at ih ⊢
    exact ih.cons

/-- No blank stands in a text outside brackets, and no bar. -/
def IsUnbroken (w : List Char) : Prop :=
  ∀ before c after, w = before ++ c :: after → before.foldl depthAfter 0 = 0 →
    isBlank c = false ∧ c ≠ '|'

theorem isUnbroken_of_takeWord {w : List Char} (h : takeWord 0 w = (w, [])) : IsUnbroken w := by
  rintro before c after rfl hdepth
  have hend := (takeWord_cons_eq_self.mp (takeWord_of_append before 0 h)).1
  rw [hdepth] at hend
  exact endsWord_zero_eq_false.mp hend

theorem bar_or_unbroken_of_mem_lexLine {line column : Int} {cs : List Char} {x : Lexeme}
    (h : x ∈ lexLine line column cs) : (∃ column', x = .bar line column')
      ∨ ∃ s : Source, x = .word s ∧ s.line = line ∧ s.text ≠ [] ∧ IsUnbroken s.text := by
  fun_induction lexLine line column cs with
  | case1 => cases h
  | case2 column c cs hc ih => exact ih h
  | case3 column cs hc ih =>
    rcases List.mem_cons.mp h with rfl | h
    · exact .inl ⟨column, rfl⟩
    · exact ih h
  | case4 column c cs hc hbar hcomment => cases h
  | case5 column c cs hc hbar hcomment tail ih =>
    rcases List.mem_cons.mp h with rfl | h
    · refine .inr ⟨_, rfl, rfl, List.cons_ne_nil _ _, isUnbroken_of_takeWord ?_⟩
      exact takeWord_cons_eq_self.mpr
        ⟨endsWord_zero_eq_false.mpr ⟨by simpa using hc, hbar⟩, takeWord_takeWord _ _⟩
    · exact ih h

/-! ### Tokens -/

variable {Q : Type}

/-- The stretch of a line that a token was read from. -/
def Token.stretch (t : Token Q) : Stretch :=
  ⟨t.column, t.text.toList⟩

/-- **A token within a line**: it is no line end and has a text, in which neither
a blank nor a bar stands outside brackets, but for the bar that is a token. -/
structure Token.IsWithin (line : Int) (t : Token Q) : Prop where
  line : t.line = line
  content : t.content ≠ .newline
  text : t.text ≠ ""
  unbroken : ∀ before c after, t.text.toList = before ++ c :: after →
    before.foldl depthAfter 0 = 0 → isBlank c = false ∧ (c = '|' → t.content = .bar)

/-- **The tokens of a line**: those that cover it, and its end behind them if
there are any. -/
def IsRow (line : Int) (cs : List Char) (row : List (Token Q)) : Prop :=
  ∃ body : List (Token Q), IsCover 1 cs (body.map Token.stretch) ∧ (∀ t ∈ body, t.IsWithin line)
    ∧ row = if body = [] then [] else body ++ [⟨.newline, "\n", line, cs.length + 1⟩]

variable [Quantity Q] {table : Table}

theorem TokenContent.sound_or_key_of_read {s : Source} {content : TokenContent Q}
    (h : TokenContent.read table s = .ok content) :
    (∃ sound duration, content = .sound sound duration) ∨ ∃ k, content = .key k := by
  unfold TokenContent.read at h
  split at h
  · split at h
    · rename_i k _
      exact .inr ⟨k, (Except.ok.inj h).symm⟩
    · cases h
  · obtain ⟨r, -, h⟩ := exists_of_bind_eq_ok h
    obtain ⟨sound, -, h⟩ := exists_of_bind_eq_ok h
    exact .inl ⟨sound, r.2, (Except.ok.inj h).symm⟩

theorem Lexeme.stretch_of_token {x : Lexeme} {t : Token Q} (h : x.token table = .ok t) :
    t.stretch = x.stretch := by
  cases x with
  | word s =>
    obtain ⟨content, -, rfl⟩ := exists_of_map_eq_ok h
    exact congrArg (Stretch.mk s.column) String.toList_ofList
  | bar line column =>
    cases h
    exact congrArg (Stretch.mk column) (show "|".toList = ['|'] by decide)
  | newline line column =>
    cases h
    exact congrArg (Stretch.mk column) (show "\n".toList = ['\n'] by decide)

theorem map_stretch_of_mapM {ls : List Lexeme} {ts : List (Token Q)}
    (h : ls.mapM (Lexeme.token table) = .ok ts) :
    ts.map Token.stretch = ls.map Lexeme.stretch := by
  have hpairs := mapM_eq_ok_iff.mp h
  clear h
  induction hpairs with
  | nil => rfl
  | cons hx _ ih => rw [List.map_cons, List.map_cons, ih, Lexeme.stretch_of_token hx]

theorem isWithin_of_mem_lexLine {line column : Int} {cs : List Char} {x : Lexeme} {t : Token Q}
    (hx : x ∈ lexLine line column cs) (h : x.token table = .ok t) : t.IsWithin line := by
  rcases bar_or_unbroken_of_mem_lexLine hx with ⟨column', rfl⟩ | ⟨s, rfl, hline, hne, hunbroken⟩
  · cases h
    have hne : "|" ≠ "" := by decide
    refine ⟨rfl, nofun, hne, fun before c after heq _ => ?_⟩
    have hc : c ∈ "|".toList := by
      rw [show "|".toList = before ++ c :: after from heq]
      simp
    obtain rfl : c = '|' := by simpa using hc
    exact ⟨by decide, fun _ => rfl⟩
  · obtain ⟨content, hcontent, rfl⟩ := exists_of_map_eq_ok h
    refine ⟨hline, ?_, fun htext => hne ?_, fun before c after heq hdepth => ?_⟩
    · rcases TokenContent.sound_or_key_of_read hcontent with ⟨sound, duration, rfl⟩ | ⟨k, rfl⟩
      · nofun
      · nofun
    · simpa using congrArg String.toList htext
    · obtain ⟨hblank, hbar⟩ := hunbroken before c after (by simpa using heq) hdepth
      exact ⟨hblank, fun hc => absurd hc hbar⟩

theorem isRow_of_lexWholeLine {line : Int} {cs : List Char} {row : List (Token Q)}
    (h : (lexWholeLine line cs).mapM (Lexeme.token table) = .ok row) : IsRow line cs row := by
  have hbody : ∀ {body : List (Token Q)},
      (lexLine line 1 cs).mapM (Lexeme.token table) = .ok body →
      IsCover 1 cs (body.map Token.stretch) ∧ ∀ t ∈ body, t.IsWithin line := by
    intro body hbody
    refine ⟨map_stretch_of_mapM hbody ▸ isCover_lexLine line 1 cs, fun t ht => ?_⟩
    obtain ⟨x, hx, htoken⟩ := exists_of_mem_mapM hbody ht
    exact isWithin_of_mem_lexLine hx htoken
  unfold lexWholeLine at h
  cases hl : lexLine line 1 cs with
  | nil =>
    rw [hl] at h hbody
    cases h
    obtain ⟨hcover, hwithin⟩ := hbody rfl
    exact ⟨[], hcover, hwithin, rfl⟩
  | cons x xs =>
    rw [hl] at h hbody
    dsimp only at h
    rw [if_neg (by simp), List.mapM_append] at h
    obtain ⟨body, hpieces, h⟩ := exists_of_bind_eq_ok h
    obtain ⟨hcover, hwithin⟩ := hbody hpieces
    obtain ⟨t, ts, -, -, rfl⟩ := List.forall₂_cons_left_iff.mp (mapM_eq_ok_iff.mp hpieces)
    refine ⟨t :: ts, hcover, hwithin, ?_⟩
    rw [if_neg (by simp)]
    exact (Except.ok.inj h).symm

theorem exists_rows_of_lexLines {ls : List (List Char)} {n : Nat} {ts : List (Token Q)}
    (h : (lexLines n ls).mapM (Lexeme.token table) = .ok ts) :
    ∃ rows : List (List (Token Q)), ts = rows.flatten
      ∧ List.Forall₂ (fun l row => IsRow l.2 l.1 row) (ls.zipIdx n) rows := by
  induction ls generalizing n ts with
  | nil =>
    cases h
    exact ⟨[], rfl, .nil⟩
  | cons l ls ih =>
    rw [lexLines, List.mapM_append] at h
    obtain ⟨row, hrow, h⟩ := exists_of_bind_eq_ok h
    obtain ⟨ts', hrest, h⟩ := exists_of_bind_eq_ok h
    cases h
    obtain ⟨rows, rfl, hrows⟩ := ih (n := n + 1) (by exact_mod_cast hrest)
    exact ⟨row :: rows, rfl, .cons (isRow_of_lexWholeLine hrow) hrows⟩

/-- **A text that is cut into tokens loses nothing**: the tokens are those of its
lines, and the tokens of a line cover it. -/
theorem tokenize_rows {text : String} {ts : List (Token Q)} (h : tokenize table text = .ok ts) :
    ∃ rows : List (List (Token Q)), ts = rows.flatten
      ∧ List.Forall₂ (fun l row => IsRow l.2 l.1 row)
        (((dropReturns text.toList).splitOn '\n').zipIdx 1) rows := by
  rw [← lines_eq_splitOn]
  exact exists_rows_of_lexLines h

/-- Blanks in a group, bars between words, a comment and an empty line. -/
theorem tokenize_rows_tune : ∃ ts : List (Token Rat),
    tokenize Table.standard "G7(b9, #11)|#IV:2 # x\r\n\r\n@Am _\n" = .ok ts
      ∧ ∃ rows : List (List (Token Rat)), ts = rows.flatten
        ∧ List.Forall₂ (fun l row => IsRow l.2 l.1 row)
          (((dropReturns "G7(b9, #11)|#IV:2 # x\r\n\r\n@Am _\n".toList).splitOn '\n').zipIdx 1)
          rows := by
  have hread : (tokenize (Q := Rat) Table.standard
      "G7(b9, #11)|#IV:2 # x\r\n\r\n@Am _\n").toOption.isSome = true := by
    decide +kernel
  obtain ⟨ts, hts⟩ := Option.isSome_iff_exists.mp hread
  have hts := eq_ok_of_toOption hts
  exact ⟨ts, hts, tokenize_rows hts⟩

end LeadSheet
