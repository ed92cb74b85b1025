import LeadSheet.Proofs.Reading.Closed

/-!
# Reading a line in parts

`Scan cs ps rest` says that a line `cs` starts with the pieces `ps`, of whose
words every one is whole, and that `rest` is left of it then.  What follows a
part of a line decides where its last word ends, so a part is always looked at
together with what is left; but any other rest will do as well, as long as it
does not go on with that word (`Scan.change`).

A line of whole words is scanned to its end or up to a comment (`exists_scan`),
and every token of it is scanned on the way there (`exists_scan_token`).  So a
blank at the end of a line is as good as none (`linePieces_concat`,
`isWholeLine_of_concat`).
-/

namespace LeadSheet

open Text

/-! ### Words that are cut off -/

theorem takeWord_cons_eq_self {depth : Nat} {c : Char} {w : List Char} :
    takeWord depth (c :: w) = (c :: w, [])
      ↔ endsWord depth c = false ∧ takeWord (depthAfter depth c) w = (w, []) := by
  rw [takeWord]
  constructor
  · intro h
    split at h
    · cases h
    · rename_i hend
      obtain ⟨h₁, h₂⟩ := Prod.mk.inj h
      exact ⟨by simpa using hend, Prod.ext (List.cons.inj h₁).2 h₂⟩
  · rintro ⟨hend, h⟩
    rw [if_neg (by simp [hend]), h]

theorem takeWord_append_gap : ∀ (w : List Char) (depth : Nat) {rest : List Char},
    takeWord depth w = (w, []) → w.foldl depthAfter depth = 0 → AtGap rest →
    takeWord depth (w ++ rest) = (w, rest) := by
  intro w
  induction w with
  | nil =>
    intro depth rest _ hdepth hgap
    exact takeWord_append [] depth rest (fun c hc => nomatch hc) List.not_mem_nil hdepth hgap
  | cons c w ih =>
    intro depth rest hcut hdepth hgap
    obtain ⟨hend, htail⟩ := takeWord_cons_eq_self.mp hcut
    rw [List.cons_append, takeWord, if_neg (by simp [hend]), ih _ htail hdepth hgap]

theorem takeWord_takeWord (depth : Nat) (cs : List Char) :
    takeWord depth (takeWord depth cs).1 = ((takeWord depth cs).1, []) := by
  induction cs generalizing depth with
  | nil => rfl
  | cons c cs ih =>
    rw [takeWord]
    split
    · rfl
    · rename_i hend
      exact takeWord_cons_eq_self.mpr ⟨by simpa using hend, ih _⟩

theorem endsWord_zero_eq_false {c : Char} :
    endsWord 0 c = false ↔ isBlank c = false ∧ c ≠ '|' := by
  simp [endsWord]

/-- A whole word that nothing can be cut off. -/
structure IsCut (w : List Char) : Prop where
  ne_nil : w ≠ []
  uncut : takeWord 0 w = (w, [])
  whole : IsWhole w

namespace IsCut

variable {w : List Char}

theorem exists_cons (h : IsCut w) : ∃ c cs, w = c :: cs ∧ isBlank c = false ∧ c ≠ '|' := by
  obtain ⟨c, cs, rfl⟩ := List.exists_cons_of_ne_nil h.ne_nil
  exact ⟨c, cs, rfl, endsWord_zero_eq_false.mp (takeWord_cons_eq_self.mp h.uncut).1⟩

theorem startsComment_eq_false (h : IsCut w) (rest : List Char) :
    startsComment (w ++ rest) = false := by
  obtain ⟨hne, huncut, -, hmusic⟩ := h
  refine Bool.eq_false_iff.mpr fun hcomment => ?_
  match w, hne, huncut, hmusic with
  | [c], _, _, hmusic =>
    obtain ⟨rfl, -⟩ := startsComment_cons.mp hcomment
    exact hmusic rfl
  | c :: d :: w, _, huncut, _ =>
    obtain ⟨rfl, hd⟩ := startsComment_cons.mp hcomment
    have htail := (takeWord_cons_eq_self.mp huncut).2
    have hnot := (endsWord_zero_eq_false.mp (takeWord_cons_eq_self.mp htail).1).1
    rw [hd d rfl] at hnot
    cases hnot

theorem lexLine (h : IsCut w) {rest : List Char} (hgap : AtGap rest) (line column : Int) :
    lexLine line column (w ++ rest)
      = .word ⟨w, line, column⟩ :: LeadSheet.lexLine line (column + w.length) rest := by
  have hcomment := h.startsComment_eq_false rest
  obtain ⟨c, cs, rfl, hblank, hbar⟩ := h.exists_cons
  have htake : takeWord (depthAfter 0 c) (cs ++ rest) = (cs, rest) :=
    takeWord_append_gap cs _ (takeWord_cons_eq_self.mp h.uncut).2 h.whole.closed hgap
  rw [← column_cons column c cs]
  rw [List.cons_append] at hcomment ⊢
  rw [LeadSheet.lexLine, if_neg (by simp [hblank]), if_neg hbar, if_neg (by simp [hcomment])]
  simp only [htake]

theorem linePieces (h : IsCut w) {rest : List Char} (hgap : AtGap rest) :
    linePieces (w ++ rest) = .word w :: LeadSheet.linePieces rest := by
  unfold LeadSheet.linePieces
  rw [h.lexLine hgap, List.map_cons, linePieces_eq]
  rfl

end IsCut

/-! ### Scanning -/

/-- The line `cs` starts with some pieces, its words whole, and goes on with
`rest`. -/
inductive Scan : List Char → List Piece → List Char → Prop
  | done {rest : List Char} : Scan rest [] rest
  | blank {c : Char} {cs rest : List Char} {ps : List Piece} (hc : isBlank c = true)
      (h : Scan cs ps rest) : Scan (c :: cs) ps rest
  | bar {cs rest : List Char} {ps : List Piece} (h : Scan cs ps rest) :
      Scan ('|' :: cs) (.bar :: ps) rest
  | word {w cs rest : List Char} {ps : List Piece} (hw : IsCut w) (hgap : AtGap cs)
      (h : Scan cs ps rest) : Scan (w ++ cs) (.word w :: ps) rest

namespace Scan

variable {cs mid rest : List Char} {ps qs : List Piece}

theorem linePieces (h : Scan cs ps rest) : linePieces cs = ps ++ LeadSheet.linePieces rest := by
  induction h with
  | done => rfl
  | blank hc _ ih => rw [linePieces_blank hc, ih]
  | bar _ ih => rw [linePieces_bar, ih]; rfl
  | word hw hgap _ ih => rw [hw.linePieces hgap, ih]; rfl

theorem trans (h : Scan cs ps mid) (h' : Scan mid qs rest) : Scan cs (ps ++ qs) rest := by
  induction h with
  | done => exact h'
  | blank hc _ ih => exact .blank hc (ih h')
  | bar _ ih => exact .bar (ih h')
  | word hw hgap _ ih => exact .word hw hgap (ih h')

/-- **What was scanned is scanned in front of any other rest**, unless that goes
on with its last word. -/
theorem change (h : Scan cs ps rest) : ∃ front, cs = front ++ rest
    ∧ ∀ rest', (AtGap rest → AtGap rest') → Scan (front ++ rest') ps rest' := by
  induction h with
  | done => exact ⟨[], rfl, fun rest' _ => .done⟩
  | @blank c _ _ _ hc _ ih =>
    obtain ⟨front, rfl, hscan⟩ := ih
    exact ⟨c :: front, rfl, fun rest' hgap => .blank hc (hscan rest' hgap)⟩
  | bar _ ih =>
    obtain ⟨front, rfl, hscan⟩ := ih
    exact ⟨'|' :: front, rfl, fun rest' hgap => .bar (hscan rest' hgap)⟩
  | @word w _ _ _ hw hcs _ ih =>
    obtain ⟨front, rfl, hscan⟩ := ih
    refine ⟨w ++ front, (List.append_assoc ..).symm, fun rest' hgap => ?_⟩
    rw [List.append_assoc]
    refine .word hw ?_ (hscan rest' hgap)
    cases front with
    | nil => exact hgap hcs
    | cons c front => exact hcs

end Scan

/-! ### Lines of whole words -/

def IsWholeLine (cs : List Char) : Prop :=
  ∀ w, Piece.word w ∈ linePieces cs → IsWhole w

/-- Nothing is left of a line but a comment, if anything. -/
def AtEnd (rest : List Char) : Prop :=
  rest = [] ∨ startsComment rest = true

theorem isCut_of_takeWord {c : Char} {cs : List Char} (hblank : isBlank c = false) (hbar : c ≠ '|')
    (hwhole : IsWhole (c :: (takeWord (depthAfter 0 c) cs).1)) :
    IsCut (c :: (takeWord (depthAfter 0 c) cs).1) :=
  ⟨List.cons_ne_nil _ _, takeWord_cons_eq_self.mpr
    ⟨endsWord_zero_eq_false.mpr ⟨hblank, hbar⟩, takeWord_takeWord _ _⟩, hwhole⟩

/-- **A line of whole words is scanned to its end**, or up to a comment. -/
theorem exists_scan {cs : List Char} (h : IsWholeLine cs) :
    ∃ rest, Scan cs (linePieces cs) rest ∧ AtEnd rest := by
  suffices hlex : ∀ (line column : Int) (cs : List Char),
      (∀ w, Piece.word w ∈ (lexLine line column cs).map Lexeme.piece → IsWhole w) →
      ∃ rest, Scan cs ((lexLine line column cs).map Lexeme.piece) rest ∧ AtEnd rest from
    hlex 1 1 cs h
  intro line column cs h
  fun_induction lexLine line column cs with
  | case1 => exact ⟨[], .done, .inl rfl⟩
  | case2 column c cs hc ih =>
    obtain ⟨rest, hscan, hend⟩ := ih h
    exact ⟨rest, .blank hc hscan, hend⟩
  | case3 column cs hc ih =>
    obtain ⟨rest, hscan, hend⟩ := ih fun w hw => h w (List.mem_cons_of_mem _ hw)
    exact ⟨rest, .bar hscan, hend⟩
  | case4 column c cs hc hbar hcomment => exact ⟨c :: cs, .done, .inr hcomment⟩
  | case5 column c cs hc hbar hcomment tail ih =>
    obtain ⟨rest, hscan, hend⟩ := ih fun w hw => h w (List.mem_cons_of_mem _ hw)
    have hcut := isCut_of_takeWord (by simpa using hc) hbar (h _ (List.mem_cons_self ..))
    have hcs : c :: cs = (c :: tail.1) ++ tail.2 := by rw [List.cons_append, flatten_takeWord]
    refine ⟨rest, ?_, hend⟩
    rw [hcs]
    exact .word hcut (atGap_takeWord _ _) hscan

def Lexeme.text : Lexeme → List Char
  | word s => s.text
  | bar .. => ['|']
  | newline .. => ['\n']

def Lexeme.column : Lexeme → Int
  | word s => s.column
  | bar _ column => column
  | newline _ column => column

theorem exists_scan_token {cs : List Char} (h : IsWholeLine cs) {line column : Int} {x : Lexeme}
    (hx : x ∈ lexLine line column cs) : ∃ front rest ps, cs = front ++ (x.text ++ rest)
      ∧ x.column = column + front.length ∧ Scan cs ps (x.text ++ rest)
      ∧ Scan (x.text ++ rest) [x.piece] rest := by
  unfold IsWholeLine at h
  rw [← linePieces_eq line column] at h
  fun_induction lexLine line column cs with
  | case1 => cases hx
  | case2 column c cs hc ih =>
    obtain ⟨front, rest, ps, rfl, hcolumn, hscan, htoken⟩ := ih h hx
    refine ⟨c :: front, rest, ps, rfl, ?_, .blank hc hscan, htoken⟩
    rw [hcolumn, List.length_cons]
    omega
  | case3 column cs hc ih =>
    rcases List.mem_cons.mp hx with rfl | hx
    · exact ⟨[], cs, [], rfl, by simp [Lexeme.column], .done, .bar .done⟩
    · obtain ⟨front, rest, ps, rfl, hcolumn, hscan, htoken⟩ :=
        ih (fun w hw => h w (List.mem_cons_of_mem _ hw)) hx
      refine ⟨'|' :: front, rest, .bar :: ps, rfl, ?_, .bar hscan, htoken⟩
      rw [hcolumn, List.length_cons]
      omega
  | case4 column c cs hc hbar hcomment => cases hx
  | case5 column c cs hc hbar hcomment tail ih =>
    have hcut := isCut_of_takeWord (by simpa using hc) hbar (h _ (List.mem_cons_self ..))
    have hcs : c :: cs = (c :: tail.1) ++ tail.2 := by rw [List.cons_append, flatten_takeWord]
    rcases List.mem_cons.mp hx with rfl | hx
    · refine ⟨[], tail.2, [], hcs, by simp [Lexeme.column], ?_,
        .word hcut (atGap_takeWord _ _) .done⟩
      rw [hcs]
      exact .done
    · obtain ⟨front, rest, ps, htail, hcolumn, hscan, htoken⟩ :=
        ih (fun w hw => h w (List.mem_cons_of_mem _ hw)) hx
      refine ⟨(c :: tail.1) ++ front, rest, .word (c :: tail.1) :: ps, ?_, ?_, ?_, htoken⟩
      · rw [hcs, List.append_assoc, ← htail]
      · rw [hcolumn, List.length_append, List.length_cons]
        omega
      · rw [hcs]
        exact .word hcut (atGap_takeWord _ _) hscan

/-! ### Blanks at the end -/

theorem linePieces_of_startsComment {cs : List Char} (h : startsComment cs = true) :
    linePieces cs = [] := by
  cases cs with
  | nil => cases h
  | cons c cs =>
    obtain ⟨rfl, -⟩ := startsComment_cons.mp h
    rw [linePieces, lexLine, if_neg (by decide), if_neg (by decide), if_pos h]
    rfl

theorem startsComment_append {cs : List Char} (h : startsComment cs = true) {c : Char}
    (hc : isBlank c = true) (tail : List Char) : startsComment (cs ++ c :: tail) = true := by
  unfold startsComment at h
  split at h
  · exact hc
  · exact h
  · cases h

/-- **What stands behind a line of whole words and a blank** is read by itself,
or belongs to the comment. -/
theorem linePieces_append {cs : List Char} (h : IsWholeLine cs) {c : Char} (hc : isBlank c = true)
    (tail : List Char) : linePieces (cs ++ c :: tail) = linePieces cs ++ linePieces tail
      ∨ linePieces (cs ++ c :: tail) = linePieces cs := by
  obtain ⟨rest, hscan, hend⟩ := exists_scan h
  obtain ⟨front, hcs, hchange⟩ := hscan.change
  have hgap : AtGap (rest ++ c :: tail) ∨ ¬AtGap rest := by
    cases rest with
    | nil => exact .inl (atGap_cons (.inl hc) tail)
    | cons d rest =>
      by_cases hd : AtGap (d :: rest)
      · exact .inl hd
      · exact .inr hd
  have hlong : linePieces (cs ++ c :: tail) = linePieces cs ++ linePieces (rest ++ c :: tail) := by
    have hscan' := hchange (rest ++ c :: tail) fun hrest => hgap.resolve_right fun hn => hn hrest
    rw [← List.append_assoc, ← hcs] at hscan'
    exact hscan'.linePieces
  rcases hend with rfl | hcomment
  · rw [List.nil_append, linePieces_blank hc] at hlong
    exact .inl hlong
  · rw [linePieces_of_startsComment (startsComment_append hcomment hc tail), List.append_nil]
      at hlong
    exact .inr hlong

theorem linePieces_concat {cs : List Char} (h : IsWholeLine cs) {c : Char} (hc : isBlank c = true) :
    linePieces (cs ++ [c]) = linePieces cs := by
  rcases linePieces_append h hc [] with hline | hline
  · rw [hline, linePieces_nil, List.append_nil]
  · exact hline

theorem takeWord_of_append : ∀ (v : List Char) (depth : Nat) {w : List Char},
    takeWord depth (v ++ w) = (v ++ w, []) →
    takeWord (v.foldl depthAfter depth) w = (w, []) := by
  intro v
  induction v with
  | nil => intro depth w h; exact h
  | cons c v ih =>
    intro depth w h
    exact ih _ (takeWord_cons_eq_self.mp h).2

theorem IsCut.isBlank_eq_false {v : List Char} {c : Char} (h : IsCut (v ++ [c])) :
    isBlank c = false := by
  have hend := (takeWord_cons_eq_self.mp (takeWord_of_append v 0 h.uncut)).1
  by_contra hblank
  rw [Bool.not_eq_false] at hblank
  have hclosed : (v ++ [c]).foldl depthAfter 0 = 0 := h.whole.closed
  have hplain : c ∉ ['(', '[', ')', ']'] := by
    have hbracket : ∀ d ∈ ['(', '[', ')', ']'], isBlank d = false := forall_mem_of_all (by decide)
    intro hc
    rw [hbracket c hc] at hblank
    cases hblank
  rw [List.foldl_append, foldl_depthAfter_of_notMem [c] _ (by simpa using hplain)] at hclosed
  rw [hclosed] at hend
  rw [(endsWord_zero_eq_false.mp hend).1] at hblank
  cases hblank

theorem Scan.eq_nil {rest : List Char} {ps : List Piece} (h : Scan [] ps rest) :
    ps = [] ∧ rest = [] := by
  generalize hl : ([] : List Char) = l at h
  cases h with
  | done => exact ⟨rfl, rfl⟩
  | blank _ _ => cases hl
  | bar _ => cases hl
  | word hw _ _ => exact absurd (List.append_eq_nil_iff.mp hl.symm).1 hw.ne_nil

theorem Scan.of_concat {l rest : List Char} {ps : List Piece} (h : Scan l ps rest) {c : Char}
    (hc : isBlank c = true) : ∀ {cs : List Char}, l = cs ++ [c] →
    ∃ rest', Scan cs ps rest' ∧ (rest = rest' ++ [c] ∨ rest' = []) := by
  induction h with
  | done =>
    rintro cs rfl
    exact ⟨cs, .done, .inl rfl⟩
  | @blank d l rest ps hd hscan ih =>
    intro cs heq
    cases cs with
    | nil =>
      obtain ⟨-, rfl⟩ := List.cons.inj heq
      obtain ⟨rfl, -⟩ := hscan.eq_nil
      exact ⟨[], .done, .inr rfl⟩
    | cons e cs =>
      obtain ⟨rfl, htail⟩ := List.cons.inj heq
      obtain ⟨rest', hscan', hrest⟩ := ih htail
      exact ⟨rest', .blank hd hscan', hrest⟩
  | @bar l rest ps hscan ih =>
    intro cs heq
    cases cs with
    | nil =>
      obtain ⟨rfl, -⟩ := List.cons.inj heq
      cases hc
    | cons e cs =>
      obtain ⟨rfl, htail⟩ := List.cons.inj heq
      obtain ⟨rest', hscan', hrest⟩ := ih htail
      exact ⟨rest', .bar hscan', hrest⟩
  | @word w l rest ps hw hgap hscan ih =>
    intro cs heq
    rcases List.eq_nil_or_concat l with rfl | ⟨l', d, rfl⟩
    · rw [List.append_nil] at heq
      rw [heq] at hw
      rw [hw.isBlank_eq_false] at hc
      cases hc
    · rw [List.concat_eq_append, ← List.append_assoc] at heq
      obtain ⟨rfl, htail⟩ := List.append_inj' heq rfl
      obtain ⟨rest', hscan', hrest⟩ := ih (by rw [List.concat_eq_append, htail])
      refine ⟨rest', .word hw (fun e he => hgap e ?_) hscan', hrest⟩
      rw [List.concat_eq_append, List.head?_append, Option.mem_def.mp he]
      rfl

theorem startsComment_of_concat {d c : Char} {cs : List Char}
    (h : startsComment (d :: cs ++ [c]) = true) : startsComment (d :: cs) = true := by
  rw [List.cons_append] at h
  obtain ⟨hd, hhead⟩ := startsComment_cons.mp h
  refine startsComment_cons.mpr ⟨hd, fun e he => hhead e ?_⟩
  rw [List.head?_append, Option.mem_def.mp he]
  rfl

theorem isWholeLine_of_concat {cs : List Char} {c : Char} (h : IsWholeLine (cs ++ [c]))
    (hc : isBlank c = true) : IsWholeLine cs := by
  obtain ⟨rest, hscan, hend⟩ := exists_scan h
  obtain ⟨rest', hscan', hrest⟩ := hscan.of_concat hc rfl
  have hnone : linePieces rest' = [] := by
    rcases hrest with rfl | rfl
    · rcases hend with hnil | hcomment
      · exact absurd hnil (by simp)
      · cases rest' with
        | nil => exact linePieces_nil
        | cons d rest' => exact linePieces_of_startsComment (startsComment_of_concat hcomment)
    · exact linePieces_nil
  intro w hw
  rw [hscan'.linePieces, hnone, List.append_nil] at hw
  exact h w hw

end LeadSheet
