import LeadSheet.Proofs.Reading.Symbol
import LeadSheet.Proofs.Writing.Entry

/-!
# Words that are read are closed

Where a word ends depends on its brackets.  A word that can be read closes
every bracket it opens, and it is no number sign on its own
(`TokenContent.isWhole_of_read`); so whatever stands behind it can neither become
a part of it nor make a comment of it.

Nothing but a group opens a bracket, and a group closes the one it opens
(`Extension.GroupForm.isClosed`).
-/

namespace LeadSheet

open Text

/-! ### Brackets -/

def IsClosed (w : List Char) : Prop :=
  w.foldl depthAfter 0 = 0

theorem IsClosed.append {v w : List Char} (hv : IsClosed v) (hw : IsClosed w) :
    IsClosed (v ++ w) := by
  unfold IsClosed
  rw [List.foldl_append, show v.foldl depthAfter 0 = 0 from hv]
  exact hw

theorem isClosed_flatten : ∀ {ws : List (List Char)}, (∀ w ∈ ws, IsClosed w) →
    IsClosed ws.flatten := by
  intro ws
  induction ws with
  | nil => intro _; rfl
  | cons w ws ih =>
    intro h
    obtain ⟨hw, hws⟩ := List.forall_mem_cons.mp h
    exact hw.append (ih hws)

theorem isClosed_of_closerOf? : ∀ {w : List Char}, (∀ c ∈ w, closerOf? c = none) →
    IsClosed w := by
  intro w
  induction w with
  | nil => intro _; rfl
  | cons c w ih =>
    intro h
    obtain ⟨hc, hw⟩ := List.forall_mem_cons.mp h
    have hdepth : depthAfter 0 c = 0 := by
      unfold closerOf? at hc
      split at hc
      · cases hc
      · rename_i hround
        split at hc
        · cases hc
        · rename_i hsquare
          simp [depthAfter, hround, hsquare]
    unfold IsClosed
    rw [List.foldl_cons, hdepth]
    exact ih hw

theorem closerOf?_of_isDigit {c : Char} (h : isDigit c = true) : closerOf? c = none := by
  unfold closerOf?
  rw [if_neg (ne_of_isDigit h (by decide)), if_neg (ne_of_isDigit h (by decide))]

/-! ### Chords -/

theorem closerOf?_of_mem_accidental {xs : List Char} {a : Accidental}
    (h : Accidental.Form xs a) : ∀ c ∈ xs, closerOf? c = none := by
  intro c hc
  cases h with
  | none => cases hc
  | sharp h => rcases h with rfl | rfl <;> obtain rfl := List.mem_singleton.mp hc <;> decide
  | flat h => rcases h with rfl | rfl <;> obtain rfl := List.mem_singleton.mp hc <;> decide

theorem Root.Form.closerOf?_eq_none {xs : List Char} {r : Root × Bool} (h : Form xs r) :
    ∀ c ∈ xs, closerOf? c = none := by
  have hnone : ∀ c ∈ characters, closerOf? c = none := forall_mem_of_all (by decide)
  exact fun c hc => hnone c (h.mem_characters c hc)

theorem Root.BassForm.isClosed {xs : List Char} {bass : Option Root} (h : BassForm xs bass) :
    IsClosed xs := by
  refine isClosed_of_closerOf? fun c hc => ?_
  cases h with
  | absent => cases hc
  | slash h =>
    rcases List.mem_cons.mp hc with rfl | hc
    · rfl
    · exact h.closerOf?_eq_none c hc

namespace Extension

theorem GroupedForm.notMem_brackets {cs : List Char} {e : Extension} (h : GroupedForm cs e) :
    ∀ c ∈ cs, c ∉ ['(', '[', ')', ']'] := by
  have hdigit : ∀ c, isDigit c = true → c ∉ ['(', '[', ')', ']'] := by
    intro c hc
    have hbracket : ∀ d ∈ ['(', '[', ')', ']'], isDigit d = false := forall_mem_of_all (by decide)
    intro hm
    rw [hbracket c hm] at hc
    cases hc
  intro c hc
  cases h with
  | worded w hs =>
    have hword : ∀ c ∈ w.text.toList, c ∉ ['(', '[', ')', ']'] :=
      forall_mem_of_all (by cases w <;> decide)
    rcases List.mem_append.mp hc with hc | hc
    · exact hword c hc
    · exact hdigit c (hs.digit c hc)
  | signed ha hs =>
    have hsign : ∀ c ∈ ['#', '♯', 'b', '♭', '+', '-'], c ∉ ['(', '[', ')', ']'] :=
      forall_mem_of_all (by decide)
    rcases List.mem_append.mp hc with hc | hc
    · rcases ha.cases with ⟨rfl, -⟩ | ⟨d, rfl, hd⟩
      · cases hc
      · obtain rfl := List.mem_singleton.mp hc
        exact hsign c (Accidental.mem_of_ofSign? hd).1
    · exact hdigit c (hs.digit c hc)

end Extension

theorem exists_mem_splitOn {c d : Char} (hcd : c ≠ d) {cs : List Char} (hc : c ∈ cs) :
    ∃ piece ∈ cs.splitOn d, c ∈ piece := by
  have hjoin : ∀ {pieces : List (List Char)}, c ∈ [d].intercalate pieces →
      ∃ piece ∈ pieces, c ∈ piece := by
    intro pieces
    induction pieces with
    | nil => intro h; cases h
    | cons piece pieces ih =>
      intro h
      cases pieces with
      | nil => exact ⟨piece, List.mem_cons_self .., by simpa [List.intercalate] using h⟩
      | cons next pieces =>
        rw [List.intercalate_cons_cons, List.mem_append, List.mem_append] at h
        rcases h with (h | h) | h
        · exact ⟨piece, List.mem_cons_self .., h⟩
        · exact absurd (List.mem_singleton.mp h) hcd
        · obtain ⟨p, hp, hcp⟩ := ih h
          exact ⟨p, List.mem_cons_of_mem _ hp, hcp⟩
  refine hjoin ?_
  rw [List.intercalate_splitOn]
  exact hc

theorem Extension.GroupForm.isClosed {g : List Char} {es : List Extension} (h : GroupForm g es) :
    IsClosed g := by
  cases h with
  | @group opener closer hends inner hinner es hitems =>
    have hplain : ∀ c ∈ inner, c ∉ ['(', '[', ')', ']'] := by
      intro c hc hbracket
      have hb : ∀ c ∈ ['(', '[', ')', ']'], isBlank c = false ∧ c ≠ ',' :=
        forall_mem_of_all (by decide)
      obtain ⟨hblank, hcomma⟩ := hb c hbracket
      obtain ⟨piece, hpiece, hcp⟩ := exists_mem_splitOn hcomma hc
      obtain ⟨e, -, hform⟩ := exists_of_forall₂ hitems.flip _ (List.mem_map_of_mem hpiece)
      exact hform.notMem_brackets c (mem_trim hcp hblank) hbracket
    have hdepth : ∀ r ∈ [('(', ')'), ('[', ']')], depthAfter 0 r.1 = 1 ∧ depthAfter 1 r.2 = 0 := by
      decide
    obtain ⟨hopen, hclose⟩ := hdepth _ hends
    unfold IsClosed
    rw [List.foldl_cons, hopen, List.foldl_append, foldl_depthAfter_of_notMem inner 1 hplain]
    exact hclose

/-- **A chord that is read closes every bracket.** -/
theorem isClosed_of_read {table : Table} {s : Source} {c : Chord}
    (h : Chord.read table s = .ok c) : IsClosed s.text := by
  obtain ⟨p, hp, hparse⟩ := Chord.exists_parse_of_read h
  rw [← hp]
  cases hparse with
  | intro hroot hsymbol hhead hbare hgroups hbass =>
    have hopen : ∀ c ∈ p.head, closerOf? c = none := by
      intro c hc
      by_contra hcloser
      obtain ⟨d, hd⟩ := Option.ne_none_iff_exists'.mp hcloser
      have hend := hhead c hc
      rw [endsHead_iff.mpr (.inl ⟨d, hd⟩)] at hend
      cases hend
    have hflat : IsClosed p.groups.flatten := by
      refine isClosed_flatten fun g hg => ?_
      obtain ⟨es, -, hform⟩ := exists_of_forall₂ hgroups.flip g hg
      exact hform.isClosed
    exact (isClosed_of_closerOf? hroot.form.closerOf?_eq_none).append
      ((isClosed_of_closerOf? hopen).append (hflat.append hbass.isClosed))

/-! ### Keys -/

theorem mem_dropWhile {α : Type} {p : α → Bool} {a : α} {as : List α} (ha : a ∈ as)
    (hp : p a = false) : a ∈ as.dropWhile p := by
  rw [← List.takeWhile_append_dropWhile (p := p) (l := as)] at ha
  rcases List.mem_append.mp ha with ha | ha
  · rw [List.mem_takeWhile_imp ha] at hp
    cases hp
  · exact ha

theorem mem_lower {c : Char} (hascii : c.toNat < 0x80) (hlower : c.toLower = c) :
    ∀ {cs : List Char}, c ∈ cs → c ∈ lower cs := by
  have hafter : ∀ (cs before : List Char), c ∈ cs → c ∈ lowerAfter before cs := by
    intro cs
    induction cs with
    | nil => intro _ hc; cases hc
    | cons d cs ih =>
      intro before hc
      rw [lowerAfter, List.mem_append]
      rcases List.mem_cons.mp hc with rfl | hc
      · refine .inl ?_
        rw [if_neg (by omega), if_neg (by omega), lowerChar, if_pos hascii, hlower]
        exact List.mem_singleton_self _
      · exact .inr (ih _ hc)
  exact fun {cs} hc => hafter cs [] hc

theorem Mode.mem_of_ofName? {s : String} {m : Mode} (h : ofName? s = some m) :
    s ∈ aliases.map Prod.fst ++ all.map name := by
  unfold ofName? at h
  split at h
  · rename_i m' hlookup
    obtain ⟨before, after, heq, -⟩ := List.lookup_eq_some_iff.mp hlookup
    refine List.mem_append_left _ (List.mem_map.mpr ⟨(s, m'), ?_, rfl⟩)
    rw [heq]
    simp
  · have hname := List.find?_some h
    exact List.mem_append_right _
      (List.mem_map.mpr ⟨m, List.mem_of_find?_eq_some h, by simpa using hname⟩)

theorem closerOf?_of_readMode {text : String} {cs : List Char} {m : Mode}
    (h : readMode text cs = .ok m) {c : Char} (hc : c ∈ cs) : closerOf? c = none := by
  by_contra hcloser
  obtain ⟨d, hd⟩ := Option.ne_none_iff_exists'.mp hcloser
  have hopener : ∀ r ∈ [('(', ')'), ('[', ']')], isBlank r.1 = false ∧ (r.1 = ':') = False
      ∧ r.1.toNat < 0x80 ∧ r.1.toLower = r.1 ∧ r.1 ≠ 'M'
      ∧ ∀ s ∈ Mode.aliases.map Prod.fst ++ Mode.all.map Mode.name, r.1 ∉ s.toList := by
    simp only [eq_iff_iff, iff_false]
    decide
  obtain ⟨hblank, hcolon, hascii, hlower, hM, hnames⟩ := hopener _ (closerOf?_eq_some_iff.mp hd)
  have hpart : c ∈ modePart cs :=
    mem_trim (mem_dropWhile (mem_trim hc hblank) (by simp [hcolon])) hblank
  unfold readMode at h
  split at h
  · rename_i hmajor
    rw [hmajor] at hpart
    exact hM (List.mem_singleton.mp hpart)
  · dsimp only at h
    split at h
    · rename_i m' hm
      refine hnames _ (Mode.mem_of_ofName? hm) ?_
      rw [String.toList_ofList]
      exact mem_lower hascii hlower hpart
    · cases h

theorem closerOf?_of_read_key {name : List Char} {k : Key}
    (h : Key.read (String.ofList name) = .ok k) : ∀ c ∈ name, closerOf? c = none := by
  intro c hc
  by_contra hcloser
  obtain ⟨d, hd⟩ := Option.ne_none_iff_exists'.mp hcloser
  have hopener : ∀ r ∈ [('(', ')'), ('[', ']')], isBlank r.1 = false
      ∧ PitchClass.letter? r.1 = none := by
    decide
  obtain ⟨hblank, hletter⟩ := hopener _ (closerOf?_eq_some_iff.mp hd)
  have hmem := mem_trim hc hblank
  unfold Key.read at h
  rw [String.toList_ofList] at h
  cases htext : trim name with
  | nil => rw [htext] at hmem; cases hmem
  | cons l cs =>
    rw [htext] at h hmem
    rw [PitchClass.takeName_cons] at h
    cases hl : PitchClass.letter? l with
    | none => rw [hl] at h; cases h
    | some p =>
      rw [hl] at h
      dsimp only [Option.map_some] at h
      split at h
      · cases h
      · obtain ⟨mode, hmode, -⟩ := exists_of_map_eq_ok h
        obtain ⟨xs, hform, hcs⟩ := Accidental.form_take cs
        rw [hcs] at hmem
        rcases List.mem_cons.mp hmem with rfl | hmem
        · rw [hletter] at hl
          cases hl
        rcases List.mem_append.mp hmem with hmem | hmem
        · exact hcloser (closerOf?_of_mem_accidental hform c hmem)
        · exact hcloser (closerOf?_of_readMode hmode hmem)

/-! ### Durations -/

theorem isDigit_or_mem_takeDigits : ∀ {cs : List Char} {c : Char}, c ∈ cs →
    isDigit c = true ∨ c ∈ (takeDigits cs).2 := by
  intro cs
  induction cs with
  | nil => intro c hc; cases hc
  | cons d cs ih =>
    intro c hc
    rw [takeDigits]
    split
    · rename_i n hn
      rcases List.mem_cons.mp hc with rfl | hc
      · exact .inl (by rw [isDigit, hn]; rfl)
      · exact ih hc
    · exact .inr hc

theorem isDigit_of_readPlain? {cs : List Char} {d : Decimal} (h : readPlain? cs = some d) :
    ∀ c ∈ cs, isDigit c = true ∨ c = '.' := by
  intro c hc
  have hmem := isDigit_or_mem_takeDigits hc
  unfold readPlain? at h
  generalize takeDigits cs = r at h hmem
  obtain ⟨whole, rest⟩ := r
  dsimp only at h hmem
  split at h
  · exact .inl (hmem.resolve_right List.not_mem_nil)
  · rename_i rest
    have hplaces := @isDigit_or_mem_takeDigits rest c
    generalize takeDigits rest = r at h hplaces
    obtain ⟨places, left⟩ := r
    simp only [Option.ite_none_left_eq_some, Bool.or_eq_true, Bool.not_eq_true', not_or,
      Bool.not_eq_false, List.isEmpty_iff] at h
    obtain ⟨⟨-, rfl⟩, -⟩ := h
    rcases hmem with hdigit | hmem
    · exact .inl hdigit
    rcases List.mem_cons.mp hmem with rfl | hmem
    · exact .inr rfl
    · exact .inl ((hplaces hmem).resolve_right List.not_mem_nil)
  · cases h

variable {Q : Type} [Quantity Q]

theorem closerOf?_of_readBeats {value : List Char} {beats : Q}
    (h : readBeats value = .ok beats) : ∀ c ∈ value, closerOf? c = none := by
  intro c hc
  have hplain : c = '\n' ∨ c ∈ dropLineFeed value := by
    unfold dropLineFeed
    split
    · rename_i hlast
      obtain ⟨front, rfl⟩ := List.getLast?_eq_some_iff.mp hlast
      rw [List.dropLast_concat]
      rcases List.mem_append.mp hc with hc | hc
      · exact .inr hc
      · exact .inl (List.mem_singleton.mp hc)
    · exact .inr hc
  unfold readBeats at h
  split at h
  · cases h
  · rename_i d hd
    rcases hplain with rfl | hplain
    · rfl
    rcases isDigit_of_readPlain? hd c hplain with hdigit | rfl
    · exact closerOf?_of_isDigit hdigit
    · rfl

/-! ### Words -/

/-- A word that stays what it is whatever stands behind it: it closes its
brackets and is no number sign on its own. -/
structure IsWhole (w : List Char) : Prop where
  closed : IsClosed w
  music : w ≠ ['#']

theorem isClosed_of_readSound {table : Table} {s : Source} {sound : Sound}
    (h : Sound.read table s = .ok sound) : IsClosed s.text := by
  unfold Sound.read at h
  split at h
  · rename_i hrest
    rcases hrest with hrest | hrest <;> rw [hrest] <;> rfl
  · split at h
    · rename_i htie
      rw [htie]
      rfl
    · split at h
      · rename_i hagain
        rw [hagain]
        rfl
      · obtain ⟨c, hc, -⟩ := exists_of_map_eq_ok h
        exact isClosed_of_read hc

theorem isClosed_of_splitDuration {line column : Int} {word body : List Char}
    {duration : Option Q} (h : splitDuration line column word = .ok (body, duration))
    (hbody : IsClosed body) : IsClosed word := by
  unfold splitDuration at h
  split at h
  · cases h
    exact hbody
  · rename_i body' value hsplit
    split at h
    · cases h
      exact hbody
    · split at h
      · rename_i beats hbeats
        cases h
        rw [(splitColon_eq_some.mp hsplit).1]
        refine hbody.append (isClosed_of_closerOf? fun c hc => ?_)
        rcases List.mem_cons.mp hc with rfl | hc
        · rfl
        · exact closerOf?_of_readBeats hbeats c hc
      · cases h

/-- **A word that is read is whole.** -/
theorem TokenContent.isWhole_of_read {table : Table} {s : Source} {content : TokenContent Q}
    (h : TokenContent.read table s = .ok content) : IsWhole s.text := by
  unfold TokenContent.read at h
  split at h
  · rename_i name hname
    split at h
    · rename_i k hk
      rw [hname]
      refine ⟨isClosed_of_closerOf? fun c hc => ?_, by simp⟩
      rcases List.mem_cons.mp hc with rfl | hc
      · rfl
      · exact closerOf?_of_read_key hk c hc
    · cases h
  · obtain ⟨⟨body, duration⟩, hsplit, h⟩ := exists_of_bind_eq_ok h
    obtain ⟨sound, hsound, -⟩ := exists_of_bind_eq_ok h
    refine ⟨isClosed_of_splitDuration hsplit (isClosed_of_readSound hsound), fun hsign => ?_⟩
    rw [hsign] at hsplit
    obtain rfl : ['#'] = body := congrArg Prod.fst (Except.ok.inj hsplit)
    cases hsound

end LeadSheet
