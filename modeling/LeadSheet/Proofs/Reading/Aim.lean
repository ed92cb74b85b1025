import LeadSheet.Proofs.Reading.Scan

/-!
# Where misreadings point

A misreading has a place and a text.  Reading a symbol from left to right, every
reader knows what stands before what is left of it (`Source.start_of_append`), and
its misreadings point into what is left.  There are three ways they do
(`Misreading.Points`):

* the text stands at the place (`Misreading.OnText`);
* the text is a number that is no step, and at the place stands the word or sign in
  front of it (`Misreading.OnMark`);
* the text is a symbol whose bass is missing, and it ends at the place
  (`Misreading.BehindSlash`).

A way of the second or third kind is never one of the first.  What points into a word
points into its line too (`Misreading.Points.of_inside`), so
`misreading_of_tokenize` says which misreadings of a score stand at their places.
-/

namespace LeadSheet

open Text

/-! ### Attempts -/

/-- The attempt is misread in a certain way if it is misread at all. -/
def Misreads {α : Type} (P : Misreading → Prop) (x : Except ReadFault α) : Prop :=
  ∀ m, x = .error (.misreading m) → P m

namespace Misreads

variable {α β : Type} {P : Misreading → Prop}

theorem ok (a : α) : Misreads P (.ok a) :=
  nofun

theorem mono {P' : Misreading → Prop} {x : Except ReadFault α} (h : Misreads P x)
    (hP : ∀ m, P m → P' m) : Misreads P' x :=
  fun m hm => hP m (h m hm)

theorem bind {x : Except ReadFault α} {f : α → Except ReadFault β} (h : Misreads P x)
    (hf : ∀ a, x = .ok a → Misreads P (f a)) : Misreads P (x >>= f) := by
  intro m hm
  rcases of_bind_eq_error hm with hx | ⟨a, ha, hm⟩
  · exact h m hx
  · exact hf a ha m hm

theorem map {x : Except ReadFault α} (h : Misreads P x) (f : α → β) : Misreads P (x.map f) :=
  fun m hm => h m (of_map_eq_error hm)

theorem mapM {f : α → Except ReadFault β} {as : List α} (h : ∀ a ∈ as, Misreads P (f a)) :
    Misreads P (as.mapM f) := by
  induction as with
  | nil => exact ok _
  | cons a as ih =>
    rw [List.mapM_cons]
    refine (h a (List.mem_cons_self ..)).bind fun b _ => ?_
    exact (ih fun a ha => h a (List.mem_cons_of_mem _ ha)).bind fun bs _ => ok _

end Misreads

/-! ### Places in a text -/

/-- A character that may follow a symbol: it ends the word, or it starts a duration. -/
def endsSymbol (c : Char) : Bool :=
  isBlank c || c = '|' || c = ':'

/-- What stands before the number of an item: a word, a sign, both or neither. -/
def IsMark (mark : List Char) : Prop :=
  ∃ (w : Option ItemWord) (xs : List Char) (a : Accidental), Accidental.SignForm xs a
    ∧ mark = (w.elim [] fun w => w.text.toList) ++ xs

def IsNumber (ds : List Char) : Prop :=
  ds ≠ [] ∧ ∀ c ∈ ds, isDigit c = true

/-- A misreading with a text that stands at its place. -/
def Misreading.OnText (m : Misreading) (s : Source) : Prop :=
  ∃ before after, s.text = before ++ m.text.toList ++ after
    ∧ m.column = s.column + before.length

/-- A misreading with a number that is no step, at the place of the mark in front of
the number. -/
def Misreading.OnMark (m : Misreading) (s : Source) : Prop :=
  m.cause = .unknownDegree m.text ∧ IsNumber m.text.toList
    ∧ ∃ before mark after, s.text = before ++ mark ++ m.text.toList ++ after
      ∧ m.column = s.column + before.length ∧ IsMark mark ∧ mark ≠ []

/-- A misreading with a symbol that ends in a slash, at the place behind it. -/
def Misreading.BehindSlash (m : Misreading) (s : Source) : Prop :=
  m.cause = .noRoot .bass m.text ∧ m.text.toList.getLast? = some '/'
    ∧ (∀ c ∈ m.text.toList.head?, endsSymbol c = false)
    ∧ ∃ before after, s.text = before ++ m.text.toList ++ after
      ∧ m.column = s.column + (before.length + m.text.toList.length)
      ∧ ∀ c ∈ after.head?, endsSymbol c = true

/-- Where a misreading points in a text that stands on one line. -/
structure Misreading.Points (s : Source) (m : Misreading) : Prop where
  line : m.line = s.line
  place : m.OnText s ∨ m.OnMark s ∨ m.BehindSlash s

theorem IsMark.isDigit_head? {mark : List Char} (h : IsMark mark) :
    ∀ c ∈ mark.head?, isDigit c = false := by
  obtain ⟨w, xs, a, hxs, rfl⟩ := h
  have hnot : ∀ c ∈ xs.head?, isDigit c = false := by
    rcases hxs.cases with ⟨rfl, -⟩ | ⟨c, rfl, hc⟩
    · nofun
    · intro d hd
      obtain rfl : c = d := by simpa using hd
      by_contra hdigit
      rw [Accidental.ofSign?_of_isDigit (by simpa using hdigit)] at hc
      cases hc
  cases w with
  | none => exact hnot
  | some w =>
    obtain ⟨c, cs, hw, hc⟩ := w.exists_cons_text
    have hletter : ∀ c ∈ ['a', 'o', 'n'], isDigit c = false := forall_mem_of_all (by decide)
    intro d hd
    obtain rfl : c = d := by simpa [hw] using hd
    exact hletter c hc

namespace Misreading

variable {m : Misreading} {s whole : Source}

theorem OnMark.not_onText (h : m.OnMark s) : ¬ m.OnText s := by
  obtain ⟨-, ⟨hne, hdigit⟩, before, mark, after, htext, hcolumn, hmark, hmarkne⟩ := h
  rintro ⟨before', after', htext', hcolumn'⟩
  have hlength : before.length = before'.length := by omega
  rw [htext, List.append_assoc, List.append_assoc, List.append_assoc] at htext'
  have hrest := (List.append_inj htext' hlength).2
  obtain ⟨c, cs, rfl⟩ := List.exists_cons_of_ne_nil hmarkne
  obtain ⟨d, ds, hds⟩ := List.exists_cons_of_ne_nil hne
  rw [hds] at hrest hdigit
  obtain rfl : c = d := (List.cons.inj hrest).1
  have hnot := hmark.isDigit_head? c rfl
  rw [hdigit c (List.mem_cons_self ..)] at hnot
  cases hnot

theorem BehindSlash.not_onText (h : m.BehindSlash s) : ¬ m.OnText s := by
  obtain ⟨-, hlast, hfirst, before, after, htext, hcolumn, hends⟩ := h
  rintro ⟨before', after', htext', hcolumn'⟩
  have hlength : (before ++ m.text.toList).length = before'.length := by
    rw [List.length_append]
    omega
  rw [htext, List.append_assoc before'] at htext'
  have hrest := (List.append_inj htext' hlength).2
  cases hsymbol : m.text.toList with
  | nil => rw [hsymbol] at hlast; cases hlast
  | cons c cs =>
    rw [hsymbol] at hrest hfirst
    have hends := hends c (by rw [hrest]; rfl)
    rw [hfirst c rfl] at hends
    cases hends

/-- **A misreading stands at its place unless it points at a mark or behind a
slash.** -/
theorem Points.onText_iff (h : Points s m) : m.OnText s ↔ ¬ (m.OnMark s ∨ m.BehindSlash s) := by
  constructor
  · rintro htext (hmark | hslash)
    · exact hmark.not_onText htext
    · exact hslash.not_onText htext
  · exact h.place.resolve_right

theorem Points.of_inside (h : Points s m) {front back : List Char}
    (hin : s.Inside whole front back) (hback : ∀ c ∈ back.head?, endsSymbol c = true) :
    Points whole m := by
  have hcolumn := hin.column
  refine ⟨h.line.trans hin.line, h.place.imp ?_ (.imp ?_ ?_)⟩
  · rintro ⟨before, after, htext, hplace⟩
    refine ⟨front ++ before, after ++ back, ?_, ?_⟩
    · simp [hin.text, htext]
    · rw [List.length_append]
      omega
  · rintro ⟨hcause, hnumber, before, mark, after, htext, hplace, hmark⟩
    refine ⟨hcause, hnumber, front ++ before, mark, after ++ back, ?_, ?_, hmark⟩
    · simp [hin.text, htext]
    · rw [List.length_append]
      omega
  · rintro ⟨hcause, hlast, hfirst, before, after, htext, hplace, hends⟩
    refine ⟨hcause, hlast, hfirst, front ++ before, after ++ back, ?_, ?_, ?_⟩
    · simp [hin.text, htext]
    · rw [List.length_append]
      omega
    · cases after with
      | nil => exact hback
      | cons c cs => exact hends

end Misreading

/-! ### Items -/

namespace Source

variable {α : Type} {s : Source} {before : List Char}

theorem start_of_append {rest : List Char} (h : s.text = before ++ rest) :
    s.start rest = before.length := by
  rw [start, h, List.length_append, Nat.add_sub_cancel]

theorem fault_points {fragment after : List Char} (h : s.text = before ++ fragment ++ after)
    (cause : Cause) : Misreads (Misreading.Points s)
      (.error (s.fault before.length cause fragment) : Except ReadFault α) := by
  intro m hm
  cases hm
  exact ⟨rfl, .inl ⟨before, after, by rwa [String.toList_ofList], rfl⟩⟩

theorem fault_start_points {fragment after rest : List Char} (h : s.text = before ++ rest)
    (hrest : rest = fragment ++ after) (cause : Cause) : Misreads (Misreading.Points s)
      (.error (s.fault (s.start rest) cause fragment) : Except ReadFault α) := by
  rw [start_of_append h]
  have htext : s.text = before ++ fragment ++ after := by rw [h, hrest, List.append_assoc]
  exact fault_points htext cause

end Source

namespace Item

def Spelled (i : Item) (mark : List Char) : Prop :=
  IsMark mark ∧ IsNumber i.number

theorem exists_spelled_of_read? {cs : List Char} {i : Item} (h : read? cs = some i) :
    ∃ mark, i.Spelled mark ∧ cs = mark ++ i.number := by
  obtain ⟨xs, hword, hsign, hnumber⟩ := read?_eq_some_iff.mp h
  obtain ⟨ys, hform, hxs, -⟩ := form_takeSign xs
  rw [hsign] at hxs hform
  have hcs : cs = (i.word.elim [] fun w => w.text.toList) ++ xs := by
    unfold takeWord at hword
    split at hword
    · rename_i w rest hw
      obtain ⟨hi, rfl⟩ := Prod.mk.inj hword
      rw [← hi]
      exact ItemWord.eq_of_take? hw
    · obtain ⟨hi, rfl⟩ := Prod.mk.inj hword
      rw [← hi]
      rfl
  exact ⟨_, ⟨⟨i.word, ys, i.sign, hform, rfl⟩, hnumber⟩, by rw [hcs, List.append_assoc, ← hxs]⟩

theorem exists_spelled_of_takeBare {cs rest : List Char} {i : Item}
    (h : takeBare cs = some (i, rest)) :
    ∃ mark, i.Spelled mark ∧ cs = mark ++ i.number ++ rest := by
  unfold takeBare at h
  split at h
  · rename_i r hr
    obtain rfl := Option.some.inj h
    unfold takeWorded at hr
    split at hr
    · cases hr
    · rename_i w left hw
      simp only [Option.ite_none_left_eq_some, Option.some.injEq, Prod.mk.injEq] at hr
      obtain ⟨hne, rfl, rfl⟩ := hr
      refine ⟨w.text.toList ++ [], ⟨⟨some w, [], .natural, .accidental .none, rfl⟩,
        by simpa using hne, fun c hc => List.mem_takeWhile_imp hc⟩, ?_⟩
      rw [List.append_nil, List.append_assoc, List.takeWhile_append_dropWhile]
      exact ItemWord.eq_of_take? hw
  · cases cs with
    | nil => cases h
    | cons c cs =>
      obtain ⟨a, hsign, ha⟩ := Option.bind_eq_some_iff.mp h
      obtain ⟨n, hn, hafter⟩ := List.exists_of_findSome?_eq_some ha
      obtain ⟨rest', hrest, heq⟩ := Option.map_eq_some_iff.mp hafter
      obtain ⟨rfl, rfl⟩ := Prod.mk.inj heq
      have hne : ∀ n ∈ bareNumbers, n.toList ≠ [] := by decide
      refine ⟨[c], ⟨⟨none, [c], a, Accidental.ofSign?_eq_some_iff.mp hsign, rfl⟩, hne n hn,
        isDigit_of_mem_bareNumbers n hn⟩, ?_⟩
      rw [after?_eq_some.mp hrest, List.append_assoc, List.singleton_append]

variable {s : Source}

theorem toExtension_points {i : Item} {before mark after : List Char} (h : i.Spelled mark)
    (htext : s.text = before ++ (mark ++ i.number ++ after)) :
    Misreads (Misreading.Points s) (i.toExtension s before.length) := by
  unfold toExtension
  split
  · exact nofun
  · split
    · -- without a mark the number itself is pointed at
      by_cases hmark : mark = []
      · subst hmark
        have hitem : s.text = before ++ i.number ++ after := by
          rw [htext, List.nil_append, List.append_assoc]
        exact Source.fault_points hitem _
      · intro m hm
        cases hm
        refine ⟨rfl, .inr (.inl ⟨rfl, ?_, before, mark, after, ?_, rfl, h.1, hmark⟩)⟩
        · rw [String.toList_ofList]
          exact h.2
        · rw [String.toList_ofList, htext]
          simp only [List.append_assoc]
    · split
      · split
        · exact .ok _
        · have hitem : s.text = before ++ (mark ++ i.number ++ after) ++ [] := by
            rw [htext, List.append_nil]
          rw [htext, List.drop_left]
          exact Source.fault_points hitem _
      · exact .ok _

end Item

variable {s : Source}

theorem readBare_points (tail cs : List Char) : ∀ {before : List Char},
    s.text = before ++ (cs ++ tail) → Misreads (Misreading.Points s) (readBare s tail cs) := by
  induction hn : cs.length using Nat.strongRecOn generalizing cs with
  | ind n ih =>
    intro before htext
    rw [readBare]
    split
    · exact .ok _
    · rename_i i rest hi
      obtain ⟨mark, hspelled, hcs⟩ := Item.exists_spelled_of_takeBare hi
      have hitem : s.text = before ++ (mark ++ i.number ++ (rest ++ tail)) := by
        rw [htext, hcs]
        simp only [List.append_assoc]
      have hrest : s.text = (before ++ mark ++ i.number) ++ (rest ++ tail) := by
        rw [hitem]
        simp only [List.append_assoc]
      rw [Source.start_of_append htext]
      refine (Item.toExtension_points hspelled hitem).bind fun e _ => ?_
      exact (ih rest.length (hn ▸ Item.length_takeBare hi) rest rfl hrest).bind fun r _ => .ok _

/-! ### The quality -/

theorem readQuality_points {t : Table} {small : Bool} {before cs : List Char}
    (htext : s.text = before ++ cs) : Misreads (Misreading.Points s) (readQuality t s small cs) := by
  have hcs : cs = cs.takeWhile (fun c => !endsHead c) ++ cs.dropWhile fun c => !endsHead c :=
    List.takeWhile_append_dropWhile.symm
  unfold readQuality
  dsimp only
  generalize cs.takeWhile (fun c => !endsHead c) = head at hcs ⊢
  generalize (cs.dropWhile fun c => !endsHead c) = tail at hcs ⊢
  have hunknown : ∀ cause : Cause, Misreads (Misreading.Points s)
      (.error (s.fault (s.start cs) cause head)
        : Except ReadFault ((Quality × List Extension) × List Char)) :=
    fun cause => Source.fault_start_points htext hcs cause
  split
  · exact nofun
  · rename_i quality rest htake
    obtain ⟨symbol, -, hsymbol⟩ := Table.take?_eq_some_iff.mp htake
    split
    · exact hunknown _
    · rename_i hlength
      obtain ⟨mid, rfl, rfl⟩ := exists_between (hsymbol.symm.trans hcs) (Nat.le_of_not_lt hlength)
      rw [List.length_append, Nat.add_sub_cancel, List.take_left]
      have hmid : s.text = (before ++ symbol.toList) ++ (mid ++ tail) := by
        rw [htext, hsymbol, List.append_assoc]
      refine (readBare_points tail mid hmid).bind fun r _ => ?_
      split
      · exact .ok _
      · exact hunknown _

/-! ### Groups -/

theorem exists_trim_append (cs : List Char) :
    ∃ before after, cs = before ++ trim cs ++ after
      ∧ before.length = cs.length - (trimStart cs).length := by
  obtain ⟨before, hbefore⟩ : trimStart cs <:+ cs := List.dropWhile_suffix isBlank
  obtain ⟨after, hafter⟩ : trim cs <+: trimStart cs := by
    have := List.dropWhile_suffix (l := (trimStart cs).reverse) isBlank
    simpa [trim, trimEnd, trimStart] using List.reverse_prefix.mpr this
  refine ⟨before, after, ?_, ?_⟩
  · rw [List.append_assoc, hafter, hbefore]
  · have := congrArg List.length hbefore
    rw [List.length_append] at this
    omega

theorem exists_append_of_mem_locateItems : ∀ {pieces : List (List Char)} {start : Nat}
    {r : Nat × List Char}, r ∈ locateItems start pieces →
    ∃ before after, [','].intercalate pieces = before ++ r.2 ++ after
      ∧ r.1 = start + before.length := by
  intro pieces
  induction pieces with
  | nil => intro start r hr; cases hr
  | cons piece pieces ih =>
    intro start r hr
    obtain ⟨more, hmore⟩ : ∃ more, [','].intercalate (piece :: pieces) = piece ++ more
        ∧ (pieces ≠ [] → more = ',' :: [','].intercalate pieces) := by
      cases pieces with
      | nil => exact ⟨[], by simp [List.intercalate], nofun⟩
      | cons p ps =>
        refine ⟨',' :: [','].intercalate (p :: ps), ?_, fun _ => rfl⟩
        rw [List.intercalate_cons_cons, List.append_assoc, List.singleton_append]
    rcases List.mem_cons.mp hr with rfl | hr
    · obtain ⟨before, after, hpiece, hlength⟩ := exists_trim_append piece
      refine ⟨before, after ++ more, ?_, by rw [hlength]⟩
      rw [hmore.1]
      conv_lhs => rw [hpiece]
      simp only [List.append_assoc]
    · obtain ⟨before, after, hrest, hplace⟩ := ih hr
      have hne : pieces ≠ [] := by rintro rfl; cases hr
      refine ⟨piece ++ ',' :: before, after, ?_, ?_⟩
      · rw [hmore.1, hmore.2 hne, hrest]
        simp
      · rw [hplace, List.length_append, List.length_cons]
        omega

theorem readItem_points {before cs after : List Char} (htext : s.text = before ++ cs ++ after) :
    Misreads (Misreading.Points s) (readItem s before.length cs) := by
  unfold readItem
  split
  · exact Source.fault_points htext _
  · rename_i i hi
    obtain ⟨mark, hspelled, rfl⟩ := Item.exists_spelled_of_read? hi
    have hitem : s.text = before ++ (mark ++ i.number ++ after) := by
      rw [htext, List.append_assoc]
    exact Item.toExtension_points hspelled hitem

theorem readGroup_points {before inner after : List Char}
    (htext : s.text = before ++ inner ++ after) :
    Misreads (Misreading.Points s) (readGroup s before.length inner) := by
  refine Misreads.mapM fun r hr => ?_
  obtain ⟨front, back, hinner, hplace⟩ := exists_append_of_mem_locateItems hr
  rw [List.intercalate_splitOn] at hinner
  have hitem : s.text = (before ++ front) ++ r.2 ++ (back ++ after) := by
    rw [htext, hinner]
    simp only [List.append_assoc]
  show Misreads _ (readItem s r.1 r.2)
  rw [hplace, ← List.length_append]
  exact readItem_points hitem

theorem readGroups_points (cs : List Char) : ∀ {before : List Char},
    s.text = before ++ cs → Misreads (Misreading.Points s) (readGroups s cs) := by
  induction hn : cs.length using Nat.strongRecOn generalizing cs with
  | ind n ih =>
    intro before htext
    rw [readGroups.eq_def]
    cases cs with
    | nil => exact .ok _
    | cons c cs =>
      dsimp only
      split
      · exact .ok _
      · rename_i closer _
        split
        · exact Source.fault_start_points htext (List.append_nil _).symm _
        · rename_i inner rest hsplit
          have hcs : cs = inner ++ closer :: rest := eq_of_splitAt? hsplit
          have hgroup : s.text = (before ++ [c]) ++ inner ++ (closer :: rest) := by
            rw [htext, hcs]
            simp
          have hrest : s.text = (before ++ [c] ++ inner ++ [closer]) ++ rest := by
            rw [hgroup]
            simp
          have hlt : rest.length < n := by
            rw [← hn, hcs, List.length_cons, List.length_append, List.length_cons]
            omega
          split
          · have hgroup : c :: cs = (c :: inner ++ [closer]) ++ rest := by simp [hcs]
            exact Source.fault_start_points htext hgroup _
          · have hstart : s.start (c :: cs) + 1 = (before ++ [c]).length := by
              rw [Source.start_of_append htext, List.length_append, List.length_singleton]
            rw [hstart]
            refine (readGroup_points hgroup).bind fun es _ => ?_
            exact (ih rest.length hlt rest rfl hrest).bind fun r _ => .ok _

/-! ### Roots and chords -/

theorem Root.exists_cons_of_take {cs rest : List Char} {r : Root × Bool}
    (h : Root.take cs = some (r, rest)) : ∃ c ds, cs = c :: ds ∧ endsSymbol c = false := by
  obtain ⟨xs, hform, rfl⟩ := form_of_take h
  obtain ⟨c, ds, rfl⟩ := List.exists_cons_of_ne_nil hform.ne_nil
  have hroot : ∀ c ∈ characters, endsSymbol c = false := forall_mem_of_all (by decide)
  exact ⟨c, ds ++ rest, rfl, hroot c (hform.mem_characters c (List.mem_cons_self ..))⟩

theorem readRoot_points {before cs : List Char} (place : RootPlace) (htext : s.text = before ++ cs)
    (hcs : cs ≠ [] ∨ before = []) : Misreads (Misreading.Points s) (readRoot s place cs) := by
  unfold readRoot
  split
  · exact .ok _
  · have hfragment : (if cs.isEmpty then s.text else cs) = cs := by
      cases cs with
      | nil => rw [hcs.resolve_left (fun h => h rfl)] at htext; exact htext
      | cons => rfl
    rw [hfragment]
    exact Source.fault_start_points htext (List.append_nil _).symm _

theorem readBass_points {before cs : List Char} (htext : s.text = before ++ cs)
    (hfirst : ∀ c ∈ s.text.head?, endsSymbol c = false) :
    Misreads (Misreading.Points s) (readBass s cs) := by
  unfold readBass
  split
  · rename_i cs
    have hroot : s.text = (before ++ ['/']) ++ cs := by
      rw [htext, List.append_assoc, List.singleton_append]
    refine Misreads.bind ?_ fun r _ => .ok _
    cases cs with
    | cons c cs => exact readRoot_points .bass hroot (.inl (List.cons_ne_nil _ _))
    | nil =>
      rw [List.append_nil] at hroot
      intro m hm
      cases hm
      refine ⟨rfl, .inr (.inr ⟨rfl, ?_⟩)⟩
      rw [List.isEmpty_nil, if_pos rfl, String.toList_ofList]
      refine ⟨by rw [hroot, List.getLast?_concat], hfirst, [], [], ?_, ?_, nofun⟩
      · rw [List.nil_append, List.append_nil]
      · have hend : s.start [] = s.text.length :=
          Source.start_of_append (List.append_nil _).symm
        rw [hend]
        simp
  · exact .ok _

theorem exists_suffix_of_leaves {α : Type} {cs rest : List Char} {a : α}
    {x : Except ReadFault (α × List Char)} (h : Leaves cs x) (hx : x = .ok (a, rest)) :
    ∃ front, cs = front ++ rest := by
  subst hx
  cases h with
  | done h => exact h.imp fun _ => Eq.symm

/-- **The misreadings of a chord symbol point into it.** -/
theorem Chord.read_points (t : Table) (s : Source) :
    Misreads (Misreading.Points s) (Chord.read t s) := by
  unfold Chord.read
  have hwhole : s.text = [] ++ s.text := rfl
  refine (readRoot_points .chord hwhole (.inr rfl)).bind ?_
  rintro ⟨⟨root, small⟩, afterRoot⟩ hroot
  obtain ⟨front, hfront⟩ := exists_suffix_of_leaves (readRoot_leaves s .chord s.text) hroot
  have hfirst : ∀ c ∈ s.text.head?, endsSymbol c = false := by
    obtain ⟨c, cs, htext, hc⟩ := Root.exists_cons_of_take (readRoot_eq_ok_iff.mp hroot)
    intro d hd
    rw [show s.text = c :: cs from htext] at hd
    exact Option.some.inj hd ▸ hc
  refine (readQuality_points hfront).bind ?_
  rintro ⟨⟨quality, bare⟩, afterQuality⟩ hquality
  obtain ⟨symbol, _, xss, hhead, -⟩ := exists_headForm hquality
  have hgroups : s.text = (front ++ (symbol.toList ++ xss.flatten)) ++ afterQuality := by
    rw [hfront, hhead.text, List.append_assoc front]
  refine (readGroups_points _ hgroups).bind ?_
  rintro ⟨groups, afterGroups⟩ hgroup
  obtain ⟨gs, hgs⟩ := exists_suffix_of_leaves (readGroups_leaves s afterQuality) hgroup
  have hbass : s.text = (front ++ (symbol.toList ++ xss.flatten) ++ gs) ++ afterGroups := by
    rw [hgroups, hgs, ← List.append_assoc]
  refine (readBass_points hbass hfirst).bind ?_
  rintro ⟨bass, rest⟩ hread
  obtain ⟨bs, hbs⟩ := exists_suffix_of_leaves (readBass_leaves s afterGroups) hread
  dsimp only
  split
  · exact .ok _
  · have hrest : s.text = (front ++ (symbol.toList ++ xss.flatten) ++ gs ++ bs) ++ rest := by
      rw [hbass, hbs, List.append_assoc _ bs]
    exact Source.fault_start_points hrest (List.append_nil _).symm _

/-! ### Words -/

theorem Sound.read_points (t : Table) (s : Source) :
    Misreads (Misreading.Points s) (Sound.read t s) := by
  unfold Sound.read
  split
  · exact .ok _
  · split
    · exact .ok _
    · split
      · exact .ok _
      · exact (Chord.read_points t s).map _

variable {Q : Type} [Quantity Q]

theorem splitDuration_points (s : Source) : Misreads (Misreading.Points s)
    (splitDuration s.line s.column s.text : Except ReadFault (List Char × Option Q)) := by
  unfold splitDuration
  split
  · exact .ok _
  · rename_i body value hsplit
    split
    · exact .ok _
    · split
      · exact .ok _
      · have hword : s.text = body ++ (':' :: value) ++ [] := by
          rw [List.append_nil]
          exact (splitColon_eq_some.mp hsplit).1
        exact Source.fault_points hword _

theorem exists_inside_of_splitDuration {s : Source} {body : List Char} {duration : Option Q}
    (h : splitDuration s.line s.column s.text = .ok (body, duration)) :
    ∃ after, Source.Inside { s with text := body } s [] after
      ∧ ∀ c ∈ after.head?, endsSymbol c = true := by
  have hwhole : Source.Inside s s [] [] := ⟨by simp, rfl, by simp⟩
  unfold splitDuration at h
  split at h
  · cases h
    exact ⟨[], hwhole, nofun⟩
  · rename_i body' value hsplit
    split at h
    · cases h
      exact ⟨[], hwhole, nofun⟩
    · split at h
      · cases h
        refine ⟨':' :: value, ⟨(splitColon_eq_some.mp hsplit).1, rfl, by simp⟩, fun c hc => ?_⟩
        obtain rfl := Option.some.inj hc
        rfl
      · cases h

theorem Token.read_points (t : Table) (s : Source) :
    Misreads (Misreading.Points s) (Token.read t s : Except ReadFault (Token Q)) := by
  refine Misreads.map ?_ _
  unfold TokenContent.read
  split
  · split
    · exact .ok _
    · exact nofun
  · refine (splitDuration_points s).bind ?_
    rintro ⟨body, duration⟩ hsplit
    obtain ⟨after, hin, hafter⟩ := exists_inside_of_splitDuration hsplit
    have hsound := Sound.read_points t { s with text := body }
    exact (hsound.mono fun m hm => hm.of_inside hin hafter).bind fun _ _ => .ok _

/-! ### Scores -/

/-- **Where misreadings point.**  A misreading of a score is on a line of its text, and
its own text stands there at its column unless that is a number behind its mark or a
symbol in front of a missing bass. -/
theorem misreading_of_tokenize {table : Table} {text : String} {m : Misreading}
    (h : (tokenize table text : Except ReadFault (List (Token Q))) = .error (.misreading m)) :
    ∃ (n : Nat) (cs : List Char), (lines text.toList)[n]? = some cs ∧ m.line = n + 1
      ∧ (m.OnText ⟨cs, m.line, 1⟩
        ↔ ¬ (m.OnMark ⟨cs, m.line, 1⟩ ∨ m.BehindSlash ⟨cs, m.line, 1⟩)) := by
  have hpoints : Misreads (fun m => ∃ (n : Nat) (cs : List Char),
      (lines text.toList)[n]? = some cs ∧ Misreading.Points ⟨cs, 1 + (n : Int), 1⟩ m)
      (tokenize table text : Except ReadFault (List (Token Q))) := by
    refine Misreads.mapM fun x hx => ?_
    cases x with
    | word s =>
      obtain ⟨n, cs, before, after, hcs, hin, hgap⟩ := exists_inside_of_mem_lexLines hx
      have hends : ∀ c ∈ after.head?, endsSymbol c = true := fun c hc => by
        simpa [endsSymbol] using Or.inl (hgap c hc)
      exact (Token.read_points table s).mono fun m hm => ⟨n, cs, hcs, hm.of_inside hin hends⟩
    | bar => exact .ok _
    | newline => exact .ok _
  obtain ⟨n, cs, hcs, hm⟩ := hpoints m h
  refine ⟨n, cs, hcs, hm.line.trans (Int.add_comm _ _), ?_⟩
  rw [hm.line]
  exact hm.onText_iff

/-- The column of a number that is no step is that of the word in front of it. -/
theorem misreading_of_tokenize_word : ∃ m,
    (tokenize Table.standard "C | Cadd8" : Except ReadFault (List (Token Rat)))
        = .error (.misreading m)
      ∧ m.line = 1 ∧ m.column = 6 ∧ m.text = "8" ∧ m.OnMark ⟨"C | Cadd8".toList, 1, 1⟩
      ∧ ∃ (n : Nat) (cs : List Char), (lines "C | Cadd8".toList)[n]? = some cs ∧ m.line = n + 1
        ∧ (m.OnText ⟨cs, m.line, 1⟩
          ↔ ¬ (m.OnMark ⟨cs, m.line, 1⟩ ∨ m.BehindSlash ⟨cs, m.line, 1⟩)) := by
  have hread : (tokenize Table.standard "C | Cadd8" : Except ReadFault (List (Token Rat)))
      = .error (.misreading ⟨.unknownDegree "8", 1, 6, "8"⟩) := by
    decide +kernel
  have hnumber : IsNumber "8".toList := ⟨by decide, forall_mem_of_all (by decide)⟩
  have hmark : IsMark "add".toList := ⟨some .add, [], .natural, .accidental .none, rfl⟩
  exact ⟨_, hread, rfl, rfl, rfl, ⟨rfl, hnumber, "C | C".toList, "add".toList, [], rfl, rfl, hmark,
    by decide⟩, misreading_of_tokenize hread⟩

end LeadSheet
