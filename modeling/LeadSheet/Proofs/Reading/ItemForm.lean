import LeadSheet.Proofs.Reading.Place
import LeadSheet.Proofs.Reading.RootForm

/-!
# The forms of items

The items of a chord symbol have two forms, depending on where they stand.

* `Extension.BareForm`: an item directly behind a quality.  It ends where its
  digits do, so a row of such items is cut in only one way
  (`Extension.flatten_inj`), and the reader cuts it there (`form_of_readBare`,
  `readBare_flatten`).
* `Extension.GroupedForm`: an item of a group, which is read as a whole
  (`readItem_eq_ok_iff`).
-/

namespace LeadSheet

open Text

/-! ### What items say -/

/-- Every row of digits of a text is short enough to be read as a number. -/
def DigitsFit (cs : List Char) : Prop :=
  ∀ ds, ds <:+: cs → (∀ c ∈ ds, isDigit c = true) → ds.length ≤ maxDigits

theorem DigitsFit.of_infix {cs ds : List Char} (h : DigitsFit cs) (hd : ds <:+: cs) :
    DigitsFit ds :=
  fun es hes => h es (hes.trans hd)

theorem digitsFit_of_length_le {cs : List Char} (h : cs.length ≤ maxDigits) : DigitsFit cs :=
  fun _ hds _ => hds.length_le.trans h

structure ChordStep.Digits (ds : List Char) (s : ChordStep) : Prop where
  ne_nil : ds ≠ []
  digit : ∀ c ∈ ds, isDigit c = true
  value : ofDigits (ds.filterMap digitValue?) = s.number

/-- The text of the sign of an item: an accidental, a plus or a minus. -/
inductive Accidental.SignForm : List Char → Accidental → Prop
  | accidental {xs : List Char} {a : Accidental} (h : Accidental.Form xs a) : SignForm xs a
  | plus : SignForm ['+'] .sharp
  | minus : SignForm ['-'] .flat

namespace Extension

/-- The text of an item directly behind a quality: a word and a number, or a
sign and one of a few numbers. -/
inductive BareForm : List Char → Extension → Prop
  | worded (w : ItemWord) {ds : List Char} {s : ChordStep} (hs : s.Digits ds) :
      BareForm (w.text.toList ++ ds) ⟨s, w.change⟩
  | signed {xs : List Char} {a : Accidental} (ha : Accidental.SignForm xs a) (hx : xs ≠ [])
      {n : String} (hn : n ∈ ["13", "11", "9", "5"]) {s : ChordStep} (hs : s.Digits n.toList) :
      BareForm (xs ++ n.toList) ⟨s, .alter a⟩

/-- The text of an item of a group: a word and a number, or a number that may
have a sign. -/
inductive GroupedForm : List Char → Extension → Prop
  | worded (w : ItemWord) {ds : List Char} {s : ChordStep} (hs : s.Digits ds) :
      GroupedForm (w.text.toList ++ ds) ⟨s, w.change⟩
  | signed {xs : List Char} {a : Accidental} (ha : Accidental.SignForm xs a) {ds : List Char}
      {s : ChordStep} (hs : s.Digits ds) : GroupedForm (xs ++ ds) ⟨s, .alter a⟩

end Extension

theorem Extension.GroupedForm.exists_digit {cs : List Char} {e : Extension}
    (h : GroupedForm cs e) : ∃ c ∈ cs, isDigit c = true := by
  have hdigit : ∀ {ds : List Char} {s : ChordStep} (xs : List Char), s.Digits ds →
      ∃ c ∈ xs ++ ds, isDigit c = true := by
    intro ds s xs hs
    obtain ⟨d, ds', rfl⟩ := List.exists_cons_of_ne_nil hs.ne_nil
    exact ⟨d, List.mem_append_right xs (List.mem_cons_self ..), hs.digit d (List.mem_cons_self ..)⟩
  cases h with
  | worded w hs => exact hdigit _ hs
  | signed _ hs => exact hdigit _ hs

theorem ChordStep.ofNumber?_eq_some_iff {n : Nat} {s : ChordStep} :
    ofNumber? n = some s ↔ n = s.number := by
  constructor
  · intro h
    have hfound : ((s.number : Int) == n) = true :=
      List.find?_some (p := fun s : ChordStep => (s.number : Int) == n) h
    exact_mod_cast (beq_iff_eq.mp hfound).symm
  · rintro rfl
    exact ofNumber?_number s

namespace Accidental

theorem ofSign?_eq_some_iff {c : Char} {a : Accidental} :
    ofSign? c = some a ↔ SignForm [c] a := by
  constructor
  · intro h
    unfold ofSign? at h
    split at h
    · rename_i hc
      subst hc
      obtain rfl := Option.some.inj h
      exact .plus
    · split at h
      · rename_i hc
        subst hc
        obtain rfl := Option.some.inj h
        exact .minus
      · exact .accidental (ofChar?_eq_some_iff.mp h)
  · intro h
    cases h with
    | accidental h =>
      cases h with
      | sharp h => rcases h with rfl | rfl <;> rfl
      | flat h => rcases h with rfl | rfl <;> rfl
    | plus => rfl
    | minus => rfl

theorem SignForm.cases {xs : List Char} {a : Accidental} (h : SignForm xs a) :
    (xs = [] ∧ a = .natural) ∨ ∃ c, xs = [c] ∧ ofSign? c = some a := by
  cases h with
  | accidental h =>
    rcases h.cases with hnone | ⟨c, rfl, -⟩
    · exact .inl hnone
    · exact .inr ⟨c, rfl, ofSign?_eq_some_iff.mpr (.accidental h)⟩
  | plus => exact .inr ⟨'+', rfl, rfl⟩
  | minus => exact .inr ⟨'-', rfl, rfl⟩

theorem mem_of_ofSign? {c : Char} {a : Accidental} (h : ofSign? c = some a) :
    c ∈ ['#', '♯', 'b', '♭', '+', '-'] ∧ a ≠ .natural := by
  have hform := ofSign?_eq_some_iff.mp h
  clear h
  cases hform with
  | accidental h =>
    cases h with
    | sharp h => rcases h with rfl | rfl <;> decide
    | flat h => rcases h with rfl | rfl <;> decide
  | plus => decide
  | minus => decide

theorem ofSign?_of_isDigit {c : Char} (h : isDigit c = true) : ofSign? c = none := by
  cases hc : ofSign? c with
  | none => rfl
  | some a =>
    have hsign : ∀ c ∈ ['#', '♯', 'b', '♭', '+', '-'], isDigit c = false :=
      forall_mem_of_all (by decide)
    rw [hsign c (mem_of_ofSign? hc).1] at h
    cases h

end Accidental

namespace ItemWord

theorem take?_append (w : ItemWord) (rest : List Char) :
    take? (w.text.toList ++ rest) = some (w, rest) := by
  cases w <;> rfl

theorem eq_of_take? {cs rest : List Char} {w : ItemWord} (h : take? cs = some (w, rest)) :
    cs = w.text.toList ++ rest := by
  obtain ⟨v, -, hv⟩ := List.exists_of_findSome?_eq_some h
  obtain ⟨rest', hrest, heq⟩ := Option.map_eq_some_iff.mp hv
  obtain ⟨rfl, rfl⟩ := Prod.mk.inj heq
  exact after?_eq_some.mp hrest

theorem exists_cons_text (w : ItemWord) : ∃ c cs, w.text.toList = c :: cs ∧ c ∈ ['a', 'o', 'n'] := by
  cases w
  · exact ⟨'a', ['d', 'd'], rfl, by decide⟩
  · exact ⟨'o', ['m', 'i', 't'], rfl, by decide⟩
  · exact ⟨'n', ['o'], rfl, by decide⟩

theorem take?_of_head {cs : List Char} (h : ∀ c ∈ cs.head?, c ∉ ['a', 'o', 'n']) :
    take? cs = none := by
  cases ht : take? cs with
  | none => rfl
  | some r =>
    obtain ⟨w, rest⟩ := r
    obtain ⟨c, cs', hw, hc⟩ := w.exists_cons_text
    rw [eq_of_take? ht, hw] at h
    exact absurd hc (h c rfl)

end ItemWord

theorem notMem_of_ofSign?_or_isDigit {c : Char}
    (h : (∃ a, Accidental.ofSign? c = some a) ∨ isDigit c = true) : c ∉ ['a', 'o', 'n'] := by
  have hword : ∀ c ∈ ['a', 'o', 'n'], Accidental.ofSign? c = none ∧ isDigit c = false :=
    forall_mem_of_all (by decide)
  intro hc
  obtain ⟨hsign, hdigit⟩ := hword c hc
  rcases h with ⟨a, ha⟩ | h
  · rw [hsign] at ha
    cases ha
  · rw [hdigit] at h
    cases h

namespace Item

/-- An item says an extension: its number is that of the step, and a word has no
sign behind it. -/
structure Says (i : Item) (e : Extension) : Prop where
  value : i.value = e.step.number
  sign : i.word.isSome → i.sign = .natural
  change : e.change = i.change

theorem says_worded (w : ItemWord) {ds : List Char} {s : ChordStep} (h : s.Digits ds) :
    Says ⟨some w, .natural, ds⟩ ⟨s, w.change⟩ :=
  ⟨h.value, fun _ => rfl, rfl⟩

theorem says_signed (a : Accidental) {ds : List Char} {s : ChordStep} (h : s.Digits ds) :
    Says ⟨none, a, ds⟩ ⟨s, .alter a⟩ :=
  ⟨h.value, fun h => (nomatch h), rfl⟩

/-- **An item stands for the extension that it says**, unless its number is too
long. -/
theorem toExtension_eq_ok_iff {s : Source} {start : Nat} {i : Item} {e : Extension} :
    i.toExtension s start = .ok e ↔ i.number.length ≤ maxDigits ∧ i.Says e := by
  unfold toExtension
  by_cases hlong : maxDigits < i.number.length
  · rw [if_pos hlong]
    exact ⟨fun h => (nomatch h), fun h => absurd h.1 (Nat.not_le.mpr hlong)⟩
  rw [if_neg hlong]
  constructor
  · intro h
    refine ⟨Nat.not_lt.mp hlong, ?_⟩
    split at h
    · cases h
    · rename_i step hstep
      have hvalue := ChordStep.ofNumber?_eq_some_iff.mp hstep
      split at h
      · rename_i w hw
        split at h
        · rename_i hsign
          obtain rfl := Except.ok.inj h
          exact ⟨hvalue, fun _ => hsign, by rw [Item.change, hw]⟩
        · cases h
      · rename_i hw
        obtain rfl := Except.ok.inj h
        exact ⟨hvalue, fun h => (by rw [hw] at h; cases h), by rw [Item.change, hw]⟩
  · rintro ⟨-, hvalue, hsign, hchange⟩
    obtain ⟨step, change⟩ := e
    rw [ChordStep.ofNumber?_eq_some_iff.mpr hvalue]
    obtain rfl : change = i.change := hchange
    dsimp only
    unfold Item.change
    cases hw : i.word with
    | none => rfl
    | some w => exact if_pos (hsign (by rw [hw]; rfl))

/-! ### Items behind a quality -/

theorem takeWorded_append (w : ItemWord) {ds rest : List Char} (hds : ds ≠ [])
    (hdigit : ∀ c ∈ ds, isDigit c = true) (hrest : ∀ c ∈ rest.head?, isDigit c = false) :
    takeWorded (w.text.toList ++ (ds ++ rest)) = some (⟨some w, .natural, ds⟩, rest) := by
  unfold takeWorded
  rw [ItemWord.take?_append]
  dsimp only
  rw [takeWhile_append_stop hdigit hrest, dropWhile_append_stop hdigit hrest,
    if_neg (by simpa using hds)]

theorem takeSigned_append {c : Char} {a : Accidental} (hc : Accidental.ofSign? c = some a)
    {n : String} (hn : n ∈ bareNumbers) (rest : List Char) :
    takeSigned (c :: (n.toList ++ rest)) = some (⟨none, a, n.toList⟩, rest) := by
  simp only [takeSigned, hc, Option.bind_some]
  simp only [bareNumbers, List.mem_cons, List.not_mem_nil, or_false] at hn
  rcases hn with rfl | rfl | rfl | rfl <;> rfl

theorem takeBare_signed {c : Char} {a : Accidental} (hc : Accidental.ofSign? c = some a)
    {n : String} (hn : n ∈ bareNumbers) (rest : List Char) :
    takeBare (c :: (n.toList ++ rest)) = some (⟨none, a, n.toList⟩, rest) := by
  have hnone : takeWorded (c :: (n.toList ++ rest)) = none := by
    unfold takeWorded
    rw [ItemWord.take?_of_head]
    intro d hd
    obtain rfl : c = d := by simpa using hd
    exact notMem_of_ofSign?_or_isDigit (.inl ⟨a, hc⟩)
  unfold takeBare
  rw [hnone]
  exact takeSigned_append hc hn rest

theorem exists_takeBare {xs : List Char} {e : Extension} (h : Extension.BareForm xs e) :
    ∃ i : Item, i.Within xs ∧ i.Says e ∧ ∀ rest : List Char,
      (∀ c ∈ rest.head?, isDigit c = false) → takeBare (xs ++ rest) = some (i, rest) := by
  cases h with
  | @worded w ds s hs =>
    refine ⟨⟨some w, .natural, ds⟩, ⟨(List.suffix_append _ _).isInfix, hs.digit⟩,
      says_worded w hs, fun rest hrest => ?_⟩
    unfold takeBare
    rw [List.append_assoc, takeWorded_append w hs.ne_nil hs.digit hrest]
  | @signed xs a ha hx n hn s hs =>
    obtain ⟨c, rfl, hc⟩ := ha.cases.resolve_left fun h => hx h.1
    refine ⟨⟨none, a, n.toList⟩, ⟨(List.suffix_append _ _).isInfix, hs.digit⟩,
      says_signed a hs, fun rest _ => ?_⟩
    rw [List.append_assoc, List.singleton_append]
    exact takeBare_signed hc hn rest

theorem form_of_takeBare {cs rest : List Char} {i : Item} {e : Extension}
    (h : takeBare cs = some (i, rest)) (hsaid : i.Says e) :
    ∃ xs, Extension.BareForm xs e ∧ cs = xs ++ rest := by
  obtain ⟨step, change⟩ := e
  obtain ⟨hvalue, -, hchange⟩ := hsaid
  obtain rfl : change = i.change := hchange
  unfold takeBare at h
  split at h
  · rename_i r hr
    obtain rfl := Option.some.inj h
    unfold takeWorded at hr
    split at hr
    · cases hr
    · rename_i w left hw
      simp only [Option.ite_none_left_eq_some, Option.some.injEq, Prod.mk.injEq] at hr
      obtain ⟨hne, rfl, rfl⟩ := hr
      have hdigits : step.Digits (left.takeWhile isDigit) :=
        ⟨by simpa using hne, fun c hc => List.mem_takeWhile_imp hc, hvalue⟩
      refine ⟨_, .worded w hdigits, ?_⟩
      rw [List.append_assoc, List.takeWhile_append_dropWhile]
      exact ItemWord.eq_of_take? hw
  · cases cs with
    | nil => cases h
    | cons c cs =>
      obtain ⟨a, hsign, ha⟩ := Option.bind_eq_some_iff.mp h
      obtain ⟨n, hn, hafter⟩ := List.exists_of_findSome?_eq_some ha
      obtain ⟨rest', hrest, heq⟩ := Option.map_eq_some_iff.mp hafter
      obtain ⟨rfl, rfl⟩ := Prod.mk.inj heq
      have hdigits : step.Digits n.toList := by
        refine ⟨?_, isDigit_of_mem_bareNumbers n hn, hvalue⟩
        have hall : ∀ n ∈ bareNumbers, n.toList ≠ [] := by decide
        exact hall n hn
      refine ⟨[c] ++ n.toList, .signed (Accidental.ofSign?_eq_some_iff.mp hsign)
        (List.cons_ne_nil _ _) hn hdigits, ?_⟩
      rw [after?_eq_some.mp hrest, List.append_assoc, List.singleton_append]

end Item

namespace Extension

theorem BareForm.exists_cons {xs : List Char} {e : Extension} (h : BareForm xs e) :
    ∃ c cs, xs = c :: cs ∧ isDigit c = false := by
  cases h with
  | @worded w ds s hs =>
    obtain ⟨c, cs, hw, hc⟩ := w.exists_cons_text
    have hdigit : ∀ c ∈ ['a', 'o', 'n'], isDigit c = false := forall_mem_of_all (by decide)
    exact ⟨c, cs ++ ds, by rw [hw, List.cons_append], hdigit c hc⟩
  | @signed xs a ha hx n hn s hs =>
    obtain ⟨c, rfl, hc⟩ := ha.cases.resolve_left fun h => hx h.1
    refine ⟨c, n.toList, rfl, ?_⟩
    by_contra hdigit
    rw [Accidental.ofSign?_of_isDigit (by simpa using hdigit)] at hc
    cases hc

theorem head?_flatten {xss : List (List Char)} {es : List Extension}
    (h : List.Forall₂ BareForm xss es) : ∀ c ∈ xss.flatten.head?, isDigit c = false := by
  cases h with
  | nil => intro c hc; cases hc
  | cons hx _ =>
    obtain ⟨c, cs, rfl, hc⟩ := hx.exists_cons
    intro d hd
    obtain rfl : c = d := by simpa using hd
    exact hc

theorem flatten_inj {xss : List (List Char)} {es : List Extension}
    (h : List.Forall₂ BareForm xss es) : ∀ {yss : List (List Char)} {ds : List Extension},
    List.Forall₂ BareForm yss ds → xss.flatten = yss.flatten → xss = yss := by
  induction h with
  | nil =>
    intro yss ds h' heq
    cases h' with
    | nil => rfl
    | cons hy _ =>
      obtain ⟨c, cs, rfl, -⟩ := hy.exists_cons
      cases heq
  | @cons x e xss es hx htail ih =>
    intro yss ds h' heq
    cases h' with
    | nil =>
      obtain ⟨c, cs, rfl, -⟩ := hx.exists_cons
      cases heq
    | @cons y d yss ds hy htail' =>
      rw [List.flatten_cons, List.flatten_cons] at heq
      obtain ⟨i, -, -, htake⟩ := Item.exists_takeBare hx
      obtain ⟨j, -, -, htake'⟩ := Item.exists_takeBare hy
      have hrest : xss.flatten = yss.flatten := by
        have hsame := htake _ (head?_flatten htail)
        rw [heq, htake' _ (head?_flatten htail')] at hsame
        exact (congrArg Prod.snd (Option.some.inj hsame)).symm
      rw [hrest] at heq
      rw [List.append_cancel_right heq, ih htail' hrest]

end Extension

theorem readBare_of_takeBare_eq_none {cs : List Char} (h : Item.takeBare cs = none) (s : Source)
    (tail : List Char) : readBare s tail cs = .ok ([], cs) := by
  rw [readBare]
  split
  · rfl
  · rename_i hsome
    rw [h] at hsome
    cases hsome

theorem readBare_of_takeBare {s : Source} {tail cs rest : List Char} {i : Item}
    (h : Item.takeBare cs = some (i, rest)) : readBare s tail cs = (do
      let e ← i.toExtension s (s.start (cs ++ tail))
      let (es, rest) ← readBare s tail rest
      pure (e :: es, rest)) := by
  rw [readBare]
  split
  · rename_i hnone
    rw [h] at hnone
    cases hnone
  · rename_i j rest' hsome
    rw [h] at hsome
    obtain ⟨rfl, rfl⟩ := Prod.mk.inj (Option.some.inj hsome)
    rfl

theorem form_of_readBare {s : Source} {tail cs left : List Char} {es : List Extension}
    (h : readBare s tail cs = .ok (es, left)) :
    ∃ xss, List.Forall₂ Extension.BareForm xss es ∧ cs = xss.flatten ++ left := by
  induction hn : cs.length using Nat.strongRecOn generalizing cs es with
  | ind n ih =>
    rw [readBare] at h
    split at h
    · cases h
      exact ⟨[], .nil, rfl⟩
    · rename_i i rest hi
      obtain ⟨e, he, h⟩ := exists_of_bind_eq_ok h
      obtain ⟨⟨more, left'⟩, hmore, h⟩ := exists_of_bind_eq_ok h
      cases h
      obtain ⟨xss, hforms, rfl⟩ := ih rest.length (hn ▸ Item.length_takeBare hi) hmore rfl
      obtain ⟨xs, hform, rfl⟩ := Item.form_of_takeBare hi (Item.toExtension_eq_ok_iff.mp he).2
      exact ⟨xs :: xss, .cons hform hforms, by rw [List.flatten_cons, List.append_assoc]⟩

theorem readBare_flatten (s : Source) (tail : List Char) {xss : List (List Char)}
    {es : List Extension} (h : List.Forall₂ Extension.BareForm xss es)
    (hfit : DigitsFit xss.flatten) : readBare s tail xss.flatten = .ok (es, []) := by
  induction h with
  | nil => rw [List.flatten_nil, readBare]; rfl
  | @cons x e xss es hx htail ih =>
    rw [List.flatten_cons] at hfit ⊢
    obtain ⟨i, hwithin, hsaid, htake⟩ := Item.exists_takeBare hx
    have hlength : i.number.length ≤ maxDigits :=
      hfit _ (hwithin.isInfix.trans (List.prefix_append _ _).isInfix) hwithin.digit
    have he : ∀ start, i.toExtension s start = .ok e := fun start =>
      Item.toExtension_eq_ok_iff.mpr ⟨hlength, hsaid⟩
    have hrest := ih (hfit.of_infix (List.suffix_append _ _).isInfix)
    rw [readBare_of_takeBare (htake _ (Extension.head?_flatten htail)), he, hrest]
    rfl

/-! ### Items of a group -/

namespace Item

theorem takeSign_append {xs : List Char} {a : Accidental} (h : Accidental.SignForm xs a)
    {ds : List Char} (hds : ∀ c ∈ ds, isDigit c = true) : takeSign (xs ++ ds) = (a, ds) := by
  rcases h.cases with ⟨rfl, rfl⟩ | ⟨c, rfl, hc⟩
  · cases ds with
    | nil => rfl
    | cons d ds =>
      rw [List.nil_append, takeSign, Accidental.ofSign?_of_isDigit (hds d (List.mem_cons_self ..))]
  · rw [List.singleton_append, takeSign, hc]

theorem form_takeSign (cs : List Char) : ∃ xs, Accidental.SignForm xs (takeSign cs).1
    ∧ cs = xs ++ (takeSign cs).2 ∧ ((takeSign cs).1 = .natural → xs = []) := by
  fun_cases takeSign cs with
  | case1 => exact ⟨[], .accidental .none, rfl, fun _ => rfl⟩
  | case2 c cs a ha =>
    exact ⟨[c], Accidental.ofSign?_eq_some_iff.mp ha, rfl,
      fun h => absurd h (Accidental.mem_of_ofSign? ha).2⟩
  | case3 c cs ha => exact ⟨[], .accidental .none, rfl, fun _ => rfl⟩

theorem read?_eq_some_iff {cs : List Char} {i : Item} :
    read? cs = some i ↔ ∃ xs, takeWord cs = (i.word, xs) ∧ takeSign xs = (i.sign, i.number)
      ∧ i.number ≠ [] ∧ ∀ c ∈ i.number, isDigit c = true := by
  obtain ⟨word, sign, number⟩ := i
  simp only [read?, Option.ite_none_left_eq_some, Option.some.injEq, Bool.or_eq_true, not_or,
    Bool.not_eq_true, Bool.not_eq_false', List.all_eq_true, List.isEmpty_eq_false_iff,
    Item.mk.injEq]
  constructor
  · rintro ⟨⟨hne, hdigit⟩, rfl, rfl, rfl⟩
    exact ⟨_, rfl, rfl, hne, hdigit⟩
  · rintro ⟨xs, hword, hsign, hne, hdigit⟩
    rw [hword, hsign]
    exact ⟨⟨hne, hdigit⟩, rfl, rfl, rfl⟩

theorem exists_read? {cs : List Char} {e : Extension} (h : Extension.GroupedForm cs e) :
    ∃ i, read? cs = some i ∧ i.Says e := by
  cases h with
  | @worded w ds s hs =>
    refine ⟨⟨some w, .natural, ds⟩, read?_eq_some_iff.mpr ⟨ds, ?_, ?_, hs.ne_nil, hs.digit⟩,
      says_worded w hs⟩
    · rw [takeWord, ItemWord.take?_append]
    · exact takeSign_append (.accidental .none) hs.digit
  | @signed xs a ha ds s hs =>
    refine ⟨⟨none, a, ds⟩, read?_eq_some_iff.mpr ⟨xs ++ ds, ?_, ?_, hs.ne_nil, hs.digit⟩,
      says_signed a hs⟩
    · rw [takeWord, ItemWord.take?_of_head]
      intro c hc
      refine notMem_of_ofSign?_or_isDigit ?_
      rcases ha.cases with ⟨rfl, -⟩ | ⟨d, rfl, hd⟩
      · exact .inr (hs.digit c (List.mem_of_mem_head? hc))
      · obtain rfl : d = c := by simpa using hc
        exact .inl ⟨a, hd⟩
    · exact takeSign_append ha hs.digit

theorem form_of_read? {cs : List Char} {i : Item} {e : Extension} (h : read? cs = some i)
    (hsaid : i.Says e) : Extension.GroupedForm cs e := by
  obtain ⟨word, sign, number⟩ := i
  obtain ⟨step, change⟩ := e
  obtain ⟨xs, hword, hsign, hne, hdigit⟩ := read?_eq_some_iff.mp h
  obtain ⟨hvalue, hnatural, hchange⟩ := hsaid
  dsimp only at hword hsign hne hdigit hnatural hchange
  subst hchange
  have hdigits : step.Digits number := ⟨hne, hdigit, hvalue⟩
  obtain ⟨ys, hform, hxs, hnone⟩ := form_takeSign xs
  rw [hsign] at hform hxs hnone
  unfold takeWord at hword
  split at hword
  · rename_i w rest hw
    obtain ⟨rfl, rfl⟩ := Prod.mk.inj hword
    obtain rfl := hnone (hnatural rfl)
    rw [ItemWord.eq_of_take? hw, hxs]
    exact .worded w hdigits
  · obtain ⟨rfl, rfl⟩ := Prod.mk.inj hword
    rw [hxs]
    exact .signed hform hdigits

end Item

theorem form_of_readItem {s : Source} {start : Nat} {cs : List Char} {e : Extension}
    (h : readItem s start cs = .ok e) : Extension.GroupedForm cs e := by
  unfold readItem at h
  split at h
  · cases h
  · rename_i i hread
    exact Item.form_of_read? hread (Item.toExtension_eq_ok_iff.mp h).2

/-- **What stands in a group is read as an item just when it has the form of
one.** -/
theorem readItem_eq_ok_iff (s : Source) (start : Nat) {cs : List Char} {e : Extension}
    (hfit : DigitsFit cs) : readItem s start cs = .ok e ↔ Extension.GroupedForm cs e := by
  refine ⟨form_of_readItem, fun h => ?_⟩
  obtain ⟨i, hread, hsaid⟩ := Item.exists_read? h
  have hwithin := Item.within_of_read? hread
  unfold readItem
  rw [hread]
  exact Item.toExtension_eq_ok_iff.mpr ⟨hfit _ hwithin.isInfix hwithin.digit, hsaid⟩

end LeadSheet
