import LeadSheet.Proofs.Reading.Symbol

/-!
# Accidentals in ASCII

An accidental may be written with a musical sign or in ASCII (`asciiSign`).  Wherever
accidentals are read on their own the two are the same: the readers of roots, of
items, of groups and of the bass take the same from a text in ASCII and leave what they
would leave, in ASCII (`TakesAscii`, `readBare_ascii`, `readGroups_ascii`,
`readBass_ascii`).
-/

namespace LeadSheet

open Text

/-! ### Signs -/

/-- A character with a musical sign replaced by the one in ASCII. -/
def asciiSign (c : Char) : Char :=
  if c = '♯' then '#' else if c = '♭' then 'b' else c

/-- A text with every accidental in ASCII. -/
def ascii (cs : List Char) : List Char :=
  cs.map asciiSign

theorem apply_asciiSign {β : Type} (g : Char → β) (hsharp : g '#' = g '♯') (hflat : g 'b' = g '♭')
    (c : Char) : g (asciiSign c) = g c := by
  unfold asciiSign
  split
  · rename_i h
    rw [h, hsharp]
  · split
    · rename_i h
      rw [h, hflat]
    · rfl

theorem asciiSign_eq_self {c : Char} (hsharp : c ≠ '♯') (hflat : c ≠ '♭') : asciiSign c = c := by
  unfold asciiSign
  rw [if_neg hsharp, if_neg hflat]

theorem asciiSign_of_property {P : Char → Bool} (hsharp : P '♯' = false) (hflat : P '♭' = false)
    {c : Char} (hc : P c = true) : asciiSign c = c := by
  refine asciiSign_eq_self ?_ ?_
  · rintro rfl
    rw [hsharp] at hc
    cases hc
  · rintro rfl
    rw [hflat] at hc
    cases hc

theorem asciiSign_eq_iff {c d : Char} (hd : Accidental.ofChar? d = none) :
    asciiSign c = d ↔ c = d := by
  have hsign : ∀ s, (Accidental.ofChar? s).isSome = true → s ≠ d := by
    rintro s hs rfl
    rw [hd] at hs
    cases hs
  have h := apply_asciiSign (fun c => decide (c = d)) (by simp [hsign '#' rfl, hsign '♯' rfl])
    (by simp [hsign 'b' rfl, hsign '♭' rfl]) c
  simpa using h

theorem eq_of_asciiSign_eq {c d : Char} (hd : d = '♯' ∨ d = '♭')
    (h : asciiSign c = asciiSign d) : c = d ∨ c = asciiSign d := by
  by_cases hsharp : c = '♯'
  · rcases hd with rfl | rfl
    · exact .inl hsharp
    · rw [hsharp] at h
      exact absurd h (by decide)
  · by_cases hflat : c = '♭'
    · rcases hd with rfl | rfl
      · rw [hflat] at h
        exact absurd h (by decide)
      · exact .inl hflat
    · exact .inr ((asciiSign_eq_self hsharp hflat).symm.trans h)

theorem ascii_eq_self {P : Char → Bool} (hsharp : P '♯' = false) (hflat : P '♭' = false)
    {cs : List Char} (h : ∀ c ∈ cs, P c = true) : ascii cs = cs := by
  unfold ascii
  exact (List.map_congr_left fun c hc => asciiSign_of_property hsharp hflat (h c hc)).trans
    (List.map_id cs)

theorem ascii_cons (c : Char) (cs : List Char) : ascii (c :: cs) = asciiSign c :: ascii cs :=
  rfl

theorem ascii_append (as bs : List Char) : ascii (as ++ bs) = ascii as ++ ascii bs :=
  List.map_append

theorem length_ascii (cs : List Char) : (ascii cs).length = cs.length :=
  List.length_map ..

theorem takeWhile_ascii {P : Char → Bool} (h : ∀ c, P (asciiSign c) = P c) (cs : List Char) :
    (ascii cs).takeWhile P = ascii (cs.takeWhile P) := by
  unfold ascii
  rw [List.takeWhile_map, show P ∘ asciiSign = P from funext h]

theorem dropWhile_ascii {P : Char → Bool} (h : ∀ c, P (asciiSign c) = P c) (cs : List Char) :
    (ascii cs).dropWhile P = ascii (cs.dropWhile P) := by
  unfold ascii
  rw [List.dropWhile_map, show P ∘ asciiSign = P from funext h]

theorem isDigit_asciiSign (c : Char) : isDigit (asciiSign c) = isDigit c :=
  apply_asciiSign isDigit (by decide) (by decide) c

theorem isBlank_asciiSign (c : Char) : isBlank (asciiSign c) = isBlank c :=
  apply_asciiSign isBlank (by decide) (by decide) c

theorem closerOf?_asciiSign (c : Char) : closerOf? (asciiSign c) = closerOf? c :=
  apply_asciiSign closerOf? (by decide) (by decide) c

theorem endsHead_asciiSign (c : Char) : endsHead (asciiSign c) = endsHead c :=
  apply_asciiSign endsHead (by decide) (by decide) c

theorem trim_ascii (cs : List Char) : trim (ascii cs) = ascii (trim cs) := by
  have hreverse : ∀ cs, (ascii cs).reverse = ascii cs.reverse := fun _ => List.map_reverse.symm
  unfold trim trimEnd trimStart
  rw [dropWhile_ascii isBlank_asciiSign, hreverse, dropWhile_ascii isBlank_asciiSign, hreverse]

theorem ascii_digits {ds : List Char} (h : ∀ c ∈ ds, isDigit c = true) : ascii ds = ds :=
  ascii_eq_self (by decide) (by decide) h

/-! ### Readers of the start of a text -/

/-- The reader takes the same from a text in ASCII. -/
def TakesAscii {α : Type} (take : List Char → Option (α × List Char)) : Prop :=
  ∀ cs, take (ascii cs) = (take cs).map fun r => (r.1, ascii r.2)

def isSignless (w : List Char) : Bool :=
  w.all fun c => Accidental.ofChar? c = none

theorem after?_ascii {w : List Char} (hw : isSignless w = true) (cs : List Char) :
    after? w (ascii cs) = (after? w cs).map ascii := by
  induction w generalizing cs with
  | nil => rfl
  | cons d w ih =>
    obtain ⟨hd, hw⟩ := List.forall_mem_cons.mp (List.all_eq_true.mp hw)
    have hd : Accidental.ofChar? d = none := of_decide_eq_true hd
    cases cs with
    | nil => rfl
    | cons c cs =>
      rw [ascii_cons, after?, after?]
      have hsame := asciiSign_eq_iff (c := c) hd
      by_cases h : c = d
      · rw [if_pos (hsame.mpr h).symm, if_pos h.symm, ih (List.all_eq_true.mpr hw)]
      · rw [if_neg (fun he => h (hsame.mp he.symm)), if_neg (fun he => h he.symm)]
        rfl

theorem takesAscii_findSome? {α β : Type} {ws : List α} (word : α → List Char) (f : α → β)
    (h : ∀ w ∈ ws, isSignless (word w) = true) :
    TakesAscii fun cs => ws.findSome? fun w => (after? (word w) cs).map fun rest => (f w, rest) := by
  intro cs
  dsimp only
  induction ws with
  | nil => rfl
  | cons w ws ih =>
    obtain ⟨hw, hws⟩ := List.forall_mem_cons.mp h
    rw [List.findSome?_cons, List.findSome?_cons, after?_ascii hw]
    cases after? (word w) cs with
    | none => exact ih hws
    | some rest => rfl

theorem Accidental.ofChar?_asciiSign (c : Char) : ofChar? (asciiSign c) = ofChar? c :=
  apply_asciiSign ofChar? rfl rfl c

theorem Accidental.ofSign?_asciiSign (c : Char) : ofSign? (asciiSign c) = ofSign? c :=
  apply_asciiSign ofSign? rfl rfl c

theorem Accidental.take_ascii (cs : List Char) :
    take (ascii cs) = ((take cs).1, ascii (take cs).2) := by
  cases cs with
  | nil => rfl
  | cons c cs =>
    rw [ascii_cons, take, take, ofChar?_asciiSign]
    cases ofChar? c <;> rfl

/-! ### Roots -/

theorem PitchClass.takesAscii_takeCapital : TakesAscii takeCapital := by
  intro cs
  cases cs with
  | nil => rfl
  | cons c cs =>
    have hupper : (asciiSign c).isUpper = c.isUpper :=
      apply_asciiSign Char.isUpper (by decide) (by decide) c
    rw [ascii_cons, takeCapital, takeCapital, hupper]
    by_cases hc : c.isUpper = true
    · have hsame : asciiSign c = c := asciiSign_of_property (by decide) (by decide) hc
      rw [if_pos hc, if_pos hc, hsame, takeName, takeName, Accidental.take_ascii, Option.map_map]
      rfl
    · rw [if_neg hc, if_neg hc]
      rfl

theorem takesAscii_takeNumeral : TakesAscii takeNumeral := by
  have hnumerals : ∀ numerals ∈ [Degree.numerals, Degree.smallNumerals],
      TakesAscii (takeNumeralOf numerals) := by
    intro numerals hmem
    refine takesAscii_findSome? (fun n : Fin 7 => (numerals.getD n "").toList) id ?_
    revert numerals
    decide
  intro cs
  rw [takeNumeral, takeNumeral, hnumerals _ (List.mem_cons_self ..) cs,
    hnumerals _ (List.mem_cons_of_mem _ (List.mem_cons_self ..)) cs]
  cases takeNumeralOf Degree.numerals cs with
  | some r => rfl
  | none => cases takeNumeralOf Degree.smallNumerals cs <;> rfl

theorem Root.takesAscii_take : TakesAscii Root.take := by
  intro cs
  unfold Root.take
  rw [PitchClass.takesAscii_takeCapital cs]
  cases PitchClass.takeCapital cs with
  | some r => rfl
  | none =>
    have hdegree : TakesAscii Degree.take := by
      intro cs
      unfold Degree.take
      rw [Accidental.take_ascii]
      dsimp only
      rw [takesAscii_takeNumeral, Option.map_map, Option.map_map]
      rfl
    dsimp only [Option.map_none]
    rw [hdegree, Option.map_map, Option.map_map]
    rfl

theorem readRoot_ascii {s : Source} (s' : Source) {place : RootPlace} (place' : RootPlace)
    {cs rest : List Char} {r : Root × Bool} (h : readRoot s place cs = .ok (r, rest)) :
    readRoot s' place' (ascii cs) = .ok (r, ascii rest) := by
  rw [readRoot_eq_ok_iff] at h ⊢
  rw [Root.takesAscii_take, h]
  rfl

theorem readBass_ascii {s : Source} (s' : Source) {cs rest : List Char} {bass : Option Root}
    (h : readBass s cs = .ok (bass, rest)) : readBass s' (ascii cs) = .ok (bass, ascii rest) := by
  unfold readBass at h
  split at h
  · obtain ⟨⟨⟨r, small⟩, rest'⟩, hroot, h⟩ := exists_of_bind_eq_ok h
    cases h
    show (readRoot s' .bass (ascii _) >>= _) = _
    rw [readRoot_ascii s' .bass hroot]
    rfl
  · rename_i hslash
    cases h
    cases cs with
    | nil => rfl
    | cons c cs =>
      have hc : asciiSign c ≠ '/' := fun he =>
        hslash cs (congrArg (· :: cs) ((asciiSign_eq_iff (by decide)).mp he))
      rw [ascii_cons, readBass.eq_2 _ _ (fun ds hd => hc (List.cons.inj hd).1)]

/-! ### Items -/

namespace Item

theorem takesAscii_word : TakesAscii ItemWord.take? :=
  takesAscii_findSome? (fun w : ItemWord => w.text.toList) id (by decide)

theorem takeWord_ascii (cs : List Char) :
    takeWord (ascii cs) = ((takeWord cs).1, ascii (takeWord cs).2) := by
  unfold takeWord
  rw [takesAscii_word]
  cases ItemWord.take? cs <;> rfl

theorem takeSign_ascii (cs : List Char) :
    takeSign (ascii cs) = ((takeSign cs).1, ascii (takeSign cs).2) := by
  cases cs with
  | nil => rfl
  | cons c cs =>
    rw [ascii_cons, takeSign, takeSign, Accidental.ofSign?_asciiSign]
    cases Accidental.ofSign? c <;> rfl

theorem takesAscii_takeBare : TakesAscii takeBare := by
  have hworded : TakesAscii takeWorded := by
    intro cs
    unfold takeWorded
    rw [takesAscii_word]
    cases ItemWord.take? cs with
    | none => rfl
    | some r =>
      obtain ⟨w, rest⟩ := r
      have hdigits : ascii (rest.takeWhile isDigit) = rest.takeWhile isDigit :=
        ascii_digits fun c hc => List.mem_takeWhile_imp hc
      dsimp only [Option.map_some]
      rw [takeWhile_ascii isDigit_asciiSign, dropWhile_ascii isDigit_asciiSign, hdigits]
      cases (rest.takeWhile isDigit).isEmpty <;> rfl
  have hsigned : TakesAscii takeSigned := by
    intro cs
    cases cs with
    | nil => rfl
    | cons c cs =>
      rw [ascii_cons, takeSigned, takeSigned, Accidental.ofSign?_asciiSign]
      cases Accidental.ofSign? c with
      | none => rfl
      | some a =>
        exact takesAscii_findSome? String.toList (fun n : String => (⟨none, a, n.toList⟩ : Item))
          (by decide) cs
  intro cs
  unfold takeBare
  rw [hworded cs, hsigned cs]
  cases takeWorded cs <;> rfl

theorem read?_ascii {cs : List Char} {i : Item} (h : read? cs = some i) :
    read? (ascii cs) = some i := by
  obtain ⟨xs, hword, hsign, hne, hdigit⟩ := read?_eq_some_iff.mp h
  refine read?_eq_some_iff.mpr ⟨ascii xs, ?_, ?_, hne, hdigit⟩
  · rw [takeWord_ascii, hword]
  · rw [takeSign_ascii, hsign, ascii_digits hdigit]

end Item

theorem readBare_ascii {s s' : Source} {tail tail' cs left : List Char} {es : List Extension}
    (h : readBare s tail cs = .ok (es, left)) :
    readBare s' tail' (ascii cs) = .ok (es, ascii left) := by
  induction hn : cs.length using Nat.strongRecOn generalizing cs es with
  | ind n ih =>
    have htake := Item.takesAscii_takeBare cs
    cases hi : Item.takeBare cs with
    | none =>
      rw [hi] at htake
      rw [readBare_of_takeBare_eq_none hi] at h
      cases h
      exact readBare_of_takeBare_eq_none htake s' tail'
    | some r =>
      obtain ⟨i, rest⟩ := r
      rw [hi] at htake
      rw [readBare_of_takeBare hi] at h
      obtain ⟨e, he, h⟩ := exists_of_bind_eq_ok h
      obtain ⟨⟨more, left'⟩, hmore, h⟩ := exists_of_bind_eq_ok h
      cases h
      rw [readBare_of_takeBare htake, (Item.toExtension_agree s s' _ _ i).eq_ok he,
        ih rest.length (hn ▸ Item.length_takeBare hi) hmore rfl]
      rfl

/-! ### Groups -/

theorem splitAt?_ascii {d : Char} (hd : Accidental.ofChar? d = none) (cs : List Char) :
    splitAt? d (ascii cs) = (splitAt? d cs).map fun r => (ascii r.1, ascii r.2) := by
  induction cs with
  | nil => rfl
  | cons c cs ih =>
    rw [ascii_cons, splitAt?, splitAt?, ih]
    by_cases h : c = d
    · rw [if_pos ((asciiSign_eq_iff hd).mpr h), if_pos h]
      rfl
    · rw [if_neg (fun he => h ((asciiSign_eq_iff hd).mp he)), if_neg h]
      cases splitAt? d cs <;> rfl

theorem splitOn_ascii (cs : List Char) :
    (ascii cs).splitOn ',' = (cs.splitOn ',').map ascii := by
  induction cs with
  | nil => rfl
  | cons c cs ih =>
    have hcomma := asciiSign_eq_iff (c := c) (d := ',') rfl
    rw [ascii_cons, List.splitOn_cons_eq_if_modifyHead, List.splitOn_cons_eq_if_modifyHead, ih]
    simp only [beq_iff_eq, hcomma]
    split
    · rfl
    · cases cs.splitOn ',' <;> rfl

theorem readItem_ascii {s s' : Source} {start start' : Nat} {cs : List Char} {e : Extension}
    (h : readItem s start cs = .ok e) : readItem s' start' (ascii cs) = .ok e := by
  unfold readItem at h ⊢
  split at h
  · cases h
  · rename_i i hi
    rw [Item.read?_ascii hi]
    exact (Item.toExtension_agree s s' _ start' i).eq_ok h

theorem readGroup_ascii {s s' : Source} {start start' : Nat} {inner : List Char}
    {es : List Extension} (h : readGroup s start inner = .ok es) :
    readGroup s' start' (ascii inner) = .ok es := by
  unfold readGroup at h ⊢
  rw [splitOn_ascii]
  generalize inner.splitOn ',' = pieces at h ⊢
  induction pieces generalizing start start' es with
  | nil => exact h
  | cons piece pieces ih =>
    rw [locateItems, List.mapM_cons] at h
    rw [List.map_cons, locateItems, List.mapM_cons, trim_ascii]
    obtain ⟨e, he, h⟩ := exists_of_bind_eq_ok h
    obtain ⟨more, hmore, h⟩ := exists_of_bind_eq_ok h
    cases h
    dsimp only at he ⊢
    rw [readItem_ascii he, ih hmore]
    rfl

theorem readGroups_ascii {s : Source} (s' : Source) {cs rest : List Char} {es : List Extension}
    (h : readGroups s cs = .ok (es, rest)) : readGroups s' (ascii cs) = .ok (es, ascii rest) := by
  induction hn : cs.length using Nat.strongRecOn generalizing cs es with
  | ind n ih =>
    rw [readGroups.eq_def] at h ⊢
    cases cs with
    | nil => cases h; rfl
    | cons c cs =>
      dsimp only [ascii_cons] at h ⊢
      rw [closerOf?_asciiSign]
      cases hc : closerOf? c with
      | none =>
        rw [hc] at h
        cases h
        rfl
      | some closer =>
        rw [hc] at h
        have hcloser : Accidental.ofChar? closer = none := by
          have hmem := closerOf?_eq_some_iff.mp hc
          simp only [List.mem_cons, Prod.mk.injEq, List.not_mem_nil, or_false] at hmem
          rcases hmem with ⟨-, rfl⟩ | ⟨-, rfl⟩ <;> rfl
        have hcut := splitAt?_ascii hcloser cs
        dsimp only at h ⊢
        split at h
        · cases h
        · rename_i inner rest' hsplit
          rw [hsplit] at hcut
          split at h
          · cases h
          · rename_i hinner
            obtain ⟨group, hgroup, h⟩ := exists_of_bind_eq_ok h
            obtain ⟨⟨more, left⟩, hmore, h⟩ := exists_of_bind_eq_ok h
            cases h
            have hlt : rest'.length < n := by
              rw [← hn, eq_of_splitAt? hsplit, List.length_cons, List.length_append,
                List.length_cons]
              omega
            split
            · rename_i hnone
              rw [hcut] at hnone
              cases hnone
            · rename_i inner' rest'' hsome
              rw [hcut] at hsome
              obtain ⟨rfl, rfl⟩ := Prod.mk.inj (Option.some.inj hsome)
              have hempty : (trim (ascii inner)).isEmpty = false := by
                rw [trim_ascii]
                unfold ascii
                rw [List.isEmpty_map]
                simpa using hinner
              rw [hempty, if_neg Bool.false_ne_true, readGroup_ascii hgroup,
                ih rest'.length hlt hmore rfl]
              rfl

end LeadSheet
