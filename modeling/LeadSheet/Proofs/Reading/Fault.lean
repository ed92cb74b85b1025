import LeadSheet.Proofs.Quality.Longest
import LeadSheet.Score.Reader
import LeadSheet.Token.Reader
import Mathlib.Data.List.Infix
import Mathlib.Data.List.TakeWhile

/-!
# How reading may end

`Reads text good x` says how the attempt `x` at a text ends: with a result that
is `good`, with a misreading or a bad key, or at a number of more than
`maxDigits` digits that stands in the text.  There is one lemma for each way
attempts are combined, and one for each reader of the chord grammar.

A reader that takes the start of a text `Leaves` the end of it, so what it
fails at stands in the whole text too.

* `Chord.reads`: a chord symbol is read in this sense as soon as the table has
  a quality for a bare root.
* `TokenContent.reads`: so is every word of a score.
-/

namespace LeadSheet

open Text

/-! ### Attempts -/

/-- How an attempt to read a text may end. -/
inductive Reads {α : Type} (text : List Char) (good : α → Prop) : Except ReadFault α → Prop
  | done {a : α} (h : good a) : Reads text good (.ok a)
  | misread (m : Misreading) : Reads text good (.error (.misreading m))
  | badKey (line column : Int) (f : KeyFault) :
      Reads text good (.error (.key (.located line column f)))
  | tooLong {ds : List Char} (hds : ds <:+: text) (digit : ∀ c ∈ ds, isDigit c = true)
      (long : maxDigits < ds.length) : Reads text good (.error (.numberTooLong ds.length))

section Reads

variable {α β : Type} {text whole : List Char} {good : α → Prop} {better : β → Prop}

theorem Reads.mono {x : Except ReadFault α} (h : Reads text good x) (hw : text <:+: whole)
    {good' : α → Prop} (hg : ∀ a, good a → good' a) : Reads whole good' x := by
  cases h with
  | done h => exact .done (hg _ h)
  | misread m => exact .misread m
  | badKey line column f => exact .badKey line column f
  | tooLong hds digit long => exact .tooLong (hds.trans hw) digit long

theorem Reads.of_eq_ok {x : Except ReadFault α} (h : Reads text (fun _ => True) x)
    (hg : ∀ a, x = .ok a → good a) : Reads text good x := by
  cases h with
  | done _ => exact .done (hg _ rfl)
  | misread m => exact .misread m
  | badKey line column f => exact .badKey line column f
  | tooLong hds digit long => exact .tooLong hds digit long

theorem Reads.bind {x : Except ReadFault α} {f : α → Except ReadFault β} (h : Reads text good x)
    (hf : ∀ a, good a → Reads text better (f a)) : Reads text better (x >>= f) := by
  cases h with
  | done h => exact hf _ h
  | misread m => exact .misread m
  | badKey line column f => exact .badKey line column f
  | tooLong hds digit long => exact .tooLong hds digit long

theorem Reads.map {x : Except ReadFault α} {f : α → β} (h : Reads text good x)
    (hf : ∀ a, good a → better (f a)) : Reads text better (x.map f) := by
  cases h with
  | done h => exact .done (hf _ h)
  | misread m => exact .misread m
  | badKey line column f => exact .badKey line column f
  | tooLong hds digit long => exact .tooLong hds digit long

theorem Reads.mapM {f : α → Except ReadFault β} {as : List α}
    (h : ∀ a ∈ as, Reads text (fun _ => True) (f a)) :
    Reads text (fun _ => True) (as.mapM f) := by
  induction as with
  | nil => exact .done trivial
  | cons a as ih =>
    rw [List.mapM_cons]
    refine (h a (List.mem_cons_self ..)).bind fun b _ => ?_
    exact (ih fun a ha => h a (List.mem_cons_of_mem _ ha)).bind fun bs _ => .done trivial

theorem Reads.foldlM {f : β → α → Except ReadFault β} {as : List α} {b : β} (hb : better b)
    (h : ∀ b, better b → ∀ a ∈ as, Reads text better (f b a)) :
    Reads text better (as.foldlM f b) := by
  induction as generalizing b with
  | nil => exact .done hb
  | cons a as ih =>
    rw [List.foldlM_cons]
    refine (h b hb a (List.mem_cons_self ..)).bind fun b' hb' => ?_
    exact ih hb' fun b hb a ha => h b hb a (List.mem_cons_of_mem _ ha)

theorem Reads.foldlM_true {f : β → α → Except ReadFault β} {as : List α} (b : β)
    (h : ∀ b, ∀ a ∈ as, Reads text (fun _ => True) (f b a)) :
    Reads text (fun _ => True) (as.foldlM f b) :=
  Reads.foldlM trivial fun b _ a ha => h b a ha

end Reads

/-! ### Readers of the start of a text -/

/-- The attempt takes the start of a text and leaves the end of it. -/
def Leaves {α : Type} (cs : List Char) (x : Except ReadFault (α × List Char)) : Prop :=
  Reads cs (fun r => r.2 <:+ cs) x

theorem Leaves.of_suffix {α : Type} {cs rest : List Char} {x : Except ReadFault (α × List Char)}
    (h : Leaves rest x) (hr : rest <:+ cs) : Leaves cs x :=
  Reads.mono h hr.isInfix fun _ hleft => hleft.trans hr

theorem suffix_of_after? {ws cs rest : List Char} (h : after? ws cs = some rest) :
    rest <:+ cs :=
  ⟨ws, (after?_eq_some.mp h).symm⟩

theorem Accidental.take_suffix (cs : List Char) : (take cs).2 <:+ cs := by
  fun_cases take cs with
  | case1 => exact List.suffix_refl _
  | case2 c cs a ha => exact List.suffix_cons _ _
  | case3 c cs ha => exact List.suffix_refl _

theorem PitchClass.takeCapital_suffix {cs rest : List Char} {p : PitchClass}
    (h : takeCapital cs = some (p, rest)) : rest <:+ cs := by
  cases cs with
  | nil => cases h
  | cons c cs =>
    simp only [takeCapital, Option.ite_none_right_eq_some] at h
    obtain ⟨r, -, hr⟩ := Option.map_eq_some_iff.mp h.2
    obtain rfl : (Accidental.take cs).2 = rest := congrArg Prod.snd hr
    exact (Accidental.take_suffix cs).trans (List.suffix_cons _ _)

theorem takeNumeralOf_suffix {numerals : List String} {cs rest : List Char} {number : Fin 7}
    (h : takeNumeralOf numerals cs = some (number, rest)) : rest <:+ cs := by
  obtain ⟨n, -, hn⟩ := List.exists_of_findSome?_eq_some h
  obtain ⟨rest', hrest, heq⟩ := Option.map_eq_some_iff.mp hn
  obtain rfl : rest' = rest := congrArg Prod.snd heq
  exact suffix_of_after? hrest

theorem takeNumeral_suffix {cs rest : List Char} {r : Fin 7 × Bool}
    (h : takeNumeral cs = some (r, rest)) : rest <:+ cs := by
  unfold takeNumeral at h
  split at h
  · rename_i number rest' hcapital
    obtain rfl : rest' = rest := congrArg Prod.snd (Option.some.inj h)
    exact takeNumeralOf_suffix hcapital
  · obtain ⟨⟨number, rest'⟩, hsmall, heq⟩ := Option.map_eq_some_iff.mp h
    obtain rfl : rest' = rest := congrArg Prod.snd heq
    exact takeNumeralOf_suffix hsmall

theorem Root.take_suffix {cs rest : List Char} {r : Root × Bool}
    (h : Root.take cs = some (r, rest)) : rest <:+ cs := by
  unfold Root.take at h
  split at h
  · rename_i p rest' hp
    obtain rfl : rest' = rest := congrArg Prod.snd (Option.some.inj h)
    exact PitchClass.takeCapital_suffix hp
  · obtain ⟨⟨d, rest'⟩, hd, heq⟩ := Option.map_eq_some_iff.mp h
    obtain rfl : rest' = rest := congrArg Prod.snd heq
    obtain ⟨⟨r', rest''⟩, hn, heq'⟩ := Option.map_eq_some_iff.mp hd
    obtain rfl : rest'' = rest' := congrArg Prod.snd heq'
    exact (takeNumeral_suffix hn).trans (Accidental.take_suffix cs)

theorem readRoot_leaves (s : Source) (place : RootPlace) (cs : List Char) :
    Leaves cs (readRoot s place cs) := by
  unfold readRoot
  split
  · rename_i r hr
    exact .done (Root.take_suffix hr)
  · exact .misread _

/-! ### Items -/

/-- The number of an item is a row of digits of a text. -/
structure Item.Within (i : Item) (cs : List Char) : Prop where
  isInfix : i.number <:+: cs
  digit : ∀ c ∈ i.number, isDigit c = true

theorem ItemWord.take?_suffix {cs rest : List Char} {w : ItemWord}
    (h : take? cs = some (w, rest)) : rest <:+ cs := by
  obtain ⟨v, -, hv⟩ := List.exists_of_findSome?_eq_some h
  obtain ⟨rest', hrest, heq⟩ := Option.map_eq_some_iff.mp hv
  obtain rfl : rest' = rest := congrArg Prod.snd heq
  exact suffix_of_after? hrest

namespace Item

theorem takeWord_suffix (cs : List Char) : (takeWord cs).2 <:+ cs := by
  unfold takeWord
  split
  · rename_i w rest h
    exact ItemWord.take?_suffix h
  · exact List.suffix_refl _

theorem takeSign_suffix (cs : List Char) : (takeSign cs).2 <:+ cs := by
  fun_cases takeSign cs with
  | case1 => exact List.suffix_refl _
  | case2 c cs a ha => exact List.suffix_cons _ _
  | case3 c cs ha => exact List.suffix_refl _

theorem within_of_read? {cs : List Char} {i : Item} (h : read? cs = some i) : i.Within cs := by
  simp only [read?, Option.ite_none_left_eq_some, Option.some.injEq, Bool.or_eq_true,
    not_or, Bool.not_eq_true, Bool.not_eq_false', List.all_eq_true] at h
  obtain ⟨⟨-, hdigit⟩, rfl⟩ := h
  exact ⟨((takeSign_suffix _).trans (takeWord_suffix cs)).isInfix, hdigit⟩

theorem within_of_takeWorded {cs rest : List Char} {i : Item}
    (h : takeWorded cs = some (i, rest)) : i.Within cs ∧ rest <:+ cs := by
  unfold takeWorded at h
  split at h
  · cases h
  · rename_i w left hw
    have hleft : left <:+ cs := ItemWord.take?_suffix hw
    simp only [Option.ite_none_left_eq_some, Option.some.injEq, Prod.mk.injEq] at h
    obtain ⟨-, rfl, rfl⟩ := h
    refine ⟨⟨?_, fun c hc => List.mem_takeWhile_imp hc⟩, ?_⟩
    · exact (List.takeWhile_prefix isDigit).isInfix.trans hleft.isInfix
    · exact (List.dropWhile_suffix isDigit).trans hleft

theorem isDigit_of_mem_bareNumbers : ∀ n ∈ bareNumbers, ∀ c ∈ n.toList, isDigit c = true := by
  have hall : ∀ n ∈ bareNumbers, n.toList.all isDigit = true := by decide
  exact fun n hn => List.all_eq_true.mp (hall n hn)

theorem within_of_takeSigned {cs rest : List Char} {i : Item}
    (h : takeSigned cs = some (i, rest)) : i.Within cs ∧ rest <:+ cs := by
  cases cs with
  | nil => cases h
  | cons c cs =>
    obtain ⟨a, -, ha⟩ := Option.bind_eq_some_iff.mp h
    obtain ⟨n, hn, hafter⟩ := List.exists_of_findSome?_eq_some ha
    obtain ⟨rest', hrest, heq⟩ := Option.map_eq_some_iff.mp hafter
    obtain ⟨rfl, rfl⟩ := Prod.mk.inj heq
    have hcs : cs = n.toList ++ rest' := after?_eq_some.mp hrest
    refine ⟨⟨⟨[c], rest', ?_⟩, isDigit_of_mem_bareNumbers n hn⟩, ⟨c :: n.toList, ?_⟩⟩
    · rw [hcs, List.singleton_append, List.cons_append]
    · rw [hcs, List.cons_append]

theorem within_of_takeBare {cs rest : List Char} {i : Item} (h : takeBare cs = some (i, rest)) :
    i.Within cs ∧ rest <:+ cs := by
  unfold takeBare at h
  split at h
  · rename_i r hr
    exact within_of_takeWorded (hr.trans h)
  · exact within_of_takeSigned h

theorem reads_toExtension {cs : List Char} (s : Source) (start : Nat) {i : Item}
    (h : i.Within cs) : Reads cs (fun _ => True) (i.toExtension s start) := by
  unfold toExtension
  split
  · rename_i hlong
    exact .tooLong h.isInfix h.digit hlong
  · split
    · exact .misread _
    · split
      · split
        · exact .done trivial
        · exact .misread _
      · exact .done trivial

end Item

theorem readBare_leaves (s : Source) (tail cs : List Char) : Leaves cs (readBare s tail cs) := by
  induction hn : cs.length using Nat.strongRecOn generalizing cs with
  | ind n ih =>
    rw [readBare]
    split
    · exact .done (List.suffix_refl _)
    · rename_i i rest hi
      obtain ⟨hwithin, hrest⟩ := Item.within_of_takeBare hi
      have hlt : rest.length < n := hn ▸ Item.length_takeBare hi
      have hmore : Leaves rest (readBare s tail rest) := ih rest.length hlt rest rfl
      exact (Item.reads_toExtension s _ hwithin).bind fun e _ =>
        (hmore.of_suffix hrest).bind fun r hr => .done hr

/-! ### The quality -/

theorem Table.exists_take? {t : Table} (h : "" ∈ t.symbols) (cs : List Char) :
    ∃ q n, t.take? cs = some (q, cs.drop n) := by
  have hmem : longestSymbol cs t.symbols ∈ t.symbols := by
    rcases longestSymbol_mem cs t.symbols with he | hm
    · rw [he]; exact h
    · exact hm
  obtain ⟨q, hq, hs⟩ := List.mem_flatMap.mp hmem
  obtain ⟨r, hr⟩ := Option.isSome_iff_exists.mp (find?_isSome hq hs)
  exact ⟨r, (longestSymbol cs t.symbols).length, by simp only [take?, hr, Option.map_some]⟩

theorem readQuality_leaves {t : Table} (h : "" ∈ t.symbols) (s : Source) (small : Bool)
    (cs : List Char) : Leaves cs (readQuality t s small cs) := by
  obtain ⟨q, n, hq⟩ := t.exists_take? h cs
  unfold readQuality
  simp only [hq]
  split
  · exact .misread _
  · generalize (cs.drop n).length - _ = k
    have hbare : (cs.drop n).take k <:+: cs :=
      (List.take_prefix _ _).isInfix.trans (List.drop_suffix _ _).isInfix
    refine ((readBare_leaves s _ _).mono hbare fun r _ => trivial).bind fun r _ => ?_
    split
    · exact .done (List.dropWhile_suffix _)
    · exact .misread _

/-! ### Groups and the bass -/

theorem isInfix_trim (cs : List Char) : trim cs <:+: cs := by
  have hend : trimEnd (trimStart cs) <+: trimStart cs := by
    have := List.dropWhile_suffix (l := (trimStart cs).reverse) isBlank
    simpa [trimEnd, trimStart] using List.reverse_prefix.mpr this
  exact hend.isInfix.trans (List.dropWhile_suffix isBlank).isInfix

theorem mem_locateItems {start : Nat} {pieces : List (List Char)} {r : Nat × List Char}
    (h : r ∈ locateItems start pieces) : ∃ piece ∈ pieces, r.2 = trim piece := by
  induction pieces generalizing start with
  | nil => cases h
  | cons piece pieces ih =>
    rcases List.mem_cons.mp h with rfl | h
    · exact ⟨piece, List.mem_cons_self .., rfl⟩
    · obtain ⟨piece', hpiece, heq⟩ := ih h
      exact ⟨piece', List.mem_cons_of_mem _ hpiece, heq⟩

theorem infix_of_mem_splitOn {c : Char} {cs piece : List Char} (h : piece ∈ cs.splitOn c) :
    piece <:+: cs := by
  have hjoin : [c].intercalate (cs.splitOn c) = cs := List.intercalate_splitOn c
  rw [← hjoin]
  generalize cs.splitOn c = pieces at h
  induction pieces with
  | nil => cases h
  | cons p pieces ih =>
    cases pieces with
    | nil =>
      obtain rfl : piece = p := by simpa using h
      simp [List.intercalate]
    | cons p' pieces =>
      rw [List.intercalate_cons_cons]
      rcases List.mem_cons.mp h with rfl | h
      · rw [List.append_assoc]
        exact (List.prefix_append _ _).isInfix
      · exact (ih h).trans (List.suffix_append _ _).isInfix

theorem readItem_reads (s : Source) (start : Nat) (cs : List Char) :
    Reads cs (fun _ => True) (readItem s start cs) := by
  unfold readItem
  split
  · exact .misread _
  · rename_i i hi
    exact Item.reads_toExtension s start (Item.within_of_read? hi)

theorem readGroup_reads (s : Source) (start : Nat) (inner : List Char) :
    Reads inner (fun _ => True) (readGroup s start inner) := by
  refine Reads.mapM fun r hr => ?_
  obtain ⟨piece, hpiece, heq⟩ := mem_locateItems hr
  have hin : r.2 <:+: inner := heq ▸ (isInfix_trim piece).trans (infix_of_mem_splitOn hpiece)
  exact (readItem_reads s r.1 r.2).mono hin fun _ h => h

theorem readGroups_leaves (s : Source) (cs : List Char) : Leaves cs (readGroups s cs) := by
  induction hn : cs.length using Nat.strongRecOn generalizing cs with
  | ind n ih =>
    rw [readGroups.eq_def]
    cases cs with
    | nil => exact .done (List.suffix_refl _)
    | cons c cs =>
      dsimp only
      split
      · exact .done (List.suffix_refl _)
      · rename_i closer _
        split
        · exact .misread _
        · rename_i inner rest hsplit
          have hcs : cs = inner ++ closer :: rest := eq_of_splitAt? hsplit
          have hinner : inner <:+: c :: cs := ⟨[c], closer :: rest, by simp [hcs]⟩
          have hrest : rest <:+ c :: cs := ⟨c :: inner ++ [closer], by simp [hcs]⟩
          have hlt : rest.length < n := by
            rw [← hn, hcs, List.length_cons, List.length_append, List.length_cons]
            omega
          split
          · exact .misread _
          · have hmore : Leaves rest (readGroups s rest) := ih rest.length hlt rest rfl
            refine ((readGroup_reads s _ inner).mono hinner fun _ h => h).bind fun es _ => ?_
            exact (hmore.of_suffix hrest).bind fun r hr => .done hr

theorem readBass_leaves (s : Source) (cs : List Char) : Leaves cs (readBass s cs) := by
  unfold readBass
  split
  · rename_i cs
    have hrest : cs <:+ '/' :: cs := List.suffix_cons _ _
    exact ((readRoot_leaves s .bass cs).of_suffix hrest).bind fun r hr => .done hr
  · exact .done (List.suffix_refl _)

/-! ### Chords and words -/

/-- **A chord symbol is read or misread**, as soon as the table has a quality
for a bare root. -/
theorem Chord.reads {t : Table} (h : "" ∈ t.symbols) (s : Source) :
    Reads s.text (fun _ => True) (Chord.read t s) := by
  unfold Chord.read
  refine (readRoot_leaves s .chord s.text).bind ?_
  rintro ⟨⟨root, small⟩, afterRoot⟩ hroot
  refine ((readQuality_leaves h s small afterRoot).of_suffix hroot).bind ?_
  rintro ⟨⟨quality, bare⟩, afterQuality⟩ hquality
  refine ((readGroups_leaves s afterQuality).of_suffix hquality).bind ?_
  rintro ⟨groups, afterGroups⟩ hgroups
  refine ((readBass_leaves s afterGroups).of_suffix hgroups).bind ?_
  rintro ⟨bass, afterBass⟩ -
  dsimp only
  split
  · exact .done trivial
  · exact .misread _

theorem Sound.reads {t : Table} (h : "" ∈ t.symbols) (s : Source) :
    Reads s.text (fun _ => True) (Sound.read t s) := by
  unfold Sound.read
  split
  · exact .done trivial
  · split
    · exact .done trivial
    · split
      · exact .done trivial
      · exact (Chord.reads h s).map fun _ _ => trivial

variable {Q : Type} [Quantity Q]

theorem splitDuration_reads (line column : Int) (word : List Char) :
    Reads word (fun r => r.1 <+: word)
      (splitDuration line column word : Except ReadFault (List Char × Option Q)) := by
  unfold splitDuration
  split
  · exact .done (List.prefix_refl _)
  · rename_i body value hsplit
    have hbody : body <+: word := ⟨':' :: value, (splitColon_eq_some.mp hsplit).1.symm⟩
    split
    · exact .done (List.prefix_refl _)
    · split
      · exact .done hbody
      · exact .misread _

theorem TokenContent.reads {t : Table} (h : "" ∈ t.symbols) (s : Source) :
    Reads s.text (fun _ => True)
      (TokenContent.read t s : Except ReadFault (TokenContent Q)) := by
  unfold TokenContent.read
  split
  · split
    · exact .done trivial
    · exact .badKey _ _ _
  · refine (splitDuration_reads _ _ _).bind ?_
    rintro ⟨body, duration⟩ hbody
    exact ((Sound.reads h { s with text := body }).mono hbody.isInfix fun _ h => h).bind
      fun _ _ => .done trivial

theorem Token.reads {t : Table} (h : "" ∈ t.symbols) (s : Source) :
    Reads s.text (fun _ => True) (Token.read t s : Except ReadFault (Token Q)) :=
  (TokenContent.reads h s).map fun _ _ => trivial

theorem Builder.reads_feed (text : List Char) (b : Builder Q) (t : Token Q) :
    Reads text (fun _ => True) (b.feed t) := by
  unfold feed
  split
  · exact .done trivial
  · split
    · exact .done trivial
    · exact .misread _
  all_goals exact .done trivial

end LeadSheet
