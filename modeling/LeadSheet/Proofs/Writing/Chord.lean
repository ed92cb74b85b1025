import LeadSheet.Chord.Printer
import LeadSheet.Proofs.Reading.Place
import LeadSheet.Proofs.Writing.Root
import LeadSheet.Quality.Standard

/-!
# Written chords read back

A chord is `Legible` if its root and bass are and its quality is a standard
one.  Reading with the standard table gives only such chords
(`Chord.legible_of_read`), and each of them reads back from its text
(`Chord.read_text`).

The text has three parts, the head, the extensions and the bass, and the
reader takes them one after the other: `Root.take_text`,
`readQuality_symbol`, `readGroups_extensionText` and `readBass_bassText`.  What
follows a head either is nothing or starts with a parenthesis or a slash
(`AtTail`), none of which any symbol of the table goes on with.
-/

namespace LeadSheet

open Text

/-- A chord as reading with the standard table makes it. -/
structure Chord.Legible (c : Chord) : Prop where
  root : c.root.Legible
  quality : c.quality ∈ Quality.standard
  bass : ∀ r ∈ c.bass, r.Legible

/-- The text goes on with extensions or a bass, or not at all. -/
def AtTail (cs : List Char) : Prop :=
  ∀ c ∈ cs.head?, c = '(' ∨ c = '/'

/-! ### Symbols -/

theorem isPrefixOf_append_of_notMem : ∀ {ws : List Char} (xs : List Char) {cs : List Char},
    (∀ c ∈ cs.head?, c ∉ ws) → ws.isPrefixOf (xs ++ cs) = ws.isPrefixOf xs := by
  intro ws
  induction ws with
  | nil => intro xs cs _; rw [List.isPrefixOf_nil_left, List.isPrefixOf_nil_left]
  | cons w ws ih =>
    intro xs cs h
    cases xs with
    | nil =>
      cases cs with
      | nil => rfl
      | cons c cs =>
        have hc : (w == c) = false := by
          rw [beq_eq_false_iff_ne]
          exact fun he => h c rfl (he ▸ List.mem_cons_self ..)
        rw [List.nil_append, List.isPrefixOf_cons_cons, hc, Bool.false_and]
        rfl
    | cons x xs =>
      rw [List.cons_append, List.isPrefixOf_cons_cons, List.isPrefixOf_cons_cons,
        ih xs fun c hc hm => h c hc (List.mem_cons_of_mem w hm)]

theorem longestSymbol_append (xs : List Char) {cs : List Char} : ∀ {ss : List String},
    (∀ c ∈ cs.head?, ∀ s ∈ ss, c ∉ s.toList) →
    longestSymbol (xs ++ cs) ss = longestSymbol xs ss := by
  intro ss
  induction ss with
  | nil => intro _; rfl
  | cons s ss ih =>
    intro h
    have hs : s.toList.isPrefixOf (xs ++ cs) = s.toList.isPrefixOf xs :=
      isPrefixOf_append_of_notMem xs fun c hc => h c hc s (List.mem_cons_self ..)
    have hss := ih fun c hc t ht => h c hc t (List.mem_cons_of_mem s ht)
    simp only [longestSymbol, hs, hss]

theorem notMem_symbol_of_atTail {cs : List Char} (h : AtTail cs) :
    ∀ c ∈ cs.head?, ∀ s ∈ Table.standard.symbols, c ∉ s.toList := by
  have hstop : ∀ s ∈ Table.standard.symbols, '(' ∉ s.toList ∧ '/' ∉ s.toList := by
    decide +kernel
  intro c hc s hs
  rcases h c hc with rfl | rfl
  · exact (hstop s hs).1
  · exact (hstop s hs).2

theorem Table.take?_append {t : Table} {xs rest : List Char} {q : Quality}
    (h : ∀ c ∈ rest.head?, ∀ s ∈ t.symbols, c ∉ s.toList) (hq : t.take? xs = some (q, [])) :
    t.take? (xs ++ rest) = some (q, rest) := by
  obtain ⟨r, hr, heq⟩ := Option.map_eq_some_iff.mp hq
  obtain ⟨rfl, hdrop⟩ := Prod.mk.inj heq
  have hlen : (longestSymbol xs t.symbols).length ≤ xs.length := by
    have hp := isPrefixOf_longestSymbol xs t.symbols
    exact (List.isPrefixOf_iff_prefix.mp hp).length_le
  unfold Table.take?
  rw [longestSymbol_append xs h]
  simp only [hr, Option.map_some, List.drop_append_of_le_length hlen, hdrop, List.nil_append]

theorem take?_symbol : ∀ q ∈ Quality.standard,
    Table.standard.take? q.symbol.toList = some (q, []) := by
  decide +kernel

theorem take?_degreeSuffix : ∀ q ∈ Quality.standard,
    ∃ r ∈ Quality.standard, Table.standard.take? q.degreeSuffix.toList = some (r, [])
      ∧ (if q.minor then Table.standard.minorVariant r else r) = q := by
  decide +kernel

/-- The symbols of a standard quality have no stops and no characters that a
root may go on with at their start. -/
theorem isPlain_symbol : ∀ q ∈ Quality.standard,
    (∀ c ∈ q.symbol.toList, isPlain c = true) ∧ (∀ c ∈ q.degreeSuffix.toList, isPlain c = true)
      ∧ (∀ c ∈ q.symbol.toList.head?, continuesRoot c = false)
      ∧ ∀ c ∈ q.degreeSuffix.toList.head?, continuesRoot c = false := by
  have hall : ∀ q ∈ Quality.standard, (q.symbol.toList.all fun c => decide (isPlain c = true))
      ∧ (q.degreeSuffix.toList.all fun c => decide (isPlain c = true))
      ∧ (q.symbol.toList.head?.all fun c => decide (continuesRoot c = false))
      ∧ (q.degreeSuffix.toList.head?.all fun c => decide (continuesRoot c = false)) := by
    decide +kernel
  intro q hq
  obtain ⟨hsymbol, hsuffix, hhead, htail⟩ := hall q hq
  exact ⟨forall_mem_of_all hsymbol, forall_mem_of_all hsuffix, forall_mem_option_of_all hhead,
    forall_mem_option_of_all htail⟩

/-! ### The parts of a chord -/

theorem atTail_cons {c : Char} (h : c = '(' ∨ c = '/') (cs : List Char) : AtTail (c :: cs) := by
  intro d hd
  obtain rfl : c = d := by simpa using hd
  exact h

theorem endsHead_of_isPlain {c : Char} (h : isPlain c = true) : (!endsHead c) = true := by
  have hstop : c ∉ ['|', '(', ')', '[', ']', ':', ',', '/'] := by
    simp only [isPlain, Bool.and_eq_true, Bool.not_eq_true', decide_eq_false_iff_not] at h
    exact h.2
  simp only [List.mem_cons, List.not_mem_nil, or_false, not_or] at hstop
  obtain ⟨-, h₁, -, h₂, -, -, -, h₃⟩ := hstop
  simp [endsHead, h₁, h₂, h₃]

theorem readQuality_symbol (s : Source) (small : Bool) {xs rest : List Char} {q : Quality}
    (hx : ∀ c ∈ xs, isPlain c = true) (h : AtTail rest)
    (hq : Table.standard.take? xs = some (q, [])) :
    readQuality Table.standard s small (xs ++ rest)
      = .ok ((if small then Table.standard.minorVariant q else q, []), rest) := by
  have hends : ∀ c ∈ xs, (!endsHead c) = true := fun c hc => endsHead_of_isPlain (hx c hc)
  have htail : (xs ++ rest).dropWhile (fun c => !endsHead c) = rest :=
    dropWhile_append_stop hends fun c hc => by rcases h c hc with rfl | rfl <;> decide
  have hbare : readBare s rest [] = .ok ([], []) := by rw [readBare]; rfl
  unfold readQuality
  rw [Table.take?_append (notMem_symbol_of_atTail h) hq]
  simp only [htail, Nat.lt_irrefl, if_false, Nat.sub_self, List.take_zero, hbare]
  rfl

theorem readItem_text (s : Source) (start : Nat) (e : Extension) :
    readItem s start e.text.toList = .ok e := by
  obtain ⟨step, change⟩ := e
  cases change with
  | alter a => cases a <;> cases step <;> rfl
  | add => cases step <;> rfl
  | leaveOut => cases step <;> rfl

theorem Extension.isPlain_text (e : Extension) : ∀ c ∈ e.text.toList, isPlain c = true := by
  obtain ⟨step, change⟩ := e
  refine forall_mem_of_all ?_
  cases change with
  | alter a => cases a <;> cases step <;> decide
  | add => cases step <;> decide
  | leaveOut => cases step <;> decide

theorem Extension.toList_text_ne_nil (e : Extension) : e.text.toList ≠ [] := by
  obtain ⟨step, change⟩ := e
  cases change with
  | alter a => cases a <;> cases step <;> decide
  | add => cases step <;> decide
  | leaveOut => cases step <;> decide

def extensionChars (es : List Extension) : List Char :=
  [','].intercalate (es.map fun e => e.text.toList)

theorem toList_extensionText {es : List Extension} (h : es ≠ []) :
    (Chord.extensionText es).toList = '(' :: (extensionChars es ++ [')']) := by
  have he : es.isEmpty = false := by cases es <;> simp_all
  simp [Chord.extensionText, he, extensionChars, String.toList_intercalate, Function.comp_def]

theorem mem_extensionChars {es : List Extension} {c : Char} (h : c ∈ extensionChars es) :
    c = ',' ∨ isPlain c = true := by
  induction es with
  | nil => cases h
  | cons e es ih =>
    unfold extensionChars at h ih
    cases es with
    | nil =>
      rw [List.map_singleton, List.intercalate_singleton] at h
      exact .inr (e.isPlain_text c h)
    | cons e' es =>
      rw [List.map_cons, List.map_cons, List.intercalate_cons_cons, List.append_assoc,
        List.mem_append, List.mem_append] at h
      rcases h with h | h | h
      · exact .inr (e.isPlain_text c h)
      · exact .inl (List.mem_singleton.mp h)
      · exact ih h

theorem splitAt?_append {c : Char} : ∀ {xs : List Char} (rest : List Char), c ∉ xs →
    splitAt? c (xs ++ c :: rest) = some (xs, rest) := by
  intro xs
  induction xs with
  | nil => intro rest _; rw [List.nil_append, splitAt?, if_pos rfl]
  | cons x xs ih =>
    intro rest h
    have hx : x ≠ c := fun he => h (he ▸ List.mem_cons_self ..)
    rw [List.cons_append, splitAt?, if_neg hx, ih rest fun hm => h (List.mem_cons_of_mem x hm)]
    rfl

theorem mapM_readItem (s : Source) : ∀ (es : List Extension) (start : Nat),
    (locateItems start (es.map fun e => e.text.toList)).mapM (fun (start, cs) => readItem s start cs)
      = .ok es := by
  intro es
  induction es with
  | nil => intro start; rfl
  | cons e es ih =>
    intro start
    have htrim : trim e.text.toList = e.text.toList :=
      trim_eq_self fun c hc => isBlank_of_isPlain (e.isPlain_text c hc)
    rw [List.map_cons, locateItems, List.mapM_cons, htrim]
    dsimp only
    rw [readItem_text, ih]
    rfl

theorem readGroup_extensionChars (s : Source) (start : Nat) {es : List Extension} (h : es ≠ []) :
    readGroup s start (extensionChars es) = .ok es := by
  have hcomma : ∀ cs ∈ es.map (fun e => e.text.toList), ',' ∉ cs := by
    intro cs hcs hm
    obtain ⟨e, -, rfl⟩ := List.mem_map.mp hcs
    exact absurd (e.isPlain_text ',' hm) (by decide)
  unfold readGroup extensionChars
  rw [List.splitOn_intercalate ',' hcomma (by simpa using h), mapM_readItem]

theorem readGroups_cons (s : Source) {c closer : Char} {cs inner rest : List Char}
    (hc : closerOf? c = some closer) (hsplit : splitAt? closer cs = some (inner, rest))
    (hne : (trim inner).isEmpty = false) :
    readGroups s (c :: cs) = (readGroup s (s.start (c :: cs) + 1) inner >>= fun es =>
      readGroups s rest >>= fun r => pure (es ++ r.1, r.2)) := by
  rw [readGroups.eq_def]
  dsimp only
  split
  · rename_i hnone
    rw [hc] at hnone
    cases hnone
  · rename_i closer' hsome
    obtain rfl : closer = closer' := Option.some.inj (hc.symm.trans hsome)
    split
    · rename_i hnone
      rw [hsplit] at hnone
      cases hnone
    · rename_i inner' rest' hsome'
      obtain ⟨rfl, rfl⟩ := Prod.mk.inj (Option.some.inj (hsplit.symm.trans hsome'))
      rw [if_neg (by simp [hne])]

theorem readGroups_extensionText (s : Source) (es : List Extension) {rest : List Char}
    (h : ∀ c ∈ rest.head?, c = '/') :
    readGroups s ((Chord.extensionText es).toList ++ rest) = .ok (es, rest) := by
  have hrest : readGroups s rest = .ok ([], rest) := by
    cases rest with
    | nil => rw [readGroups]
    | cons c cs =>
      obtain rfl : c = '/' := h c rfl
      rw [readGroups.eq_def]
      rfl
  by_cases he : es = []
  · subst he
    exact hrest
  · have hclose : ')' ∉ extensionChars es := fun hm => by
      rcases mem_extensionChars hm with h | h
      · exact absurd h (by decide)
      · exact absurd h (by decide)
    have hsplit := splitAt?_append rest hclose
    have hne : (trim (extensionChars es)).isEmpty = false := by
      have hblank : ∀ c ∈ extensionChars es, isBlank c = false := by
        intro c hc
        rcases mem_extensionChars hc with rfl | hp
        · decide
        · exact isBlank_of_isPlain hp
      rw [trim_eq_self hblank]
      obtain ⟨e, es', rfl⟩ := List.exists_cons_of_ne_nil he
      have := e.toList_text_ne_nil
      cases es' <;> simp_all [extensionChars]
    rw [toList_extensionText he, List.cons_append, List.append_assoc, List.singleton_append,
      readGroups_cons s rfl hsplit hne, readGroup_extensionChars s _ he]
    show (readGroups s rest >>= fun r => pure (es ++ r.1, r.2)) = _
    rw [hrest]
    show Except.ok (es ++ [], rest) = _
    rw [List.append_nil]

theorem readBass_bassText (s : Source) {bass : Option Root} (h : ∀ r ∈ bass, r.Legible) :
    readBass s (Chord.bassText bass).toList = .ok (bass, []) := by
  cases bass with
  | none => rfl
  | some r =>
    have htext : (Chord.bassText (some r)).toList = '/' :: (r.text.toList ++ []) := by
      simp [Chord.bassText]
    have hroot : Root.take (r.text.toList ++ []) = some ((r, r.readSmall false), []) :=
      Root.take_text (h r rfl) false fun c hc => by cases hc
    rw [htext, readBass, readRoot, hroot]
    rfl

theorem atTail_bassText (bass : Option Root) :
    ∀ c ∈ (Chord.bassText bass).toList.head?, c = '/' := by
  cases bass with
  | none => intro c hc; cases hc
  | some r =>
    intro c hc
    have htext : (Chord.bassText (some r)).toList = '/' :: r.text.toList := by
      simp [Chord.bassText]
    rw [htext] at hc
    exact (Option.some.inj hc).symm

namespace Chord

def tailChars (c : Chord) : List Char :=
  (extensionText c.extensions).toList ++ (bassText c.bass).toList

theorem atTail_tailChars (c : Chord) : AtTail c.tailChars := by
  unfold tailChars
  by_cases he : c.extensions = []
  · rw [he]
    exact fun d hd => .inr (atTail_bassText c.bass d hd)
  · rw [toList_extensionText he]
    exact atTail_cons (.inl rfl) _

def suffix (c : Chord) : String :=
  if c.isDegree then c.quality.degreeSuffix else c.quality.symbol

theorem toList_text (c : Chord) :
    c.text.toList = (c.root.text c.quality.minor).toList ++ (c.suffix.toList ++ c.tailChars) := by
  unfold text headText suffix tailChars isDegree
  cases c.root with
  | pitch p => simp [Root.isDegree, Root.text]
  | degree d => simp [Root.isDegree]

theorem head?_suffix {c : Chord} (h : c.Legible) :
    ∀ d ∈ (c.suffix.toList ++ c.tailChars).head?, continuesRoot d = false := by
  obtain ⟨-, -, hsymbol, hdegree⟩ := isPlain_symbol c.quality h.quality
  have hsuffix : ∀ d ∈ c.suffix.toList.head?, continuesRoot d = false := by
    unfold suffix
    by_cases hd : c.isDegree = true
    · rw [if_pos hd]; exact hdegree
    · rw [if_neg hd]; exact hsymbol
  intro d hd
  cases hs : c.suffix.toList with
  | nil =>
    rw [hs, List.nil_append] at hd
    rcases c.atTail_tailChars d hd with rfl | rfl <;> decide
  | cons e es =>
    rw [hs] at hd
    exact hsuffix d (by rw [hs]; exact hd)

theorem isPlain_suffix {c : Chord} (h : c.Legible) : ∀ d ∈ c.suffix.toList, isPlain d = true := by
  obtain ⟨hsymbol, hdegree, -, -⟩ := isPlain_symbol c.quality h.quality
  unfold suffix
  by_cases hd : c.isDegree = true
  · rw [if_pos hd]; exact hdegree
  · rw [if_neg hd]; exact hsymbol

theorem readQuality_suffix (s : Source) {c : Chord} (h : c.Legible) :
    readQuality Table.standard s (c.root.readSmall c.quality.minor) (c.suffix.toList ++ c.tailChars)
      = .ok ((c.quality, []), c.tailChars) := by
  have hplain := isPlain_suffix h
  unfold suffix at hplain ⊢
  unfold Root.readSmall
  by_cases hd : c.isDegree = true
  · rw [if_pos hd] at hplain ⊢
    obtain ⟨q, -, hq, hminor⟩ := take?_degreeSuffix c.quality h.quality
    rw [readQuality_symbol s _ hplain c.atTail_tailChars hq, show c.root.isDegree = true from hd,
      Bool.true_and, hminor]
  · have hd' : c.root.isDegree = false := by simpa [isDegree] using hd
    rw [if_neg hd] at hplain ⊢
    rw [readQuality_symbol s _ hplain c.atTail_tailChars (take?_symbol _ h.quality), hd',
      Bool.false_and]
    rfl

theorem read_of_head {t : Table} {s : Source} {root : Root} {small : Bool} {quality : Quality}
    {bare : List Extension} {cs ds : List Char}
    (hroot : readRoot s .chord s.text = .ok ((root, small), cs))
    (hquality : readQuality t s small cs = .ok ((quality, bare), ds)) :
    Chord.read t s = (readGroups s ds >>= fun groups => readBass s groups.2 >>= fun bass =>
      if bass.2.isEmpty then pure ⟨root, quality, bare ++ groups.1, bass.1⟩
      else .error (s.fault (s.start bass.2) (.trailing (String.ofList bass.2)) bass.2)) := by
  unfold Chord.read
  rw [hroot]
  show (readQuality t s small cs >>= _) = _
  rw [hquality]
  rfl

theorem read_of_parts {t : Table} {s : Source} {root : Root} {small : Bool} {quality : Quality}
    {bare groups : List Extension} {bass : Option Root} {cs ds es : List Char}
    (hroot : readRoot s .chord s.text = .ok ((root, small), cs))
    (hquality : readQuality t s small cs = .ok ((quality, bare), ds))
    (hgroups : readGroups s ds = .ok (groups, es)) (hbass : readBass s es = .ok (bass, [])) :
    Chord.read t s = .ok ⟨root, quality, bare ++ groups, bass⟩ := by
  rw [read_of_head hroot hquality, hgroups]
  show (readBass s es >>= _) = _
  rw [hbass]
  rfl

theorem exists_parts_of_read {t : Table} {s : Source} {c : Chord} (h : Chord.read t s = .ok c) :
    ∃ (root : Root) (small : Bool) (quality : Quality) (bare groups : List Extension)
      (bass : Option Root) (cs ds es : List Char),
      readRoot s .chord s.text = .ok ((root, small), cs)
        ∧ readQuality t s small cs = .ok ((quality, bare), ds)
        ∧ readGroups s ds = .ok (groups, es) ∧ readBass s es = .ok (bass, [])
        ∧ c = ⟨root, quality, bare ++ groups, bass⟩ := by
  unfold Chord.read at h
  obtain ⟨⟨⟨root, small⟩, cs⟩, hroot, h⟩ := exists_of_bind_eq_ok h
  obtain ⟨⟨⟨quality, bare⟩, ds⟩, hquality, h⟩ := exists_of_bind_eq_ok h
  obtain ⟨⟨groups, es⟩, hgroups, h⟩ := exists_of_bind_eq_ok h
  obtain ⟨⟨bass, rest⟩, hbass, h⟩ := exists_of_bind_eq_ok h
  dsimp only at h
  split at h
  · rename_i hrest
    obtain rfl := List.isEmpty_iff.mp hrest
    exact ⟨root, small, quality, bare, groups, bass, cs, ds, es, hroot, hquality, hgroups, hbass,
      (Except.ok.inj h).symm⟩
  · cases h

/-- **A legible chord reads back from its text.** -/
theorem read_text {c : Chord} (h : c.Legible) (line column : Int) :
    Chord.read Table.standard ⟨c.text.toList, line, column⟩ = .ok c := by
  have hroot : readRoot ⟨c.text.toList, line, column⟩ .chord c.text.toList
      = .ok ((c.root, c.root.readSmall c.quality.minor), c.suffix.toList ++ c.tailChars) := by
    rw [readRoot_eq_ok_iff, toList_text,
      Root.take_text h.root c.quality.minor (head?_suffix h)]
  exact read_of_parts hroot (readQuality_suffix _ h)
    (readGroups_extensionText _ c.extensions (atTail_bassText c.bass))
    (readBass_bassText _ h.bass)

/-! ### What is read is legible -/

theorem minorVariant_mem {t : Table} {q : Quality} (h : q ∈ t.qualities) :
    t.minorVariant q ∈ t.qualities := by
  unfold Table.minorVariant
  cases hv : (t.minorVariants.lookup q.name).bind t.named? with
  | none => exact h
  | some r =>
    obtain ⟨name, -, hr⟩ := Option.bind_eq_some_iff.mp hv
    simpa using List.mem_of_find?_eq_some hr

theorem mem_qualities_of_readQuality {t : Table} {s : Source} {small : Bool} {cs rest : List Char}
    {q : Quality} {es : List Extension} (h : readQuality t s small cs = .ok ((q, es), rest)) :
    q ∈ t.qualities := by
  unfold readQuality at h
  dsimp only at h
  split at h
  · cases h
  · rename_i r rest' htake
    have hr : r ∈ t.qualities := by
      obtain ⟨r', hr', heq⟩ := Option.map_eq_some_iff.mp htake
      obtain ⟨rfl, -⟩ := Prod.mk.inj heq
      exact Table.find?_mem hr'
    split at h
    · cases h
    · obtain ⟨⟨bare, left⟩, -, h⟩ := exists_of_bind_eq_ok h
      dsimp only at h
      split at h
      · obtain ⟨heq, -⟩ := Prod.mk.inj (Except.ok.inj h)
        obtain ⟨rfl, -⟩ := Prod.mk.inj heq
        by_cases hs : small = true
        · rw [if_pos hs]; exact minorVariant_mem hr
        · rw [if_neg hs]; exact hr
      · cases h

theorem legible_of_readRoot {s : Source} {place : RootPlace} {cs rest : List Char} {r : Root}
    {small : Bool} (h : readRoot s place cs = .ok ((r, small), rest)) : r.Legible :=
  Root.legible_of_take (readRoot_eq_ok_iff.mp h)

theorem legible_of_readBass {s : Source} {cs rest : List Char} {bass : Option Root}
    (h : readBass s cs = .ok (bass, rest)) : ∀ r ∈ bass, r.Legible := by
  unfold readBass at h
  split at h
  · obtain ⟨⟨⟨r, small⟩, rest'⟩, hroot, h⟩ := exists_of_bind_eq_ok h
    cases h
    intro r' hr'
    obtain rfl := Option.some.inj hr'
    exact legible_of_readRoot hroot
  · cases h
    intro r hr
    cases hr

/-- **A chord that is read with the standard table is legible.** -/
theorem legible_of_read {s : Source} {c : Chord} (h : Chord.read Table.standard s = .ok c) :
    c.Legible := by
  obtain ⟨root, small, quality, bare, groups, bass, cs, ds, es, hroot, hquality, -, hbass, rfl⟩ :=
    exists_parts_of_read h
  exact ⟨legible_of_readRoot hroot, mem_qualities_of_readQuality hquality,
    legible_of_readBass hbass⟩

end Chord

end LeadSheet
