import LeadSheet.Proofs.Chord.Tones
import LeadSheet.Proofs.Reading.Ascii

/-!
# A seventh with an altered fifth

Only one thing tells accidentals in ASCII from musical signs: the standard table has
symbols of sevenths that go on with an accidental in ASCII (`alteredFifths`).  So
`C7b5` is read as one symbol and `C7♭5` as a seventh with an item behind it
(`readQuality_ascii`).  The tones are the same, unless the seventh follows a numeral in
small letters: with the sign it is a minor one, and in ASCII it is not
(`tones_alteredFifths`).

Then two sets of tones differ in their thirds, and stay different as long as no
extension hides it (`DifferInThird.foldl_apply_iff`).  `Chord.read_ascii` says when a
chord has the same tones in ASCII.
-/

namespace LeadSheet

open Text

/-! ### Thirds -/

/-- The first set of tones has a minor third and the second a major one; they have the
same tones else. -/
structure DifferInThird (as bs : List Int) : Prop where
  minor : 3 ∈ as
  major : 4 ∈ bs
  others : ∀ n, n ≠ 3 → n ≠ 4 → (n ∈ as ↔ n ∈ bs)

def Extension.AddsTone (e : Extension) (n : Int) : Prop :=
  e.omits = false ∧ n = e.interval

/-- Extensions that leave the third out, or add the minor as well as the major one. -/
def HideThird (es : List Extension) : Prop :=
  (∃ e ∈ es, e.step = .third ∧ e.omits = true)
    ∨ ((∃ e ∈ es, e.AddsTone 3) ∧ ∃ e ∈ es, e.AddsTone 4)

theorem ChordStep.eq_third_of_mem {s : ChordStep} {n : Int} (hn : n = 3 ∨ n = 4) :
    n ∈ s.tones ↔ s = .third := by
  rcases hn with rfl | rfl <;> cases s <;> decide

theorem Extension.mem_apply_third {e : Extension} {tones : List Int} {n : Int}
    (hn : n = 3 ∨ n = 4) : n ∈ Extension.apply tones e
      ↔ e.AddsTone n ∨ (n ∈ tones ∧ ¬ (e.step = .third ∧ e.omits = true)) := by
  rw [mem_apply_iff, ChordStep.eq_third_of_mem hn]
  refine or_congr_right (and_congr_right fun _ => not_congr (and_congr_right fun hthird => ?_))
  simp [hthird]

namespace DifferInThird

variable {as bs : List Int}

theorem apply_omit (h : DifferInThird as bs) {e : Extension} (hstep : e.step = .third)
    (homits : e.omits = true) (n : Int) : n ∈ Extension.apply as e ↔ n ∈ Extension.apply bs e := by
  rw [Extension.mem_apply_iff, Extension.mem_apply_iff, hstep]
  by_cases hn : n ∈ ChordStep.third.tones
  · simp [hn, homits]
  · have hn' : n ≠ 3 ∧ n ≠ 4 := by simpa [ChordStep.tones] using hn
    rw [h.others n hn'.1 hn'.2]

theorem apply (h : DifferInThird as bs) {e : Extension}
    (hkeeps : ¬ (e.step = .third ∧ e.omits = true)) :
    DifferInThird (Extension.apply as e) (Extension.apply bs e) := by
  refine ⟨(Extension.mem_apply_third (.inl rfl)).mpr (.inr ⟨h.minor, hkeeps⟩),
    (Extension.mem_apply_third (.inr rfl)).mpr (.inr ⟨h.major, hkeeps⟩), fun n h₃ h₄ => ?_⟩
  rw [Extension.mem_apply_iff, Extension.mem_apply_iff, h.others n h₃ h₄]

theorem foldl_apply_iff : ∀ (es : List Extension) {as bs : List Int}, DifferInThird as bs →
    ((∀ n, n ∈ es.foldl Extension.apply as ↔ n ∈ es.foldl Extension.apply bs)
      ↔ (∃ e ∈ es, e.step = .third ∧ e.omits = true)
        ∨ ((3 ∈ bs ∨ ∃ e ∈ es, e.AddsTone 3) ∧ (4 ∈ as ∨ ∃ e ∈ es, e.AddsTone 4))) := by
  intro es
  induction es with
  | nil =>
    intro as bs h
    simp only [List.foldl_nil, List.not_mem_nil, false_and, exists_false, or_false, false_or]
    constructor
    · exact fun hsame => ⟨(hsame 3).mp h.minor, (hsame 4).mpr h.major⟩
    · rintro ⟨h₃, h₄⟩ n
      by_cases hn₃ : n = 3
      · exact hn₃ ▸ iff_of_true h.minor h₃
      · by_cases hn₄ : n = 4
        · exact hn₄ ▸ iff_of_true h₄ h.major
        · exact h.others n hn₃ hn₄
  | cons e es ih =>
    intro as bs h
    simp only [List.foldl_cons, List.exists_mem_cons_iff]
    -- an item that leaves the third out makes the two alike for good; any other keeps them apart
    by_cases homit : e.step = .third ∧ e.omits = true
    · refine iff_of_true ?_ (.inl (.inl homit))
      exact foldl_apply_congr es (h.apply_omit homit.1 homit.2)
    · rw [ih (h.apply homit), Extension.mem_apply_third (.inl rfl),
        Extension.mem_apply_third (.inr rfl)]
      simp only [homit, false_or, not_false_eq_true, and_true]
      have hswap : ∀ {a b c : Prop}, (a ∨ b) ∨ c ↔ b ∨ a ∨ c := or_assoc.trans or_left_comm
      exact or_congr_right (and_congr hswap hswap)

end DifferInThird

/-! ### Symbols -/

/-- A symbol of a seventh with an altered fifth: that of the seventh, and what it is
altered with. -/
structure AlteredFifth where
  seventh : String
  sign : Char
  accidental : Accidental
  symbol : String
deriving DecidableEq

/-- The symbols of the standard table that end in an accidental and a number. -/
def alteredFifths : List AlteredFifth :=
  [⟨"7", '♭', .flat, "7b5"⟩, ⟨"m7", '♭', .flat, "m7b5"⟩, ⟨"7", '♯', .sharp, "7#5"⟩]

namespace AlteredFifth

/-- The seventh stands in front of a text with a musical sign and a five behind it. -/
def Starts (f : AlteredFifth) (cs : List Char) : Prop :=
  ∃ rest, cs = f.seventh.toList ++ f.sign :: '5' :: rest

def extension (f : AlteredFifth) : Extension :=
  ⟨.fifth, .alter f.accidental⟩

/-- What is known of the altered fifths of the standard table. -/
structure Sound (f : AlteredFifth) : Prop where
  symbol : f.symbol.toList = f.seventh.toList ++ [asciiSign f.sign, '5']
  sign : f.sign = '♯' ∨ f.sign = '♭'
  accidental : Accidental.ofSign? f.sign = some f.accidental
  signless : isSignless f.seventh.toList = true
  seventh_mem : f.seventh ∈ Table.standard.symbols
  symbol_mem : f.symbol ∈ Table.standard.symbols

theorem sound_of_mem : ∀ f ∈ alteredFifths, f.Sound := by
  have hall : ∀ f ∈ alteredFifths, f.symbol.toList = f.seventh.toList ++ [asciiSign f.sign, '5']
      ∧ (f.sign = '♯' ∨ f.sign = '♭') ∧ Accidental.ofSign? f.sign = some f.accidental
      ∧ isSignless f.seventh.toList = true
      ∧ f.seventh ∈ Table.standard.symbols ∧ f.symbol ∈ Table.standard.symbols := by
    decide
  intro f hf
  obtain ⟨h₁, h₂, h₃, h₄, h₅, h₆⟩ := hall f hf
  exact ⟨h₁, h₂, h₃, h₄, h₅, h₆⟩

theorem length_le_of_prefix : ∀ f ∈ alteredFifths, ∀ g ∈ alteredFifths, ∀ cs : List Char,
    f.symbol.toList <+: cs → g.symbol.toList <+: cs → g.symbol.length ≤ f.symbol.length := by
  have hall : ∀ f ∈ alteredFifths, ∀ g ∈ alteredFifths,
      f.symbol.toList <+: g.symbol.toList → g.symbol.length ≤ f.symbol.length := by
    decide
  intro f hf g hg cs hfcs hgcs
  rcases List.prefix_or_prefix_of_prefix hfcs hgcs with h | h
  · exact hall f hf g hg h
  · exact h.length_le

end AlteredFifth

theorem ascii_of_mem_symbols : ∀ u ∈ Table.standard.symbols, ascii u.toList = u.toList := by
  decide

theorem exists_alteredFifth : ∀ u ∈ Table.standard.symbols,
    isSignless u.toList = true ∨ ∃ f ∈ alteredFifths, f.symbol = u := by
  decide

theorem prefix_of_ascii {w cs : List Char} (hw : isSignless w = true)
    (h : w <+: ascii cs) : w <+: cs := by
  obtain ⟨rest, hrest⟩ := h
  have hafter := after?_ascii hw cs
  rw [← hrest, after?_append] at hafter
  obtain ⟨rest', hrest', -⟩ := Option.map_eq_some_iff.mp hafter.symm
  exact ⟨rest', (after?_eq_some.mp hrest').symm⟩

theorem prefix_ascii {u : String} (hu : u ∈ Table.standard.symbols) {cs : List Char}
    (h : u.toList <+: cs) : u.toList <+: ascii cs := by
  obtain ⟨rest, rfl⟩ := h
  rw [ascii_append, ascii_of_mem_symbols u hu]
  exact List.prefix_append _ _

/-- **A symbol that only starts a text in ASCII is that of an altered fifth**, which starts
the text with a musical sign. -/
theorem prefix_or_starts {u : String} (hu : u ∈ Table.standard.symbols) {cs : List Char}
    (h : u.toList <+: ascii cs) :
    u.toList <+: cs ∨ ∃ f ∈ alteredFifths, f.symbol = u ∧ f.Starts cs := by
  rcases exists_alteredFifth u hu with hplain | ⟨f, hf, rfl⟩
  · exact .inl (prefix_of_ascii hplain h)
  · have hsound := AlteredFifth.sound_of_mem f hf
    rw [hsound.symbol] at h
    obtain ⟨cs', rfl⟩ := prefix_of_ascii hsound.signless ((List.prefix_append _ _).trans h)
    have hseventh := ascii_of_mem_symbols _ hsound.seventh_mem
    rw [ascii_append, hseventh, List.prefix_append_right_inj] at h
    obtain ⟨rest, hrest⟩ := h
    rcases cs' with _ | ⟨c, _ | ⟨d, cs'⟩⟩
    · cases hrest
    · cases (List.cons.inj hrest).2
    · obtain ⟨hc, hrest⟩ := List.cons.inj hrest
      obtain rfl : d = '5' := (asciiSign_eq_iff rfl).mp (List.cons.inj hrest).1.symm
      rcases eq_of_asciiSign_eq hsound.sign hc.symm with rfl | hc
      · exact .inr ⟨f, hf, rfl, cs', rfl⟩
      · exact .inl ⟨cs', by rw [hsound.symbol, hc]; simp⟩

namespace Table

variable {cs : List Char} {symbol : String} {q : Quality}

theorem Longest.ascii (h : standard.Longest cs symbol q)
    (hnone : ∀ f ∈ alteredFifths, ¬ f.Starts cs) :
    standard.Longest (LeadSheet.ascii cs) symbol q := by
  refine ⟨h.found, prefix_ascii (mem_symbols_of_find? h.found) h.start, fun u hu hstart => ?_⟩
  rcases prefix_or_starts hu hstart with hstart | ⟨f, hf, -, hstarts⟩
  · exact h.longest u hu hstart
  · exact absurd hstarts (hnone f hf)

theorem Longest.eq_seventh (h : standard.Longest cs symbol q) {f : AlteredFifth}
    (hf : f ∈ alteredFifths) (hstarts : f.Starts cs) : symbol = f.seventh := by
  have hsound := AlteredFifth.sound_of_mem f hf
  obtain ⟨rest, hcs⟩ := hstarts
  have hseventh : f.seventh.toList <+: cs := hcs ▸ List.prefix_append _ _
  obtain ⟨more, hmore⟩ := List.prefix_of_prefix_length_le hseventh h.start
    (h.longest f.seventh hsound.seventh_mem hseventh)
  -- whatever were behind the seventh would start with the sign, which no symbol has
  cases more with
  | nil => exact String.toList_injective (by rw [← hmore, List.append_nil])
  | cons c more =>
    obtain ⟨after, hafter⟩ := h.start
    rw [← hmore, hcs, List.append_assoc] at hafter
    obtain rfl : c = f.sign := (List.cons.inj (List.append_cancel_left hafter)).1
    have hplain := ascii_of_mem_symbols symbol (mem_symbols_of_find? h.found)
    rw [← hmore, ascii_append] at hplain
    have hsign := (List.cons.inj (List.append_inj hplain (length_ascii _)).2).1
    rcases hsound.sign with hs | hs <;> rw [hs] at hsign <;> exact absurd hsign (by decide)

theorem Longest.alteredFifth (h : standard.Longest cs symbol q) {f : AlteredFifth}
    (hf : f ∈ alteredFifths) (hstarts : f.Starts cs) :
    ∃ q', standard.Longest (LeadSheet.ascii cs) f.symbol q' := by
  have hsound := AlteredFifth.sound_of_mem f hf
  have hseventh := h.eq_seventh hf hstarts
  obtain ⟨rest, rfl⟩ := hstarts
  obtain ⟨r, hr, hsymbol⟩ := List.mem_flatMap.mp hsound.symbol_mem
  obtain ⟨q', hq'⟩ := Option.isSome_iff_exists.mp (find?_isSome hr hsymbol)
  have hstart : f.symbol.toList <+: LeadSheet.ascii (f.seventh.toList ++ f.sign :: '5' :: rest) := by
    refine ⟨LeadSheet.ascii rest, ?_⟩
    rw [ascii_append, ascii_of_mem_symbols _ hsound.seventh_mem, hsound.symbol, ascii_cons,
      ascii_cons, show asciiSign '5' = '5' from rfl]
    simp
  refine ⟨q', hq', hstart, fun u hu hustart => ?_⟩
  rcases prefix_or_starts hu hustart with hu' | ⟨g, hg, rfl, -⟩
  · have hle := h.longest u hu hu'
    have hlength : f.seventh.length ≤ f.symbol.length := by
      rw [← String.length_toList, ← String.length_toList, hsound.symbol, List.length_append]
      omega
    rw [hseventh] at hle
    omega
  · exact AlteredFifth.length_le_of_prefix f hf g hg _ hstart hustart

end Table

/-- The quality that a symbol stands for after a numeral in small letters or another
root. -/
def Table.meant (t : Table) (small : Bool) (q : Quality) : Quality :=
  if small then t.minorVariant q else q

/-- What an altered fifth in ASCII and a seventh with an altered fifth make of each
other: the same tones, or after a numeral in small letters two chords with another
third. -/
theorem tones_alteredFifths : ∀ f ∈ alteredFifths, ∀ small : Bool,
    ∀ q ∈ Table.standard.find? f.seventh, ∀ q' ∈ Table.standard.find? f.symbol,
      if small = true ∧ f.seventh = "7" then ∃ fifth ∈ ([6, 8] : List Int),
        Extension.apply (toneSet (Table.standard.meant small q).intervals) f.extension
            = [0, 3, fifth, 10]
          ∧ toneSet (Table.standard.meant small q').intervals = [0, 4, fifth, 10]
      else Extension.apply (toneSet (Table.standard.meant small q).intervals) f.extension
        = toneSet (Table.standard.meant small q').intervals := by
  have hall : ∀ f ∈ alteredFifths, ∀ small : Bool, ((Table.standard.find? f.seventh).all fun q =>
      (Table.standard.find? f.symbol).all fun q' => decide
        (if small = true ∧ f.seventh = "7" then ∃ fifth ∈ ([6, 8] : List Int),
          Extension.apply (toneSet (Table.standard.meant small q).intervals) f.extension
              = [0, 3, fifth, 10]
            ∧ toneSet (Table.standard.meant small q').intervals = [0, 4, fifth, 10]
        else Extension.apply (toneSet (Table.standard.meant small q).intervals) f.extension
          = toneSet (Table.standard.meant small q').intervals)) = true := by
    decide +kernel
  intro f hf small q hq q' hq'
  have h := hall f hf small
  rw [Option.mem_def.mp hq, Option.all_some, Option.mem_def.mp hq', Option.all_some] at h
  exact of_decide_eq_true h

/-- **An altered fifth makes the same tones in ASCII**, unless it stands behind a small
numeral with a seventh and nothing hides the third. -/
theorem foldl_alteredFifth_iff {f : AlteredFifth} (hf : f ∈ alteredFifths) {small : Bool}
    {q q' : Quality} (hq : q ∈ Table.standard.find? f.seventh)
    (hq' : q' ∈ Table.standard.find? f.symbol) (es : List Extension) :
    (∀ n, n ∈ (f.extension :: es).foldl Extension.apply
          (toneSet (Table.standard.meant small q).intervals)
        ↔ n ∈ es.foldl Extension.apply (toneSet (Table.standard.meant small q').intervals))
      ↔ (small = true ∧ f.seventh = "7" → HideThird es) := by
  have htones := tones_alteredFifths f hf small q hq q' hq'
  rw [List.foldl_cons]
  by_cases hsmall : small = true ∧ f.seventh = "7"
  · rw [if_pos hsmall] at htones
    obtain ⟨fifth, hfifth, hminor, hmajor⟩ := htones
    have hdiffer : DifferInThird [0, 3, fifth, 10] [0, 4, fifth, 10] := by
      refine ⟨by simp, by simp, fun n h₃ h₄ => ?_⟩
      simp [h₃, h₄]
    have hfifth' : fifth = 6 ∨ fifth = 8 := by simpa using hfifth
    have h₃ : (3 : Int) ∉ [0, 4, fifth, 10] := by simp; omega
    have h₄ : (4 : Int) ∉ [0, 3, fifth, 10] := by simp; omega
    rw [hminor, hmajor, hdiffer.foldl_apply_iff es, or_iff_right h₃, or_iff_right h₄]
    exact ⟨fun h _ => h, fun h => h hsmall⟩
  · rw [if_neg hsmall] at htones
    rw [htones]
    exact iff_of_true (fun _ => Iff.rfl) fun h => absurd h hsmall

/-! ### Heads -/

theorem exists_of_readBare_sign {f : AlteredFifth} (hf : f.Sound) {s : Source}
    {tail cs : List Char} {es : List Extension}
    (h : readBare s tail (f.sign :: '5' :: cs) = .ok (es, [])) :
    ∃ es', es = f.extension :: es' ∧ readBare s tail cs = .ok (es', []) := by
  have htake : Item.takeBare (f.sign :: '5' :: cs) = some (⟨none, f.accidental, ['5']⟩, cs) :=
    Item.takeBare_signed hf.accidental (n := "5") (by decide) cs
  have hsaid : Item.Says ⟨none, f.accidental, ['5']⟩ f.extension :=
    ⟨rfl, nofun, rfl⟩
  rw [readBare_of_takeBare htake] at h
  obtain ⟨e, he, h⟩ := exists_of_bind_eq_ok h
  obtain ⟨⟨es', left⟩, hrest, h⟩ := exists_of_bind_eq_ok h
  cases h
  have hlength : ['5'].length ≤ maxDigits := by decide
  obtain rfl := Except.ok.inj (he.symm.trans (Item.toExtension_eq_ok_iff.mpr ⟨hlength, hsaid⟩))
  exact ⟨es', rfl, hrest⟩

theorem endsHead_ascii {cs : List Char} (h : ∀ c ∈ cs, endsHead c = false) :
    ∀ c ∈ ascii cs, endsHead c = false :=
  List.forall_mem_map.mpr fun c hc => (endsHead_asciiSign c).trans (h c hc)

theorem endsHead_head?_ascii {cs : List Char} (h : ∀ c ∈ cs.head?, endsHead c = true) :
    ∀ c ∈ (ascii cs).head?, endsHead c = true := by
  cases cs with
  | nil => nofun
  | cons c cs =>
    intro d hd
    obtain rfl := Option.some.inj hd
    exact (endsHead_asciiSign c).trans (h c rfl)

/-- **A head that is read is read in ASCII**, as the same one unless an altered fifth
starts it. -/
theorem readQuality_ascii {s : Source} (s' : Source) {small : Bool} {cs tail : List Char} {q : Quality}
    {es : List Extension} (h : readQuality Table.standard s small cs = .ok ((q, es), tail)) :
    ((∀ f ∈ alteredFifths, ¬ f.Starts cs)
        ∧ readQuality Table.standard s' small (ascii cs) = .ok ((q, es), ascii tail))
      ∨ ∃ f ∈ alteredFifths, f.Starts cs ∧ ∃ q₀ ∈ Table.standard.find? f.seventh,
        ∃ q' ∈ Table.standard.find? f.symbol, ∃ es', q = Table.standard.meant small q₀
          ∧ es = f.extension :: es' ∧ readQuality Table.standard s' small (ascii cs)
            = .ok ((Table.standard.meant small q', es'), ascii tail) := by
  obtain ⟨symbol, q₀, mid, hlongest, hcs, hhead, hstop, hbare, hq⟩ := readQuality_eq_ok_iff.mp h
  have hsymbol := ascii_of_mem_symbols symbol (Table.mem_symbols_of_find? hlongest.found)
  by_cases hstarts : ∃ f ∈ alteredFifths, f.Starts cs
  · obtain ⟨f, hf, hstarts⟩ := hstarts
    have hsound := AlteredFifth.sound_of_mem f hf
    have hsign : endsHead f.sign = false := by
      rcases hsound.sign with hs | hs <;> rw [hs] <;> decide
    obtain rfl := hlongest.eq_seventh hf hstarts
    obtain ⟨q', hlongest'⟩ := hlongest.alteredFifth hf hstarts
    obtain ⟨rest, hrest⟩ := hstarts
    -- the sign and the five belong to the head, as neither ends one
    have hmid : mid ++ tail = f.sign :: '5' :: rest := by
      rw [hcs, List.append_assoc] at hrest
      exact List.append_cancel_left hrest
    rcases mid with _ | ⟨c, _ | ⟨d, mid⟩⟩
    · have htail := hstop f.sign (by rw [show tail = _ from hmid]; rfl)
      rw [hsign] at htail
      cases htail
    · have htail := hstop '5' (by rw [show tail = _ from (List.cons.inj hmid).2]; rfl)
      cases htail
    · obtain ⟨rfl, hfive⟩ := List.cons.inj hmid
      obtain ⟨rfl, -⟩ := List.cons.inj hfive
      obtain ⟨es', rfl, hbare'⟩ := exists_of_readBare_sign hsound hbare
      have hnew : ascii (f.seventh.toList ++ f.sign :: '5' :: mid)
          = f.symbol.toList ++ ascii mid := by
        rw [ascii_append, hsymbol, hsound.symbol, ascii_cons, ascii_cons,
          show asciiSign '5' = '5' from rfl]
        simp
      refine .inr ⟨f, hf, ⟨rest, hrest⟩, q₀, hlongest.found, q', hlongest'.found, es', hq, rfl,
        readQuality_eq_ok_iff.mpr ⟨f.symbol, q', ascii mid, hlongest', ?_, ?_,
          endsHead_head?_ascii hstop, readBare_ascii hbare', rfl⟩⟩
      · rw [hcs, ascii_append, hnew]
      · rw [← hnew]
        exact endsHead_ascii hhead
  · have hnone : ∀ f ∈ alteredFifths, ¬ f.Starts cs := fun f hf h => hstarts ⟨f, hf, h⟩
    have hnew : ascii (symbol.toList ++ mid) = symbol.toList ++ ascii mid := by
      rw [ascii_append, hsymbol]
    refine .inl ⟨hnone, readQuality_eq_ok_iff.mpr ⟨symbol, q₀, ascii mid, hlongest.ascii hnone, ?_,
      ?_, endsHead_head?_ascii hstop, readBare_ascii hbare, hq⟩⟩
    · rw [hcs, ascii_append, hnew]
    · rw [← hnew]
      exact endsHead_ascii hhead

/-! ### Chords -/

/-- A chord symbol in which a numeral in small letters has a seventh behind it, and the
seventh a fifth with a musical sign. -/
def SmallSeventh (text : List Char) : Prop :=
  ∃ root sign rest, Root.take text = some ((root, true), '7' :: sign :: '5' :: rest)
    ∧ (sign = '♯' ∨ sign = '♭')

theorem smallSeventh_iff {f : AlteredFifth} (hf : f ∈ alteredFifths) {text cs rest : List Char}
    {root : Root} {small : Bool} (htake : Root.take text = some ((root, small), cs))
    (hcs : cs = f.seventh.toList ++ f.sign :: '5' :: rest) :
    SmallSeventh text ↔ small = true ∧ f.seventh = "7" := by
  have hplain : ∀ f ∈ alteredFifths, f.seventh ≠ "7" → f.seventh.toList.head? = some 'm' := by
    decide
  constructor
  · rintro ⟨root', sign, rest', htake', -⟩
    obtain ⟨hroot, hrest⟩ := Prod.mk.inj (Option.some.inj (htake.symm.trans htake'))
    refine ⟨(Prod.mk.inj hroot).2, ?_⟩
    by_contra hne
    have hhead := congrArg List.head? (hcs.symm.trans hrest)
    rw [List.head?_append, hplain f hf hne] at hhead
    cases hhead
  · rintro ⟨rfl, hseventh⟩
    refine ⟨root, f.sign, rest, ?_, (AlteredFifth.sound_of_mem f hf).sign⟩
    rw [htake, hcs, hseventh]
    rfl

namespace Chord

/-- **Accidentals in ASCII.**  A chord that is read with musical signs is read in ASCII,
with the same root and bass.  It has the same tones too, unless it is a seventh with an
altered fifth on a numeral in small letters and its other extensions do not hide the
third. -/
theorem read_ascii {text : List Char} {c : Chord}
    (h : Chord.read Table.standard { text := text } = .ok c) :
    ∃ c', Chord.read Table.standard { text := ascii text } = .ok c' ∧ c'.root = c.root
      ∧ c'.bass = c.bass
      ∧ (c'.intervals = c.intervals ↔ (SmallSeventh text → HideThird c'.extensions)) := by
  obtain ⟨root, small, q, bare, groups, bass, cs, ds, es, hroot, hquality, hgroups, hbass, rfl⟩ :=
    exists_parts_of_read h
  have htake : Root.take text = some ((root, small), cs) := readRoot_eq_ok_iff.mp hroot
  have hroot' := readRoot_ascii { text := ascii text } .chord hroot
  have hgroups' := readGroups_ascii { text := ascii text } hgroups
  have hbass' := readBass_ascii { text := ascii text } hbass
  rcases readQuality_ascii { text := ascii text } hquality with
    ⟨hnone, hquality'⟩ | ⟨f, hf, ⟨rest, hstarts⟩, q₀, hq₀, q', hq', more, rfl, rfl, hquality'⟩
  · refine ⟨_, read_of_parts hroot' hquality' hgroups' hbass', rfl, rfl, iff_of_true rfl ?_⟩
    rintro ⟨root', sign, rest, htake', hsign⟩
    have hcs := congrArg Prod.snd (Option.some.inj (htake.symm.trans htake'))
    rcases hsign with rfl | rfl
    · exact absurd ⟨rest, hcs⟩ (hnone ⟨"7", '♯', .sharp, "7#5"⟩ (by decide))
    · exact absurd ⟨rest, hcs⟩ (hnone ⟨"7", '♭', .flat, "7b5"⟩ (by decide))
  · refine ⟨_, read_of_parts hroot' hquality' hgroups' hbass', rfl, rfl, ?_⟩
    rw [smallSeventh_iff hf htake hstarts, intervals_eq_iff]
    exact foldl_alteredFifth_iff hf hq₀ hq' (more ++ groups)

/-- A half-diminished seventh becomes a dominant one with a flat fifth. -/
theorem read_ascii_two_seven : ∃ c c',
    Chord.read Table.standard { text := "ii7♭5(9)/V".toList } = .ok c
      ∧ Chord.read Table.standard { text := "ii7b5(9)/V".toList } = .ok c'
      ∧ c.intervals = [0, 3, 6, 10, 14] ∧ c'.intervals = [0, 4, 6, 10, 14]
      ∧ c'.root = c.root ∧ c'.bass = c.bass ∧ ¬ (SmallSeventh "ii7♭5(9)/V".toList →
        HideThird c'.extensions) := by
  have hfound : (Chord.read Table.standard { text := "ii7♭5(9)/V".toList }).toOption.map intervals
      = some [0, 3, 6, 10, 14] := by
    decide +kernel
  have hfound' : (Chord.read Table.standard { text := "ii7b5(9)/V".toList }).toOption.map intervals
      = some [0, 4, 6, 10, 14] := by
    decide +kernel
  obtain ⟨c, hread, hc⟩ := Option.map_eq_some_iff.mp hfound
  obtain ⟨d, hread', hd⟩ := Option.map_eq_some_iff.mp hfound'
  have hread := eq_ok_of_toOption hread
  have hread' := eq_ok_of_toOption hread'
  obtain ⟨c', hc', hroot, hbass, htones⟩ := read_ascii hread
  obtain rfl := Except.ok.inj (hread'.symm.trans hc')
  refine ⟨c, d, hread, hread', hc, hd, hroot, hbass, fun h => ?_⟩
  have hsame := htones.mpr h
  rw [hc, hd] at hsame
  exact absurd hsame (by decide)

end Chord

end LeadSheet
