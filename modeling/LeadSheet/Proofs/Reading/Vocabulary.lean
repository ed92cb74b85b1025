import LeadSheet.Proofs.Quality.Registered
import LeadSheet.Proofs.Reading.Symbol

/-!
# Chords in a larger vocabulary

A quality that is registered has an effect on the chord symbols in which one of
its symbols stands, and on no others (`Chord.read_register_of_absent`): where
none of them starts a text, the longest symbol there is the old one.

Behind `C#` every symbol of the quality is the longest one.  It is read as the
quality unless it holds a character that ends the head of a chord; then the
symbol reaches over that end and is not understood: `Chord.read_registered`.
-/

namespace LeadSheet

open Text

/-! ### Symbols that do not stand in a text -/

theorem longestSymbol_append_of_absent {cs : List Char} {us : List String}
    (h : ∀ u ∈ us, ¬u.toList <+: cs) (ss : List String) :
    longestSymbol cs (ss ++ us) = longestSymbol cs ss := by
  induction ss with
  | nil =>
    rcases longestSymbol_mem cs us with hempty | hmem
    · exact hempty
    · exact absurd (prefix_longestSymbol cs us) (h _ hmem)
  | cons s ss ih => rw [List.cons_append, longestSymbol, longestSymbol, ih]

namespace Table

variable {t t' : Table} {q : Quality}

/-- **Where no new symbol starts, the old one is read.** -/
theorem take?_register_of_absent (h : t.register q = .ok t') {cs : List Char}
    (habsent : ∀ u ∈ q.symbols, ¬u.toList <+: cs) : t'.take? cs = t.take? cs := by
  have hsymbols : t'.symbols = t.symbols ++ q.symbols := by
    unfold symbols
    rw [(register_eq_ok h).1, List.flatMap_append, List.flatMap_singleton]
  have hlongest : longestSymbol cs t'.symbols = longestSymbol cs t.symbols := by
    rw [hsymbols, longestSymbol_append_of_absent habsent]
  have hold : longestSymbol cs t.symbols ∉ q.symbols := fun hmem =>
    habsent _ hmem (prefix_longestSymbol cs t.symbols)
  have hfind : t'.find? (longestSymbol cs t.symbols) = t.find? (longestSymbol cs t.symbols) :=
    (find?_registerAs (show t.registerAs q none = .ok t' from h) _).trans (if_neg hold)
  unfold take?
  dsimp only
  rw [hlongest, hfind]

theorem named?_register (h : t.register q = .ok t') {name : String} (hname : name ≠ q.name) :
    t'.named? name = t.named? name := by
  unfold named?
  rw [(register_eq_ok h).1, List.reverse_append, List.reverse_singleton, List.singleton_append,
    List.find?_cons, beq_false_of_ne hname.symm]

theorem minorVariant_register (h : t.register q = .ok t')
    (hvariant : ∀ name, t.minorVariants.lookup name ≠ some q.name) (r : Quality) :
    t'.minorVariant r = t.minorVariant r := by
  unfold minorVariant
  rw [(register_eq_ok h).2]
  cases hl : t.minorVariants.lookup r.name with
  | none => rfl
  | some name =>
    have hname : name ≠ q.name := fun heq => hvariant r.name (heq ▸ hl)
    rw [Option.bind_some, Option.bind_some, named?_register h hname]

end Table

theorem readQuality_congr {t t' : Table} {cs : List Char} (htake : t'.take? cs = t.take? cs)
    (hvariant : ∀ r, t'.minorVariant r = t.minorVariant r) (s : Source) (small : Bool) :
    readQuality t' s small cs = readQuality t s small cs := by
  unfold readQuality
  simp only [htake, hvariant]

/-- **A quality changes nothing about chord symbols in which none of its symbols
stands**, as long as it does not take the place of a minor variant. -/
theorem Chord.read_register_of_absent {t t' : Table} {q : Quality} (h : t.register q = .ok t')
    (hvariant : ∀ name, t.minorVariants.lookup name ≠ some q.name) {s : Source}
    (habsent : ∀ symbol ∈ q.symbols, ¬symbol.toList <:+: s.text) :
    Chord.read t' s = Chord.read t s := by
  unfold Chord.read
  cases hroot : readRoot s .chord s.text with
  | error fault => rfl
  | ok r =>
    obtain ⟨⟨root, small⟩, cs⟩ := r
    obtain ⟨xs, -, htext⟩ := Root.take_eq_some_iff.mp (readRoot_eq_ok_iff.mp hroot)
    have hrest : ∀ symbol ∈ q.symbols, ¬symbol.toList <+: cs := fun symbol hmem hstart =>
      habsent symbol hmem (htext ▸ hstart.isInfix.trans (List.suffix_append xs cs).isInfix)
    simp only [ok_bind]
    rw [readQuality_congr (Table.take?_register_of_absent h hrest)
      (Table.minorVariant_register h hvariant) s small]

/-- A quartal chord in the vocabulary leaves a ninth chord as it is. -/
theorem Chord.read_register_of_absent_quartal :
    ∃ t : Table, Table.standard.register
          { name := "quartal", symbol := "q4", intervals := [0, 5, 10], aliases := ["7q"] } = .ok t
      ∧ (∀ name, Table.standard.minorVariants.lookup name ≠ some "quartal")
      ∧ (∀ symbol ∈ ["q4", "7q"], ¬symbol.toList <:+: "vi7(b9)/C".toList)
      ∧ Chord.read t ⟨"vi7(b9)/C".toList, 1, 1⟩
        = Chord.read Table.standard ⟨"vi7(b9)/C".toList, 1, 1⟩ := by
  have hrun : (Table.standard.register
      { name := "quartal", symbol := "q4", intervals := [0, 5, 10],
        aliases := ["7q"] }).toOption.isSome = true := by
    decide +kernel
  obtain ⟨t, ht⟩ := Option.isSome_iff_exists.mp hrun
  have ht := eq_ok_of_toOption ht
  have hvariant : ∀ name, Table.standard.minorVariants.lookup name ≠ some "quartal" := by
    intro name hname
    obtain ⟨xs, ys, hsplit, -⟩ := List.lookup_eq_some_iff.mp hname
    have htargets : ∀ p ∈ Table.standard.minorVariants, p.2 ≠ "quartal" := by decide
    exact htargets (name, "quartal") (hsplit ▸ List.mem_append_right xs (List.mem_cons_self ..)) rfl
  have habsent : ∀ symbol ∈ ["q4", "7q"], ¬symbol.toList <:+: "vi7(b9)/C".toList := by decide
  exact ⟨t, ht, hvariant, habsent, read_register_of_absent ht hvariant habsent⟩

/-! ### Symbols behind a root -/

theorem Table.longest_registered {t t' : Table} {q : Quality} {variantOf : Option String}
    (h : t.registerAs q variantOf = .ok t') {symbol : String} (hsymbol : symbol ∈ q.symbols) :
    t'.Longest symbol.toList symbol q :=
  ⟨by rw [find?_registerAs h, if_pos hsymbol], List.prefix_rfl, fun _ _ hu => hu.length_le⟩

section

variable {t t' : Table} {q : Quality} {variantOf : Option String} {symbol : String}

theorem readRoot_cSharp (cs : List Char) (line column : Int) :
    readRoot ⟨'C' :: '#' :: cs, line, column⟩ .chord ('C' :: '#' :: cs)
      = .ok ((.pitch (.spelled 'C' 0 .sharp), false), cs) :=
  readRoot_eq_ok_iff.mpr rfl

theorem readQuality_registered (h : t.registerAs q variantOf = .ok t')
    (hsymbol : symbol ∈ q.symbols) (hhead : ∀ c ∈ symbol.toList, endsHead c = false) (s : Source) :
    readQuality t' s false symbol.toList = .ok ((q, []), []) := by
  have hbare : readBare s [] [] = .ok ([], []) := by
    rw [readBare]
    rfl
  refine readQuality_eq_ok_iff.mpr ⟨symbol, q, [], Table.longest_registered h hsymbol, ?_, ?_, ?_,
    hbare, rfl⟩
  · rw [List.append_nil, List.append_nil]
  · rw [List.append_nil]
    exact hhead
  · intro c hc
    cases hc

theorem readQuality_registered_of_endsHead (h : t.registerAs q variantOf = .ok t')
    (hsymbol : symbol ∈ q.symbols) {c : Char} (hc : c ∈ symbol.toList) (hends : endsHead c = true)
    (s : Source) : readQuality t' s false symbol.toList
      = .error (s.fault (s.start symbol.toList)
          (.unknownQuality (String.ofList (symbol.toList.takeWhile fun c => !endsHead c)))
          (symbol.toList.takeWhile fun c => !endsHead c)) := by
  have htake : t'.take? symbol.toList = some (q, []) :=
    Table.take?_eq_some_iff.mpr
      ⟨symbol, Table.longest_registered h hsymbol, (List.append_nil _).symm⟩
  have htail : (symbol.toList.dropWhile fun c => !endsHead c) ≠ [] := fun hnil => by
    have hall := List.dropWhile_eq_nil_iff.mp hnil c hc
    rw [hends] at hall
    cases hall
  unfold readQuality
  simp only [htake, List.length_nil, if_pos (List.length_pos_iff.mpr htail)]

theorem Chord.read_registered_of_endsHead (h : t.registerAs q variantOf = .ok t')
    (hsymbol : symbol ∈ q.symbols) {c : Char} (hc : c ∈ symbol.toList) (hends : endsHead c = true)
    (line column : Int) : Chord.read t' ⟨'C' :: '#' :: symbol.toList, line, column⟩
      = .error (.misreading
          ⟨.unknownQuality (String.ofList (symbol.toList.takeWhile fun c => !endsHead c)),
            line, column + 2, String.ofList (symbol.toList.takeWhile fun c => !endsHead c)⟩) := by
  have hroot := readRoot_cSharp symbol.toList line column
  have hstart : Source.start ⟨'C' :: '#' :: symbol.toList, line, column⟩ symbol.toList = 2 := by
    simp only [Source.start, List.length_cons]
    omega
  unfold Chord.read
  simp only [hroot, ok_bind]
  rw [readQuality_registered_of_endsHead h hsymbol hc hends, hstart]
  rfl

/-- **A quality that is registered is read behind `C#`** just when its symbol
holds no character that ends the head of a chord.  Otherwise what stands before
that is said to be an unknown quality. -/
theorem Chord.read_registered (h : t.registerAs q variantOf = .ok t')
    (hsymbol : symbol ∈ q.symbols) (line column : Int) :
    (Chord.read t' ⟨'C' :: '#' :: symbol.toList, line, column⟩
        = .ok ⟨.pitch (.spelled 'C' 0 .sharp), q, [], none⟩
      ↔ ∀ c ∈ symbol.toList, endsHead c = false)
      ∧ ((∃ c ∈ symbol.toList, endsHead c = true) →
        Chord.read t' ⟨'C' :: '#' :: symbol.toList, line, column⟩
          = .error (.misreading
              ⟨.unknownQuality (String.ofList (symbol.toList.takeWhile fun c => !endsHead c)),
                line, column + 2,
                String.ofList (symbol.toList.takeWhile fun c => !endsHead c)⟩)) := by
  refine ⟨⟨fun hread c hc => ?_, fun hhead => ?_⟩, fun ⟨c, hc, hends⟩ =>
    read_registered_of_endsHead h hsymbol hc hends line column⟩
  · refine Bool.eq_false_iff.mpr fun hends => ?_
    rw [read_registered_of_endsHead h hsymbol hc hends] at hread
    cases hread
  · exact read_of_parts (readRoot_cSharp symbol.toList line column)
      (readQuality_registered h hsymbol hhead _) (by rw [readGroups]) rfl

/-- Of the two symbols `69` and `6/9` of a quality only the first is read. -/
theorem Chord.read_registered_six_nine :
    ∃ t : Table, Table.standard.registerAs
          { name := "six-nine", symbol := "69", intervals := [0, 4, 7, 9, 14],
            aliases := ["6/9"] } none = .ok t
      ∧ Chord.read t ⟨"C#69".toList, 1, 1⟩
        = .ok ⟨.pitch (.spelled 'C' 0 .sharp),
            { name := "six-nine", symbol := "69", intervals := [0, 4, 7, 9, 14],
              aliases := ["6/9"] }, [], none⟩
      ∧ Chord.read t ⟨"C#6/9".toList, 1, 1⟩
        = .error (.misreading ⟨.unknownQuality "6", 1, 3, "6"⟩) := by
  have hrun : (Table.standard.registerAs
      { name := "six-nine", symbol := "69", intervals := [0, 4, 7, 9, 14],
        aliases := ["6/9"] } none).toOption.isSome = true := by
    decide +kernel
  obtain ⟨t, ht⟩ := Option.isSome_iff_exists.mp hrun
  have ht := eq_ok_of_toOption ht
  have hhead : ∀ c ∈ "69".toList, endsHead c = false := by simp [endsHead]
  have hplain := (@read_registered _ _ _ _ "69" ht (by decide) 1 1).1.mpr hhead
  have hslash := (@read_registered _ _ _ _ "6/9" ht (by decide) 1 1).2 ⟨'/', by simp, rfl⟩
  exact ⟨t, ht, hplain, hslash⟩

end

end LeadSheet
