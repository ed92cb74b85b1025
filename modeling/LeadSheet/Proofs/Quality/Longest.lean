import LeadSheet.Quality.Table
import Mathlib.Data.List.Infix

/-!
# The longest symbol

What a table reads at the start of a text is its longest symbol there, and the
quality of that (`Table.take?_eq_some_iff`); `Table.takeAt?_eq_some_iff` says so
of any place in a text.  There is a longest one as soon as there is any
(`Table.exists_longest_iff`).
-/

namespace LeadSheet

theorem longestSymbol_mem (cs : List Char) (ss : List String) :
    longestSymbol cs ss = "" ∨ longestSymbol cs ss ∈ ss := by
  induction ss with
  | nil => exact .inl rfl
  | cons s ss ih =>
    simp only [longestSymbol]
    split
    · exact .inr (List.mem_cons_self ..)
    · exact ih.imp_right (List.mem_cons_of_mem s)

theorem prefix_longestSymbol (cs : List Char) (ss : List String) :
    (longestSymbol cs ss).toList <+: cs :=
  List.isPrefixOf_iff_prefix.mp (isPrefixOf_longestSymbol cs ss)

theorem length_le_of_prefix_of_mem {cs : List Char} {s : String} {ss : List String} (hs : s ∈ ss)
    (hstart : s.toList <+: cs) : s.length ≤ (longestSymbol cs ss).length :=
  length_le_longestSymbol hs (List.isPrefixOf_iff_prefix.mpr hstart)

/-- The longest symbol of a table that a text starts with, and its quality. -/
structure Table.Longest (t : Table) (cs : List Char) (symbol : String) (q : Quality) : Prop where
  found : t.find? symbol = some q
  start : symbol.toList <+: cs
  longest : ∀ u ∈ t.symbols, u.toList <+: cs → u.length ≤ symbol.length

namespace Table

variable {t : Table}

theorem mem_symbols_of_find? {symbol : String} {q : Quality} (h : t.find? symbol = some q) :
    symbol ∈ t.symbols :=
  List.mem_flatMap.mpr ⟨q, find?_mem h, find?_symbols h⟩

theorem Longest.eq_longestSymbol {cs : List Char} {symbol : String} {q : Quality}
    (h : t.Longest cs symbol q) : symbol = longestSymbol cs t.symbols := by
  have hstart := prefix_longestSymbol cs t.symbols
  have hle : symbol.length ≤ (longestSymbol cs t.symbols).length :=
    length_le_of_prefix_of_mem (mem_symbols_of_find? h.found) h.start
  have hge : (longestSymbol cs t.symbols).length ≤ symbol.length := by
    rcases longestSymbol_mem cs t.symbols with hempty | hmem
    · rw [hempty]
      exact Nat.zero_le _
    · exact h.longest _ hmem hstart
  refine String.toList_injective ?_
  have hlength : symbol.toList.length = (longestSymbol cs t.symbols).toList.length :=
    Nat.le_antisymm hle hge
  exact (List.prefix_of_prefix_length_le h.start hstart hlength.le).eq_of_length hlength

/-- **The longest symbol a text starts with is taken off it.** -/
theorem take?_eq_some_iff {cs rest : List Char} {q : Quality} :
    t.take? cs = some (q, rest) ↔ ∃ symbol, t.Longest cs symbol q ∧ cs = symbol.toList ++ rest := by
  have hstart := prefix_longestSymbol cs t.symbols
  unfold take?
  constructor
  · intro h
    obtain ⟨q', hfound, heq⟩ := Option.map_eq_some_iff.mp h
    obtain ⟨rfl, rfl⟩ := Prod.mk.inj heq
    exact ⟨_, ⟨hfound, hstart, fun u hu hp => length_le_of_prefix_of_mem hu hp⟩,
      List.prefix_append_drop hstart⟩
  · rintro ⟨symbol, hlongest, hcs⟩
    obtain rfl := hlongest.eq_longestSymbol
    have hrest : cs.drop (longestSymbol cs t.symbols).length = rest :=
      List.append_cancel_left ((List.prefix_append_drop hstart).symm.trans hcs)
    simp only [hlongest.found, Option.map_some, hrest]

theorem exists_longest_iff {cs : List Char} :
    (∃ symbol q, t.Longest cs symbol q) ↔ ∃ symbol ∈ t.symbols, symbol.toList <+: cs := by
  constructor
  · rintro ⟨symbol, q, h⟩
    exact ⟨symbol, mem_symbols_of_find? h.found, h.start⟩
  · rintro ⟨u, hu, hstart⟩
    have hle := length_le_of_prefix_of_mem hu hstart
    have hmem : longestSymbol cs t.symbols ∈ t.symbols := by
      rcases longestSymbol_mem cs t.symbols with hempty | hmem
      · rw [hempty] at hle ⊢
        obtain rfl : u = "" := String.length_eq_zero_iff.mp (Nat.le_zero.mp hle)
        exact hu
      · exact hmem
    obtain ⟨r, hr, hsymbol⟩ := List.mem_flatMap.mp hmem
    obtain ⟨q, hq⟩ := Option.isSome_iff_exists.mp (find?_isSome hr hsymbol)
    exact ⟨_, q, hq, prefix_longestSymbol cs t.symbols,
      fun v hv hp => length_le_of_prefix_of_mem hv hp⟩

theorem takeAt?_eq_some_iff {cs : List Char} {start : Nat} {q : Quality} {finish : Int} :
    t.takeAt? cs start = some (q, finish)
      ↔ ∃ symbol, t.Longest (cs.drop start) symbol q ∧ finish = start + symbol.length := by
  have hplace : (if (start : Int) < 0 then (start : Int) + cs.length else start).toNat = start := by
    omega
  unfold takeAt?
  dsimp only
  rw [hplace]
  constructor
  · intro h
    obtain ⟨⟨q', rest⟩, htake, heq⟩ := Option.map_eq_some_iff.mp h
    obtain ⟨rfl, rfl⟩ := Prod.mk.inj heq
    obtain ⟨symbol, hlongest, hcs⟩ := take?_eq_some_iff.mp htake
    refine ⟨symbol, hlongest, ?_⟩
    rw [hcs, List.length_append, Nat.add_sub_cancel, String.length_toList]
  · rintro ⟨symbol, hlongest, rfl⟩
    obtain ⟨rest, hcs⟩ := hlongest.start
    rw [take?_eq_some_iff.mpr ⟨symbol, hlongest, hcs.symm⟩, Option.map_some, ← hcs,
      List.length_append, Nat.add_sub_cancel, String.length_toList]

end Table

end LeadSheet
