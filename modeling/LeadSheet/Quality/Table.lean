import LeadSheet.Text.Quoted

/-!
# Chord qualities and their tables

A quality is a set of intervals above a root with the names it goes by: a
stable name, the symbol it is written with and other symbols it is read from.
In degree notation the numeral already tells a minor third, so a quality may
have a shorter suffix there.

A table is the vocabulary that chord symbols are read with.  Two qualities of
different names never share a symbol; that is a field of the type, and
`Table.register` refuses a quality that would break it (`Conflict`).  A
quality of a name that is already there replaces the older one.

* `Table.find?` is the quality of a symbol; `find?_symbols` says that what it
  finds has that symbol.
* `Table.take?` reads the longest symbol that a text starts with;
  `isPrefixOf_longestSymbol` and `length_le_longestSymbol` say that it is one and that
  none is longer.  `Table.takeAt?` does so at a position of a text.
* `Table.minorVariant` is the quality meant when a symbol follows a numeral in
  small letters.
-/

namespace LeadSheet

/-! ### Qualities -/

/-- A named set of intervals above a chord root. -/
structure Quality where
  name : String
  symbol : String
  /-- Semitones above the root. -/
  intervals : List Int
  /-- Whether the third is minor, so that numerals are written small. -/
  minor : Bool := false
  /-- The suffix after a numeral, if it is not the symbol. -/
  degreeSymbol : Option String := none
  /-- Other spellings of the symbol. -/
  aliases : List String := []
deriving DecidableEq

namespace Quality

def degreeSuffix (q : Quality) : String :=
  q.degreeSymbol.getD q.symbol

def symbols (q : Quality) : List String :=
  q.symbol :: q.aliases

end Quality

/-! ### Tables -/

/-- A vocabulary of chord qualities. -/
structure Table where
  qualities : List Quality
  /-- For the names of qualities, the names of those meant after a numeral in
  small letters. -/
  minorVariants : List (String × String)
  /-- A symbol belongs to qualities of one name. -/
  consistent : ∀ q ∈ qualities, ∀ r ∈ qualities, ∀ s ∈ q.symbols, s ∈ r.symbols → q.name = r.name

/-- A symbol that two qualities of different names lay claim to. -/
structure Conflict where
  symbol : String
  holder : String
  claimant : String
deriving DecidableEq

def Conflict.message (c : Conflict) : String :=
  "symbol " ++ Text.quoted c.symbol ++ " is claimed by both " ++ c.holder ++ " and " ++ c.claimant

/-- The longest of some symbols that a text starts with. -/
def longestSymbol (cs : List Char) : List String → String
  | [] => ""
  | s :: ss =>
    let best := longestSymbol cs ss
    if best.length < s.length && s.toList.isPrefixOf cs then s else best

theorem isPrefixOf_longestSymbol (cs : List Char) (ss : List String) :
    (longestSymbol cs ss).toList.isPrefixOf cs = true := by
  induction ss with
  | nil => simp [longestSymbol]
  | cons s ss ih =>
    simp only [longestSymbol]
    split
    · rename_i h; exact (Bool.and_eq_true_iff.mp h).2
    · exact ih

theorem length_le_longestSymbol {cs : List Char} {s : String} {ss : List String} (hs : s ∈ ss)
    (hp : s.toList.isPrefixOf cs = true) : s.length ≤ (longestSymbol cs ss).length := by
  induction ss with
  | nil => simp at hs
  | cons t ss ih =>
    simp only [longestSymbol]
    rcases List.mem_cons.mp hs with rfl | hs
    · by_cases hl : (longestSymbol cs ss).length < s.length
      · simp [hl, hp]
      · simp only [hl, decide_false, Bool.false_and, Bool.false_eq_true, if_false]; omega
    · have := ih hs
      split
      · rename_i h
        have := of_decide_eq_true (Bool.and_eq_true_iff.mp h).1
        omega
      · exact this

namespace Table

def empty (minorVariants : List (String × String)) : Table :=
  ⟨[], minorVariants, by simp⟩

def find? (t : Table) (symbol : String) : Option Quality :=
  t.qualities.reverse.find? fun q => decide (symbol ∈ q.symbols)

def named? (t : Table) (name : String) : Option Quality :=
  t.qualities.reverse.find? fun q => q.name == name

theorem find?_symbols {t : Table} {s : String} {q : Quality} (h : t.find? s = some q) :
    s ∈ q.symbols := by
  simpa using List.find?_some h

theorem find?_mem {t : Table} {s : String} {q : Quality} (h : t.find? s = some q) :
    q ∈ t.qualities := by
  simpa using List.mem_of_find?_eq_some h

theorem find?_isSome {t : Table} {s : String} {q : Quality} (hq : q ∈ t.qualities)
    (hs : s ∈ q.symbols) : (t.find? s).isSome := by
  simp only [find?, List.find?_isSome, List.mem_reverse, decide_eq_true_eq]
  exact ⟨q, hq, hs⟩

/-- The first symbol of a quality that belongs to a quality of another
name. -/
def conflict? (t : Table) (q : Quality) : Option Conflict :=
  q.symbols.findSome? fun s =>
    match t.find? s with
    | some holder => if holder.name = q.name then none else some ⟨s, holder.name, q.name⟩
    | none => none

theorem name_eq_of_conflict?_eq_none {t : Table} {q r : Quality} (h : t.conflict? q = none)
    (hr : r ∈ t.qualities) {s : String} (hs : s ∈ q.symbols) (hsr : s ∈ r.symbols) :
    r.name = q.name := by
  have hs' := List.findSome?_eq_none_iff.mp h s hs
  obtain ⟨holder, hh⟩ := Option.isSome_iff_exists.mp (find?_isSome hr hsr)
  simp only [hh] at hs'
  by_cases hn : holder.name = q.name
  · rw [← hn]
    exact t.consistent r hr holder (find?_mem hh) s hsr (find?_symbols hh)
  · simp [hn] at hs'

def register (t : Table) (q : Quality) : Except Conflict Table :=
  match h : t.conflict? q with
  | some c => .error c
  | none => .ok
    { t with
      qualities := t.qualities ++ [q]
      consistent := by
        intro a ha b hb s hsa hsb
        rcases List.mem_append.mp ha with ha' | ha' <;> rcases List.mem_append.mp hb with hb' | hb'
        · exact t.consistent a ha' b hb' s hsa hsb
        · obtain rfl := List.mem_singleton.mp hb'
          exact name_eq_of_conflict?_eq_none h ha' hsb hsa
        · obtain rfl := List.mem_singleton.mp ha'
          exact (name_eq_of_conflict?_eq_none h hb' hsa hsb).symm
        · rw [List.mem_singleton.mp ha', List.mem_singleton.mp hb'] }

/-- The table in which a quality is also the one meant by the numeral in small
letters of another. -/
def withMinorVariant (t : Table) (name variant : String) : Table :=
  { t with minorVariants := (name, variant) :: t.minorVariants }

/-- The table that also knows a quality, as the minor variant of another if one
is named. -/
def registerAs (t : Table) (q : Quality) (variantOf : Option String) : Except Conflict Table :=
  match variantOf with
  | none => t.register q
  | some name => (t.withMinorVariant name q.name).register q

def ofList (qualities : List Quality) (minorVariants : List (String × String)) :
    Except Conflict Table :=
  qualities.foldlM register (empty minorVariants)

def symbols (t : Table) : List String :=
  t.qualities.flatMap Quality.symbols

/-- Reads the longest symbol that a text starts with.  If that is the empty
one, it still has to be a symbol of the table. -/
def take? (t : Table) (cs : List Char) : Option (Quality × List Char) :=
  let s := longestSymbol cs t.symbols
  (t.find? s).map fun q => (q, cs.drop s.length)

/-- Reads the longest symbol at a position of a text: the quality, and the
position behind the symbol.  A negative position is counted from the end. -/
def takeAt? (t : Table) (cs : List Char) (start : Int) : Option (Quality × Int) :=
  let rest := cs.drop (if start < 0 then start + cs.length else start).toNat
  (t.take? rest).map fun (q, left) => (q, start + (rest.length - left.length : Nat))

/-- The quality meant when another follows a numeral in small letters. -/
def minorVariant (t : Table) (q : Quality) : Quality :=
  ((t.minorVariants.lookup q.name).bind t.named?).getD q

end Table

end LeadSheet
