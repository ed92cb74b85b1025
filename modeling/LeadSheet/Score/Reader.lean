import LeadSheet.Misreading
import LeadSheet.Score.Basic
import LeadSheet.Token.Lexer
import LeadSheet.Token.Reader

/-!
# Reading scores

A score text is cut into tokens first and then built from them, so whatever is
wrong with a word is found before a repetition with nothing to repeat.

A builder takes tokens one by one.  It knows the entries and keys so far, the
measure, line and beat of the next entry, whether anything stands in the
measure and on the line, and the chord that a repetition repeats.

Closing a measure or a line in which nothing stands does nothing
(`closeMeasure_of_closed`, `closeLine_of_closed`), so neither is ever empty.
Neither touches the entries, the keys or the chord to repeat.
Keys are only ever added; `restoreKey` goes back to one that is there.
-/

namespace LeadSheet

/-! ### Building -/

/-- A score that is being built. -/
structure Builder (Q : Type) where
  entries : List (Entry Q) := []
  keys : List (Option Key)
  keyIndex : Nat := 0
  measure : Nat := 0
  line : Nat := 0
  beat : Q
  measureOpen : Bool := false
  lineOpen : Bool := false
  previous : Option Chord := none

structure KeyIndexFault where
  index : Int
deriving DecidableEq

def KeyIndexFault.message (f : KeyIndexFault) : String :=
  "no key context at index " ++ toString f.index

namespace Builder

variable {Q : Type}

/-- Closes the measure if anything stands in it. -/
def closeMeasure (b : Builder Q) : Builder Q :=
  if b.measureOpen then { b with measure := b.measure + 1, measureOpen := false } else b

/-- Closes the measure and the line if anything stands on them. -/
def closeLine (b : Builder Q) : Builder Q :=
  let b := b.closeMeasure
  if b.lineOpen then { b with line := b.line + 1, lineOpen := false } else b

def changeKey (b : Builder Q) (k : Option Key) : Builder Q :=
  { b with keys := b.keys ++ [k], keyIndex := b.keys.length }

def returnTo (b : Builder Q) (index : Nat) : Builder Q :=
  { b with keyIndex := index }

/-- Goes back to a key if it is there. -/
def restoreKey (b : Builder Q) (index : Int) : Except KeyIndexFault (Builder Q) :=
  if 0 ≤ index ∧ index < b.keys.length then .ok (b.returnTo index.toNat) else .error ⟨index⟩

def score (b : Builder Q) : Score Q :=
  ⟨b.entries, b.keys⟩

theorem closeMeasure_of_closed {b : Builder Q} (h : b.measureOpen = false) :
    b.closeMeasure = b := by
  simp [closeMeasure, h]

theorem closeLine_of_closed {b : Builder Q} (h : b.measureOpen = false) (hl : b.lineOpen = false) :
    b.closeLine = b := by
  simp [closeLine, closeMeasure_of_closed h, hl]

@[simp] theorem entries_closeMeasure (b : Builder Q) : b.closeMeasure.entries = b.entries := by
  unfold closeMeasure
  split <;> rfl

@[simp] theorem keys_closeMeasure (b : Builder Q) : b.closeMeasure.keys = b.keys := by
  unfold closeMeasure
  split <;> rfl

@[simp] theorem keyIndex_closeMeasure (b : Builder Q) : b.closeMeasure.keyIndex = b.keyIndex := by
  unfold closeMeasure
  split <;> rfl

@[simp] theorem previous_closeMeasure (b : Builder Q) : b.closeMeasure.previous = b.previous := by
  unfold closeMeasure
  split <;> rfl

@[simp] theorem line_closeMeasure (b : Builder Q) : b.closeMeasure.line = b.line := by
  unfold closeMeasure
  split <;> rfl

theorem measureOpen_closeMeasure (b : Builder Q) : b.closeMeasure.measureOpen = false := by
  unfold closeMeasure
  split
  · rfl
  · rename_i h
    simpa using h

theorem closeMeasure_closeMeasure (b : Builder Q) :
    b.closeMeasure.closeMeasure = b.closeMeasure :=
  closeMeasure_of_closed b.measureOpen_closeMeasure

theorem closeLine_closeMeasure (b : Builder Q) : b.closeMeasure.closeLine = b.closeLine := by
  unfold closeLine
  rw [closeMeasure_closeMeasure]

theorem measure_closeMeasure (b : Builder Q) :
    b.closeMeasure.measure = if b.measureOpen then b.measure + 1 else b.measure := by
  unfold closeMeasure
  split <;> rfl

@[simp] theorem entries_closeLine (b : Builder Q) : b.closeLine.entries = b.entries := by
  unfold closeLine
  dsimp only
  split <;> exact b.entries_closeMeasure

@[simp] theorem keys_closeLine (b : Builder Q) : b.closeLine.keys = b.keys := by
  unfold closeLine
  dsimp only
  split <;> exact b.keys_closeMeasure

@[simp] theorem keyIndex_closeLine (b : Builder Q) : b.closeLine.keyIndex = b.keyIndex := by
  unfold closeLine
  dsimp only
  split <;> exact b.keyIndex_closeMeasure

@[simp] theorem previous_closeLine (b : Builder Q) : b.closeLine.previous = b.previous := by
  unfold closeLine
  dsimp only
  split <;> exact b.previous_closeMeasure

theorem getElem?_changeKey (b : Builder Q) (k : Option Key) :
    (b.changeKey k).keys[(b.changeKey k).keyIndex]? = some k := by
  simp [changeKey]

variable [Quantity Q]

/-- The builder that nothing was given to yet. -/
def start (key : Option Key) : Builder Q :=
  { keys := [key], beat := Quantity.ofInt 0 }

def append (b : Builder Q) (content : EntryContent) (duration : Option Q) : Builder Q :=
  let e : Entry Q :=
    { content, measure := b.measure, beat := b.beat, duration := duration.getD usualDuration,
      keyIndex := b.keyIndex, line := b.line }
  { b with entries := b.entries ++ [e], beat := e.finish, measureOpen := true, lineOpen := true }

def feed (b : Builder Q) (t : Token Q) : Except ReadFault (Builder Q) :=
  match t.content with
  | .sound (.chord c) d => .ok { b.append (.chord c) d with previous := some c }
  | .sound .again d =>
    match b.previous with
    | some c => .ok (b.append (.chord c) d)
    | none => .error (.misreading ⟨.nothingToRepeat, t.line, t.column, t.text⟩)
  | .sound .tie d => .ok (b.append .tie d)
  | .sound .rest d => .ok (b.append .rest d)
  | .key k => .ok (b.changeKey (some k))
  | .bar => .ok b.closeMeasure
  | .newline => .ok b.closeLine

end Builder

/-! ### Reading -/

variable {Q : Type} [Quantity Q]

def Score.ofTokens (key : Option Key) (ts : List (Token Q)) : Except ReadFault (Score Q) :=
  (ts.foldlM Builder.feed (Builder.start key)).map Builder.score

def Score.read (table : Table) (key : Option Key) (text : String) : Except ReadFault (Score Q) := do
  let ts ← tokenize table text
  Score.ofTokens key ts

end LeadSheet
