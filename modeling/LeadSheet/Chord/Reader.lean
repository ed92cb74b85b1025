import LeadSheet.Chord.Basic
import LeadSheet.Chord.Item
import LeadSheet.Misreading
import LeadSheet.Pitch.Degree
import LeadSheet.Quality.Table
import LeadSheet.Text.Space

/-!
# Reading chords

A chord symbol is read from left to right: a root, the symbol of a quality,
items directly behind it, groups of items in parentheses or brackets, and a
slash with a bass.

The quality and its bare items reach up to the first character that opens a
group or the bass (`endsHead`), or else to the end.  The longest symbol of the
table is the quality, so `C7b5` is one symbol if the table has it and a seventh
with an altered fifth if it does not.

Everything is read from what is left of the symbol.  `Source.column` tells the
place of that in the score.
-/

namespace LeadSheet

open Text

/-- A chord symbol with the place it stands at, which is the first of a score
unless something else is said. -/
structure Source where
  text : List Char
  line : Int := 1
  column : Int := 1

namespace Source

/-- The misreading of the part of a symbol that starts some characters in. -/
def fault (s : Source) (start : Nat) (cause : Cause) (fragment : List Char) : ReadFault :=
  .misreading ⟨cause, s.line, s.column + start, String.ofList fragment⟩

/-- How many characters stand before what is left of a symbol. -/
def start (s : Source) (rest : List Char) : Nat :=
  s.text.length - rest.length

end Source

/-! ### Roots -/

def Root.take (cs : List Char) : Option ((Root × Bool) × List Char) :=
  match PitchClass.takeCapital cs with
  | some (p, rest) => some ((.pitch p, false), rest)
  | none => (Degree.take cs).map fun ((d, small), rest) => ((.degree d, small), rest)

def readRoot (s : Source) (place : RootPlace) (cs : List Char) :
    Except ReadFault ((Root × Bool) × List Char) :=
  match Root.take cs with
  | some r => .ok r
  | none =>
    let fragment := if cs.isEmpty then s.text else cs
    .error (s.fault (s.start cs) (.noRoot place (String.ofList fragment)) fragment)

/-! ### Items -/

/-- The extension that an item which starts some characters in stands for. -/
def Item.toExtension (s : Source) (start : Nat) (i : Item) : Except ReadFault Extension :=
  if maxDigits < i.number.length then .error (.numberTooLong i.number.length)
  else
    match ChordStep.ofNumber? i.value with
    | none => .error (s.fault start (.unknownDegree (String.ofList i.number)) i.number)
    | some step =>
      match i.word with
      | some w =>
        if i.sign = .natural then .ok ⟨step, w.change⟩
        else .error (s.fault start (.accidentalAfter w.text) (s.text.drop start))
      | none => .ok ⟨step, .alter i.sign⟩

/-- Reads the items that stand directly behind a quality, as far as they are
understood. -/
def readBare (s : Source) (tail : List Char) (cs : List Char) :
    Except ReadFault (List Extension × List Char) :=
  match _h : Item.takeBare cs with
  | none => .ok ([], cs)
  | some (i, rest) => do
    let e ← i.toExtension s (s.start (cs ++ tail))
    let (es, rest) ← readBare s tail rest
    pure (e :: es, rest)
termination_by cs.length
decreasing_by exact Item.length_takeBare _h

/-! ### The quality -/

def endsHead (c : Char) : Bool :=
  c = '(' || c = '[' || c = '/'

/-- Reads the quality and the items directly behind it.  After a numeral in
small letters the minor variant of the quality is meant. -/
def readQuality (table : Table) (s : Source) (small : Bool) (cs : List Char) :
    Except ReadFault ((Quality × List Extension) × List Char) :=
  let head := cs.takeWhile fun c => !endsHead c
  let tail := cs.dropWhile fun c => !endsHead c
  let unknown := s.fault (s.start cs) (.unknownQuality (String.ofList head)) head
  match table.take? cs with
  | none => .error .noPlainQuality
  | some (q, rest) =>
    if rest.length < tail.length then .error unknown
    else do
      let (es, left) ← readBare s tail (rest.take (rest.length - tail.length))
      if left.isEmpty then pure ((if small then table.minorVariant q else q, es), tail)
      else .error unknown

/-! ### Groups -/

/-- The character that closes a group. -/
def closerOf? (c : Char) : Option Char :=
  if c = '(' then some ')' else if c = '[' then some ']' else none

/-- The text up to a character, and what follows that. -/
def splitAt? (c : Char) : List Char → Option (List Char × List Char)
  | [] => none
  | d :: cs => if d = c then some ([], cs) else (splitAt? c cs).map fun (a, b) => (d :: a, b)

theorem eq_of_splitAt? {c : Char} {cs a b : List Char} (h : splitAt? c cs = some (a, b)) :
    cs = a ++ c :: b := by
  induction cs generalizing a b with
  | nil => simp [splitAt?] at h
  | cons d cs ih =>
    simp only [splitAt?] at h
    split at h
    · rename_i hd
      simp only [Option.some.injEq, Prod.mk.injEq] at h
      rw [← h.1, ← h.2, hd, List.nil_append]
    · obtain ⟨⟨a', b'⟩, hab, heq⟩ := Option.map_eq_some_iff.mp h
      simp only [Prod.mk.injEq] at heq
      rw [← heq.1, ← heq.2, ih hab, List.cons_append]

/-- Every piece of a group without the blanks around it, and where it
starts. -/
def locateItems : Nat → List (List Char) → List (Nat × List Char)
  | _, [] => []
  | start, piece :: pieces =>
    (start + (piece.length - (trimStart piece).length), trim piece)
      :: locateItems (start + piece.length + 1) pieces

def readItem (s : Source) (start : Nat) (cs : List Char) : Except ReadFault Extension :=
  match Item.read? cs with
  | none => .error (s.fault start (.notAnExtension (String.ofList cs)) cs)
  | some i => i.toExtension s start

/-- Reads what stands between the ends of a group that starts some characters
in. -/
def readGroup (s : Source) (start : Nat) (inner : List Char) :
    Except ReadFault (List Extension) :=
  (locateItems start (inner.splitOn ',')).mapM fun (start, cs) => readItem s start cs

def readGroups (s : Source) (cs : List Char) : Except ReadFault (List Extension × List Char) :=
  match cs with
  | [] => .ok ([], [])
  | c :: cs =>
    match closerOf? c with
    | none => .ok ([], c :: cs)
    | some closer =>
      let start := s.start (c :: cs)
      match _h : splitAt? closer cs with
      | none => .error (s.fault start (.unclosedGroup (String.ofList [c])) (c :: cs))
      | some (inner, rest) =>
        if (trim inner).isEmpty then
          .error (s.fault start .emptyGroup (c :: inner ++ [closer]))
        else do
          let es ← readGroup s (start + 1) inner
          let (more, rest) ← readGroups s rest
          pure (es ++ more, rest)
termination_by cs.length
decreasing_by
  rw [eq_of_splitAt? _h, List.length_cons, List.length_append, List.length_cons]
  omega

/-! ### The bass and the whole -/

def readBass (s : Source) : List Char → Except ReadFault (Option Root × List Char)
  | '/' :: cs => do
    let ((bass, _), rest) ← readRoot s .bass cs
    pure (some bass, rest)
  | cs => .ok (none, cs)

def Chord.read (table : Table) (s : Source) : Except ReadFault Chord := do
  let ((root, small), rest) ← readRoot s .chord s.text
  let ((quality, bare), rest) ← readQuality table s small rest
  let (groups, rest) ← readGroups s rest
  let (bass, rest) ← readBass s rest
  if rest.isEmpty then pure ⟨root, quality, bare ++ groups, bass⟩
  else .error (s.fault (s.start rest) (.trailing (String.ofList rest)) rest)

end LeadSheet
