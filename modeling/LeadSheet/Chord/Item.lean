import LeadSheet.Chord.Extension
import LeadSheet.Number.Reader
import LeadSheet.Text.Prefix

/-!
# Extension items

An extension is written as an item: a word that adds a step or leaves one out,
or a sign that raises or lowers one, and the number of the step.  Items stand
in groups (`Item.read?`) or directly behind a quality, where only some of them
are understood (`Item.takeBare`).

Whether the number is that of a step is not looked at here.
-/

namespace LeadSheet

open Text

/-- The words an item may start with. -/
inductive ItemWord where
  | add
  | leaveOut
  | no
deriving DecidableEq

namespace ItemWord

/-- The words in the order they are looked for. -/
def all : List ItemWord :=
  [add, leaveOut, no]

def text : ItemWord → String
  | add => "add"
  | leaveOut => "omit"
  | no => "no"

def change : ItemWord → Change
  | add => .add
  | leaveOut => .leaveOut
  | no => .leaveOut

def take? (cs : List Char) : Option (ItemWord × List Char) :=
  all.findSome? fun w => (after? w.text.toList cs).map fun rest => (w, rest)

end ItemWord

/-- Reads the sign of an item: an accidental, a plus or a minus. -/
def Accidental.ofSign? (c : Char) : Option Accidental :=
  if c = '+' then some .sharp
  else if c = '-' then some .flat
  else ofChar? c

/-- An extension as it is written.  A natural sign is one that is not there. -/
structure Item where
  word : Option ItemWord := none
  sign : Accidental := .natural
  /-- The digits of the number, in any script. -/
  number : List Char
deriving DecidableEq

namespace Item

def value (i : Item) : Nat :=
  ofDigits (i.number.filterMap digitValue?)

/-- What an item does to its step, its word counting before its sign. -/
def change (i : Item) : Change :=
  match i.word with
  | some w => w.change
  | none => .alter i.sign

def takeWord (cs : List Char) : Option ItemWord × List Char :=
  match ItemWord.take? cs with
  | some (w, rest) => (some w, rest)
  | none => (none, cs)

/-- The sign a text starts with, a natural if there is none, and the rest. -/
def takeSign : List Char → Accidental × List Char
  | [] => (.natural, [])
  | c :: cs =>
    match Accidental.ofSign? c with
    | some a => (a, cs)
    | none => (.natural, c :: cs)

def read? (cs : List Char) : Option Item :=
  let (word, rest) := takeWord cs
  let (sign, rest) := takeSign rest
  if rest.isEmpty || !rest.all isDigit then none else some ⟨word, sign, rest⟩

/-- The numbers that a sign directly behind a quality is understood with. -/
def bareNumbers : List String :=
  ["13", "11", "9", "5"]

def takeWorded (cs : List Char) : Option (Item × List Char) :=
  match ItemWord.take? cs with
  | none => none
  | some (w, rest) =>
    let number := rest.takeWhile isDigit
    if number.isEmpty then none else some (⟨some w, .natural, number⟩, rest.dropWhile isDigit)

def takeSigned : List Char → Option (Item × List Char)
  | [] => none
  | c :: cs =>
    (Accidental.ofSign? c).bind fun a =>
      bareNumbers.findSome? fun n =>
        (after? n.toList cs).map fun rest => (⟨none, a, n.toList⟩, rest)

/-- Reads an item that stands directly behind a quality. -/
def takeBare (cs : List Char) : Option (Item × List Char) :=
  match takeWorded cs with
  | some r => some r
  | none => takeSigned cs

theorem length_after?_lt {ws cs rest : List Char} (hw : ws ≠ []) (h : after? ws cs = some rest) :
    rest.length < cs.length := by
  have := List.length_pos_iff.mpr hw
  rw [after?_eq_some.mp h, List.length_append]
  omega

theorem length_takeBare {cs rest : List Char} {i : Item} (h : takeBare cs = some (i, rest)) :
    rest.length < cs.length := by
  unfold takeBare at h
  split at h
  · rename_i r hr
    obtain rfl : r = (i, rest) := Option.some.inj h
    unfold takeWorded at hr
    split at hr
    · simp at hr
    · rename_i w r hw
      obtain ⟨v, -, hv⟩ := List.exists_of_findSome?_eq_some hw
      obtain ⟨r', hr', heq⟩ := Option.map_eq_some_iff.mp hv
      have hlt := length_after?_lt (by cases v <;> decide) hr'
      have hle := (List.dropWhile_sublist (l := r) isDigit).length_le
      simp only [Prod.mk.injEq] at heq
      simp only at hr
      split at hr
      · simp at hr
      · simp only [Option.some.injEq, Prod.mk.injEq] at hr
        rw [← hr.2]
        have := heq.2 ▸ hlt
        omega
  · cases cs with
    | nil => simp [takeSigned] at h
    | cons c cs =>
      obtain ⟨a, -, ha⟩ := Option.bind_eq_some_iff.mp h
      obtain ⟨n, -, hn⟩ := List.exists_of_findSome?_eq_some ha
      obtain ⟨r', hr', heq⟩ := Option.map_eq_some_iff.mp hn
      simp only [Prod.mk.injEq] at heq
      rw [← heq.2, after?_eq_some.mp hr', List.length_cons, List.length_append]
      omega

end Item

end LeadSheet
