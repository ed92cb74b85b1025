import LeadSheet.Chord.Basic
import LeadSheet.Chord.Reader
import LeadSheet.Misreading
import LeadSheet.Number.Quantity
import LeadSheet.Number.Reader
import LeadSheet.Pitch.Key
import LeadSheet.Pitch.Reader

/-!
# Words of a score

The items a score is made of, each with the text it was read from and the
place that text stands at.  What takes up time is a `Sound`; the other tokens
change the key or close a measure or a line.

A word of a score is a key behind an at sign, or a sound with an optional
duration: `_` and `N.C.` for silence, `=` for a tie, `%` for a repetition, and
a chord symbol otherwise.  The duration stands behind a colon; it is a plain
decimal above zero and at most `maxDuration`, and an exponent or a sign is not
understood.  `splitColon_eq_some` says that cutting a word at its last colon
loses nothing.
-/

namespace LeadSheet

/-! ### Tokens -/

/-- What is written to take up time: a chord, silence, the chord before it held
on, or the chord before it once more. -/
inductive Sound where
  | chord (c : Chord)
  | rest
  | tie
  | again
deriving DecidableEq

/-- What a token says.  A sound without a duration has the usual one. -/
inductive TokenContent (Q : Type) where
  | sound (s : Sound) (duration : Option Q)
  | key (k : Key)
  | bar
  | newline
deriving DecidableEq

/-- A token with its text and place.  In a score lines and columns are counted
from one; a word on its own may stand at any place. -/
structure Token (Q : Type) where
  content : TokenContent Q
  text : String
  line : Int := 1
  column : Int := 1
deriving DecidableEq

/-! ### Durations -/

open Text

/-- What stands before and after the last colon of a word. -/
def splitColon : List Char → Option (List Char × List Char)
  | [] => none
  | c :: cs =>
    match splitColon cs with
    | some (body, value) => some (c :: body, value)
    | none => if c = ':' then some ([], cs) else none

/-- The last colon is the only one that is not in what stands before it. -/
theorem splitColon_eq_some {cs body value : List Char} :
    splitColon cs = some (body, value) ↔ cs = body ++ ':' :: value ∧ ':' ∉ value := by
  have hnone : ∀ {cs : List Char}, splitColon cs = none ↔ ':' ∉ cs := by
    intro cs
    induction cs with
    | nil => simp [splitColon]
    | cons c cs ih =>
      simp only [splitColon]
      cases h : splitColon cs with
      | none =>
        have hc := ih.mp h
        by_cases hcc : c = ':'
        · simp [hcc]
        · simp [hcc, hc, Ne.symm hcc]
      | some p =>
        have : ':' ∈ cs := Classical.byContradiction fun hn => by simp [ih.mpr hn] at h
        simp [this]
  induction cs generalizing body value with
  | nil => simp [splitColon]
  | cons c cs ih =>
    simp only [splitColon]
    cases h : splitColon cs with
    | none =>
      have hc := hnone.mp h
      cases body with
      | nil =>
        by_cases hcc : c = ':'
        · simp only [hcc, if_true, Option.some.injEq, Prod.mk.injEq, true_and, List.nil_append,
            List.cons.injEq]
          exact ⟨fun he => ⟨he, he ▸ hc⟩, fun he => he.1⟩
        · simp [hcc]
      | cons b body =>
        have : ¬ (cs = body ++ ':' :: value) := fun he => hc (by simp [he])
        by_cases hcc : c = ':' <;> simp [hcc, this]
    | some p =>
      obtain ⟨body', value'⟩ := p
      have hp := ih.mp h
      cases body with
      | nil =>
        simp only [Option.some.injEq, Prod.mk.injEq, List.cons_ne_nil, false_and, List.nil_append,
          List.cons.injEq, false_iff, not_and]
        intro he
        have : ':' ∈ cs := by rw [hp.1]; simp
        exact fun hv => hv (he.2 ▸ this)
      | cons b body =>
        have hih := @ih body value
        rw [h] at hih
        simp only [Option.some.injEq, Prod.mk.injEq] at hih
        simp only [Option.some.injEq, Prod.mk.injEq, List.cons.injEq, List.cons_append, and_assoc]
        exact and_congr_right fun _ => hih

def maxDuration : Int := 1024

def dropLineFeed (cs : List Char) : List Char :=
  if cs.getLast? = some '\n' then cs.dropLast else cs

/-- Reads a plain decimal: digits, with a point and more digits behind them or
just those. -/
def readPlain? (cs : List Char) : Option Decimal :=
  let (whole, rest) := takeDigits cs
  match rest with
  | [] => if whole.isEmpty then none else some ⟨false, ofDigits whole, 0⟩
  | '.' :: rest =>
    let (places, rest) := takeDigits rest
    if places.isEmpty || !rest.isEmpty then none
    else some ⟨false, ofDigits (whole ++ places), -places.length⟩
  | _ => none

variable {Q : Type} [Quantity Q]

def readBeats (value : List Char) : Except Cause Q :=
  match readPlain? (dropLineFeed value) with
  | none => .error (.notADuration (String.ofList value))
  | some d =>
    let beats : Q := Quantity.ofLiteral (.finite d)
    if Quantity.atMost beats (Quantity.ofInt 0) then .error (.notADuration (String.ofList value))
    else if Quantity.less (Quantity.ofInt maxDuration) beats then
      .error (.durationTooLong (String.ofList value))
    else .ok beats

/-- Takes the duration off a word.  A colon at the very start or behind a line
feed belongs to the word. -/
def splitDuration (line column : Int) (word : List Char) :
    Except ReadFault (List Char × Option Q) :=
  match splitColon word with
  | none => .ok (word, none)
  | some (body, value) =>
    if body.isEmpty || '\n' ∈ body then .ok (word, none)
    else
      match readBeats value with
      | .ok beats => .ok (body, some beats)
      | .error cause =>
        .error (.misreading ⟨cause, line, column + body.length, String.ofList (':' :: value)⟩)

/-! ### Reading -/

def Sound.read (table : Table) (s : Source) : Except ReadFault Sound :=
  if s.text = ['_'] ∨ s.text = "N.C.".toList then .ok .rest
  else if s.text = ['='] then .ok .tie
  else if s.text = ['%'] then .ok .again
  else (Chord.read table s).map .chord

def TokenContent.read (table : Table) (s : Source) : Except ReadFault (TokenContent Q) :=
  match s.text with
  | '@' :: name =>
    match Key.read (String.ofList name) with
    | .ok k => .ok (.key k)
    | .error e => .error (.key (.located s.line s.column e))
  | _ => do
    let (body, duration) ← splitDuration s.line s.column s.text
    let sound ← Sound.read table { s with text := body }
    pure (.sound sound duration)

def Token.read (table : Table) (s : Source) : Except ReadFault (Token Q) :=
  (TokenContent.read table s).map fun content => ⟨content, String.ofList s.text, s.line, s.column⟩

end LeadSheet
