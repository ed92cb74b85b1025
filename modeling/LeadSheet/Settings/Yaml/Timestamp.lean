import LeadSheet.Calendar.Moment
import LeadSheet.Settings.Yaml.Number

/-!
# Timestamps of YAML

A date is written as `2001-12-14`.  A time of day may stand behind it, with a
`T` or white space between them, and a time zone behind that:
`2001-12-14 21:59:43.10 -05:00`.  Month, day, hour and the hours of the zone may
then be single digits.  Places of a second behind the sixth are dropped.

`timestamp?` tells whether a text has that form; what it writes may still be no
date.
-/

namespace LeadSheet.Yaml

def isDecimalDigit (c : Char) : Bool :=
  '0' ≤ c && c ≤ '9'

/-- Reads a number of at least and at most so many digits. -/
def takeNumber (least most : Nat) (cs : List Char) : Option (Nat × List Char) :=
  let ds := (cs.take most).takeWhile isDecimalDigit
  if ds.length < least then none else some (ofBase 10 ds, cs.drop ds.length)

def takeMark (c : Char) : List Char → Option (List Char)
  | [] => none
  | d :: cs => if d = c then some cs else none

def isSeparator (c : Char) : Bool :=
  c = ' ' || c = '\t'

def takeSeparator : List Char → Option (List Char)
  | [] => none
  | c :: cs =>
    if c = 'T' ∨ c = 't' then some cs
    else if isSeparator c then some (cs.dropWhile isSeparator)
    else none

/-- Reads the places of a second, as microseconds. -/
def takePlaces : List Char → Nat × List Char
  | '.' :: cs =>
    let ds := cs.takeWhile isDecimalDigit
    (ofBase 10 ((ds.take 6).rightpad 6 '0'), cs.drop ds.length)
  | cs => (0, cs)

/-- Reads the hours and minutes of a time zone up to the end, as minutes. -/
def zoneMinutes? (cs : List Char) : Option Nat := do
  let (hours, cs) ← takeNumber 1 2 cs
  match cs with
  | [] => pure (hours * 60)
  | cs => do
    let cs ← takeMark ':' cs
    let (minutes, cs) ← takeNumber 2 2 cs
    if cs.isEmpty then pure (hours * 60 + minutes) else none

def zone? : List Char → Option (Option Int)
  | [] => some none
  | cs =>
    match cs.dropWhile isSeparator with
    | ['Z'] => some (some 0)
    | '+' :: cs => (zoneMinutes? cs).map fun n => some n
    | '-' :: cs => (zoneMinutes? cs).map fun n => some (-(n : Int))
    | _ => none

/-- A timestamp as it is written, before its numbers are looked at. -/
structure Timestamp where
  year : Nat
  month : Nat
  day : Nat
  /-- Hour, minute, second and microsecond, and the time zone. -/
  time : Option ((Nat × Nat × Nat × Nat) × Option Int)

def time? (cs : List Char) : Option ((Nat × Nat × Nat × Nat) × Option Int) := do
  let cs ← takeSeparator cs
  let (hour, cs) ← takeNumber 1 2 cs
  let cs ← takeMark ':' cs
  let (minute, cs) ← takeNumber 2 2 cs
  let cs ← takeMark ':' cs
  let (second, cs) ← takeNumber 2 2 cs
  let (microsecond, cs) := takePlaces cs
  let zone ← zone? cs
  pure ((hour, minute, second, microsecond), zone)

def timestamp? (cs : List Char) : Option Timestamp := do
  let (year, behindYear) ← takeNumber 4 4 cs
  let cs ← takeMark '-' behindYear
  let (month, cs) ← takeNumber 1 2 cs
  let cs ← takeMark '-' cs
  let (day, cs) ← takeNumber 1 2 cs
  match cs with
  | [] => if behindYear.length = 6 then pure ⟨year, month, day, none⟩ else none
  | cs => do
    let time ← time? cs
    pure ⟨year, month, day, some time⟩

/-- The date or the moment that a timestamp writes.  The time zone is looked at
first. -/
def Timestamp.value (t : Timestamp) : Except CalendarFault (Date ⊕ Moment) :=
  match t.time with
  | none => (Date.ofNumbers t.year t.month t.day).map .inl
  | some ((hour, minute, second, microsecond), zone) => do
    let offset ← zone.mapM checkOffset
    let date ← Date.ofNumbers t.year t.month t.day
    let clock ← Clock.ofNumbers hour minute second microsecond
    pure (.inr ⟨date, clock, offset⟩)

end LeadSheet.Yaml
