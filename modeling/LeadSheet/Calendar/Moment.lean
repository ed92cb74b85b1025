import LeadSheet.Calendar.Date

/-!
# Moments

A moment is a date with a time of day, and possibly with the distance of its
time zone from universal time, in minutes and less than a day.  Two moments
with a time zone are the same if they are the same moment of universal time
(`Moment.same`).
-/

namespace LeadSheet

def dayMinutes : Nat := 1440

structure Clock where
  hour : Nat
  minute : Nat
  second : Nat
  microsecond : Nat
deriving DecidableEq

/-- The time of day that four numbers write. -/
def Clock.ofNumbers (hour minute second microsecond : Nat) : Except CalendarFault Clock :=
  if 24 ≤ hour then .error .hour
  else if 60 ≤ minute then .error .minute
  else if 60 ≤ second then .error .second
  else .ok ⟨hour, minute, second, microsecond⟩

structure Moment where
  date : Date
  clock : Clock
  /-- The minutes that the time zone is ahead of universal time. -/
  offset : Option Int := none
deriving DecidableEq

/-- Makes sure that a time zone is less than a day away. -/
def checkOffset (minutes : Int) : Except CalendarFault Int :=
  if minutes.natAbs < dayMinutes then .ok minutes else .error (.offset minutes)

/-- How a span of minutes is written out: whole days, which may be negative,
and the seconds behind them. -/
def spanText (minutes : Int) : String :=
  let days := minutes / dayMinutes
  let seconds := minutes % dayMinutes * 60
  let parts := (if days = 0 then [] else ["days=" ++ toString days])
    ++ (if seconds = 0 then [] else ["seconds=" ++ toString seconds])
  "datetime.timedelta(" ++ (if parts.isEmpty then "0" else String.intercalate ", " parts) ++ ")"

def CalendarFault.message : CalendarFault → String
  | year n => "year " ++ toString n ++ " is out of range"
  | month => "month must be in 1..12"
  | day => "day is out of range for month"
  | hour => "hour must be in 0..23"
  | minute => "minute must be in 0..59"
  | second => "second must be in 0..59"
  | offset minutes =>
    "offset must be a timedelta strictly between -timedelta(hours=24) and timedelta(hours=24), not "
      ++ spanText minutes ++ "."

namespace Clock

/-- How a time of day is shown: hours, minutes, seconds, and microseconds if
there are any. -/
def text (c : Clock) : String :=
  String.ofList
    (zeroPadded 2 c.hour ++ ':' :: zeroPadded 2 c.minute ++ ':' :: zeroPadded 2 c.second
      ++ if c.microsecond = 0 then [] else '.' :: zeroPadded 6 c.microsecond)

/-- The numbers of a time of day that have to be written out: seconds and
microseconds only as far as they are not zero. -/
def numbers (c : Clock) : List Nat :=
  c.hour :: c.minute ::
    if c.microsecond ≠ 0 then [c.second, c.microsecond]
    else if c.second ≠ 0 then [c.second]
    else []

end Clock

/-- How the distance of a time zone is shown: its sign, hours and minutes. -/
def offsetText (minutes : Int) : String :=
  let n := minutes.natAbs
  String.ofList
    ((if minutes < 0 then '-' else '+') :: zeroPadded 2 (n / 60) ++ ':' :: zeroPadded 2 (n % 60))

def offsetInner (minutes : Int) : String :=
  if minutes = 0 then "datetime.timezone.utc"
  else "datetime.timezone(" ++ spanText minutes ++ ")"

namespace Moment

def text (m : Moment) : String :=
  m.date.text ++ " " ++ m.clock.text ++ (m.offset.map offsetText).getD ""

def inner (m : Moment) : String :=
  let numbers := m.date.year :: m.date.month :: m.date.day :: m.clock.numbers
  let zone := m.offset.toList.map fun minutes => "tzinfo=" ++ offsetInner minutes
  "datetime.datetime(" ++ String.intercalate ", " (numbers.map toString ++ zone) ++ ")"

/-- The minutes of universal time up to a moment of a time zone. -/
def universal (m : Moment) (offset : Int) : Int :=
  m.date.number * dayMinutes + m.clock.hour * 60 + m.clock.minute - offset

/-- Whether two moments are the same; one with a time zone and one without are
not. -/
def same (a b : Moment) : Bool :=
  match a.offset, b.offset with
  | none, none => a.date = b.date && a.clock = b.clock
  | some x, some y =>
    a.universal x = b.universal y && a.clock.second = b.clock.second
      && a.clock.microsecond = b.clock.microsecond
  | _, _ => false

end Moment

end LeadSheet
