/-!
# Dates

A date is a day of the Gregorian calendar, which is taken to have been in use
in every year from 1 to 9999.  `Date.ofNumbers` makes one of three numbers and
says what is wrong with them otherwise; `Date.number` counts the days from the
first of all, which is the first of January of the year 1.
-/

namespace LeadSheet

/-- Why numbers are no date or no time. -/
inductive CalendarFault where
  | year (year : Nat)
  | month
  | day
  | hour
  | minute
  | second
  /-- A time zone a whole day or more away, in minutes. -/
  | offset (minutes : Int)
deriving DecidableEq

/-- A number in decimal digits, with zeros in front up to a width. -/
def zeroPadded (width n : Nat) : List Char :=
  (toString n).toList.leftpad width '0'

def isLeapYear (year : Nat) : Bool :=
  year % 4 = 0 && (year % 100 ≠ 0 || year % 400 = 0)

def daysInMonth (year month : Nat) : Nat :=
  if month = 2 then if isLeapYear year then 29 else 28
  else if month ∈ [4, 6, 9, 11] then 30
  else 31

structure Date where
  year : Nat
  month : Nat
  day : Nat
  year_mem : 1 ≤ year ∧ year ≤ 9999
  month_mem : 1 ≤ month ∧ month ≤ 12
  day_mem : 1 ≤ day ∧ day ≤ daysInMonth year month
deriving DecidableEq

namespace Date

def ofNumbers (year month day : Nat) : Except CalendarFault Date :=
  if hy : 1 ≤ year ∧ year ≤ 9999 then
    if hm : 1 ≤ month ∧ month ≤ 12 then
      if hd : 1 ≤ day ∧ day ≤ daysInMonth year month then .ok ⟨year, month, day, hy, hm, hd⟩
      else .error .day
    else .error .month
  else .error (.year year)

def daysBeforeYear (year : Nat) : Nat :=
  let n := year - 1
  n * 365 + n / 4 - n / 100 + n / 400

/-- The number of days of the first months of a year. -/
def daysOfMonths (year : Nat) : Nat → Nat
  | 0 => 0
  | m + 1 => daysOfMonths year m + daysInMonth year (m + 1)

/-- The number of days before a date. -/
def number (d : Date) : Nat :=
  daysBeforeYear d.year + daysOfMonths d.year (d.month - 1) + (d.day - 1)

def text (d : Date) : String :=
  String.ofList
    (zeroPadded 4 d.year ++ '-' :: zeroPadded 2 d.month ++ '-' :: zeroPadded 2 d.day)

/-- How a date is written out. -/
def inner (d : Date) : String :=
  "datetime.date(" ++ toString d.year ++ ", " ++ toString d.month ++ ", " ++ toString d.day ++ ")"

end Date

end LeadSheet
