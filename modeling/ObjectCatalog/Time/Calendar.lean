/-!
# The calendar

Days of the Gregorian calendar, carried through all years, numbered from 1970-01-01. Years are
counted from March, so that a leap day is the last of its year, and grouped in eras of 400 years,
which are 146097 days long.

* `Date.number`: the number of a day.
* `Date.ofNumber`: the day of a number.
-/

namespace ObjectCatalog

/-- A day of the calendar. -/
structure Date where
  year : Int
  month : Nat
  day : Nat
  month_le : month ≤ 12 := by decide
  day_le : day ≤ 31 := by decide
  deriving DecidableEq

namespace Date

/-- Days before the month that is `m` months after March. -/
def daysBefore (m : Nat) : Nat := (153 * m + 2) / 5

/-- Days before the `y`-th year of an era: every fourth year is a leap year, every hundredth is
not. -/
def daysBeforeYear (y : Nat) : Nat := 365 * y + y / 4 - y / 100

/-- The day number of 1970-01-01, counted from the first day of era 0. -/
def origin : Int := 719468

/-- The number of a day, 0 on 1970-01-01. -/
def number (d : Date) : Int :=
  let year := if d.month ≤ 2 then d.year - 1 else d.year
  let inEra := (year % 400).toNat
  year / 400 * 146097 + daysBeforeYear inEra + daysBefore ((d.month + 9) % 12) + d.day - 1 - origin

/-- The year of an era that holds its `n`-th day, and the day within that year. Centuries, spans of
four years and years are taken off in turn; the last of four centuries and the last of four years
are a day longer than the others. -/
def yearOfDay (n : Nat) : Nat × Nat :=
  let century := min (n / 36524) 3
  let ofCentury := n - century * 36524
  let span := ofCentury / 1461
  let ofSpan := ofCentury - span * 1461
  let year := min (ofSpan / 365) 3
  (100 * century + 4 * span + year, ofSpan - year * 365)

theorem snd_yearOfDay_lt (n : Nat) : (yearOfDay n).2 < 366 := by
  simp only [yearOfDay]; omega

/-- The day of a number. -/
def ofNumber (n : Int) : Date :=
  let day := n + origin
  let ofEra := (day % 146097).toNat
  let year := (yearOfDay ofEra).1
  let ofYear := (yearOfDay ofEra).2
  let month := (5 * ofYear + 2) / 153
  have hday : ofYear < 366 := snd_yearOfDay_lt ofEra
  { year := day / 146097 * 400 + year + (if month < 10 then 0 else 1)
    month := if month < 10 then month + 3 else month - 9
    day := ofYear - daysBefore month + 1
    month_le := by split <;> omega
    day_le := by simp only [daysBefore]; omega }

/-- Whether a year has a leap day. -/
def isLeap (year : Int) : Bool := year % 4 = 0 ∧ (year % 100 ≠ 0 ∨ year % 400 = 0)

/-- The number of days in a month. -/
def daysIn (year : Int) (month : Nat) : Nat :=
  if month = 2 then if isLeap year then 29 else 28
  else if month = 4 ∨ month = 6 ∨ month = 9 ∨ month = 11 then 30
  else 31

end Date

end ObjectCatalog
