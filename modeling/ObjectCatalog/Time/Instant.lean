import ObjectCatalog.Time.Calendar

/-!
# Instants and their stored text

An instant is kept as its reading of the UTC calendar and clock, to the nanosecond; a leap second is
second 60 of its minute. Rows hold the RFC 3339 text of an instant, and rows are compared by that
text.

* `Instant.text`: the text that is stored and compared.
* `Instant.before`, `Instant.notAfter`: the comparisons of stored texts.
* `Instant.parse?`: reads RFC 3339 text with any offset.
-/

namespace ObjectCatalog

/-- A UTC reading of calendar and clock. -/
structure Instant where
  date : Date
  hour : Nat
  minute : Nat
  second : Nat
  nano : Nat
  hour_lt : hour < 24 := by decide
  minute_lt : minute < 60 := by decide
  second_le : second ≤ 60 := by decide
  nano_lt : nano < 1000000000 := by decide
  deriving DecidableEq

namespace Instant

/-- The last `w` decimal digits of a number, with leading zeros. -/
def digits : (w n : Nat) → List Char
  | 0, _ => []
  | w + 1, n => digits w (n / 10) ++ [Nat.digitChar (n % 10)]

/-- Four digits, or a sign and at least four digits outside the years 0 to 9999. -/
def yearText (y : Int) : List Char :=
  if 0 ≤ y ∧ y ≤ 9999 then digits 4 y.toNat
  else
    let n := y.natAbs
    (if y < 0 then '-' else '+') :: (if n < 10000 then digits 4 n else Nat.toDigits 10 n)

/-- A point and the fewest of 3, 6 or 9 digits that are exact, or nothing for a whole second. -/
def fractionText (nano : Nat) : List Char :=
  if nano = 0 then []
  else if nano % 1000000 = 0 then '.' :: digits 3 (nano / 1000000)
  else if nano % 1000 = 0 then '.' :: digits 6 (nano / 1000)
  else '.' :: digits 9 nano

/-- The text of an instant in UTC under a spelling of the offset zero. -/
def written (zone : List Char) (t : Instant) : List Char :=
  yearText t.date.year ++ '-' :: digits 2 t.date.month ++ '-' :: digits 2 t.date.day ++
    'T' :: digits 2 t.hour ++ ':' :: digits 2 t.minute ++ ':' :: digits 2 t.second ++
    fractionText t.nano ++ zone

/-- The stored text. -/
def text (t : Instant) : List Char := t.written ['+', '0', '0', ':', '0', '0']

/-- The text shown to people, with `Z` for the offset. -/
def shown (t : Instant) : String := String.ofList (t.written ['Z'])

/-- Whether the stored text of `a` sorts below that of `b`. -/
def before (a b : Instant) : Bool := decide (a.text < b.text)

/-- Whether the stored text of `a` does not sort above that of `b`. -/
def notAfter (a b : Instant) : Bool := !b.before a

/-- Whole minutes since 1970-01-01T00:00Z. -/
def minutes (t : Instant) : Int := t.date.number * 1440 + t.hour * 60 + t.minute

/-- Whole seconds since 1970-01-01T00:00:00Z. -/
def seconds (t : Instant) : Int := t.minutes * 60 + t.second

/-- The same second of another minute. -/
def atMinute (t : Instant) (m : Int) : Instant where
  date := Date.ofNumber (m / 1440)
  hour := ((m % 1440) / 60).toNat
  minute := (m % 60).toNat
  second := t.second
  nano := t.nano
  hour_lt := by omega
  minute_lt := by omega
  second_le := t.second_le
  nano_lt := t.nano_lt

/-- The instant that is a number of minutes later, or earlier for a negative number. -/
def addMinutes (t : Instant) (m : Int) : Instant := t.atMinute (t.minutes + m)

/-- The instant a number of nanoseconds after the start of 1970. -/
def ofNanos (n : Int) : Instant where
  date := Date.ofNumber (n / 86400000000000)
  hour := ((n % 86400000000000) / 3600000000000).toNat
  minute := ((n % 3600000000000) / 60000000000).toNat
  second := ((n % 60000000000) / 1000000000).toNat
  nano := (n % 1000000000).toNat
  hour_lt := by omega
  minute_lt := by omega
  second_le := by omega
  nano_lt := by omega

/-- Reads exactly `w` decimal digits. -/
def number? : (w : Nat) → List Char → Option (Nat × List Char)
  | 0, cs => some (0, cs)
  | w + 1, cs => do
    let (n, rest) ← number? w cs
    match rest with
    | c :: rest => if c.isDigit then some (n * 10 + (c.toNat - 48), rest) else none
    | [] => none

/-- Reads one character of a set. -/
def char? (set : List Char) : List Char → Option (List Char)
  | c :: rest => if c ∈ set then some rest else none
  | [] => none

/-- Reads the fraction of a second as nanoseconds; digits past the ninth are dropped. -/
def fraction? : List Char → Option (Nat × List Char)
  | '.' :: rest =>
    let ds := rest.takeWhile Char.isDigit
    if ds.isEmpty then none
    else
      let nano := ((ds ++ List.replicate 9 '0').take 9).foldl (fun n c => n * 10 + (c.toNat - 48)) 0
      some (nano, rest.dropWhile Char.isDigit)
  | rest => some (0, rest)

/-- Reads an offset as minutes east of UTC. -/
def offset? : List Char → Option Int
  | ['Z'] | ['z'] => some 0
  | sign :: rest => do
    let (h, rest) ← number? 2 rest
    let rest ← char? [':'] rest
    let (m, rest) ← number? 2 rest
    if rest ≠ [] ∨ 24 ≤ h ∨ 60 ≤ m then none
    else if sign = '+' then some (h * 60 + m)
    else if sign = '-' then some (-(h * 60 + m))
    else none
  | [] => none

/-- Reads RFC 3339 text. -/
def parse? (text : String) : Option Instant := do
  let (year, cs) ← number? 4 text.toList
  let cs ← char? ['-'] cs
  let (month, cs) ← number? 2 cs
  let cs ← char? ['-'] cs
  let (day, cs) ← number? 2 cs
  let cs ← char? ['T', 't', ' '] cs
  let (hour, cs) ← number? 2 cs
  let cs ← char? [':'] cs
  let (minute, cs) ← number? 2 cs
  let cs ← char? [':'] cs
  let (second, cs) ← number? 2 cs
  let (nano, cs) ← fraction? cs
  let offset ← offset? cs
  if h : (1 ≤ month ∧ month ≤ 12) ∧ (1 ≤ day ∧ day ≤ 31) ∧ day ≤ Date.daysIn year month ∧
      hour < 24 ∧ minute < 60 ∧ second ≤ 60 ∧ nano < 1000000000 then
    let date : Date := ⟨year, month, day, h.1.2, h.2.1.2⟩
    let reading : Instant := ⟨date, hour, minute, second, nano, h.2.2.2.1, h.2.2.2.2.1,
      h.2.2.2.2.2.1, h.2.2.2.2.2.2⟩
    some (reading.addMinutes (-offset))
  else none

end Instant

end ObjectCatalog
