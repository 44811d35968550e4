import Bson.Text.Decimal

/-!
# Instants and their text

* `Instant`             a point in time by its milliseconds since the epoch, within the range that
                        calendar dates are kept for;
* `Instant.ofMillis?`   the instant of a number of milliseconds, if it is in range;
* `civil`               year, month and day of a day number, in the proleptic Gregorian calendar;
* `Instant.rfc3339`     the text of an instant, in UTC.
-/

namespace Bson

/-- the first and the last millisecond of the range -/
def firstMillis : Int := -8334601228800000

def lastMillis : Int := 8210266876799999

/-- a point in time, in milliseconds since the epoch -/
structure Instant where
  millis : Int
  inRange : firstMillis ≤ millis ∧ millis ≤ lastMillis := by decide
  deriving DecidableEq

structure Civil where
  year : Int
  month : Nat
  day : Nat
  deriving DecidableEq, Repr

/-- the date of a day, counted from 1970-01-01. Years are taken to begin in March, which puts the
leap day last, and the days are cut into eras of 400 years, which are all equally long. -/
def civil (days : Int) : Civil :=
  let shifted := days + 719468
  let era := shifted.fdiv 146097
  let inEra := (shifted - era * 146097).toNat
  let yearOfEra := (inEra - inEra / 1460 + inEra / 36524 - inEra / 146096) / 365
  let inYear := inEra - (365 * yearOfEra + yearOfEra / 4 - yearOfEra / 100)
  let march := (5 * inYear + 2) / 153
  let day := inYear - (153 * march + 2) / 5 + 1
  let month := if march < 10 then march + 3 else march - 9
  ⟨yearOfEra + era * 400 + (if month ≤ 2 then 1 else 0), month, day⟩

/-- a natural in at least `width` digits -/
def padded (width n : Nat) : String :=
  let ds := Nat.toDigits 10 n
  String.ofList (List.replicate (width - ds.length) '0' ++ ds)

/-- a year in four digits, with a sign where it has more or is below zero -/
def yearText (year : Int) : String :=
  if year < 0 then "-" ++ padded 4 year.natAbs
  else if year ≤ 9999 then padded 4 year.toNat
  else "+" ++ padded 4 year.toNat

namespace Instant

def epoch : Instant := ⟨0, by decide⟩

def ofMillis? (n : Int) : Option Instant :=
  if h : firstMillis ≤ n ∧ n ≤ lastMillis then some ⟨n, h⟩ else none

/-- date and time in UTC, with three decimals exactly when the milliseconds are not zero -/
def rfc3339 (t : Instant) : String :=
  let seconds := t.millis.fdiv 1000
  let milli := (t.millis - seconds * 1000).toNat
  let days := seconds.fdiv 86400
  let inDay := (seconds - days * 86400).toNat
  let date := civil days
  yearText date.year ++ "-" ++ padded 2 date.month ++ "-" ++ padded 2 date.day ++ "T"
    ++ padded 2 (inDay / 3600) ++ ":" ++ padded 2 (inDay / 60 % 60) ++ ":" ++ padded 2 (inDay % 60)
    ++ (if milli = 0 then "" else "." ++ padded 3 milli) ++ "+00:00"

@[simp] theorem ofMillis?_millis (t : Instant) : ofMillis? t.millis = some t := by
  simp [ofMillis?, t.inRange]

example : (ofMillis? 1700000000123).map rfc3339 = some "2023-11-14T22:13:20.123+00:00" := by
  decide +kernel
example : epoch.rfc3339 = "1970-01-01T00:00:00+00:00" := by decide +kernel
example : (ofMillis? firstMillis).map rfc3339 = some "-262143-01-01T00:00:00+00:00" := by
  decide +kernel
example : (ofMillis? lastMillis).map rfc3339 = some "+262142-12-31T23:59:59.999+00:00" := by
  decide +kernel

end Instant

end Bson
