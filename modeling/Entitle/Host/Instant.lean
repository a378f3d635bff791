/-!
# Instants

A moment on the wall clock and its text: date and time in the calendar everybody uses, in
universal time, with as many digits of the second as the clock shows.

## Main definitions

* `Instant`: seconds and nanoseconds since the start of 1970.
* `Instant.date`: the year, month and day.
* `Instant.text`: the text, as in `2026-01-31T09:05:00.25Z`.

## Implementation notes

Days are counted from the first of March of the year 0, so that a leap day is the last day of its
year. Four centuries have 146097 days.
-/
namespace Entitle

/-- A moment since the start of 1970. -/
structure Instant where
  seconds : Nat
  nanoseconds : Nat
  deriving DecidableEq, Repr

namespace Instant

/-- The number of days from the first of March of the year 0 to the start of 1970. -/
def epochDay : Nat := 719468

/-- The year, counted from March, and the day in it, of a day within four centuries. -/
def yearAndDay (day : Nat) : Nat × Nat :=
  let year := (day - day / 1460 + day / 36524 - day / 146096) / 365
  (year, day - (365 * year + year / 4 - year / 100))

/-- The month, counted from March, and the day in it, of a day of the year. -/
def monthAndDay (day : Nat) : Nat × Nat :=
  let month := (5 * day + 2) / 153
  (month, day - (153 * month + 2) / 5)

/-- The year, month and day of an instant. -/
def date (i : Instant) : Nat × Nat × Nat :=
  let days := i.seconds / 86400 + epochDay
  let (year, dayOfYear) := yearAndDay (days % 146097)
  let (month, day) := monthAndDay dayOfYear
  let fullYear := year + 400 * (days / 146097)
  if month < 10 then (fullYear, month + 3, day + 1) else (fullYear + 1, month - 9, day + 1)

/-- A number in at least `width` digits. -/
def padded (width n : Nat) : String :=
  let digits := Nat.toDigits 10 n
  String.ofList (List.replicate (width - digits.length) '0' ++ digits)

/-- The digits of a fraction of a second without the zeros at its end. -/
def fraction (nanoseconds : Nat) : String :=
  if nanoseconds = 0 then ""
  else
    let digits := (padded 9 nanoseconds).toList
    "." ++ String.ofList (digits.reverse.dropWhile (· == '0')).reverse

/-- The text of an instant. -/
def text (i : Instant) : String :=
  let (year, month, day) := i.date
  let ofDay := i.seconds % 86400
  s!"{padded 4 year}-{padded 2 month}-{padded 2 day}T{padded 2 (ofDay / 3600)}:" ++
    s!"{padded 2 (ofDay / 60 % 60)}:{padded 2 (ofDay % 60)}{fraction i.nanoseconds}Z"

example : (Instant.mk 0 0).text = "1970-01-01T00:00:00Z" := by decide +kernel
example : (Instant.mk 951782399 250000000).text = "2000-02-28T23:59:59.25Z" := by decide +kernel
example : (Instant.mk 951782400 1).text = "2000-02-29T00:00:00.000000001Z" := by decide +kernel

end Instant

end Entitle
