/-!
# Dates and times

Calendar dates, times of day with microseconds, and moments that combine them with an offset from
universal time. The written form is that of ISO 8601.

* `Date.isValid`, `Clock.isValid`: the ranges of the proleptic Gregorian calendar and of the day.
* `Moment.text`: the ISO 8601 form; `Moment.plain` has a blank between date and time.
* `Moment.spelled`: the form inside collections, part by part.
* `Moment.same`: equality, in which two moments with offsets are equal when they are the same
  instant.
-/

namespace YamlServer

structure Date where
  year : Nat
  month : Nat
  day : Nat
deriving Repr, DecidableEq, Inhabited

structure Clock where
  hour : Nat
  minute : Nat
  second : Nat
  micro : Nat
deriving Repr, DecidableEq, Inhabited

/-- A date, a time of day, or both with an offset from universal time in seconds, if known. -/
inductive Moment where
  | date (d : Date)
  | clock (t : Clock)
  | dateTime (d : Date) (t : Clock) (offset : Option Int)
deriving Repr, DecidableEq, Inhabited

namespace Date

def isLeap (year : Nat) : Bool :=
  year % 4 == 0 && (year % 100 != 0 || year % 400 == 0)

def daysInMonth (year month : Nat) : Nat :=
  if month == 2 then (if isLeap year then 29 else 28)
  else if month == 4 || month == 6 || month == 9 || month == 11 then 30
  else 31

/-- A day of the calendar, from year 1 to year 9999. -/
def isValid (d : Date) : Bool :=
  1 ≤ d.year && d.year ≤ 9999 && 1 ≤ d.month && d.month ≤ 12 && 1 ≤ d.day &&
    d.day ≤ daysInMonth d.year d.month

/-- The number of days before a date, counted from the first day of year 1. -/
def dayNumber (d : Date) : Nat :=
  let y := d.year - 1
  let months := (List.range (d.month - 1)).map fun m => daysInMonth d.year (m + 1)
  y * 365 + y / 4 - y / 100 + y / 400 + months.foldl (· + ·) 0 + (d.day - 1)

end Date

namespace Clock

def isValid (t : Clock) : Bool :=
  t.hour < 24 && t.minute < 60 && t.second < 60 && t.micro < 1000000

def micros (t : Clock) : Nat :=
  ((t.hour * 60 + t.minute) * 60 + t.second) * 1000000 + t.micro

end Clock

namespace Moment

def padded (width n : Nat) : String :=
  let digits := Nat.toDigits 10 n
  String.ofList (List.replicate (width - digits.length) '0' ++ digits)

def dateText (d : Date) : String :=
  padded 4 d.year ++ "-" ++ padded 2 d.month ++ "-" ++ padded 2 d.day

/-- Hours, minutes and seconds, and microseconds unless there are none. -/
def clockText (t : Clock) : String :=
  padded 2 t.hour ++ ":" ++ padded 2 t.minute ++ ":" ++ padded 2 t.second ++
    (if t.micro == 0 then "" else "." ++ padded 6 t.micro)

/-- An offset as a sign, hours and minutes, and seconds unless there are none. -/
def offsetText (offset : Int) : String :=
  let s := offset.natAbs
  (if offset < 0 then "-" else "+") ++ padded 2 (s / 3600) ++ ":" ++ padded 2 (s / 60 % 60) ++
    (if s % 60 == 0 then "" else ":" ++ padded 2 (s % 60))

def text : Moment → String
  | .date d => dateText d
  | .clock t => clockText t
  | .dateTime d t offset =>
    dateText d ++ "T" ++ clockText t ++ (offset.map offsetText).getD ""

def plain : Moment → String
  | .dateTime d t offset =>
    dateText d ++ " " ++ clockText t ++ (offset.map offsetText).getD ""
  | m => m.text

def commas : List Nat → String
  | [] => ""
  | [n] => toString n
  | n :: rest => toString n ++ ", " ++ commas rest

/-- The parts of a time; seconds and microseconds at the end are left out when they are zero. -/
def clockParts (t : Clock) : List Nat :=
  if t.micro != 0 then [t.hour, t.minute, t.second, t.micro]
  else if t.second != 0 then [t.hour, t.minute, t.second]
  else [t.hour, t.minute]

/-- An offset by its parts; a negative one is a day less than none, and some seconds more. -/
def offsetSpelled (offset : Int) : String :=
  if offset == 0 then "datetime.timezone.utc"
  else
    let days := if offset < 0 then "days=-1, " else ""
    let seconds := if offset < 0 then offset + 86400 else offset
    "datetime.timezone(datetime.timedelta(" ++ days ++ "seconds=" ++ toString seconds ++ "))"

def spelled : Moment → String
  | .date d => "datetime.date(" ++ commas [d.year, d.month, d.day] ++ ")"
  | .clock t => "datetime.time(" ++ commas (clockParts t) ++ ")"
  | .dateTime d t offset =>
    "datetime.datetime(" ++ commas ([d.year, d.month, d.day] ++ clockParts t) ++
      ((offset.map fun o => ", tzinfo=" ++ offsetSpelled o).getD "") ++ ")"

/-- Microseconds since the start of year 1 in universal time. -/
def instant (d : Date) (t : Clock) (offset : Int) : Int :=
  Int.ofNat (d.dayNumber * 86400000000 + t.micros) - offset * 1000000

/-- Equality of moments: offsets do not count when both sides have one. -/
def same : Moment → Moment → Bool
  | .dateTime d t (some o), .dateTime d' t' (some o') => instant d t o == instant d' t' o'
  | a, b => a == b

end Moment
end YamlServer
