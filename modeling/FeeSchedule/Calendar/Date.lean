/-!
# `FeeSchedule.Calendar.Date`: dates of the proleptic Gregorian calendar

A date is stored as its day number: 1 is 1 January of the year 1, and every later day adds
one, under the Gregorian leap-year rule carried back before 1582. The representable dates
run from 0001-01-01 to 9999-12-31. Comparison and difference of dates are those of their
day numbers.

Dates are read from text in the ISO 8601 calendar forms `YYYY-MM-DD` and `YYYYMMDD`, and
in the week forms `YYYY-Www-D`, `YYYYWwwD`, `YYYY-Www` and `YYYYWww` (day 1, Monday, when
the day is left out). The text must be 7, 8 or 10 bytes long in UTF-8 and is read from its
start; characters after the date proper are not looked at. Week 53 exists only in years
that start on a Thursday, or on a Wednesday in a leap year.
-/

namespace FeeSchedule

/-- A calendar date, as its day number counted from 0001-01-01, which is day 1. -/
structure Date where
  ordinal : Nat
  deriving DecidableEq, Repr, Inhabited

namespace Date

instance : LT Date := ⟨fun a b => a.ordinal < b.ordinal⟩
instance : LE Date := ⟨fun a b => a.ordinal ≤ b.ordinal⟩
instance (a b : Date) : Decidable (a < b) := inferInstanceAs (Decidable (a.ordinal < b.ordinal))
instance (a b : Date) : Decidable (a ≤ b) := inferInstanceAs (Decidable (a.ordinal ≤ b.ordinal))

/-- Leap years: divisible by 4, and by 400 when divisible by 100. -/
def isLeap (y : Nat) : Bool := y % 4 = 0 ∧ (y % 100 ≠ 0 ∨ y % 400 = 0)

/-- The number of days of month `m` (1 to 12) in year `y`. -/
def daysInMonth (y m : Nat) : Nat :=
  match m with
  | 1 | 3 | 5 | 7 | 8 | 10 | 12 => 31
  | 4 | 6 | 9 | 11 => 30
  | 2 => if isLeap y then 29 else 28
  | _ => 0

/-- The days of the years before year `y`. -/
def daysBeforeYear (y : Nat) : Nat :=
  let p := y - 1
  p * 365 + p / 4 - p / 100 + p / 400

/-- The days of the months before month `m` in year `y`. -/
def daysBeforeMonth (y m : Nat) : Nat :=
  (List.range (m - 1)).foldl (fun acc i => acc + daysInMonth y (i + 1)) 0

/-- The day number of a date given by year, month and day. -/
def ordinalOf (y m d : Nat) : Nat := daysBeforeYear y + daysBeforeMonth y m + d

/-- The first day number of the representable range. -/
def firstOrdinal : Nat := 1

/-- The last day number of the representable range, 9999-12-31. -/
def lastOrdinal : Nat := ordinalOf 9999 12 31

/-- The earliest representable date. -/
def min : Date := ⟨firstOrdinal⟩

/-- The latest representable date. -/
def max : Date := ⟨lastOrdinal⟩

/-- The date of a year, month and day, when they name a day between 0001-01-01 and
9999-12-31. -/
def ofYmd? (y m d : Nat) : Option Date :=
  if 1 ≤ y ∧ y ≤ 9999 ∧ 1 ≤ m ∧ m ≤ 12 ∧ 1 ≤ d ∧ d ≤ daysInMonth y m then
    some ⟨ordinalOf y m d⟩
  else none

/-- The year of a day number: the last year whose first day is not after it. -/
def yearOf (n : Nat) : Nat :=
  -- 400 years have 146097 days, so this estimate is at most one year off either way
  let est := (n * 400) / 146097 + 1
  if daysBeforeYear (est + 1) < n then est + 1
  else if daysBeforeYear est < n then est
  else est - 1

/-- The month of a day `r` (1-based) within year `y`. -/
def monthOf (y r : Nat) : Nat :=
  ((List.range 12).filter fun i => daysBeforeMonth y (i + 1) < r).length

/-- Year, month and day of a date. -/
def toYmd (dt : Date) : Nat × Nat × Nat :=
  let y := yearOf dt.ordinal
  let r := dt.ordinal - daysBeforeYear y
  let m := monthOf y r
  (y, m, r - daysBeforeMonth y m)

/-- The decimal digits of `n`, padded with zeros to `w` digits. -/
def padded (w n : Nat) : String :=
  let ds := Nat.toDigits 10 n
  String.ofList (List.replicate (w - ds.length) '0' ++ ds)

/-- The ISO text `YYYY-MM-DD`. -/
def isoText (dt : Date) : String :=
  let (y, m, d) := dt.toYmd
  padded 4 y ++ "-" ++ padded 2 m ++ "-" ++ padded 2 d

instance : ToString Date := ⟨isoText⟩

/-- The constructor form of a date used inside messages: `datetime.date(2024, 1, 1)`. -/
def constructorText (dt : Date) : String :=
  let (y, m, d) := dt.toYmd
  "datetime.date(" ++ toString y ++ ", " ++ toString m ++ ", " ++ toString d ++ ")"

/-- The date `n` days after `dt` (before, for negative `n`), when it is representable. -/
def addDays (dt : Date) (n : Int) : Option Date :=
  let k := (dt.ordinal : Int) + n
  if firstOrdinal ≤ k ∧ k ≤ lastOrdinal then some ⟨k.toNat⟩ else none

/-- The number of days from `b` to `a`. -/
def daysFrom (a b : Date) : Int := (a.ordinal : Int) - b.ordinal

/-- The day of the week of a day number, 0 for Monday. -/
def weekday (n : Nat) : Nat := (n + 6) % 7

/-- The day number of the Monday that starts ISO week 1 of year `y`: the week holding the
year's first Thursday. -/
def isoWeekOneMonday (y : Nat) : Int :=
  let first := ordinalOf y 1 1
  let wd := weekday first
  (first : Int) - wd + (if wd > 3 then 7 else 0)

/-- The date of day `d` (1 to 7) of ISO week `w` of year `y`, when the week exists and the
date is representable. -/
def ofIsoWeek? (y w d : Nat) : Option Date :=
  let wd := weekday (ordinalOf y 1 1)
  let longYear := wd = 3 ∨ (wd = 2 ∧ isLeap y)
  if y = 0 ∨ w = 0 ∨ w > 53 ∨ (w = 53 ∧ !longYear) ∨ d = 0 ∨ d > 7 then none
  else
    let n := isoWeekOneMonday y + ((w - 1) * 7 + d - 1 : Nat)
    if firstOrdinal ≤ n ∧ n ≤ lastOrdinal then some ⟨n.toNat⟩ else none

/-- The value of `k` ASCII digits at the start of `bs`, or `none`. -/
def digitsAt (k : Nat) (bs : List UInt8) : Option Nat :=
  let ds := bs.take k
  if ds.length = k ∧ ds.all (fun b => 48 ≤ b ∧ b ≤ 57) then
    some (ds.foldl (fun v b => 10 * v + (b.toNat - 48)) 0)
  else none

/-- The date written at the start of the bytes `bs`, whose total length is `len`. -/
def ofIsoBytes? (bs : List UInt8) (len : Nat) : Option Date := do
  let y ← digitsAt 4 bs
  let r := bs.drop 4
  let sep := r.head? = some 45
  let r := if sep then r.drop 1 else r
  if r.head? = some 87 then
    let r := r.drop 1
    let w ← digitsAt 2 r
    let r := r.drop 2
    let consumed := bs.length - r.length
    if consumed < len then
      let r ← if sep then (if r.head? = some 45 then some (r.drop 1) else none) else some r
      let d ← digitsAt 1 r
      ofIsoWeek? y w d
    else ofIsoWeek? y w 1
  else
    let m ← digitsAt 2 r
    let r := r.drop 2
    let r ← if sep then (if r.head? = some 45 then some (r.drop 1) else none) else some r
    let d ← digitsAt 2 r
    ofYmd? y m d

/-- The date written by an ISO text, in one of the forms listed above. -/
def ofIsoText? (s : String) : Option Date :=
  let bs := s.toUTF8.toList
  if bs.length = 7 ∨ bs.length = 8 ∨ bs.length = 10 then ofIsoBytes? bs bs.length else none

end Date

end FeeSchedule
