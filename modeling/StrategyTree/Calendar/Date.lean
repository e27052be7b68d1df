/-!
# Calendar days

A `Date` is a day of the proleptic Gregorian calendar, counted from 1970-01-01, within the years
-262143 to 262142. The count makes order and arithmetic those of integers; `Date.civil` and
`Date.ofCivil?` go between a day and its year, month and day of the month.

* `Date.rollForward`, `Date.rollBack`: the nearest working day at or after, at or before a day.
-/

namespace StrategyTree

/-- A day, counted from 1970-01-01, within the years -262143 to 262142. -/
structure Date where
  day : Int
  inRange : -96465292 ≤ day ∧ day ≤ 95026236 := by decide
  deriving DecidableEq, Repr

namespace Date

instance : LT Date := ⟨fun a b => a.day < b.day⟩
instance : LE Date := ⟨fun a b => a.day ≤ b.day⟩
instance : DecidableLT Date := fun a b => inferInstanceAs (Decidable (a.day < b.day))
instance : DecidableLE Date := fun a b => inferInstanceAs (Decidable (a.day ≤ b.day))

/-- The earlier of two days. -/
instance : Min Date := ⟨fun a b => if a ≤ b then a else b⟩

/-- The later of two days. -/
instance : Max Date := ⟨fun a b => if a ≤ b then b else a⟩

/-- The day of a count, if the calendar reaches it. -/
def ofDay? (n : Int) : Option Date :=
  if h : -96465292 ≤ n ∧ n ≤ 95026236 then some ⟨n, h⟩ else none

/-- The day `n` days after a day, if the calendar reaches it. -/
def addDays? (d : Date) (n : Int) : Option Date := ofDay? (d.day + n)

/-! ## Year, month and day of the month -/

/-- A day by year, month and day of the month, the last two counted from 1. The year before 1
is 0. -/
structure Civil where
  year : Int
  month : Nat
  day : Nat
  deriving DecidableEq, Repr

/-- Whether a year has a 29 February. -/
def isLeapYear (year : Int) : Bool := year % 4 = 0 ∧ (year % 100 ≠ 0 ∨ year % 400 = 0)

/-- The number of days of a month. -/
def monthLength (year : Int) (month : Nat) : Nat :=
  if month = 2 then if isLeapYear year then 29 else 28
  else if month = 4 ∨ month = 6 ∨ month = 9 ∨ month = 11 then 30
  else 31

/-- The count of a day. Years are taken from March to February, so that the leap day ends a year;
day 719468 of the era that starts with March of the year 0 is 1970-01-01. -/
def dayCount (c : Civil) : Int :=
  let year := if c.month ≤ 2 then c.year - 1 else c.year
  let era := year / 400
  let yearOfEra := year % 400
  let month : Int := if c.month ≤ 2 then c.month + 9 else c.month - 3
  let dayOfYear := (153 * month + 2) / 5 + c.day - 1
  let dayOfEra := yearOfEra * 365 + yearOfEra / 4 - yearOfEra / 100 + dayOfYear
  era * 146097 + dayOfEra - 719468

/-- The day of a year, month and day of the month, if there is one. -/
def ofCivil? (c : Civil) : Option Date :=
  if 1 ≤ c.month ∧ c.month ≤ 12 ∧ 1 ≤ c.day ∧ c.day ≤ monthLength c.year c.month then
    ofDay? (dayCount c)
  else none

/-- The year, month and day of the month of a day. -/
def civil (d : Date) : Civil :=
  let n := d.day + 719468
  let era := n / 146097
  let dayOfEra := n % 146097
  let yearOfEra := (dayOfEra - dayOfEra / 1460 + dayOfEra / 36524 - dayOfEra / 146096) / 365
  let dayOfYear := dayOfEra - (365 * yearOfEra + yearOfEra / 4 - yearOfEra / 100)
  let month := (5 * dayOfYear + 2) / 153
  let monthOfYear := if month < 10 then month + 3 else month - 9
  { year := yearOfEra + era * 400 + if monthOfYear ≤ 2 then 1 else 0
    month := monthOfYear.toNat
    day := (dayOfYear - (153 * month + 2) / 5 + 1).toNat }

/-! ## Working days -/

/-- The day of the week, counted from Sunday as 0. -/
def weekday (d : Date) : Int := (d.day + 4) % 7

/-- The day itself, or the Monday after a weekend. -/
def rollForward (d : Date) : Date :=
  let days := if d.weekday = 6 then 2 else if d.weekday = 0 then 1 else 0
  (d.addDays? days).getD d

/-- The day itself, or the Friday before a weekend. -/
def rollBack (d : Date) : Date :=
  let days := if d.weekday = 6 then 1 else if d.weekday = 0 then 2 else 0
  (d.addDays? (-days)).getD d

end Date

end StrategyTree
