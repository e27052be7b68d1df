import StrategyTree.Calendar.Date
import StrategyTree.Text.Blank
import StrategyTree.Text.Decimal

/-!
# Dates as text

A date is written `YYYY-MM-DD`. A year above 9999 is written with a plus sign, a negative one with a
minus sign and at least four digits.

Reading is wider than writing: the month and the day may have one digit, the year may have a sign
and then any number of digits, and blanks may precede each number. Where `blanksBetween` is set,
they may also precede each dash and end the text. A text is read from left to right, and the first
fault found is the one reported.
-/

namespace StrategyTree.DateText

open Text

/-! ## Writing -/

/-- A number with zeros before it up to a width. -/
def padded (width n : Nat) : String :=
  let digits := toString n
  "".pushn '0' (width - digits.length) ++ digits

/-- The text of a date. -/
def render (d : Date) : String :=
  let c := d.civil
  let year :=
    if c.year < 0 then "-" ++ padded 4 c.year.natAbs
    else if 9999 < c.year then "+" ++ toString c.year
    else padded 4 c.year.toNat
  year ++ "-" ++ padded 2 c.month ++ "-" ++ padded 2 c.day

/-! ## Reading -/

/-- Why a text is no date: a character that does not belong there, an early end, a number or a date
outside the calendar, or text that follows. -/
inductive Fault where
  | invalid
  | tooShort
  | outOfRange
  | trailing
  deriving DecidableEq, Repr

/-- The text shown for a fault. -/
def Fault.message : Fault → String
  | invalid => "input contains invalid characters"
  | tooShort => "premature end of input"
  | outOfRange => "input is out of range"
  | trailing => "trailing input"

/-- Reads a number without sign, of at least one digit and at most `width` of them if a width is
given, and returns it with the rest of the text. -/
def number (width : Option Nat) (s : List Char) : Except Fault (Nat × List Char) :=
  match s with
  | [] => .error .tooShort
  | c :: _ =>
    if c.isDigit then
      let digits := (s.take (width.getD s.length)).takeWhile Char.isDigit
      .ok (digitsToNat digits, s.drop digits.length)
    else .error .invalid

/-- Reads a year, after a sign with any number of digits. -/
def year (s : List Char) : Except Fault (Int × List Char) := do
  let (n, rest) ← match s with
    | '-' :: r => (number none r).map fun (n, rest) => (-(n : Int), rest)
    | '+' :: r => (number none r).map fun (n, rest) => ((n : Int), rest)
    | r => (number (some 4) r).map fun (n, rest) => ((n : Int), rest)
  if -2147483648 ≤ n ∧ n ≤ 2147483647 then return (n, rest) else throw .outOfRange

/-- Reads a number of one or two digits between 1 and a limit. -/
def field (limit : Nat) (s : List Char) : Except Fault (Nat × List Char) := do
  let (n, rest) ← number (some 2) s
  if 1 ≤ n ∧ n ≤ limit then return (n, rest) else throw .outOfRange

/-- Reads a dash. -/
def dash (s : List Char) : Except Fault (List Char) :=
  match s with
  | [] => .error .tooShort
  | '-' :: rest => .ok rest
  | _ => .error .invalid

/-- Reads a date that takes up the whole text. -/
def read (blanksBetween : Bool) (s : List Char) : Except Fault Date := do
  let skip := if blanksBetween then trimStart else id
  let (y, s) ← year (trimStart s)
  let s ← dash (skip s)
  let (m, s) ← field 12 (trimStart s)
  let s ← dash (skip s)
  let (d, s) ← field 31 (trimStart s)
  if (skip s).isEmpty then
    match Date.ofCivil? ⟨y, m, d⟩ with
    | some date => return date
    | none => throw .outOfRange
  else throw .trailing

end StrategyTree.DateText
