import StrategyTree.Text.Decimal

/-!
# Numbers written by hand

Readers for the numbers of price files and configurations. A count is digits after an optional plus
sign. A real number is an optional sign before either digits with an optional point and exponent, or
one of the words `inf`, `infinity` and `nan` in any case; it is read as the nearest double, which is
infinite where the number is too large.
-/

namespace StrategyTree.Text

/-- Why a text is no real number. -/
inductive NumeralFault where
  | empty
  | invalid
  deriving DecidableEq, Repr

/-- The text shown for a fault. -/
def NumeralFault.message : NumeralFault → String
  | empty => "cannot parse float from empty string"
  | invalid => "invalid float literal"

/-- Reads a count below a limit. -/
def readCount (limit : Nat) (s : List Char) : Option Nat :=
  let digits := match s with
    | '+' :: rest => rest
    | rest => rest
  if isDigits digits && digitsToNat digits < limit then some (digitsToNat digits) else none

/-- Reads digits with an optional point among them and an optional exponent behind. -/
def readDecimal (s : List Char) : Option Decimal := do
  let whole := s.takeWhile Char.isDigit
  let rest := s.drop whole.length
  let (places, rest) := match rest with
    | '.' :: r => (r.takeWhile Char.isDigit, r.dropWhile Char.isDigit)
    | r => ([], r)
  if whole.isEmpty ∧ places.isEmpty then none
  else
    let exponent ← readExponent rest
    return ⟨digitsToNat (whole ++ places), exponent - places.length⟩

/-- Reads a real number without sign. -/
def readMagnitude (s : List Char) : Option Float :=
  let word := String.ofList (s.map Char.toLower)
  if word = "inf" ∨ word = "infinity" then some (1.0 / 0.0)
  else if word = "nan" then some (0.0 / 0.0)
  else (readDecimal s).map Decimal.toFloat

/-- Reads a real number. -/
def readFloat (s : List Char) : Except NumeralFault Float :=
  let (negative, digits) := match s with
    | '-' :: rest => (true, rest)
    | '+' :: rest => (false, rest)
    | rest => (false, rest)
  if s.isEmpty then .error .empty
  else
    match readMagnitude digits with
    | some x => .ok (if negative then -x else x)
    | none => .error .invalid

end StrategyTree.Text
