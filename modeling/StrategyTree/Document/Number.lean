import StrategyTree.Text.Decimal

/-!
# Numbers of a document

A `Number` keeps how it was written. Its double is found quickly rather than exactly: the leading
digits that fit into 64 bits are taken as a whole number, and one multiplication or division by a
power of ten puts the point in place, so that a number with many digits may become a neighbour of
the double nearest to it.

* `takeDigits_of_lt`: digits that fit all together are all taken.
-/

namespace StrategyTree

open Text

/-- A number as it is written: digits only, or with a point or an exponent. -/
inductive Number where
  | whole (negative : Bool) (magnitude : Nat)
  | fraction (negative : Bool) (layout : Decimal.Layout)
  deriving DecidableEq, Repr

namespace Number

/-! ## Text -/

/-- Whether digits are those of a whole number: at least one, and no zero before others. -/
def isWhole : List Char → Bool
  | [] => false
  | ['0'] => true
  | '0' :: _ => false
  | _ => true

/-- Reads what stands behind the digits of a number: nothing, or an exponent. -/
def readEnd (s : List Char) : Option (Option Int) :=
  if s.isEmpty then some none else (readExponent s).map some

/-- Reads a number: an optional minus sign, a whole part, a point with digits behind it if there is
a point, an exponent if there is one. -/
def read (s : List Char) : Option Number := do
  let (negative, s) := match s with
    | '-' :: rest => (true, rest)
    | rest => (false, rest)
  let whole := s.takeWhile Char.isDigit
  if !isWhole whole then none
  else
    match s.drop whole.length with
    | [] => return .whole negative (digitsToNat whole)
    | '.' :: rest =>
      let places := rest.takeWhile Char.isDigit
      if places.isEmpty then none
      else return .fraction negative ⟨whole, places, ← readEnd (rest.drop places.length)⟩
    | rest => return .fraction negative ⟨whole, [], ← readEnd rest⟩

/-- The text of a number. -/
def render : Number → List Char
  | whole negative n => (if negative then ['-'] else []) ++ (toString n).toList
  | fraction negative layout => (if negative then ['-'] else []) ++ layout.render

/-! ## Digits that fit -/

/-- The first number that does not fit into 64 bits. -/
def digitLimit : Nat := Nat.pow 2 64

/-- Puts digits behind a number for as long as it fits; then come the digits left over. -/
def takeDigits (n : Nat) : List Char → Nat × List Char
  | [] => (n, [])
  | c :: rest => if withDigit n c < digitLimit then takeDigits (withDigit n c) rest else (n, c :: rest)

theorem le_foldl_withDigit (n : Nat) (ds : List Char) : n ≤ ds.foldl withDigit n := by
  induction ds generalizing n with
  | nil => exact Nat.le_refl n
  | cons c rest ih =>
    refine Nat.le_trans ?_ (ih (withDigit n c))
    rw [withDigit]
    omega

theorem takeDigits_of_lt {n : Nat} {ds : List Char} (h : ds.foldl withDigit n < digitLimit) :
    takeDigits n ds = (ds.foldl withDigit n, []) := by
  induction ds generalizing n with
  | nil => rfl
  | cons c rest ih =>
    rw [takeDigits, if_pos (Nat.lt_of_le_of_lt (le_foldl_withDigit _ rest) h)]
    exact ih h

/-- The leading digits of a written form as far as they fit. Digits before the point that are left
over still count as places; after the point, digits are taken on if they fit. -/
def leading (l : Decimal.Layout) : Decimal :=
  let (head, skipped) := takeDigits 0 l.whole
  let (mantissa, dropped) := takeDigits head l.places
  ⟨mantissa, l.exponent.getD 0 + skipped.length + dropped.length - l.places.length⟩

/-! ## Doubles -/

/-- The largest power of ten that is a double. -/
def powerLimit : Nat := 308

/-- The double nearest to a power of ten. -/
def powerOfTen (n : Nat) : Float := Decimal.toFloat ⟨1, n⟩

/-- A double times a power of ten, unless the power or the product is too large. A small power is
taken in steps. -/
def scale? (x : Float) (exponent : Int) : Option Float :=
  if exponent.natAbs ≤ powerLimit then
    if exponent < 0 then some (x / powerOfTen exponent.natAbs)
    else
      let y := x * powerOfTen exponent.natAbs
      if y.isInf then none else some y
  else if x == 0.0 then some x
  else if exponent < 0 then scale? (x / powerOfTen powerLimit) (exponent + powerLimit)
  else none
termination_by exponent.natAbs
decreasing_by
  simp only [powerLimit] at *
  omega

/-- The written form of a number, less its sign. -/
def layout : Number → Decimal.Layout
  | whole _ n => ⟨(toString n).toList, [], none⟩
  | fraction _ l => l

/-- Whether a number has a minus sign. -/
def isNegative : Number → Bool
  | whole negative _ => negative
  | fraction negative _ => negative

/-- The double of a number, unless the number is too large for one. -/
def toFloat? (n : Number) : Option Float :=
  let d := leading n.layout
  (scale? (Decimal.toFloat ⟨d.mantissa, 0⟩) d.exponent).map fun x => if n.isNegative then -x else x

/-- A number written as digits only and below a limit. -/
def toNat? (limit : Nat) : Number → Option Nat
  | whole false n => if n < limit then some n else none
  | _ => none

end Number

end StrategyTree
