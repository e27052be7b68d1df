/-!
# Decimal numerals and doubles

A `Decimal` is a digit string with a place for its point. `Decimal.toFloat` is the double nearest to
it, `Decimal.layout` its written form. The other way, `Decimal.shortest` finds the fewest digits
that read back as a given double, and `fixed` writes a double with a given number of places, an
exact half going to the even neighbour.
-/

namespace StrategyTree.Text

/-- A numeral: `mantissa` times ten to the power `exponent`. -/
structure Decimal where
  mantissa : Nat
  exponent : Int
  deriving DecidableEq, Repr

/-- A number with a digit character behind it. -/
def withDigit (n : Nat) (c : Char) : Nat := 10 * n + (c.toNat - 48)

/-- The digits of a list of digit characters, as a number. -/
def digitsToNat (ds : List Char) : Nat := ds.foldl withDigit 0

/-- Whether a text is digits only, and not empty. -/
def isDigits (s : List Char) : Bool := !s.isEmpty && s.all Char.isDigit

/-- Reads an exponent: nothing, or the letter `e`, an optional sign and digits. -/
def readExponent (s : List Char) : Option Int :=
  match s with
  | [] => some 0
  | c :: rest =>
    let (negative, digits) := match rest with
      | '-' :: ds => (true, ds)
      | '+' :: ds => (false, ds)
      | ds => (false, ds)
    if (c == 'e' || c == 'E') && isDigits digits then
      some (if negative then -(digitsToNat digits) else digitsToNat digits)
    else none

namespace Decimal

/-- The double nearest to a numeral. -/
def toFloat (d : Decimal) : Float :=
  Float.ofScientific d.mantissa (d.exponent < 0) d.exponent.natAbs

/-! ## Written form -/

/-- How a numeral is written: digits, digits after a point (without any there is no point), and a
power of ten if there is one. -/
structure Layout where
  whole : List Char
  places : List Char
  exponent : Option Int
  deriving DecidableEq, Repr

/-- The numeral that a written form stands for. -/
def Layout.value (l : Layout) : Decimal :=
  ⟨digitsToNat (l.whole ++ l.places), l.exponent.getD 0 - l.places.length⟩

/-- The text of a written form. An exponent always has a sign. -/
def Layout.render (l : Layout) : List Char :=
  l.whole ++ (if l.places.isEmpty then [] else '.' :: l.places) ++
    match l.exponent with
    | none => []
    | some e => 'e' :: (if e < 0 then '-' else '+') :: (toString e.natAbs).toList

/-- The digits of a number without the zeros at its end. -/
def significant (n : Nat) : List Char := ((toString n).toList.reverse.dropWhile (· == '0')).reverse

/-- The written form of a numeral. When the first digit stands for at least `10⁻⁵` and less than
`10¹⁶` it is written plainly with at least one digit after the point, otherwise with one digit
before the point and a power of ten. -/
def layout (d : Decimal) : Layout :=
  let digits := significant d.mantissa
  let first : Int := d.exponent + (toString d.mantissa).length - 1
  if d.mantissa = 0 then ⟨['0'], ['0'], none⟩
  else if 0 ≤ first ∧ first < 16 then
    let n := first.toNat + 1
    let places := digits.drop n
    ⟨digits.take n ++ List.replicate (n - digits.length) '0',
      if places.isEmpty then ['0'] else places, none⟩
  else if -5 ≤ first ∧ first < 0 then
    ⟨['0'], List.replicate (first.natAbs - 1) '0' ++ digits, none⟩
  else ⟨digits.take 1, digits.drop 1, some first⟩

/-! ## The exact value of a double -/

/-- A positive rational number, not necessarily in lowest terms. -/
structure Ratio where
  num : Nat
  den : Nat

/-- The absolute value of a finite double: its 52 stored bits and, above the subnormal range, the
hidden bit, scaled by its exponent. -/
def magnitude (x : Float) : Ratio :=
  let bits := x.toBits.toNat % Nat.pow 2 63
  let biased : Nat := bits / Nat.pow 2 52
  let stored := bits % Nat.pow 2 52
  let m := if biased = 0 then stored else stored + Nat.pow 2 52
  let q : Int := (max biased 1 : Nat) - 1075
  if q < 0 then ⟨m, Nat.pow 2 q.natAbs⟩ else ⟨m * Nat.pow 2 q.natAbs, 1⟩

/-- A ratio times a power of ten. -/
def Ratio.scale (r : Ratio) (e : Int) : Ratio :=
  if e < 0 then ⟨r.num, r.den * Nat.pow 10 e.natAbs⟩
  else ⟨r.num * Nat.pow 10 e.natAbs, r.den⟩

/-- The power of ten of the first digit of a positive ratio. -/
def Ratio.leading (r : Ratio) : Int :=
  if r.den ≤ r.num then (toString (r.num / r.den)).length - 1
  else
    match (List.range 400).find? fun k => r.den ≤ r.num * Nat.pow 10 k with
    | some k => -k
    | none => -400

/-! ## Fewest digits -/

/-- The two neighbours of a ratio among the numerals whose last digit has the given power of ten,
the nearer one first; of two equally near ones the even one. -/
def neighbours (r : Ratio) (exponent : Int) : List Decimal :=
  let s := r.scale (-exponent)
  let below := s.num / s.den
  let low : Decimal := ⟨below, exponent⟩
  let high : Decimal := ⟨below + 1, exponent⟩
  let twice := 2 * (s.num % s.den)
  if twice < s.den ∨ (twice = s.den ∧ below % 2 = 0) then [low, high] else [high, low]

/-- The numerals of up to 17 digits nearest to a ratio, those with fewer digits first. -/
def candidates (r : Ratio) : List Decimal :=
  let leading := r.leading
  (List.range 17).flatMap fun (n : Nat) => neighbours r (leading - n)

/-- The numeral with the fewest digits that, once written, reads back as a positive finite double,
and of those the nearest to it. -/
def shortest (x : Float) : Option Decimal :=
  (candidates (magnitude x)).find? fun d => d.layout.value.toFloat.toBits == x.toBits

end Decimal

/-! ## A fixed number of places -/

/-- The quotient rounded to the nearest natural number, an exact half going to the even one. -/
def roundQuotient (num den : Nat) : Nat :=
  let q := num / den
  let twice := 2 * (num % den)
  if twice < den ∨ (twice = den ∧ q % 2 = 0) then q else q + 1

/-- Whether the sign bit of a double is set. -/
def isNegative (x : Float) : Bool := Nat.pow 2 63 ≤ x.toBits.toNat

/-- Writes a double with a given number of places after the point. -/
def fixed (places : Nat) (x : Float) : String :=
  if x.isNaN then "NaN"
  else
    let sign := if isNegative x then "-" else ""
    if x.isInf then sign ++ "inf"
    else
      let r := (Decimal.magnitude x).scale places
      let digits := toString (roundQuotient r.num r.den)
      let padded := "".pushn '0' (places + 1 - digits.length) ++ digits
      let whole := (padded.toList.take (padded.length - places))
      let rest := (padded.toList.drop (padded.length - places))
      sign ++ String.ofList (if rest.isEmpty then whole else whole ++ '.' :: rest)

end StrategyTree.Text
