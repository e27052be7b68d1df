import StrategyTree.Keyed
import StrategyTree.Statistics
import StrategyTree.Word

/-!
# Price indicators

An indicator is a function of a ticker's closes over a trailing window. `Indicator.Function` lists
the functions by the names they have in strategy documents, `Indicator.Function.compute` runs one
over a list of closes, and `Indicator.Key` names one computation: a ticker, a function, a window.

The first value of a function belongs to the close at `Function.firstOffset`; from there on there
is one value for each close.

* `Indicator.Function.ofName_name`: a function is found by its name.
-/

namespace StrategyTree

namespace Indicator

open Scalar Statistics

/-- The indicator functions, in the order in which keys list them. -/
inductive Function where
  | movingAveragePrice
  | exponentialMovingAveragePrice
  | standardDeviationPrice
  | cumulativeReturn
  | relativeStrengthIndex
  | maxDrawdown
  | movingAverageReturn
  | standardDeviationReturn
  deriving DecidableEq, Repr

namespace Function

/-- The name of a function in documents and messages. -/
def name : Function → String
  | movingAveragePrice => "moving-average-price"
  | exponentialMovingAveragePrice => "exponential-moving-average-price"
  | standardDeviationPrice => "standard-deviation-price"
  | cumulativeReturn => "cumulative-return"
  | relativeStrengthIndex => "relative-strength-index"
  | maxDrawdown => "max-drawdown"
  | movingAverageReturn => "moving-average-return"
  | standardDeviationReturn => "standard-deviation-return"

/-- All functions in order. -/
def all : List Function :=
  [movingAveragePrice, exponentialMovingAveragePrice, standardDeviationPrice, cumulativeReturn,
    relativeStrengthIndex, maxDrawdown, movingAverageReturn, standardDeviationReturn]

/-- The place of a function in the order of keys. -/
def rank : Function → Nat
  | movingAveragePrice => 0
  | exponentialMovingAveragePrice => 1
  | standardDeviationPrice => 2
  | cumulativeReturn => 3
  | relativeStrengthIndex => 4
  | maxDrawdown => 5
  | movingAverageReturn => 6
  | standardDeviationReturn => 7

/-- The function of a name. -/
def ofName (s : String) : Except Error Function :=
  match all.find? fun f => f.name == s with
  | some f => .ok f
  | none => .error (.unknownFunction s)

theorem ofName_name (f : Function) : ofName f.name = .ok f := by
  cases f <;> rfl

theorem rank_injective {f g : Function} (h : f.rank = g.rank) : f = g := by
  cases f <;> cases g <;> first | rfl | exact absurd h (by decide)

/-- The offset into the closes to which the first value belongs. -/
def firstOffset (f : Function) (window : Nat) : Nat :=
  match f with
  | movingAveragePrice | exponentialMovingAveragePrice | standardDeviationPrice | maxDrawdown =>
    window - 1
  | cumulativeReturn | relativeStrengthIndex | movingAverageReturn | standardDeviationReturn =>
    window

end Function

/-! ## The single functions -/

variable {α : Type} [Scalar α]

/-- One step of exponential smoothing with the smoothing factor `k`. -/
def smooth (k average close : α) : α := close * k + average * (one - k)

/-- The smoothing factor of an exponential mean over `n` closes. -/
def smoothingFactor (n : Nat) : α := ofNat 2 / (ofNat n + one)

/-- The exponential mean after each close from the `n`-th on; it starts at the first close. -/
def exponentialMean (n : Nat) : List α → List α
  | [] => []
  | c :: cs => (c :: trace (smooth (smoothingFactor n)) c cs).drop (n - 1)

/-- The mean gain and the mean loss of a sequence of changes. -/
structure Strength (α : Type) where
  gain : α
  loss : α

/-- What a change gains. -/
def gainOf (change : α) : α := if zero < change then change else zero

/-- What a change loses. -/
def lossOf (change : α) : α := if change < zero then -change else zero

namespace Strength

/-- The plain means over a list of changes. -/
def ofChanges (n : Nat) (changes : List α) : Strength α where
  gain := sum (changes.map gainOf) / ofNat n
  loss := sum (changes.map lossOf) / ofNat n

/-- Takes in a change, as one part in `n`. -/
def step (n : Nat) (s : Strength α) (change : α) : Strength α where
  gain := (s.gain * ofNat (n - 1) + gainOf change) / ofNat n
  loss := (s.loss * ofNat (n - 1) + lossOf change) / ofNat n

/-- The share of gains, from 0 to 100; without any loss it is 100. -/
def index (s : Strength α) : α :=
  if s.loss == zero then hundred else hundred - hundred / (one + s.gain / s.loss)

end Strength

/-- The relative strength after each close from offset `n` on. The means over the first `n` changes
are the seed, into which the last of those changes is then taken once more. -/
def relativeStrength (n : Nat) (closes : List α) : List α :=
  let changes := List.zipWith (fun a b => b - a) closes closes.tail
  (trace (Strength.step n) (Strength.ofChanges n (changes.take n)) (changes.drop (n - 1))).map
    Strength.index

/-- All values of a function over a list of closes. -/
def Function.values (f : Function) (n : Nat) (closes : List α) : List α :=
  match f with
  | movingAveragePrice => (windows n closes).map mean
  | exponentialMovingAveragePrice => exponentialMean n closes
  | standardDeviationPrice => (windows n closes).map deviation
  | cumulativeReturn => List.zipWith percentChange closes (closes.drop n)
  | relativeStrengthIndex => relativeStrength n closes
  | maxDrawdown => (windows n closes).map drawdown
  | movingAverageReturn => (windows n (percentReturns closes)).map mean
  | standardDeviationReturn => (windows n (percentReturns closes)).map deviation

/-- Two functions cut their input at the window: the closes, and the changes from one close to the
next. A number of closes that ends before the cut is out of range. -/
def Function.checkCut (f : Function) (window count : Nat) : Except Error Unit :=
  match f with
  | cumulativeReturn => if window ≤ count then .ok () else .error (.outOfRange window count)
  | relativeStrengthIndex =>
    if window ≤ count - 1 then .ok () else .error (.outOfRange window (count - 1))
  | _ => .ok ()

/-- All values of a function over a list of closes, if the window is not empty and the closes
suffice for one value. How many that takes is reckoned in words: the largest window asks for no
closes at all of a function whose offset is its window. -/
def Function.compute (f : Function) (closes : List α) (window : Nat) : Except Error (List α) := do
  checkWindow f.name closes.length window (Word.add (f.firstOffset window) 1)
  f.checkCut window closes.length
  return f.values window closes

/-! ## Keys -/

/-- Names one indicator: the ticker whose closes it reads, the function, the window. -/
structure Key where
  ticker : String
  function : Function
  window : Nat
  deriving Repr

/-- The text of a key in messages and listings. -/
def Key.text (k : Key) : String := s!"{k.ticker}|{k.function.name}|{k.window}"

/-- The order of keys: by ticker, then by function, then by window. -/
def Key.Precedes (a b : Key) : Prop :=
  a.ticker < b.ticker ∨
    a.ticker = b.ticker ∧
      (a.function.rank < b.function.rank ∨
        a.function.rank = b.function.rank ∧ a.window < b.window)

instance : KeyOrder Key where
  lt := Key.Precedes
  decideLt a b := inferInstanceAs <| Decidable <|
    a.ticker < b.ticker ∨
      a.ticker = b.ticker ∧
        (a.function.rank < b.function.rank ∨
          a.function.rank = b.function.rank ∧ a.window < b.window)
  irrefl a h := by
    rcases h with h | ⟨_, h | ⟨_, h⟩⟩
    · exact KeyOrder.irrefl _ h
    · exact Nat.lt_irrefl _ h
    · exact Nat.lt_irrefl _ h
  trans {a b c} h g := by
    rcases h with h | ⟨h, h'⟩
    · rcases g with g | ⟨g, _⟩
      · exact .inl (KeyOrder.trans h g)
      · exact .inl (g ▸ h)
    · rcases g with g | ⟨g, g'⟩
      · exact .inl (h ▸ g)
      · exact .inr ⟨h.trans g, by omega⟩
  eq_of_not_lt {a b} h g := by
    obtain ⟨ta, fa, wa⟩ := a
    obtain ⟨tb, fb, wb⟩ := b
    simp only [LT.lt, Key.Precedes, not_or] at h g
    obtain rfl : ta = tb := KeyOrder.eq_of_not_lt h.1 g.1
    have h' := fun e => h.2 ⟨rfl, e⟩
    have g' := fun e => g.2 ⟨rfl, e⟩
    have hr : fa.rank = fb.rank := by
      rcases Nat.lt_trichotomy fa.rank fb.rank with e | e | e
      · exact absurd (.inl e) h'
      · exact e
      · exact absurd (.inl e) g'
    have hw : wa = wb := by
      rcases Nat.lt_trichotomy wa wb with e | e | e
      · exact absurd (.inr ⟨hr, e⟩) h'
      · exact e
      · exact absurd (.inr ⟨hr.symm, e⟩) g'
    rw [Function.rank_injective hr, hw]

end Indicator

end StrategyTree
