import StrategyTree.Error
import StrategyTree.Scalar

/-!
# Statistics over stretches of numbers

The building blocks shared by price indicators, statistics of simulated returns and performance
figures: consecutive stretches of a list, running states, mean and deviation, percent returns, and
the largest fall from a running peak.

* `length_windows`, `length_trace`, `length_percentReturns`: how many values each yields.
* `getElem?_trace`: a running state is where the steps up to it lead.
-/

namespace StrategyTree

/-! ## Stretches and running states -/

section Lists

variable {β σ : Type}

/-- All stretches of `n` consecutive elements, from left to right. -/
def windows (n : Nat) : List β → List (List β)
  | [] => []
  | x :: xs => if n ≤ xs.length + 1 then (x :: xs).take n :: windows n xs else []

/-- The states that a step runs through over a list, the starting state left out. -/
def trace (step : σ → β → σ) (s : σ) : List β → List σ
  | [] => []
  | b :: bs => step s b :: trace step (step s b) bs

theorem length_windows {n : Nat} (hn : 0 < n) :
    ∀ xs : List β, (windows n xs).length = xs.length + 1 - n
  | [] => by simp [windows]; omega
  | x :: xs => by
    rw [windows]
    split
    · rw [List.length_cons, length_windows hn xs, List.length_cons]
      omega
    · simp only [List.length_nil, List.length_cons]
      omega

@[simp] theorem length_trace (step : σ → β → σ) (s : σ) (bs : List β) :
    (trace step s bs).length = bs.length := by
  induction bs generalizing s with
  | nil => rfl
  | cons b bs ih => simp [trace, ih]

theorem getElem?_trace (step : σ → β → σ) :
    ∀ (bs : List β) (s : σ) {k : Nat}, k < bs.length →
      (trace step s bs)[k]? = some ((bs.take (k + 1)).foldl step s)
  | [], _, _, h => absurd h (Nat.not_lt_zero _)
  | _ :: _, _, 0, _ => rfl
  | b :: bs, s, k + 1, h => by
    rw [trace, List.getElem?_cons_succ, List.take_succ_cons, List.foldl_cons]
    exact getElem?_trace step bs (step s b) (Nat.lt_of_succ_lt_succ h)

end Lists

/-- Refuses an empty window and too short an input. -/
def checkWindow (function : String) (available window needed : Nat) : Except Error Unit :=
  if window = 0 then .error (.zeroWindow function)
  else if available < needed then .error (.tooFewValues function available needed)
  else .ok ()

/-! ## Mean and deviation -/

namespace Statistics

open Scalar

variable {α : Type} [Scalar α]

/-- The population standard deviation of a list. -/
def deviation (xs : List α) : α :=
  let centre := mean xs
  sqrt (sum (xs.map fun x => (x - centre) * (x - centre)) / ofNat xs.length)

/-! ## Returns -/

/-- The percentage by which a value changed against a base; a change from zero counts as none. -/
def percentChange (base value : α) : α :=
  if base == zero then zero else (value - base) / base * hundred

/-- The percent changes from each element to the one after it. -/
def percentReturns (xs : List α) : List α := List.zipWith percentChange xs xs.tail

/-- Grows a capital by a percent return. -/
def compound (capital percent : α) : α := capital * (one + percent / hundred)

/-- The capital that one unit grows to over a list of percent returns, the unit itself first. -/
def equityCurve (returns : List α) : List α := one :: trace compound one returns

/-- The percent return over a whole list of percent returns. -/
def compoundReturn (returns : List α) : α := (returns.foldl compound one - one) * hundred

/-! ## Falls from a peak -/

/-- The highest value so far, once there is one, and the largest fall from a peak so far. -/
structure Peak (α : Type) where
  top : Option α
  fall : α

/-- Takes in the next value: it is a new peak, or it is measured against the standing one if that
is positive. -/
def Peak.step (measure : α → α → α) (s : Peak α) (x : α) : Peak α :=
  match s.top with
  | none => if opensPeak x then { s with top := some x } else s
  | some top =>
    if top < x then { s with top := some x }
    else if zero < top then { s with fall := larger s.fall (measure top x) }
    else s

/-- The largest fall below a running peak, by a measure of the fall from a peak to a value. -/
def largestFall (measure : α → α → α) (xs : List α) : α :=
  (xs.foldl (Peak.step measure) ⟨none, zero⟩).fall

/-- The fall from a peak as a fraction of it. -/
def fallFraction (top x : α) : α := (top - x) / top

/-- The fall from a peak in percent of it. -/
def fallPercent (top x : α) : α := (top - x) / top * hundred

/-- The largest fall below a running peak, in percent. -/
def drawdown (xs : List α) : α := largestFall fallPercent xs

theorem length_percentReturns (xs : List α) : (percentReturns xs).length = xs.length - 1 := by
  simp [percentReturns, List.length_zipWith]

end Statistics

end StrategyTree
