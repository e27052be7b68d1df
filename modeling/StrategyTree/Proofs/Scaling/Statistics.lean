import Mathlib.Algebra.BigOperators.Ring.List
import Mathlib.Algebra.Order.Field.Basic
import Mathlib.Tactic.Ring
import StrategyTree.Indicator
import StrategyTree.Performance
import StrategyTree.Proofs.Exact
import StrategyTree.Simulation

/-!
# Statistics of scaled numbers

What is computed from ratios does not change when every number is multiplied by one and the same
positive constant. In exact arithmetic this holds of daily returns, of the figures of a run, and of
every indicator that is made of returns, changes or falls: a constant meets the numerator and the
denominator of each ratio, and the guards, which ask for a sign or for zero, decide as before.

* `Indicator.Function.ScaleFree`: the indicators that are made of ratios.
* `Indicator.Function.values_scaled`: their values over scaled closes.
* `dailyReturns_scaled`, `Performance.ofBalances_scaled`: returns and figures of scaled balances.
-/

namespace StrategyTree

open Scalar Statistics

/-! ## Lists -/

theorem windows_map {β γ : Type} (f : β → γ) (n : Nat) (xs : List β) :
    windows n (xs.map f) = (windows n xs).map (List.map f) := by
  induction xs with
  | nil => rfl
  | cons x xs ih =>
    simp only [List.map_cons, windows, List.length_map]
    split
    · simp [ih, List.map_take]
    · rfl

/-- A running state over the images of a list is the image of the running state. -/
theorem trace_map {β γ σ τ : Type} {step : σ → β → σ} {step' : τ → γ → τ} {f : β → γ} {g : σ → τ}
    (h : ∀ s b, step' (g s) (f b) = g (step s b)) (bs : List β) :
    ∀ s, trace step' (g s) (bs.map f) = (trace step s bs).map g := by
  induction bs with
  | nil => intro s; rfl
  | cons b bs ih =>
    intro s
    rw [List.map_cons, trace, h, ih, trace, List.map_cons]

variable {K : Type} [Field K] [LinearOrder K] [Roots K]

/-- A function of two numbers that does not see a common factor. -/
def Ratio (c : K) (f : K → K → K) : Prop := ∀ a b, f (c * a) (c * b) = f a b

theorem Ratio.zipWith {c : K} {f : K → K → K} (h : Ratio c f) (xs ys : List K) :
    List.zipWith f (xs.map (c * ·)) (ys.map (c * ·)) = List.zipWith f xs ys := by
  simp only [List.zipWith_map, h _ _]

variable {c : K} (hc : 0 < c)

include hc

theorem scaled_change (a b : K) : (c * b - c * a) / (c * a) = (b - a) / a := by
  rw [← mul_sub, mul_div_mul_left _ _ hc.ne']

theorem percentReturn_scaled : Ratio c percentReturn := by
  intro a b
  simp only [percentReturn, mul_div_mul_left _ _ hc.ne']

theorem fallPercent_scaled : Ratio c fallPercent := by
  intro a b
  simp only [fallPercent, ← mul_sub, mul_div_mul_left _ _ hc.ne']

theorem fallFraction_scaled : Ratio c fallFraction := by
  intro a b
  simp only [fallFraction, ← mul_sub, mul_div_mul_left _ _ hc.ne']

/-- Returns of scaled balances. -/
theorem dailyReturns_scaled (xs : List K) : dailyReturns (xs.map (c * ·)) = dailyReturns xs := by
  rw [dailyReturns, ← List.map_tail, (percentReturn_scaled hc).zipWith, dailyReturns]

variable [IsStrictOrderedRing K]

/-! ## Signs -/

theorem zero_lt_scaled {x : K} : zero < c * x ↔ zero < x := by
  rw [Exact.zero_lt_iff, Exact.zero_lt_iff, mul_pos_iff_of_pos_left hc]

theorem scaled_lt_scaled {x y : K} : c * x < c * y ↔ x < y := mul_lt_mul_iff_right₀ hc

theorem scaled_lt_zero {x : K} : c * x < zero ↔ x < zero := by
  have image : c * x < c * 0 ↔ x < 0 := scaled_lt_scaled hc
  rw [mul_zero] at image
  rw [Exact.zero_eq, image]

omit [IsStrictOrderedRing K] in
theorem scaled_beq_zero (x : K) : (c * x == zero) = (x == zero) := by
  rw [Bool.eq_iff_iff, beq_iff_eq, beq_iff_eq, Exact.zero_eq, mul_eq_zero_iff_left hc.ne']

/-! ## Returns and falls -/

omit [IsStrictOrderedRing K] in
theorem percentChange_scaled : Ratio c percentChange := by
  intro a b
  simp only [percentChange, scaled_beq_zero hc, scaled_change hc]

omit [IsStrictOrderedRing K] in
theorem percentReturns_scaled (xs : List K) :
    percentReturns (xs.map (c * ·)) = percentReturns xs := by
  rw [percentReturns, ← List.map_tail, (percentChange_scaled hc).zipWith, percentReturns]

/-- The largest fall from a peak is the same where the measure of a fall is a ratio: the peaks are
scaled with the values. -/
theorem largestFall_scaled {measure : K → K → K} (hm : Ratio c measure) (xs : List K) :
    largestFall measure (xs.map (c * ·)) = largestFall measure xs := by
  have step : ∀ (s : Peak K) (x : K),
      Peak.step measure ⟨s.top.map (c * ·), s.fall⟩ (c * x) =
        ⟨(Peak.step measure s x).top.map (c * ·), (Peak.step measure s x).fall⟩ := by
    rintro ⟨top, fall⟩ x
    cases top with
    | none => rfl
    | some top =>
      simp only [Peak.step, Option.map_some, scaled_lt_scaled hc, zero_lt_scaled hc, hm top x]
      split
      · rfl
      · split <;> rfl
  have run : ∀ (xs : List K) (s : Peak K),
      ((xs.map (c * ·)).foldl (Peak.step measure) ⟨s.top.map (c * ·), s.fall⟩).fall =
        (xs.foldl (Peak.step measure) s).fall := by
    intro xs
    induction xs with
    | nil => intro s; rfl
    | cons x xs ih =>
      intro s
      rw [List.map_cons, List.foldl_cons, step, ih, List.foldl_cons]
  exact run xs ⟨none, zero⟩

theorem drawdown_scaled (xs : List K) : drawdown (xs.map (c * ·)) = drawdown xs :=
  largestFall_scaled hc (fallPercent_scaled hc) xs

/-! ## Relative strength -/

namespace Indicator

omit [IsStrictOrderedRing K] hc in
theorem sum_map_scaled {f : K → K} (hf : ∀ x, f (c * x) = c * f x) (xs : List K) :
    sum ((xs.map (c * ·)).map f) = c * sum (xs.map f) := by
  rw [Exact.sum_eq, Exact.sum_eq, List.map_map, ← List.sum_map_mul_left]
  simp [Function.comp_def, hf]

theorem gainOf_scaled (x : K) : gainOf (c * x) = c * gainOf x := by
  simp only [gainOf, zero_lt_scaled hc]
  split <;> simp

theorem lossOf_scaled (x : K) : lossOf (c * x) = c * lossOf x := by
  simp only [lossOf, scaled_lt_zero hc]
  split
  · exact (mul_neg c x).symm
  · simp

/-- The mean gain and the mean loss of scaled changes. -/
def Strength.scaled (c : K) (s : Strength K) : Strength K := ⟨c * s.gain, c * s.loss⟩

theorem Strength.ofChanges_scaled (n : Nat) (changes : List K) :
    ofChanges n (changes.map (c * ·)) = (ofChanges n changes).scaled c := by
  simp only [ofChanges, scaled, sum_map_scaled (gainOf_scaled hc), sum_map_scaled (lossOf_scaled hc),
    mul_div_assoc]

theorem Strength.step_scaled (n : Nat) (s : Strength K) (change : K) :
    step n (s.scaled c) (c * change) = (step n s change).scaled c := by
  simp only [step, scaled, gainOf_scaled hc, lossOf_scaled hc, mul_assoc, ← mul_add, mul_div_assoc]

omit [IsStrictOrderedRing K] in
theorem Strength.index_scaled (s : Strength K) : (s.scaled c).index = s.index := by
  simp only [index, scaled, scaled_beq_zero hc, mul_div_mul_left _ _ hc.ne']

theorem relativeStrength_scaled (n : Nat) (closes : List K) :
    relativeStrength n (closes.map (c * ·)) = relativeStrength n closes := by
  have changes : List.zipWith (fun a b => b - a) (closes.map (c * ·)) (closes.map (c * ·)).tail =
      (List.zipWith (fun a b => b - a) closes closes.tail).map (c * ·) := by
    rw [← List.map_tail, List.zipWith_map, List.map_zipWith]
    simp only [mul_sub]
  unfold relativeStrength
  simp only [changes, ← List.map_take, ← List.map_drop, Strength.ofChanges_scaled hc]
  rw [trace_map (Strength.step_scaled hc n), List.map_map]
  exact List.map_congr_left fun s _ => Strength.index_scaled hc s

/-! ## Indicators -/

omit hc [IsStrictOrderedRing K] [Roots K] [LinearOrder K] [Field K] in
/-- A function that is made of ratios of closes. -/
def Function.ScaleFree : Function → Prop
  | movingAveragePrice | exponentialMovingAveragePrice | standardDeviationPrice => False
  | cumulativeReturn | relativeStrengthIndex | maxDrawdown | movingAverageReturn
  | standardDeviationReturn => True

instance : DecidablePred Function.ScaleFree := fun f => by
  cases f <;> unfold Function.ScaleFree <;> infer_instance

/-- Indicators of scaled closes. A function that is made of ratios has the same values. -/
theorem Function.values_scaled {f : Function} (hf : f.ScaleFree) (n : Nat) (closes : List K) :
    f.values n (closes.map (c * ·)) = f.values n closes := by
  cases f with
  | movingAveragePrice | exponentialMovingAveragePrice | standardDeviationPrice => cases hf
  | cumulativeReturn =>
    simp only [values, ← List.map_drop]
    exact (percentChange_scaled hc).zipWith _ _
  | relativeStrengthIndex => exact relativeStrength_scaled hc n closes
  | maxDrawdown =>
    simp only [values, windows_map, List.map_map]
    exact List.map_congr_left fun w _ => drawdown_scaled hc w
  | movingAverageReturn => simp only [values, percentReturns_scaled hc]
  | standardDeviationReturn => simp only [values, percentReturns_scaled hc]

end Indicator

/-! ## Performance -/

namespace Performance

theorem growthPercent_scaled : Ratio c growthPercent := by
  intro a b
  simp only [growthPercent, zero_lt_scaled hc, scaled_change hc]

theorem dailyReturn_scaled : Ratio c dailyReturn := by
  intro a b
  simp only [dailyReturn, zero_lt_scaled hc, scaled_change hc]

theorem trailing_scaled (balances : List K) (days : Nat) :
    trailing (balances.map (c * ·)) days = trailing balances days := by
  simp only [trailing, List.length_map, List.getElem?_map, List.getLast?_map]
  cases balances[balances.length - (days + 1)]? with
  | none => rfl
  | some first =>
    cases balances.getLast? with
    | none => rfl
    | some last => exact growthPercent_scaled hc first last

omit [IsStrictOrderedRing K] in
theorem annualized_scaled (balances : List K) (first last : K) :
    annualized (balances.map (c * ·)) (c * first) (c * last) = annualized balances first last := by
  simp only [annualized, List.length_map, mul_div_mul_left _ _ hc.ne']

/-- Figures of scaled balances. All figures of a run are made of ratios of balances. -/
theorem ofBalances_scaled (balances : List K) (riskFreeRate : K) :
    ofBalances (balances.map (c * ·)) riskFreeRate = ofBalances balances riskFreeRate := by
  unfold ofBalances
  rw [List.head?_map, List.getLast?_map]
  cases balances.head? with
  | none => rfl
  | some first =>
    cases balances.getLast? with
    | none => rfl
    | some last =>
      simp only [Option.map_some, annualized_scaled hc, fallFromPeak,
        largestFall_scaled hc (fallFraction_scaled hc), ← List.map_tail,
        (dailyReturn_scaled hc).zipWith, trailing_scaled hc, growthPercent_scaled hc first last]
      rfl

end Performance

end StrategyTree
