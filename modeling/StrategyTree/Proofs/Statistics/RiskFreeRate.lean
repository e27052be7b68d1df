import Mathlib.Algebra.BigOperators.Ring.List
import Mathlib.Algebra.Order.BigOperators.Group.List
import Mathlib.Algebra.Order.Chebyshev
import Mathlib.Analysis.SpecialFunctions.Pow.Real
import Mathlib.Tactic.FieldSimp
import Mathlib.Tactic.Linarith
import Mathlib.Tactic.Ring
import StrategyTree.Performance
import StrategyTree.Proofs.Exact

/-!
# Performance at a higher risk-free rate

The risk-free rate enters two figures. Of the Sharpe ratio it lowers the numerator only. Of the
Sortino ratio it also raises the denominator, which takes in more and more days; if the mean return
is below the rate, that by itself would bring the ratio closer to zero. Over the real numbers the
numerator wins: the shortfall grows by no more than the rate does, and it is at least as large as
the distance from the mean return up to the rate.

* `Performance.rootMeanSquare_add_le`: a root mean square grows by no more than what is added.
* `Performance.shortfall_le_add`, `Performance.rate_sub_mean_le_shortfall`: the two bounds.
* `Performance.ofBalances_raised_rate`: the figures of a run at two rates.
-/

namespace StrategyTree

/-- The square roots and powers of the real numbers. -/
noncomputable instance : Roots ℝ where
  sqrt := Real.sqrt
  pow := Real.rpow

namespace Performance

open Scalar Statistics

/-! ## Root mean squares -/

/-- The square root of the mean square of a list. -/
noncomputable def rootMeanSquare (xs : List ℝ) : ℝ :=
  √((xs.map fun x => x * x).sum / xs.length)

variable {xs : List ℝ}

theorem squares_nonneg (xs : List ℝ) : ∀ y ∈ xs.map fun x => x * x, 0 ≤ y := by
  intro y hy
  obtain ⟨x, -, rfl⟩ := List.mem_map.1 hy
  exact mul_self_nonneg x

theorem length_pos_of_mem {x : ℝ} (hx : x ∈ xs) : (0 : ℝ) < xs.length :=
  Nat.cast_pos.2 (List.length_pos_of_mem hx)

/-- The squares of a list to whose numbers a number is added. -/
theorem sum_squares_add (xs : List ℝ) (c : ℝ) :
    ((xs.map (· + c)).map fun x => x * x).sum =
      (xs.map fun x => x * x).sum + 2 * c * xs.sum + xs.length * (c * c) := by
  induction xs with
  | nil => simp
  | cons x xs ih =>
    simp only [List.map_cons, List.sum_cons, List.length_cons, Nat.cast_succ, ih]
    ring

theorem sq_sum_le (xs : List ℝ) : xs.sum * xs.sum ≤ xs.length * (xs.map fun x => x * x).sum := by
  have sums : (∑ i : Fin xs.length, xs[i.1]) ^ 2 ≤ _ := sq_sum_le_card_mul_sum_sq
  rw [Finset.card_univ, Fintype.card_fin, Fin.sum_univ_getElem, sq] at sums
  simp only [sq] at sums
  rwa [← Fin.sum_univ_fun_getElem xs fun x => x * x]

theorem rootMeanSquare_nonneg (xs : List ℝ) : 0 ≤ rootMeanSquare xs := Real.sqrt_nonneg _

theorem rootMeanSquare_mul_self (xs : List ℝ) :
    rootMeanSquare xs * rootMeanSquare xs = (xs.map fun x => x * x).sum / xs.length :=
  Real.mul_self_sqrt (div_nonneg (List.sum_nonneg (squares_nonneg xs)) (Nat.cast_nonneg _))

/-- The mean is at most the root mean square. -/
theorem sum_div_le_rootMeanSquare (xs : List ℝ) : xs.sum / xs.length ≤ rootMeanSquare xs := by
  rcases eq_or_ne xs [] with rfl | nonempty
  · simpa using rootMeanSquare_nonneg []
  have count : (0 : ℝ) < xs.length := Nat.cast_pos.2 (List.length_pos_iff.2 nonempty)
  refine Real.le_sqrt_of_sq_le ?_
  rw [sq, div_mul_div_comm, div_le_div_iff₀ (mul_pos count count) count]
  calc xs.sum * xs.sum * xs.length
      ≤ xs.length * (xs.map fun x => x * x).sum * xs.length :=
        mul_le_mul_of_nonneg_right (sq_sum_le xs) count.le
    _ = (xs.map fun x => x * x).sum * (xs.length * xs.length) := by ring

theorem rootMeanSquare_le_of_forall {f g : ℝ → ℝ} (xs : List ℝ) (nonneg : ∀ x ∈ xs, 0 ≤ f x)
    (le : ∀ x ∈ xs, f x ≤ g x) : rootMeanSquare (xs.map f) ≤ rootMeanSquare (xs.map g) := by
  unfold rootMeanSquare
  rw [List.length_map, List.length_map, List.map_map, List.map_map]
  refine Real.sqrt_le_sqrt (div_le_div_of_nonneg_right ?_ (Nat.cast_nonneg _))
  refine List.sum_le_sum fun x hx => ?_
  exact mul_self_le_mul_self (nonneg x hx) (le x hx)

/-- Adding a number to all numbers of a list adds at most that number to the root mean square. -/
theorem rootMeanSquare_add_le (xs : List ℝ) {c : ℝ} (hc : 0 ≤ c) :
    rootMeanSquare (xs.map (· + c)) ≤ rootMeanSquare xs + c := by
  rcases eq_or_ne xs [] with rfl | nonempty
  · simpa using hc
  have count : (xs.length : ℝ) ≠ 0 := Nat.cast_ne_zero.2 (List.length_pos_iff.2 nonempty).ne'
  have squares : ((xs.map (· + c)).map fun x => x * x).sum / xs.length =
      rootMeanSquare xs * rootMeanSquare xs + 2 * c * (xs.sum / xs.length) + c * c := by
    rw [sum_squares_add, rootMeanSquare_mul_self]
    field_simp
  have mean := mul_le_mul_of_nonneg_left (sum_div_le_rootMeanSquare xs) hc
  have root := rootMeanSquare_nonneg xs
  refine Real.sqrt_le_iff.2 ⟨add_nonneg root hc, ?_⟩
  rw [List.length_map, squares]
  nlinarith only [mean]

theorem rootMeanSquare_pos {x : ℝ} (hx : x ∈ xs) (nonzero : x ≠ 0) : 0 < rootMeanSquare xs := by
  refine Real.sqrt_pos.2 (div_pos ?_ (length_pos_of_mem hx))
  have part : x * x ≤ (xs.map fun x => x * x).sum :=
    List.single_le_sum (squares_nonneg xs) _ (List.mem_map_of_mem hx)
  exact (mul_self_pos.2 nonzero).trans_le part

/-! ## Deviation and shortfall -/

theorem mean_eq (xs : List ℝ) : mean xs = xs.sum / xs.length := by
  rw [mean, Exact.sum_eq]
  rfl

theorem deviation_eq (xs : List ℝ) : deviation xs = rootMeanSquare (xs.map (· - mean xs)) := by
  rw [rootMeanSquare, List.length_map, List.map_map, deviation, Exact.sum_eq]
  rfl

/-- Returns that are not all equal deviate from their mean. -/
theorem deviation_pos (h : ∃ a ∈ xs, ∃ b ∈ xs, a ≠ b) : 0 < deviation xs := by
  obtain ⟨a, ha, b, hb, ne⟩ := h
  rw [deviation_eq]
  by_cases central : a = mean xs
  · refine rootMeanSquare_pos (List.mem_map_of_mem hb) (sub_ne_zero.2 fun e => ne ?_)
    rw [central, e]
  · exact rootMeanSquare_pos (List.mem_map_of_mem ha) (sub_ne_zero.2 central)

/-- By how much a return falls short of a rate. -/
def lack (rate r : ℝ) : ℝ := max (rate - r) 0

theorem lack_nonneg (rate r : ℝ) : 0 ≤ lack rate r := le_max_right _ _

theorem lack_le_lack {low high : ℝ} (h : low ≤ high) (r : ℝ) : lack low r ≤ lack high r :=
  max_le_max (sub_le_sub_right h r) le_rfl

theorem lack_le_add {low high : ℝ} (h : low ≤ high) (r : ℝ) :
    lack high r ≤ lack low r + (high - low) := by
  refine max_le ?_ (add_nonneg (lack_nonneg _ _) (sub_nonneg.2 h))
  have part : low - r ≤ lack low r := le_max_left _ _
  linarith

/-- A return above the rate counts as zero, as if it were left out. -/
theorem sum_filter_lack (rate : ℝ) (xs : List ℝ) :
    ((xs.filter fun r => decide (r < rate)).map fun r => (r - rate) * (r - rate)).sum =
      ((xs.map (lack rate)).map fun x => x * x).sum := by
  induction xs with
  | nil => rfl
  | cons r xs ih =>
    rw [List.filter_cons, List.map_cons, List.map_cons, List.sum_cons, ← ih]
    by_cases h : r < rate
    · have part : lack rate r = rate - r := max_eq_left (sub_nonneg.2 h.le)
      rw [if_pos (decide_eq_true h), List.map_cons, List.sum_cons, part]
      ring
    · have part : lack rate r = 0 := max_eq_right (sub_nonpos.2 (not_lt.1 h))
      rw [if_neg (by simpa using h), part, mul_zero, zero_add]

theorem shortfall_eq (xs : List ℝ) (rate : ℝ) :
    shortfall xs rate = rootMeanSquare (xs.map (lack rate)) := by
  unfold shortfall
  dsimp only
  rw [Exact.sum_eq, sum_filter_lack, rootMeanSquare, List.length_map]
  rfl

theorem shortfall_pos {rate : ℝ} (h : ∃ r ∈ xs, r < rate) : 0 < shortfall xs rate := by
  obtain ⟨r, hr, below⟩ := h
  rw [shortfall_eq]
  exact rootMeanSquare_pos (List.mem_map_of_mem hr)
    (lt_max_of_lt_left (sub_pos.2 below) : 0 < lack rate r).ne'

theorem shortfall_mono (xs : List ℝ) {low high : ℝ} (h : low ≤ high) :
    shortfall xs low ≤ shortfall xs high := by
  rw [shortfall_eq, shortfall_eq]
  exact rootMeanSquare_le_of_forall xs (fun r _ => lack_nonneg low r) fun r _ => lack_le_lack h r

/-- The shortfall grows by no more than the rate does. -/
theorem shortfall_le_add (xs : List ℝ) {low high : ℝ} (h : low ≤ high) :
    shortfall xs high ≤ shortfall xs low + (high - low) := by
  rw [shortfall_eq, shortfall_eq]
  have shifted := rootMeanSquare_add_le (xs.map (lack low)) (sub_nonneg.2 h)
  rw [List.map_map] at shifted
  exact (rootMeanSquare_le_of_forall xs (fun r _ => lack_nonneg high r)
    fun r _ => lack_le_add h r).trans shifted

theorem sum_map_sub (xs : List ℝ) (rate : ℝ) :
    (xs.map fun r => rate - r).sum = xs.length * rate - xs.sum := by
  induction xs with
  | nil => simp
  | cons r xs ih =>
    rw [List.map_cons, List.sum_cons, ih, List.sum_cons, List.length_cons, Nat.cast_succ]
    ring

/-- The mean return is below the rate by no more than the shortfall. -/
theorem rate_sub_mean_le_shortfall (nonempty : xs ≠ []) (rate : ℝ) :
    rate - mean xs ≤ shortfall xs rate := by
  have count : (0 : ℝ) < xs.length := Nat.cast_pos.2 (List.length_pos_iff.2 nonempty)
  rw [shortfall_eq, mean_eq]
  calc rate - xs.sum / xs.length
      = (xs.map fun r => rate - r).sum / xs.length := by
        rw [sum_map_sub, sub_div, mul_div_cancel_left₀ _ count.ne']
    _ ≤ (xs.map (lack rate)).sum / xs.length :=
        div_le_div_of_nonneg_right (List.sum_le_sum fun r _ => le_max_left _ _) count.le
    _ ≤ rootMeanSquare (xs.map (lack rate)) := by
        have bound := sum_div_le_rootMeanSquare (xs.map (lack rate))
        rwa [List.length_map] at bound

/-! ## Ratios -/

theorem yearlyRatio_of_pos (m : ℝ) {d : ℝ} (hd : 0 < d) :
    yearlyRatio m d = m / d * √252 := by
  rw [yearlyRatio, if_pos (Exact.zero_lt_iff.2 hd)]
  rfl

theorem sqrt_days_pos : 0 < √(252 : ℝ) := Real.sqrt_pos.2 (by norm_num)

theorem sharpe_raised_rate (varied : ∃ a ∈ xs, ∃ b ∈ xs, a ≠ b) {low high : ℝ} (h : low < high) :
    yearlyRatio (mean xs - high) (deviation xs) < yearlyRatio (mean xs - low) (deviation xs) := by
  have spread := deviation_pos varied
  rw [yearlyRatio_of_pos _ spread, yearlyRatio_of_pos _ spread]
  have ratio := div_lt_div_of_pos_right (sub_lt_sub_left h (mean xs)) spread
  exact mul_lt_mul_of_pos_right ratio sqrt_days_pos

/-- The ratio falls because the shortfall, multiplied by the excess return, grows by less than what
the excess return loses, multiplied by the shortfall. -/
theorem sortino_raised_rate {low high : ℝ} (below : ∃ r ∈ xs, r < low) (h : low < high) :
    yearlyRatio (mean xs - high) (shortfall xs high) ≤
      yearlyRatio (mean xs - low) (shortfall xs low) := by
  have nonempty : xs ≠ [] := List.ne_nil_of_mem below.choose_spec.1
  have before := shortfall_pos below
  have grows := shortfall_mono xs h.le
  have after := before.trans_le grows
  have slowly := shortfall_le_add xs h.le
  have distance := rate_sub_mean_le_shortfall nonempty low
  rw [yearlyRatio_of_pos _ after, yearlyRatio_of_pos _ before]
  refine mul_le_mul_of_nonneg_right ((div_le_div_iff₀ after before).2 ?_) sqrt_days_pos.le
  generalize shortfall xs low = d at *
  generalize shortfall xs high = e at *
  generalize mean xs = m at *
  have kept : (low - m) * (e - d) ≤ d * (e - d) :=
    mul_le_mul_of_nonneg_right distance (sub_nonneg.2 grows)
  have gained : d * (e - d) ≤ d * (high - low) :=
    mul_le_mul_of_nonneg_left (sub_le_iff_le_add'.2 slowly) before.le
  calc (m - high) * d = (m - low) * e + (low - m) * (e - d) - d * (high - low) := by ring
    _ ≤ (m - low) * e := by linarith

/-! ## The figures of a run -/

theorem sharpe_ofBalances (balances : List ℝ) (rate : ℝ) :
    (ofBalances balances rate).sharpe =
      (riskAdjusted (List.zipWith dailyReturn balances balances.tail) (rate / daysPerYear)).2.1 := by
  cases balances with
  | nil => rfl
  | cons b bs =>
    unfold ofBalances
    rw [List.head?_cons, List.getLast?_cons]

theorem sortino_ofBalances (balances : List ℝ) (rate : ℝ) :
    (ofBalances balances rate).sortino =
      (riskAdjusted (List.zipWith dailyReturn balances balances.tail) (rate / daysPerYear)).2.2 := by
  cases balances with
  | nil => rfl
  | cons b bs =>
    unfold ofBalances
    rw [List.head?_cons, List.getLast?_cons]

theorem riskAdjusted_of_ne_nil (nonempty : xs ≠ []) (rate : ℝ) :
    riskAdjusted xs rate = (deviation xs, yearlyRatio (mean xs - rate) (deviation xs),
      yearlyRatio (mean xs - rate) (shortfall xs rate)) := by
  rw [riskAdjusted, if_neg (by simpa using nonempty)]

theorem deviation_riskAdjusted (xs : List ℝ) (low high : ℝ) :
    (riskAdjusted xs low).1 = (riskAdjusted xs high).1 := by
  unfold riskAdjusted
  split <;> rfl

/-- What each balance gains on the one before it, as a part of that. -/
noncomputable def gains (balances : List ℝ) : List ℝ :=
  List.zipWith (fun a b => (b - a) / a) balances balances.tail

/-- The daily returns of positive balances are their gains. -/
theorem zipWith_dailyReturn {balances : List ℝ} (pos : ∀ b ∈ balances, 0 < b) :
    List.zipWith dailyReturn balances balances.tail = gains balances := by
  refine List.ext_getElem (by simp [gains]) fun i hi _ => ?_
  rw [List.length_zipWith] at hi
  simp only [gains]
  rw [List.getElem_zipWith, List.getElem_zipWith, dailyReturn,
    if_pos (Exact.zero_lt_iff.2 (pos _ (List.getElem_mem _)))]

/-- **Main theorem: a higher risk-free rate never improves a figure.** Take positive balances and
their daily gains, over the real numbers. At a higher risk-free rate a year, the Sharpe ratio is
smaller if the gains are not all equal, and the Sortino ratio is not larger if some gain is below
the lower rate a day. All other figures are the same. -/
theorem ofBalances_raised_rate {balances : List ℝ} (pos : ∀ b ∈ balances, 0 < b) {low high : ℝ}
    (h : low < high) :
    ((∃ r ∈ gains balances, ∃ s ∈ gains balances, r ≠ s) →
      (ofBalances balances high).sharpe < (ofBalances balances low).sharpe) ∧
    ((∃ r ∈ gains balances, r < low / 252) →
      (ofBalances balances high).sortino ≤ (ofBalances balances low).sortino) ∧
    ofBalances balances high =
      { ofBalances balances low with
        sharpe := (ofBalances balances high).sharpe
        sortino := (ofBalances balances high).sortino } := by
  have daily : low / daysPerYear < high / (daysPerYear : ℝ) :=
    div_lt_div_of_pos_right h (by norm_num [daysPerYear, ofNat])
  rw [sharpe_ofBalances, sharpe_ofBalances, sortino_ofBalances, sortino_ofBalances,
    zipWith_dailyReturn pos]
  refine ⟨fun varied => ?_, fun below => ?_, ?_⟩
  · have nonempty : gains balances ≠ [] := List.ne_nil_of_mem varied.choose_spec.1
    rw [riskAdjusted_of_ne_nil nonempty, riskAdjusted_of_ne_nil nonempty]
    exact sharpe_raised_rate varied daily
  · have nonempty : gains balances ≠ [] := List.ne_nil_of_mem below.choose_spec.1
    rw [riskAdjusted_of_ne_nil nonempty, riskAdjusted_of_ne_nil nonempty]
    exact sortino_raised_rate below daily
  · cases balances with
    | nil => rfl
    | cons b bs =>
      unfold ofBalances
      rw [List.head?_cons, List.getLast?_cons]
      dsimp only
      rw [zipWith_dailyReturn pos, deviation_riskAdjusted _ (low / daysPerYear)]

/-- Balances that rise, stay and fall. -/
noncomputable def unevenBalances : List ℝ := [8, 9, 9, 7]

theorem ofBalances_raised_rate_unevenBalances :
    (∀ b ∈ unevenBalances, 0 < b) ∧ (1 / 50 : ℝ) < 1 / 20 ∧
    (ofBalances unevenBalances (1 / 20)).sharpe < (ofBalances unevenBalances (1 / 50)).sharpe ∧
    (ofBalances unevenBalances (1 / 20)).sortino ≤ (ofBalances unevenBalances (1 / 50)).sortino ∧
    (ofBalances unevenBalances (1 / 20)).calmar = (ofBalances unevenBalances (1 / 50)).calmar := by
  have pos : ∀ b ∈ unevenBalances, 0 < b := by norm_num [unevenBalances]
  have rates : (1 / 50 : ℝ) < 1 / 20 := by norm_num
  obtain ⟨sharpe, sortino, others⟩ := ofBalances_raised_rate pos rates
  have still : (0 : ℝ) ∈ gains unevenBalances := by norm_num [gains, unevenBalances]
  have first : (1 / 8 : ℝ) ∈ gains unevenBalances := by norm_num [gains, unevenBalances]
  refine ⟨pos, rates, sharpe ⟨_, still, _, first, by norm_num⟩, sortino ⟨_, still, by norm_num⟩, ?_⟩
  rw [others]

end Performance

end StrategyTree
