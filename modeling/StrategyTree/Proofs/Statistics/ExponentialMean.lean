import Mathlib.Algebra.BigOperators.Intervals
import Mathlib.Algebra.BigOperators.Ring.Finset
import Mathlib.Algebra.Order.BigOperators.Group.Finset
import Mathlib.Data.Finset.Max
import Mathlib.Data.List.GetD
import Mathlib.Tactic.Linarith
import Mathlib.Tactic.Positivity
import Mathlib.Tactic.Ring
import StrategyTree.Proofs.BalanceCurve
import StrategyTree.Proofs.Causality.LookBack
import StrategyTree.Proofs.Simulation.Tables

/-!
# The weights of the exponential mean

The exponential mean starts at the first close, and each further close takes a fixed part `k` of it.
In exact arithmetic it is therefore a weighted mean of all closes so far: the latest one weighs `k`,
each one before it `1 - k` times as much as the one after it, and the first close has whatever is
left. The weights are not negative and add up to 1, so that the mean stays within the range of the
closes and follows each of them.

* `termWeight`, `weightedMean`: the weights, and the mean they make of the terms of a sequence.
* `weightedMean_succ`: the next term takes its part of the mean, as one step of smoothing does.
* `weightedMean_const`, `weightedMean_mono`: the mean of equal terms, and of smaller ones.
* `exponentialMean_convex`: the values of the exponential mean, their weights and their range.
-/

namespace StrategyTree

namespace Indicator

open Scalar

variable {K : Type} [Field K] {k : K}

/-! ## Weights -/

/-- The weight of the term `j` in a mean of the terms `0` to `i` in which every further term takes
the part `k`. -/
def termWeight (k : K) (i j : ℕ) : K := if j = 0 then (1 - k) ^ i else k * (1 - k) ^ (i - j)

/-- The mean of the terms `0` to `i` by these weights. -/
def weightedMean (k : K) (term : ℕ → K) (i : ℕ) : K :=
  ∑ j ∈ Finset.range (i + 1), termWeight k i j * term j

theorem termWeight_first (k : K) (i : ℕ) : termWeight k i 0 = (1 - k) ^ i := if_pos rfl

theorem termWeight_further (k : K) (i : ℕ) {j : ℕ} (hj : 1 ≤ j) :
    termWeight k i j = k * (1 - k) ^ (i - j) :=
  if_neg (Nat.one_le_iff_ne_zero.1 hj)

theorem termWeight_last (k : K) (i : ℕ) : termWeight k (i + 1) (i + 1) = k := by
  rw [termWeight_further k _ (Nat.le_add_left 1 i), Nat.sub_self, pow_zero, mul_one]

/-- A further term leaves every weight the part `1 - k` of it. -/
theorem termWeight_succ {i j : ℕ} (hj : j ≤ i) :
    termWeight k (i + 1) j = (1 - k) * termWeight k i j := by
  unfold termWeight
  split
  · rw [pow_succ']
  · rw [Nat.sub_add_comm hj, pow_succ', mul_left_comm]

theorem weightedMean_zero (k : K) (term : ℕ → K) : weightedMean k term 0 = term 0 := by
  rw [weightedMean, Finset.sum_range_one, termWeight_first, pow_zero, one_mul]

/-- A further term takes the part `k` of the mean. -/
theorem weightedMean_succ (k : K) (term : ℕ → K) (i : ℕ) :
    weightedMean k term (i + 1) = term (i + 1) * k + weightedMean k term i * (1 - k) := by
  have before : ∑ j ∈ Finset.range (i + 1), termWeight k (i + 1) j * term j =
      (1 - k) * weightedMean k term i := by
    rw [weightedMean, Finset.mul_sum]
    refine Finset.sum_congr rfl fun j hj => ?_
    rw [termWeight_succ (Nat.le_of_lt_succ (Finset.mem_range.1 hj)), mul_assoc]
  rw [weightedMean, Finset.sum_range_succ, termWeight_last, before]
  ring

/-- Equal terms are their own mean. -/
theorem weightedMean_const (k c : K) (i : ℕ) : weightedMean k (fun _ => c) i = c := by
  induction i with
  | zero => exact weightedMean_zero k _
  | succ i ih =>
    rw [weightedMean_succ, ih]
    ring

/-- The first term and the further ones, with their weights written out. -/
theorem weightedMean_eq (k : K) (term : ℕ → K) (i : ℕ) : weightedMean k term i =
    (1 - k) ^ i * term 0 + ∑ j ∈ Finset.Icc 1 i, k * (1 - k) ^ (i - j) * term j := by
  rw [weightedMean, Finset.sum_range_eq_add_Ico _ i.add_one_pos, Finset.Ico_add_one_right_eq_Icc,
    termWeight_first]
  congr 1
  refine Finset.sum_congr rfl fun j hj => ?_
  rw [termWeight_further k i (Finset.mem_Icc.1 hj).1]

section Order

variable [LinearOrder K] [IsStrictOrderedRing K]

theorem termWeight_nonneg (h0 : 0 ≤ k) (h1 : k ≤ 1) (i j : ℕ) : 0 ≤ termWeight k i j := by
  have rest : 0 ≤ 1 - k := sub_nonneg.2 h1
  unfold termWeight
  split
  · exact pow_nonneg rest i
  · exact mul_nonneg h0 (pow_nonneg rest _)

/-- Of smaller terms the mean is smaller. -/
theorem weightedMean_mono (h0 : 0 ≤ k) (h1 : k ≤ 1) {term term' : ℕ → K} {i : ℕ}
    (h : ∀ j ≤ i, term j ≤ term' j) : weightedMean k term i ≤ weightedMean k term' i :=
  Finset.sum_le_sum fun j hj =>
    mul_le_mul_of_nonneg_left (h j (Nat.le_of_lt_succ (Finset.mem_range.1 hj)))
      (termWeight_nonneg h0 h1 i j)

theorem le_weightedMean (h0 : 0 ≤ k) (h1 : k ≤ 1) {term : ℕ → K} {low : K} {i : ℕ}
    (h : ∀ j ≤ i, low ≤ term j) : low ≤ weightedMean k term i :=
  (weightedMean_const k low i).ge.trans (weightedMean_mono h0 h1 h)

theorem weightedMean_le (h0 : 0 ≤ k) (h1 : k ≤ 1) {term : ℕ → K} {high : K} {i : ℕ}
    (h : ∀ j ≤ i, term j ≤ high) : weightedMean k term i ≤ high :=
  (weightedMean_mono h0 h1 h).trans (weightedMean_const k high i).le

/-- The mean of closes lies between the smallest and the largest of them. -/
theorem weightedMean_between (h0 : 0 ≤ k) (h1 : k ≤ 1) {closes : List K} {i : ℕ}
    (hi : i < closes.length) : ∃ low high,
      IsLeast {c | c ∈ closes.take (i + 1)} low ∧ IsGreatest {c | c ∈ closes.take (i + 1)} high ∧
      low ≤ weightedMean k (fun j => closes.getD j 0) i ∧
      weightedMean k (fun j => closes.getD j 0) i ≤ high := by
  have member : ∀ j ≤ i, closes.getD j 0 ∈ closes.take (i + 1) := fun j hj => by
    rw [List.getD_eq_getElem closes 0 (hj.trans_lt hi)]
    exact List.mem_take_iff_getElem.2 ⟨j, by omega, rfl⟩
  have nonempty : (closes.take (i + 1)).toFinset.Nonempty :=
    ⟨_, List.mem_toFinset.2 (member 0 i.zero_le)⟩
  have least := Finset.isLeast_min' _ nonempty
  have greatest := Finset.isGreatest_max' _ nonempty
  rw [List.coe_toFinset] at least greatest
  exact ⟨_, _, least, greatest, le_weightedMean h0 h1 fun j hj => least.2 (member j hj),
    weightedMean_le h0 h1 fun j hj => greatest.2 (member j hj)⟩

end Order

/-! ## The exponential mean -/

section Values

variable [LinearOrder K] [Roots K]

theorem smoothingFactor_eq (w : ℕ) : (smoothingFactor w : K) = 2 / (w + 1) := by
  rw [smoothingFactor, Exact.one_eq]
  rfl

theorem smooth_weightedMean (k : K) (term : ℕ → K) (i : ℕ) :
    smooth k (weightedMean k term i) (term (i + 1)) = weightedMean k term (i + 1) := by
  rw [smooth, Exact.one_eq, weightedMean_succ]

/-- Smoothing along a list of closes keeps the weighted mean of those taken in. -/
theorem foldl_smooth (k c : K) (cs : List K) {i : ℕ} (hi : i ≤ cs.length) :
    (cs.take i).foldl (smooth k) c = weightedMean k (fun j => (c :: cs).getD j 0) i := by
  -- by the number of closes taken in, since the weights of all of them change with the next one
  induction i with
  | zero => exact (weightedMean_zero k fun j => (c :: cs).getD j 0).symm
  | succ i ih =>
    have next : cs[i] = (c :: cs).getD (i + 1) 0 := (List.getD_eq_getElem cs 0 hi).symm
    rw [List.take_succ_eq_append_getElem hi, List.foldl_append, ih (Nat.le_of_succ_le hi), next]
    exact smooth_weightedMean k (fun j => (c :: cs).getD j 0) i

theorem length_exponentialMean {w : ℕ} (hw : 0 < w) (closes : List K) :
    (exponentialMean w closes).length = closes.length - (w - 1) :=
  length_values .exponentialMovingAveragePrice hw closes

/-- The value of the exponential mean at an offset is the weighted mean of the closes up to
there. -/
theorem getElem?_exponentialMean {w : ℕ} {closes : List K} {i : ℕ} (hi : w - 1 ≤ i)
    (hl : i < closes.length) :
    (exponentialMean w closes)[i - (w - 1)]? =
      some (weightedMean (smoothingFactor w) (fun j => closes.getD j 0) i) := by
  cases closes with
  | nil => cases hl
  | cons c cs =>
    have hc : i ≤ cs.length := Nat.le_of_lt_succ hl
    rw [exponentialMean, List.getElem?_drop, Nat.add_sub_cancel' hi, ← foldl_smooth _ _ _ hc]
    cases i with
    | zero => rfl
    | succ i => exact getElem?_trace _ cs c hc

variable [IsStrictOrderedRing K]

theorem smoothingFactor_nonneg (w : ℕ) : 0 ≤ (smoothingFactor w : K) := by
  rw [smoothingFactor_eq]
  positivity

theorem smoothingFactor_le_one {w : ℕ} (hw : 0 < w) : (smoothingFactor w : K) ≤ 1 := by
  have whole : (1 : K) ≤ w := Nat.one_le_cast.2 hw
  rw [smoothingFactor_eq, div_le_one (by positivity)]
  linarith

/-- **Main theorem: the exponential mean is a weighted mean of the closes so far.** Over at least
`w ≥ 1` closes the exponential mean is computed, and it has one value for each offset from `w - 1`
to the end. With `k = 2 / (w + 1)`, the first close weighs `(1 - k) ^ i` in the value at offset `i`,
and each close `j` from the second one to `i` weighs `k * (1 - k) ^ (i - j)`. No weight is negative
and they add up to 1. The value lies between the smallest and the largest of the closes up to `i`,
and it does not fall if any of them are raised. -/
theorem exponentialMean_convex {w : ℕ} (hw : 0 < w) {closes : List K} (hl : w ≤ closes.length)
    (hk : k = 2 / (w + 1)) :
    Function.exponentialMovingAveragePrice.compute closes w = .ok (exponentialMean w closes) ∧
    (exponentialMean w closes).length = closes.length - (w - 1) ∧
    ∀ i, w - 1 ≤ i → i < closes.length → ∃ v, (exponentialMean w closes)[i - (w - 1)]? = some v ∧
      v = (1 - k) ^ i * closes.getD 0 0 +
        ∑ j ∈ Finset.Icc 1 i, k * (1 - k) ^ (i - j) * closes.getD j 0 ∧
      0 ≤ (1 - k) ^ i ∧ (∀ j ∈ Finset.Icc 1 i, 0 ≤ k * (1 - k) ^ (i - j)) ∧
      (1 - k) ^ i + ∑ j ∈ Finset.Icc 1 i, k * (1 - k) ^ (i - j) = 1 ∧
      (∃ low high, IsLeast {c | c ∈ closes.take (i + 1)} low ∧
        IsGreatest {c | c ∈ closes.take (i + 1)} high ∧ low ≤ v ∧ v ≤ high) ∧
      ∀ raised : List K, i < raised.length → (∀ j ≤ i, closes.getD j 0 ≤ raised.getD j 0) →
        ∃ u, (exponentialMean w raised)[i - (w - 1)]? = some u ∧ v ≤ u := by
  obtain rfl : k = smoothingFactor w := hk.trans (smoothingFactor_eq w).symm
  have h0 : 0 ≤ (smoothingFactor w : K) := smoothingFactor_nonneg w
  have h1 : (smoothingFactor w : K) ≤ 1 := smoothingFactor_le_one hw
  refine ⟨Function.compute_of_lt hw ?_, length_exponentialMean hw closes,
    fun i hi hil => ⟨_, getElem?_exponentialMean hi hil, weightedMean_eq _ _ i, ?_, fun j hj => ?_,
      ?_, ?_, fun raised hr higher => ?_⟩⟩
  · change w - 1 + 1 ≤ closes.length
    rwa [Nat.sub_add_cancel hw]
  · rw [← termWeight_first]
    exact termWeight_nonneg h0 h1 i 0
  · rw [← termWeight_further _ i (Finset.mem_Icc.1 hj).1]
    exact termWeight_nonneg h0 h1 i j
  · -- the weights add up to the mean of equal terms 1
    have ones := weightedMean_const (smoothingFactor w : K) 1 i
    rw [weightedMean_eq] at ones
    simpa only [mul_one] using ones
  · exact weightedMean_between h0 h1 hil
  · exact ⟨_, getElem?_exponentialMean hi hr, weightedMean_mono h0 h1 higher⟩

/-- Closes that fall, rise and fall again, below and above the first one. -/
def unsteadyCloses : List ℚ := [100, 96, 104, 90, 120]

/-- The same closes, but that the third one is higher. -/
def raisedCloses : List ℚ := [100, 96, 110, 90, 120]

theorem exponentialMean_convex_unsteadyCloses :
    0 < 3 ∧ 3 ≤ unsteadyCloses.length ∧ (1 / 2 : ℚ) = 2 / ((3 : ℕ) + 1) ∧
    Function.exponentialMovingAveragePrice.compute unsteadyCloses 3 =
      .ok (exponentialMean 3 unsteadyCloses) ∧
    (exponentialMean 3 unsteadyCloses).length = 3 ∧
    (exponentialMean 3 unsteadyCloses)[2]? = some (431 / 4) ∧
    (∀ j ≤ 4, unsteadyCloses.getD j 0 ≤ raisedCloses.getD j 0) ∧
    ∃ u, (exponentialMean 3 raisedCloses)[2]? = some u ∧ 431 / 4 ≤ u := by
  have long : 3 ≤ unsteadyCloses.length := by decide
  have factor : (1 / 2 : ℚ) = 2 / ((3 : ℕ) + 1) := by norm_num
  have higher : ∀ j ≤ 4, unsteadyCloses.getD j 0 ≤ raisedCloses.getD j 0 := by decide +kernel
  obtain ⟨computed, length, values⟩ := exponentialMean_convex (by decide) long factor
  obtain ⟨v, hv, sum, -, -, -, -, raised⟩ := values 4 (by decide) (by decide)
  obtain rfl : v = 431 / 4 := sum.trans (by decide +kernel)
  exact ⟨by decide, long, factor, computed, length, hv, higher, raised _ (by decide) higher⟩

end Values

end Indicator

end StrategyTree
