import StrategyTree.Proofs.Prices.Loading
import StrategyTree.Proofs.Simulation.Success

/-!
# Indicators over tickers without gaps

Over a table that suffices for a strategy, every indicator can be computed. It starts within the
largest window of an indicator and goes on to the last day.

* `IndicatorTable.compute_of_full`: one indicator of a ticker without gaps.
* `IndicatorTable.load_of_sufficient`: all indicators of a strategy.
-/

namespace StrategyTree

variable {α : Type}

theorem Indicator.Function.firstOffset_le (f : Indicator.Function) (window : Nat) :
    f.firstOffset window ≤ window := by
  unfold firstOffset
  split <;> omega

namespace IndicatorTable

/-- The first stretch of closes without a gap is all of them. -/
theorem firstStretch_map_some (prices : List α) : firstStretch (prices.map some) = ⟨0, prices⟩ := by
  have whole : (prices.map some).takeWhile Option.isSome = prices.map some := by
    rw [List.takeWhile_eq_self_iff]
    simp
  have gap : (prices.map some).takeWhile Option.isNone = [] := by
    cases prices <;> rfl
  have rest : (prices.map some).dropWhile Option.isNone = prices.map some := by
    cases prices <;> rfl
  unfold firstStretch
  rw [gap, rest, whole, List.filterMap_map]
  exact congrArg _ (List.filterMap_some)

variable [Scalar α] {table : PriceTable α}

section Full

variable {key : Indicator.Key} {prices : List α}
  (h : table.series.get? key.ticker = some (prices.map some))

include h

/-- An indicator over closes without gaps starts at its first offset. -/
theorem compute_of_full_of_lt (hw : 0 < key.window)
    (hlong : key.function.firstOffset key.window < prices.length) :
    compute table key =
      .ok ⟨key.function.firstOffset key.window, key.function.values key.window prices⟩ := by
  have computed := compute_of_lt h hw
  simp only [firstStretch_map_some, Nat.zero_add] at computed
  exact computed hlong

/-- An indicator that has been computed over closes without gaps starts at its first offset, unless
the closes end before it. -/
theorem of_compute_of_full {s : Series α} (hs : compute table key = .ok s) :
    0 < key.window ∧ (key.function.firstOffset key.window < prices.length ∧
        s = ⟨key.function.firstOffset key.window, key.function.values key.window prices⟩ ∨
      prices.length ≤ key.function.firstOffset key.window ∧
        s = ⟨Word.add 0 (key.function.firstOffset key.window), []⟩) := by
  obtain ⟨closes, hget, hw, hcases⟩ := of_compute_eq_ok hs
  rw [h] at hget
  cases hget
  simp only [firstStretch_map_some, Nat.zero_add] at hcases
  exact ⟨hw, hcases.imp_right And.right⟩

end Full

/-- One indicator. Over closes without gaps an indicator starts within its window and goes on to
the last day. -/
theorem compute_of_full {key : Indicator.Key} (h : table.Full key.ticker) (hw : 0 < key.window)
    (hlong : key.window < table.length) :
    ∃ s, compute table key = .ok s ∧ s.Covers key.window table.length := by
  obtain ⟨prices, hget, length⟩ := h.exists_prices
  have offset := key.function.firstOffset_le key.window
  refine ⟨_, compute_of_full_of_lt hget hw (by omega), offset, ?_⟩
  show key.function.firstOffset key.window + List.length _ = _
  rw [Indicator.length_values _ hw]
  omega

/-- All indicators. Over a sufficient table the indicators of a strategy can be computed; they
start within the largest window and go on to the last day. -/
theorem load_of_sufficient {tree : Node α} {r : Requirements}
    (hr : Requirements.ofTree tree = .ok r) (h : table.Sufficient r) :
    ∃ t, load table r.indicators.toList = .ok t ∧
      (∀ key ∈ tree.readings, ∃ s, t.series.get? key = some s) ∧
      ∀ key s, t.series.get? key = some s → s.Covers r.indicatorWindow table.length := by
  have each : ∀ key ∈ r.indicators.toList, ∃ s, compute table key = .ok s ∧
      s.Covers r.indicatorWindow table.length := by
    intro key hkey
    rw [Requirements.indicators_iff_of_ofTree hr] at hkey
    have full := h.full _ (Requirements.lookback_of_readings hr hkey)
    have window := Requirements.window_le_of_readings hr hkey
    have long := h.long
    unfold Requirements.exactLookback at long
    obtain ⟨s, hs, covers⟩ :=
      compute_of_full full (Requirements.window_pos_of_readings hr hkey) (by omega)
    exact ⟨s, hs, covers.mono window⟩
  have succeeds : ∃ t, load table r.indicators.toList = .ok t := by
    have entries : ∀ key ∈ r.indicators.toList, ∃ entry : Indicator.Key × Series α,
        (do return (key, ← compute table key) : Except Error _) = .ok entry := by
      intro key hkey
      obtain ⟨s, hs, -⟩ := each key hkey
      exact ⟨(key, s), Except.bind_eq_ok.2 ⟨s, hs, rfl⟩⟩
    obtain ⟨computed, hcomputed⟩ := Outcome.mapM_succeeds entries
    exact ⟨_, Except.bind_eq_ok.2 ⟨computed, hcomputed, rfl⟩⟩
  obtain ⟨t, ht⟩ := succeeds
  obtain ⟨present, absent⟩ := load_eq_ok ht
  refine ⟨t, ht, fun key hkey => ?_, fun key s hs => ?_⟩
  · obtain ⟨s, hs, -⟩ := present key ((Requirements.indicators_iff_of_ofTree hr).2 hkey)
    exact ⟨s, hs⟩
  · by_cases hkey : key ∈ r.indicators.toList
    · obtain ⟨s', hs', hcompute⟩ := present key hkey
      obtain ⟨s'', hcompute', covers⟩ := each key hkey
      rw [hs] at hs'
      cases hs'
      rw [hcompute] at hcompute'
      cases hcompute'
      exact covers
    · rw [absent key hkey] at hs
      cases hs

end IndicatorTable

end StrategyTree
