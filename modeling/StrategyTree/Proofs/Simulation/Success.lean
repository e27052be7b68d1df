import StrategyTree.Proofs.Prices.Closes
import StrategyTree.Proofs.Simulation.Tables

/-!
# Runs that succeed

An evaluation succeeds if the indicators and the statistics it may read have values, and a run
succeeds if its evaluations do and every ticker it meets is loaded.

* `Series.Covers`: a series with values from some day on up to an end.
* `Evaluator.evaluate_succeeds`: an evaluation whose reads have values.
* `simulate_succeeds`: a run whose evaluations succeed.
* `Backtest.exists_points`, `Backtest.map_date_points`: the history of a run that goes on to the
  last day.
-/

namespace StrategyTree

variable {α : Type}

/-! ## Series that have started -/

/-- A series has values on all days from one by which it has started up to an end. -/
def Series.Covers (s : Series α) (start stop : Nat) : Prop := s.start ≤ start ∧ s.stop = stop

theorem Series.Covers.mono {s : Series α} {start start' stop : Nat} (h : s.Covers start stop)
    (hle : start ≤ start') : s.Covers start' stop := ⟨Nat.le_trans h.1 hle, h.2⟩

theorem Series.exists_valueAt {s : Series α} {i stop : Nat} (h : s.Covers i stop) (hi : i < stop) :
    ∃ x, s.valueAt i = some x := by
  rw [← Option.ne_none_iff_exists']
  intro hnone
  have bounds := (Series.valueAt_eq_none_iff s i).1 hnone
  have start := h.1
  have stop := h.2
  omega

variable [Scalar α] {e : Evaluator α} {table : PriceTable α} {tree : Node α}

/-! ## Evaluations -/

/-- An evaluation succeeds if the indicators its conditions read and the statistics of the
nodes it ranks have values. -/
theorem Evaluator.evaluate_succeeds {index : Nat}
    (hr : ∀ key ∈ tree.readings, ∃ x, e.indicators.value key index = .ok x)
    (hs : ∀ id ∈ tree.ranked, ∃ x, e.statistics.value id index = .ok x) :
    ∃ allocation, e.evaluate index tree = .ok allocation := by
  have both : Agreement.succeeding.holds (e.evaluate index tree) (e.evaluate index tree) := by
    apply Evaluator.evaluate_agrees Agreement.succeeding rfl rfl
    · intro key hkey
      obtain ⟨x, hx⟩ := hr key hkey
      exact ⟨x, hx, hx⟩
    · intro id hid
      obtain ⟨x, hx⟩ := hs id hid
      exact ⟨x, hx, hx⟩
  obtain ⟨allocation, h, -⟩ := both
  exact ⟨allocation, h⟩

/-! ## Runs -/

/-- A run succeeds if its evaluations do and the tickers held at first and those the strategy
may name are loaded. -/
theorem simulate_succeeds {indices : List Nat}
    (he : ∀ i ∈ indices, ∃ allocation, e.evaluate i tree = .ok allocation)
    (ht : ∀ x, e.tradeable.contains x = true ∨ x ∈ tree.held → table.isLoaded x = true) :
    ∀ p : Portfolio α, (∀ x ∈ p.holdings.keys, table.isLoaded x = true) →
      ∃ days q, simulate e table tree (fun _ => false) indices p = .ok (days, q) := by
  induction indices with
  | nil =>
    intro p _
    exact ⟨[], p, rfl⟩
  | cons index rest ih =>
    intro p hp
    rw [List.forall_mem_cons] at he
    obtain ⟨allocation, hallocation⟩ := he.1
    have named : ∀ x ∈ allocation.keys, table.isLoaded x = true :=
      fun x hx => ht x ((Evaluator.mem_keys_evaluate hallocation).2 hx)
    have rebalanced : ∃ q r, p.rebalance table index allocation = (q, .ok r) :=
      Portfolio.rebalance_succeeds hp named
    obtain ⟨q, r, hq⟩ := rebalanced
    have held : ∀ x ∈ q.holdings.keys, table.isLoaded x = true := by
      intro x hx
      rcases Portfolio.mem_keys_rebalance hq hx with hx | hx
      · exact hp x hx
      · exact named x hx
    obtain ⟨days, q', hdays⟩ := ih he.2 q held
    exact ⟨_, q', simulate_cons_eq_ok.2 ⟨rfl, allocation, q, r, days, hallocation, hq, hdays, rfl⟩⟩

/-- A run that starts with cash only, over days that all have closes. -/
theorem simulate_daysFrom_succeeds {start : Nat} (cash : α)
    (hc : ∀ i < table.length, table.hasCloses i = true)
    (he : ∀ i, start ≤ i → i < table.length →
      ∃ allocation, e.evaluate i tree = .ok allocation)
    (ht : ∀ x, e.tradeable.contains x = true ∨ x ∈ tree.held → table.isLoaded x = true) :
    ∃ days q, simulate e table tree (fun _ => false) (table.daysFrom start)
        (Portfolio.ofCash cash) = .ok (days, q) ∧
      days.map Day.index = List.range' start (table.length - start) := by
  have hdays := PriceTable.daysFrom_eq_range' hc start
  have evaluations : ∀ i ∈ table.daysFrom start,
      ∃ allocation, e.evaluate i tree = .ok allocation := by
    intro i hi
    rw [hdays, List.mem_range'_1] at hi
    exact he i hi.1 (by omega)
  have nothing_held : ∀ x ∈ (Portfolio.ofCash cash).holdings.keys, table.isLoaded x = true := by
    intro x hx
    cases hx
  obtain ⟨days, q, h⟩ := simulate_succeeds evaluations ht (Portfolio.ofCash cash) nothing_held
  refine ⟨days, q, h, ?_⟩
  rw [map_index_simulate h, hdays]

/-! ## Histories -/

namespace Backtest

omit [Scalar α] in
/-- Days within the axis have points of the history. -/
theorem exists_points {days : List (Day α)} (h : ∀ d ∈ days, d.index < table.length) :
    ∃ points, List.Forall₂ (fun d point => pointOf table d = .ok point) days points := by
  have dated : ∀ d ∈ days, ∃ point, pointOf table d = .ok point := by
    intro d hd
    exact ⟨⟨table.dates.get ⟨d.index, h d hd⟩, d.allocation, d.balance⟩,
      pointOf_eq_ok.2 ⟨List.getElem?_eq_getElem (h d hd), rfl, rfl⟩⟩
  obtain ⟨points, hpoints⟩ := Outcome.mapM_succeeds dated
  exact ⟨points, Outcome.mapM_eq_ok.1 hpoints⟩

/-- The history of a run that goes on to the last day has all dates from its start on. -/
theorem map_date_points {stop : Nat → Bool} {start : Nat} {p q : Portfolio α} {days : List (Day α)}
    {points : List (HistoryPoint α)}
    (hdays : simulate e table tree stop (table.daysFrom start) p = .ok (days, q))
    (hpoints : List.Forall₂ (fun d point => pointOf table d = .ok point) days points)
    (hcount : days.length = table.length - start) :
    points.map HistoryPoint.date = table.dates.drop start := by
  rw [hpoints.length_eq] at hcount
  apply List.ext_getElem
  · rw [List.length_map, List.length_drop]
    exact hcount
  · intro t ht _
    rw [List.length_map] at ht
    obtain ⟨-, -, date, -⟩ := getElem_points hdays hpoints ht
    rw [List.getElem_map, List.getElem_drop, ← Option.some.injEq, ← date,
      ← List.getElem?_eq_getElem]
    rfl

end Backtest

end StrategyTree
