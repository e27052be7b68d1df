import StrategyTree.Proofs.Evaluation.Fairness
import StrategyTree.Proofs.Simulation.BuildOrder
import StrategyTree.Proofs.Simulation.Tables

/-!
# Returns do not depend on the start of a run

In exact arithmetic, let every ticker of a prudent strategy be priced on every day. Then the return
from one day of a run to the next is made by the allocation of the first of them and by the prices
of both: it is the same whenever the run has started and whatever it has started with. So the
statistic of a ranked node on a day is computed from the evaluations of that node on the days of its
window.

* `Evaluator.returnFrom`: the return that an evaluation on a day leads to.
* `dailyReturns_of_simulate`: the returns of a run.
* `StatisticTable.Regular`: statistics of a prudent strategy over priced tickers.
* `StatisticTable.Regular.value`: what such a statistic is on a day.
-/

namespace StrategyTree

/-- A stretch of what a function yields on successive days. -/
theorem stretch_range' {β : Type} (f : ℕ → β) (start : ℕ) {n k w : ℕ} (h : k + w ≤ n) :
    (((List.range' start n).map f).drop k).take w = (List.range' (start + k) w).map f := by
  rw [← List.map_drop, ← List.map_take, List.drop_range', Nat.mul_one,
    List.take_range'_of_length_ge (by omega)]

variable {K : Type} [Field K] [LinearOrder K] [Roots K]

/-! ## Returns of a run -/

/-- The percent return from a day to the next that the evaluation of a tree on that day leads to. -/
def Evaluator.returnFrom (e : Evaluator K) (table : PriceTable K) (tree : Node K) (i : ℕ) : K :=
  match e.evaluate i tree with
  | .ok a => (a.growth (table.priceAt i) (table.priceAt (i + 1)) - 1) * Scalar.hundred
  | .error _ => 0

theorem Evaluator.returnFrom_of_evaluate {e : Evaluator K} {table : PriceTable K} {tree : Node K}
    {i : ℕ} {a : Allocation K} (h : e.evaluate i tree = .ok a) :
    e.returnFrom table tree i =
      (a.growth (table.priceAt i) (table.priceAt (i + 1)) - 1) * 100 := by
  rw [returnFrom, h, ← Exact.hundred_eq]

/-- The tickers of a tree are priced on every day. -/
def PriceTable.Prices (table : PriceTable K) (tree : Node K) : Prop :=
  ∀ i < table.length, ∀ x ∈ tree.held, table.Priced i x

variable [IsStrictOrderedRing K]

section Run

variable {e : Evaluator K} {table : PriceTable K} {tree : Node K} {stop : ℕ → Bool} {start : ℕ}
  {cash : K} {days : List (Day K)} {q : Portfolio K}

/-- A run of a prudent strategy. Its balances are positive, and each grows by the allocation of
its day. -/
theorem growth_of_simulate (hf : 0 < e.settings.volatilityFloor) (hp : tree.Prudent)
    (he : ∀ x, e.tradeable.contains x = true ↔ x ∈ tree.held) (hprices : table.Prices tree)
    (hcash : 0 < cash)
    (h : simulate e table tree stop (table.daysFrom start) (Portfolio.ofCash cash) =
      .ok (days, q)) :
    (∀ t (ht : t < days.length), 0 < days[t].balance) ∧
      ∀ t (ht : t + 1 < days.length), days[t + 1].balance = days[t].balance *
        days[t].allocation.growth (table.priceAt (start + t)) (table.priceAt (start + t + 1)) := by
  have keys : ∀ d ∈ days, d.allocation.keys = e.tradeable.keys := fun d hd =>
    Evaluator.keys_evaluate (evaluate_of_mem_simulate h d hd) fun x hx => (he x).2 hx
  have fair : ∀ d ∈ days, d.allocation.Fair := fun d hd =>
    Evaluator.fair_of_evaluate hf hp (evaluate_of_mem_simulate h d hd)
  have priced : ∀ i < table.length, ∀ x ∈ e.tradeable.keys, table.Priced i x := by
    intro i hi x hx
    exact hprices i hi x ((he x).1 (SortedMap.contains_iff_mem_keys.2 hx))
  have inside : ∀ i ∈ table.daysFrom start, ∀ x ∈ e.tradeable.keys, table.Priced i x := by
    intro i hi
    exact priced i (PriceTable.mem_daysFrom hi).2
  obtain ⟨hhead, hchain⟩ := follows_of_simulate inside h (fun d hd => ⟨keys d hd, fair d hd⟩)
    (fun x hx => absurd hx List.not_mem_nil) fun i _ => by
      rw [Portfolio.markedBalance_ofCash]
      exact hcash.le
  have grows : ∀ t (ht : t + 1 < days.length), days[t + 1].balance = days[t].balance *
      days[t].allocation.growth (table.priceAt (start + t)) (table.priceAt (start + t + 1)) := by
    intro t ht
    have step := List.isChain_iff_getElem.1 hchain t ht
    unfold Day.Follows at step
    rw [step, (index_of_simulate h _).1, (index_of_simulate h _).1]
    rfl
  -- by induction on the day: the capital is positive, and so is every growth
  refine ⟨fun t => ?_, grows⟩
  induction t with
  | zero =>
    intro ht
    have first := hhead days[0] (List.head?_eq_getElem? ▸ List.getElem?_eq_getElem ht)
    rw [first, Portfolio.markedBalance_ofCash]
    exact hcash
  | succ t ih =>
    intro ht
    have hmem := List.getElem_mem (Nat.lt_of_succ_lt ht)
    have positive : ∀ i < table.length, ∀ x ∈ days[t].allocation.keys, 0 < table.priceAt i x := by
      intro i hi x hx
      rw [keys _ hmem] at hx
      exact (priced i hi x hx).priceAt_pos
    have before := (index_of_simulate h (Nat.lt_of_succ_lt ht)).2
    have after := (index_of_simulate h ht).2
    rw [grows t ht]
    exact mul_pos (ih (Nat.lt_of_succ_lt ht))
      (Allocation.growth_pos (fair _ hmem) (positive _ before) (positive _ after))

/-- Returns of a run. The returns of the run of a prudent strategy are those that its
evaluations lead to, from its start on. -/
theorem dailyReturns_of_simulate (hf : 0 < e.settings.volatilityFloor) (hp : tree.Prudent)
    (he : ∀ x, e.tradeable.contains x = true ↔ x ∈ tree.held) (hprices : table.Prices tree)
    (hcash : 0 < cash)
    (h : simulate e table tree stop (table.daysFrom start) (Portfolio.ofCash cash) =
      .ok (days, q)) :
    dailyReturns (days.map Day.balance) =
      (List.range' start (days.length - 1)).map (e.returnFrom table tree) := by
  obtain ⟨positive, grows⟩ := growth_of_simulate hf hp he hprices hcash h
  apply List.ext_getElem
  · simp [dailyReturns]
  · intro t ht _
    have ht : t + 1 < days.length := by
      simp only [dailyReturns, List.length_zipWith, List.length_map, List.length_tail] at ht
      omega
    have balance := (positive t (Nat.lt_of_succ_lt ht)).ne'
    have evaluated := evaluate_of_mem_simulate h _ (List.getElem_mem (Nat.lt_of_succ_lt ht))
    rw [(index_of_simulate h _).1] at evaluated
    simp only [dailyReturns, List.getElem_zipWith, List.getElem_map, List.getElem_tail,
      List.getElem_range', Nat.one_mul]
    rw [Evaluator.returnFrom_of_evaluate evaluated, percentReturn, grows t ht, Exact.one_eq,
      Exact.hundred_eq, mul_div_cancel_left₀ _ balance]

end Run

/-! ## Statistics of ranked nodes -/

namespace StatisticTable

/-- A settled statistic of a tree with distinct ids is that of the simulated returns of the node
with its id. -/
theorem Settled.ranksBy {α : Type} [Scalar α] {tree : Node α} (hd : tree.DistinctIds)
    {table : PriceTable α} {indicators : IndicatorTable α} {settings : Settings α} {capital : α}
    {C : StatisticTable α} {s : NodeStatistic}
    (h : Settled tree table indicators settings capital C s) {m : Node α} (hm : m ∈ tree.nodes)
    (hid : m.id = s.node) : RanksBy C C table indicators settings capital s.node m s.ranking := by
  obtain ⟨node, series, hfind, hget, hof⟩ := h
  rw [← hid, hd.find_of_mem hm] at hfind
  cases hfind
  exact ranksBy_of_ofNode hget hof

/-- A table of the statistics of a prudent strategy with distinct ids, from positive capital, over
tickers that are priced on every day. -/
structure Regular (tree : Node K) (table : PriceTable K) (indicators : IndicatorTable K)
    (settings : Settings K) (capital : K) (C : StatisticTable K) : Prop where
  distinct : tree.DistinctIds
  settled : ∀ s ∈ tree.statistics 0, Settled tree table indicators settings capital C s
  prudent : tree.Prudent
  floor : 0 < settings.volatilityFloor
  capital : 0 < capital
  prices : table.Prices tree

namespace Regular

variable {tree : Node K} {table : PriceTable K} {indicators : IndicatorTable K}
  {settings : Settings K} {capital : K} {C : StatisticTable K}

/-- A statistic on a day. Where the statistic of a ranked node has a value, the node can be
evaluated on the days of the window before, and the value is computed from the returns that these
evaluations lead to. -/
theorem value (h : Regular tree table indicators settings capital C) {s : NodeStatistic}
    (hs : s ∈ tree.statistics 0) {m : Node K} (hm : m ∈ tree.nodes) (hid : m.id = s.node) {i : ℕ}
    {x : K} (hx : C.value s.node i = .ok x) :
    s.ranking.window ≤ i ∧ i < table.length ∧
      (∀ j, i - s.ranking.window ≤ j → j ≤ i →
        ∃ a, (⟨m.tickers, indicators, C, settings⟩ : Evaluator K).evaluate j m = .ok a) ∧
      x = s.ranking.statistic.ofWindow ((List.range' (i - s.ranking.window) s.ranking.window).map
        ((⟨m.tickers, indicators, C, settings⟩ : Evaluator K).returnFrom table m)) := by
  obtain ⟨days, q, hdays, values⟩ := (h.settled s hs).ranksBy h.distinct hm hid
  have returns := dailyReturns_of_simulate h.floor (h.prudent.of_mem hm)
    (fun x => Node.mem_held_iff_tickers)
    (fun i hi x hx => h.prices i hi x (Node.collect_subset hm hx)) h.capital hdays
  obtain ⟨hfirst, hlast, hvalue⟩ := (values i x).1 hx
  -- the window ends with the return to day `i`
  have first : C.simulationStart table indicators m +
      (i - s.ranking.window - C.simulationStart table indicators m) = i - s.ranking.window := by
    omega
  refine ⟨by omega, ?_, fun j hj hji => ?_, ?_⟩
  · have last := (index_of_simulate hdays (t := i - C.simulationStart table indicators m)
      (by omega)).2
    omega
  · have evaluated := evaluate_of_mem_simulate hdays _
      (List.getElem_mem (show j - C.simulationStart table indicators m < days.length by omega))
    rw [(index_of_simulate hdays _).1, Nat.add_sub_cancel' (by omega)] at evaluated
    exact ⟨_, evaluated⟩
  · rw [hvalue, returns, stretch_range' _ _ (by omega), first]

end Regular

end StatisticTable

end StrategyTree
