import Mathlib.Order.Bounds.Defs
import StrategyTree.Proofs.Prices.Closes
import StrategyTree.Proofs.Simulation.Returns

/-!
# The days that statistics belong to

The run of a ranked node starts as soon as all that it reads is there, and ends before the first day
without any close. Its statistic starts a window of returns later and ends with it: on every day in
between it is the statistic of the returns of the run up to that day.

* `StatisticTable.CanRun`: all that the run of a node reads is there.
* `PriceTable.isLeast_end_of_daysFrom`: where a run ends.
* `StatisticTable.Balances`: the balances of the run of a node over some days.
* `StatisticTable.value_eq_statistic_of_run`: when a statistic has a value, and which.
-/

namespace StrategyTree

variable {α : Type}

/-! ## Where runs end -/

namespace PriceTable

variable {t : PriceTable α} {start : Nat}

/-- The days of a run follow one another. -/
theorem daysFrom_eq : t.daysFrom start = List.range' start (t.daysFrom start).length := by
  apply List.ext_getElem
  · rw [List.length_range']
  · intro k hk _
    rw [getElem_daysFrom hk, List.getElem_range', Nat.one_mul]

/-- The end of a run. The days of a run end before the first day without any close, of which the
end of the axis is one. -/
theorem isLeast_end_of_daysFrom (h : start ≤ t.length) :
    IsLeast {i | start ≤ i ∧ ∀ x, t.closeAt? x i = none} (start + (t.daysFrom start).length) := by
  have taken : t.daysFrom start = (List.range' start (t.length - start)).take
      ((List.range' start (t.length - start)).findIdx fun i => !t.hasCloses i) :=
    List.takeWhile_eq_take_findIdx_not
  have count : (t.daysFrom start).length =
      (List.range' start (t.length - start)).findIdx fun i => !t.hasCloses i := by
    rw [taken, List.length_take, Nat.min_eq_left List.findIdx_le_length]
  constructor
  · refine ⟨Nat.le_add_right _ _, ?_⟩
    rw [count]
    by_cases hlt : (List.range' start (t.length - start)).findIdx (fun i => !t.hasCloses i) <
        (List.range' start (t.length - start)).length
    · have found := List.findIdx_getElem (w := hlt)
      rw [Bool.not_eq_true', hasCloses_eq_false_iff] at found
      rwa [List.getElem_range', Nat.one_mul] at found
    · rw [List.length_range'] at hlt
      intro x
      exact closeAt?_of_length_le (by omega)
  · rintro i ⟨hstart, hnone⟩
    by_contra hlt
    have hmem : i ∈ t.daysFrom start := by
      rw [daysFrom_eq, List.mem_range'_1]
      omega
    have closes := List.all_eq_true.1 List.all_takeWhile i hmem
    rw [hasCloses_eq_false_iff.2 hnone] at closes
    cases closes

end PriceTable

/-! ## Where runs start -/

namespace StatisticTable

/-- By an index, all that the run of a node reads is there: every ticker has had a close, the
statistics strictly below the node and all indicators have started. -/
structure CanRun (t : StatisticTable α) (table : PriceTable α) (indicators : IndicatorTable α)
    (node : Node α) (m : Nat) : Prop where
  tickers : ∀ x, node.tickers.contains x = true → ∃ i ≤ m, (table.closeAt? x i).isSome = true
  nested : ∀ id s, t.series.get? id = some s → id ≠ node.id → id ∈ node.ids → s.start ≤ m
  indicators : ∀ key s, indicators.series.get? key = some s → s.start ≤ m

variable {t : StatisticTable α} {table : PriceTable α} {indicators : IndicatorTable α}
  {node : Node α}

theorem canRun_iff {m : Nat} (hm : m < table.length) :
    t.CanRun table indicators node m ↔ t.simulationStart table indicators node ≤ m := by
  rw [simulationStart_le_iff, dataStart_le_iff, nestedStart_le_iff,
    IndicatorTable.firstComplete_le_iff]
  simp only [PriceTable.firstIndex_le_iff hm]
  constructor
  · rintro ⟨tickers, nested, indicators⟩
    exact ⟨⟨tickers, nested⟩, indicators⟩
  · rintro ⟨⟨tickers, nested⟩, indicators⟩
    exact ⟨tickers, nested, indicators⟩

/-- The start of a run. A run that starts on the axis starts as soon as it can. -/
theorem isLeast_simulationStart
    (h : t.simulationStart table indicators node < table.length) :
    IsLeast {m | t.CanRun table indicators node m} (t.simulationStart table indicators node) := by
  refine ⟨(canRun_iff h).2 (Nat.le_refl _), fun m hm => ?_⟩
  by_cases hlt : m < table.length
  · exact (canRun_iff hlt).1 hm
  · omega

end StatisticTable

/-! ## Returns by day -/

section Returns

variable [Scalar α]

/-- The returns between the balances of successive days belong to the second one of each two. -/
theorem dailyReturns_map_range' (balance : Nat → α) (start n : Nat) :
    dailyReturns ((List.range' start n).map balance) =
      (List.range' (start + 1) (n - 1)).map fun j => percentReturn (balance (j - 1)) (balance j) := by
  apply List.ext_getElem
  · simp [dailyReturns]
  · intro k hk _
    simp only [dailyReturns, List.getElem_zipWith, List.getElem_map, List.getElem_tail,
      List.getElem_range', Nat.one_mul]
    congr 2 <;> omega

/-- A value of a statistic over the balances of successive days is that of a window of returns. -/
theorem ReturnStatistic.getElem?_ofBalances (f : ReturnStatistic) {window : Nat} (hw : 0 < window)
    (balance : Nat → α) (start : Nat) {n k : Nat} (hk : k + window < n) :
    (f.ofBalances window ((List.range' start n).map balance))[k]? =
      some (f.ofWindow ((List.range' (start + 1 + k) window).map fun j =>
        percentReturn (balance (j - 1)) (balance j))) := by
  have inside : k < (f.ofBalances window ((List.range' start n).map balance)).length := by
    rw [length_ofBalances f hw, List.length_map, List.length_range', firstOffset]
    omega
  rw [List.getElem?_eq_getElem inside]
  simp only [ofBalances, List.getElem_map, getElem_windows hw]
  rw [dailyReturns_map_range', stretch_range' _ _ (by omega)]

/-- Over as many returns as the window is long there is one value. -/
theorem ReturnStatistic.compute_of_length (f : ReturnStatistic) {returns : List α} {window : Nat}
    (hw : 0 < window) (h : returns.length = window) :
    f.compute returns window = .ok [f.ofWindow returns] := by
  have count : (windows window returns).length = 1 := by
    rw [length_windows hw]
    omega
  have only : windows window returns = [returns] := by
    obtain ⟨stretch, hstretch⟩ := List.length_eq_one_iff.1 count
    have first := getElem_windows hw returns (k := 0) (by omega)
    simp only [hstretch, List.getElem_cons_zero, List.drop_zero] at first
    rw [hstretch, first, ← h, List.take_length]
  unfold compute
  rw [checkWindow_eq_ok (u := ()) |>.2 ⟨hw, h.ge⟩, only]
  rfl

end Returns

/-! ## Values of a loaded statistic -/

namespace StatisticTable

variable [Scalar α]

/-- The run of a node from a capital goes through the days of a stretch, with given balances. -/
def Balances (e : Evaluator α) (table : PriceTable α) (node : Node α) (capital : α)
    (start stop : Nat) (balance : Nat → α) : Prop :=
  ∃ days portfolio,
    simulate e table node (fun _ => false) (List.range' start (stop - start))
      (Portfolio.ofCash capital) = .ok (days, portfolio) ∧
    days.map (fun d => (d.index, d.balance)) =
      (List.range' start (stop - start)).map fun j => (j, balance j)

variable {tree : Node α} {r : Requirements} {table : PriceTable α} {indicators : IndicatorTable α}
  {settings : Settings α} {capital : α} {C : StatisticTable α}

section Run

variable {e : Evaluator α} {node : Node α} {start : Nat} {days : List (Day α)}
  {portfolio : Portfolio α}

/-- The days of a run are as many as it records. -/
theorem daysFrom_of_simulate (h : simulate e table node (fun _ => false) (table.daysFrom start)
      (Portfolio.ofCash capital) = .ok (days, portfolio)) :
    table.daysFrom start = List.range' start days.length := by
  rw [PriceTable.daysFrom_eq, ← map_index_simulate h, List.length_map]

/-- A run over the days of a table has a balance on each. -/
theorem exists_balances (h : simulate e table node (fun _ => false) (table.daysFrom start)
      (Portfolio.ofCash capital) = .ok (days, portfolio)) :
    ∃ balance : Nat → α, days.map (fun d => (d.index, d.balance)) =
      (List.range' start days.length).map fun j => (j, balance j) := by
  refine ⟨fun j => (days.map Day.balance).getD (j - start) Scalar.zero, ?_⟩
  apply List.ext_getElem
  · simp
  · intro k hk _
    rw [List.length_map] at hk
    simp [(index_of_simulate h hk).1, hk]

end Run

/-- A settled statistic. It is made of the balances of the run of its node, from the first day on
which all is there up to the first day without any close. -/
theorem Settled.exists_run {s : NodeStatistic}
    (h : Settled tree table indicators settings capital C s) :
    ∃ node start n balance, tree.find s.node = some node ∧
      IsLeast {m | C.CanRun table indicators node m} start ∧
      IsLeast {i | start ≤ i ∧ ∀ x, table.closeAt? x i = none} (start + n) ∧
      Balances ⟨node.tickers, indicators, C, settings⟩ table node capital start (start + n) balance ∧
      0 < s.ranking.window ∧ s.ranking.window < n ∧
      C.series.get? s.node = some ⟨start + s.ranking.window,
        s.ranking.statistic.ofBalances s.ranking.window ((List.range' start n).map balance)⟩ := by
  obtain ⟨node, series, hnode, hget, hof⟩ := h
  obtain ⟨days, portfolio, hdays, hw, hlong, rfl⟩ := ofNode_eq_ok.1 hof
  have begins : C.simulationStart table indicators node < table.length :=
    (index_of_simulate hdays (Nat.zero_lt_of_lt hlong)).2
  have ends := PriceTable.isLeast_end_of_daysFrom begins.le
  obtain ⟨balance, recorded⟩ := exists_balances hdays
  have balances := congrArg (List.map Prod.snd) recorded
  rw [List.map_map, List.map_map] at balances
  have offset : 1 + s.ranking.statistic.firstOffset s.ranking.window = s.ranking.window := by
    unfold ReturnStatistic.firstOffset
    omega
  rw [offset] at hget
  have range := daysFrom_of_simulate hdays
  rw [range, List.length_range'] at ends
  rw [range] at hdays
  refine ⟨node, _, days.length, balance, hnode, isLeast_simulationStart begins, ends,
    ⟨days, portfolio, ?_, ?_⟩, hw, hlong, ?_⟩
  · rwa [Nat.add_sub_cancel_left]
  · rwa [Nat.add_sub_cancel_left]
  · rw [hget]
    exact congrArg (fun l => some (Series.mk _ (s.ranking.statistic.ofBalances _ l))) balances

/-- **Main theorem: the days of a statistic.** Let the statistics of an accepted tree with distinct
ids have been loaded. The run of a ranked node starts as soon as all that it reads is there, and
ends before the first day without any close. Its statistic has no value until a window of days later
and none after the run. On every other day its value is the statistic of the last returns of the run
up to that day, as many as the window is long. -/
theorem value_eq_statistic_of_run (h : Requirements.ofTree tree = .ok r) (hd : tree.DistinctIds)
    (hC : load tree r table indicators settings capital = .ok C) {s : NodeStatistic}
    (hs : s ∈ r.statistics) : ∃ node start stop balance, tree.find s.node = some node ∧
      IsLeast {m | C.CanRun table indicators node m} start ∧
      IsLeast {i | start ≤ i ∧ ∀ x, table.closeAt? x i = none} stop ∧
      Balances ⟨node.tickers, indicators, C, settings⟩ table node capital start stop balance ∧
      start + s.ranking.window < stop ∧
      ∀ i,
        (i < start + s.ranking.window → C.value s.node i =
          .error (.notYetAvailable ("pre-calc " ++ s.node) i (start + s.ranking.window))) ∧
        (stop ≤ i → C.value s.node i =
          .error (.insufficientData s!"pre-calc {s.node} has no value at index {i}")) ∧
        (start + s.ranking.window ≤ i → i < stop → ∃ x, C.value s.node i = .ok x ∧
          s.ranking.statistic.compute
            ((List.range' (i + 1 - s.ranking.window) s.ranking.window).map fun j =>
              (balance j / balance (j - 1) - Scalar.one) * Scalar.hundred)
            s.ranking.window = .ok [x]) := by
  obtain ⟨node, start, n, balance, hnode, ready, ends, run, hw, hlong, hget⟩ :=
    (settled_of_load h hd hC s hs).exists_run
  have stop : (⟨start + s.ranking.window, s.ranking.statistic.ofBalances s.ranking.window
      ((List.range' start n).map balance)⟩ : Series α).stop = start + n := by
    unfold Series.stop
    rw [ReturnStatistic.length_ofBalances _ hw, List.length_map, List.length_range',
      ReturnStatistic.firstOffset]
    dsimp only
    omega
  refine ⟨node, start, start + n, balance, hnode, ready, ends, run, by omega, fun i => ?_⟩
  obtain ⟨early, late, value⟩ := value_of_get? hget i
  rw [stop] at late
  dsimp only at early late
  refine ⟨early, fun hi => late (by omega) hi, fun hstart hstop => ?_⟩
  -- the place of the value among the values, which is also that of the first return of its window
  obtain ⟨k, rfl⟩ := Nat.exists_eq_add_of_le hstart
  have hx := s.ranking.statistic.getElem?_ofBalances hw balance start (n := n) (k := k) (by omega)
  have read := value _ ((Series.valueAt_start_add ⟨start + s.ranking.window, _⟩ k).trans hx)
  have first : start + s.ranking.window + k + 1 - s.ranking.window = start + 1 + k := by omega
  rw [first]
  refine ⟨_, read, s.ranking.statistic.compute_of_length hw ?_⟩
  rw [List.length_map, List.length_range']

/-- Eight days of prices for the tickers of `nestedTree`: gold has closes from the second one on
only, and on the seventh one nothing has. -/
def brokenTable : PriceTable Float where
  dates := [20000, 20001, 20002, 20003, 20004, 20005, 20006, 20007]
  series := .ofList
    [("TLT", [some 90, some 91, some 90, some 92, some 91, some 93, none, some 94]),
      ("SPY", [some 500, some 505, some 490, some 510, some 515, some 500, none, some 505]),
      ("GLD", [none, some 199, some 201, some 205, some 203, some 204, none, some 208])]
  tradeableStart := 0
  aligned := by decide

theorem value_eq_statistic_of_run_brokenTable :
    ∃ r C, Requirements.ofTree nestedTree = .ok r ∧
      load nestedTree r brokenTable ⟨.empty⟩ .default 1000 = .ok C ∧
      (C.value "risky" 4).isOk = false ∧ (C.value "risky" 5).isOk = true ∧
      ∃ start stop, IsLeast {i | start ≤ i ∧ ∀ x, brokenTable.closeAt? x i = none} stop ∧
        start + 2 < stop ∧
        ∀ i, start + 2 ≤ i → i < stop → ∃ x, C.value "risky" i = .ok x := by
  have checked : (do
      let r ← Requirements.ofTree nestedTree
      let C ← load nestedTree r brokenTable ⟨.empty⟩ .default 1000
      let s : NodeStatistic := ⟨"risky", ⟨.standardDeviationReturn, 2⟩, 1⟩
      return decide (s ∈ r.statistics ∧
        (C.value "risky" 4).isOk = false ∧ (C.value "risky" 5).isOk = true)) = .ok true := by
    decide +kernel
  obtain ⟨r, hr, checked⟩ := Except.bind_eq_ok.1 checked
  obtain ⟨C, hC, checked⟩ := Except.bind_eq_ok.1 checked
  obtain ⟨hs, absent, present⟩ := of_decide_eq_true (Except.ok.inj checked)
  have distinct : nestedTree.DistinctIds := by decide
  obtain ⟨node, start, stop, balance, -, -, ends, -, long, values⟩ :=
    value_eq_statistic_of_run hr distinct hC hs
  refine ⟨r, C, hr, hC, absent, present, start, stop, ends, long, fun i hi hlt => ?_⟩
  obtain ⟨x, hx, -⟩ := (values i).2.2 hi hlt
  exact ⟨x, hx⟩

end StatisticTable

end StrategyTree
