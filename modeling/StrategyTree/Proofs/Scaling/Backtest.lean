import StrategyTree.Proofs.BalanceCurve
import StrategyTree.Proofs.Scaling.Portfolio
import StrategyTree.Proofs.Simulation.BuildOrder

/-!
# Backtests in other units

In exact arithmetic a backtest does not depend on the unit in which money is counted, nor on splits
of shares, as long as the conditions of its strategy read indicators that are made of ratios. Two
backtests in different units are followed side by side through everything that is computed: the
indicators, the runs of ranked nodes, whose returns are the same, level after level, and the run of
the whole strategy. Only the number of trades may differ, since a change of less than a fixed number
of shares is no trade.

* `StatisticTable.load_rescaled`: the statistics of ranked nodes are the same.
* `Backtest.run_rescaled`: backtests in different units.
* `Backtest.run_other_balance`: backtests with different starting balances.
* `Backtest.run_after_splits`: backtests before and after splits.
-/

namespace StrategyTree

open Scalar

/-! ## Evaluations -/

/-- Where tables of indicators agree on what a tree reads, its evaluations are the same. -/
theorem IndicatorTable.Resembles.evaluate {α : Type} [Scalar α] {kind : Indicator.Key → Prop}
    {t₁ t₂ : IndicatorTable α} (h : t₁.Resembles kind t₂) {tree : Node α}
    (hread : ∀ key ∈ tree.readings, kind key) (tradeable : SortedSet String)
    (statistics : StatisticTable α) (settings : Settings α) (i : ℕ) :
    (⟨tradeable, t₁, statistics, settings⟩ : Evaluator α).evaluate i tree =
      (⟨tradeable, t₂, statistics, settings⟩ : Evaluator α).evaluate i tree := by
  show Agreement.same.holds _ _
  apply Evaluator.evaluate_agrees Agreement.same
  case ht => rfl
  case hf => rfl
  case hr =>
    intro key hkey
    exact h.value (hread key hkey) i
  case hs =>
    intro id _
    rfl

variable {K : Type} [Field K]

/-! ## Reports -/

/-- A point of a history with its value multiplied. -/
def HistoryPoint.times (m : K) (point : HistoryPoint K) : HistoryPoint K :=
  { point with value := m * point.value }

namespace Backtest

/-- A report is another one with all balances multiplied by a factor; the numbers of trades may be
any two. -/
structure MultipliedBy (m : K) (a b : Backtest K) : Prop where
  dateFrom : b.dateFrom = a.dateFrom
  dateTo : b.dateTo = a.dateTo
  startingBalance : b.startingBalance = m * a.startingBalance
  endingBalance : b.endingBalance = m * a.endingBalance
  tickerStarts : b.tickerStarts = a.tickerStarts
  performance : b.performance = a.performance
  history : b.history = a.history.map (List.map (HistoryPoint.times m))

/-- A report whose balances are multiplied by one differs in the number of trades at most. -/
theorem MultipliedBy.eq_of_one {a b : Backtest K} (h : MultipliedBy 1 a b) :
    b = { a with trades := b.trades } := by
  have same : HistoryPoint.times (1 : K) = id := by
    funext point
    simp [HistoryPoint.times]
  obtain ⟨dateFrom, dateTo, startingBalance, endingBalance, tickerStarts, performance, history⟩ := h
  cases b
  simp_all

end Backtest

variable [LinearOrder K] [Roots K] [IsStrictOrderedRing K]

/-! ## Statistics of ranked nodes -/

namespace StatisticTable

variable (u : Rescaling K) {indicators indicators' : IndicatorTable K}
  (hi : indicators.Resembles (fun key => key.function.ScaleFree ∨ u.price key.ticker = 1)
    indicators')

include hi

omit [Roots K] [IsStrictOrderedRing K] in
/-- A run starts on the same day. -/
theorem simulationStart_rescaled (t : StatisticTable K) (table : PriceTable K) (tree : Node K) :
    t.simulationStart (table.scaled u.price) indicators' tree =
      t.simulationStart table indicators tree := by
  unfold simulationStart dataStart
  simp only [PriceTable.firstIndex?_scaled, hi.firstComplete]
  rfl

variable {tree : Node K}
  (hread : ∀ key ∈ tree.readings, key.function.ScaleFree ∨ u.price key.ticker = 1)

include hread

/-- One statistic. The run of a subtree has the same returns, and so the same statistic. -/
theorem ofNode_rescaled (t : StatisticTable K) (table : PriceTable K) (settings : Settings K)
    (capital : K) (s : NodeStatistic) :
    t.ofNode table indicators settings capital tree s =
      t.ofNode (table.scaled u.price) indicators' settings (u.money * capital) tree s := by
  unfold ofNode
  dsimp only
  rw [simulationStart_rescaled u hi]
  generalize t.simulationStart table indicators tree = start
  have balances : Alike (fun xs ys => ys = xs.map (u.money * ·))
      (t.balancesFrom table indicators settings capital tree start)
      (t.balancesFrom (table.scaled u.price) indicators' settings (u.money * capital) tree
        start) := by
    unfold balancesFrom
    rw [PriceTable.daysFrom_scaled]
    refine Alike.bind (simulate_rescaled u (hi.evaluate hread _ t settings) _ _
      (Portfolio.rescales_ofCash u capital)) ?_
    rintro ⟨days, p⟩ ⟨_, q⟩ - - ⟨rfl, -⟩
    exact Alike.ok (by simp [Rescaling.day])
  refine Alike.eq (Alike.bind balances ?_)
  rintro xs _ - - rfl
  rw [dailyReturns_scaled u.money_pos]
  exact Alike.refl (fun _ => rfl) _

/-- All statistics. The statistics of ranked nodes are the same, level by level. -/
theorem load_rescaled (r : Requirements) (table : PriceTable K) (settings : Settings K)
    (capital : K) :
    load tree r table indicators settings capital =
      load tree r (table.scaled u.price) indicators' settings (u.money * capital) := by
  have ofTree_eq : ∀ (t : StatisticTable K) s,
      t.ofTree tree table indicators settings capital s =
        t.ofTree tree (table.scaled u.price) indicators' settings (u.money * capital) s := by
    intro t s
    unfold ofTree
    split
    · rfl
    · rename_i node hfind
      have within := Node.mem_nodes_of_find hfind
      exact ofNode_rescaled u hi (fun key hkey => hread key (Node.collect_subset within hkey)) t
        table settings capital s
  unfold load
  split
  · rfl
  · apply Outcome.foldlM_congr
    intro batch _ t
    unfold addBatch
    simp only [ofTree_eq]

end StatisticTable

namespace Backtest

/-! ## Runs in other units -/

omit [Roots K] [LinearOrder K] [IsStrictOrderedRing K] in
theorem firstDates_scaled (factor : String → K) (table : PriceTable K) (tickers : List String) :
    firstDates (table.scaled factor) tickers = firstDates table tickers := by
  unfold firstDates
  simp only [PriceTable.firstIndex?_scaled]
  rfl

/-- Preparation. In other units a backtest consults the same statistics, and indicators that
agree on what the strategy reads; it starts on the same day. -/
theorem prepare_rescaled (u : Rescaling K) {request request' : Request K}
    (htree : request'.tree = request.tree) (hcapital : capital request' = u.money * capital request)
    (hread : ∀ key ∈ request.tree.readings,
      key.function.ScaleFree ∨ u.price key.ticker = 1)
    (r : Requirements) (table : PriceTable K) (settings : Settings K) :
    Alike (fun a b => (∀ i, a.1.evaluate i request.tree = b.1.evaluate i request.tree) ∧
        a.2 = b.2)
      (prepare request r table settings)
      (prepare request' r (table.scaled u.price) settings) := by
  unfold prepare
  refine Alike.bind (IndicatorTable.load_scaled u.price_pos table _) fun i₁ i₂ _ _ hi => ?_
  rw [htree, hcapital, StatisticTable.load_rescaled u hi hread]
  refine Alike.bind (Alike.refl (fun _ => rfl) _) ?_
  rintro statistics _ - - rfl
  refine Alike.ok ⟨hi.evaluate hread _ _ _, ?_⟩
  show startIndex table i₁ statistics = startIndex (table.scaled u.price) i₂ statistics
  unfold startIndex
  rw [hi.firstComplete]
  rfl

/-- Backtests in other units. Let one request ask for the same as another one, with a capital in
another unit, and let the prices of each ticker be split by a factor of its own. If every indicator
that the strategy reads is made of ratios, or reads a ticker that is not split, both backtests fail
with the same error, or the one report is the other one in the new unit. -/
theorem run_rescaled (u : Rescaling K) (request request' : Request K)
    (htree : request'.tree = request.tree) (hhistory : request'.history = request.history)
    (hcapital : capital request' = u.money * capital request)
    (hread : ∀ key ∈ request.tree.readings,
      key.function.ScaleFree ∨ u.price key.ticker = 1)
    (r : Requirements) (table : PriceTable K) (settings : Settings K) (stop : ℕ → Bool) :
    Alike (MultipliedBy u.money) (run request r table settings stop)
      (run request' r (table.scaled u.price) settings stop) := by
  unfold run
  refine Alike.bind (prepare_rescaled u htree hcapital hread r table settings) ?_
  rintro ⟨e, start⟩ ⟨e', _⟩ - - ⟨he, rfl⟩
  dsimp only at he ⊢
  rw [htree, hhistory, hcapital, PriceTable.daysFrom_scaled]
  refine Alike.bind (simulate_rescaled u he stop _ (Portfolio.rescales_ofCash u _)) ?_
  rintro ⟨days, p⟩ ⟨_, q⟩ - - ⟨rfl, -⟩
  have points : Alike (fun ps qs => qs = ps.map (HistoryPoint.times u.money))
      (days.mapM (pointOf table)) ((days.map u.day).mapM (pointOf (table.scaled u.price))) := by
    rw [List.mapM_map]
    refine Alike.mapM_map fun d _ => ?_
    exact Alike.bind (Alike.refl (fun _ => rfl) _) fun date _ _ _ e => Alike.ok (by rw [e]; rfl)
  refine Alike.bind points ?_
  rintro ps _ - - rfl
  dsimp only
  rw [List.head?_map, List.getLast?_map, firstDates_scaled]
  cases ps.head? with
  | none => exact Alike.error _
  | some first =>
    cases ps.getLast? with
    | none => exact Alike.error _
    | some last =>
      refine Alike.ok ⟨rfl, rfl, rfl, rfl, rfl, ?_, ?_⟩
      · show Performance.ofBalances ((days.map u.day).map Day.balance) _ = _
        rw [← Performance.ofBalances_scaled u.money_pos (days.map Day.balance), List.map_map,
          List.map_map]
        rfl
      · show (if request.history then _ else _) = Option.map _ (if request.history then _ else _)
        split <;> rfl

/-! ## Two invariances -/

/-- **The starting balance.** Backtests of one strategy with two positive starting balances fail
with the same error, or they report the same days, figures and allocations, and all balances in the
ratio of the starting ones. -/
theorem run_other_balance (request : Request K) {b₁ b₂ : ℕ} (h₁ : 0 < b₁) (h₂ : 0 < b₂)
    (r : Requirements) (table : PriceTable K) (settings : Settings K) (stop : ℕ → Bool) :
    Alike (MultipliedBy ((b₂ : K) / b₁))
      (run { request with startingBalance := b₁ } r table settings stop)
      (run { request with startingBalance := b₂ } r table settings stop) := by
  have pos₁ : (0 : K) < b₁ := Nat.cast_pos.2 h₁
  have pos₂ : (0 : K) < b₂ := Nat.cast_pos.2 h₂
  let u : Rescaling K := ⟨b₂ / b₁, fun _ => 1, div_pos pos₂ pos₁, fun _ => one_pos⟩
  have capital_eq : (b₂ : K) = b₂ / b₁ * b₁ := (div_mul_cancel₀ _ pos₁.ne').symm
  have rescaled := run_rescaled u { request with startingBalance := b₁ }
    { request with startingBalance := b₂ } rfl rfl capital_eq (fun _ _ => .inr rfl) r table
    settings stop
  rwa [PriceTable.scaled_one] at rescaled

/-- While gold is strong, gold and land by their volatilities; otherwise gold. -/
def moodTree : Node ℚ :=
  .choice "mood" none
    ⟨.all, [⟨⟨"GLD", .relativeStrengthIndex, 1⟩, .greater, .fixed 10⟩]⟩
    (.split "steady" none (.inverseVolatility 2)
      [.asset "gold" none "GLD", .asset "land" none "LAND"])
    (.asset "safety" none "GLD")

/-- A request for `moodTree` with its history. -/
def moodRequest : Request ℚ where
  startingBalance := 1
  startDate := 20000
  endDate := 20004
  tree := moodTree
  history := true

/-- Five days of prices for the tickers of `moodTree`; land is so dear that little capital buys next
to none of it. -/
def moodTable : PriceTable ℚ where
  dates := [20000, 20001, 20002, 20003, 20004]
  series := .ofList
    [("GLD", [some 50, some 51, some 53, some 54, some 52]),
      ("LAND", [some (10 ^ 13), some (2 * 10 ^ 13), some (3 * 10 ^ 13), some (2 * 10 ^ 13),
        some (4 * 10 ^ 13)])]
  tradeableStart := 0
  aligned := by decide

theorem run_other_balance_moodTree :
    ∃ r a b, Requirements.ofTree moodTree = .ok r ∧
      run { moodRequest with startingBalance := 1 } r moodTable .default (fun _ => false) = .ok a ∧
      run { moodRequest with startingBalance := 1000 } r moodTable .default (fun _ => false) =
        .ok b ∧
      MultipliedBy 1000 a b ∧ a.trades = 2 ∧ b.trades = 4 := by
  have checked : (do
      let r ← Requirements.ofTree moodTree
      let a ← run { moodRequest with startingBalance := 1 } r moodTable .default fun _ => false
      let b ← run { moodRequest with startingBalance := 1000 } r moodTable .default fun _ => false
      return decide (a.trades = 2 ∧ b.trades = 4)) = .ok true := by
    decide +kernel
  obtain ⟨r, hr, checked⟩ := Except.bind_eq_ok.1 checked
  obtain ⟨a, ha, checked⟩ := Except.bind_eq_ok.1 checked
  obtain ⟨b, hb, checked⟩ := Except.bind_eq_ok.1 checked
  have alike := run_other_balance moodRequest (show 0 < 1 by decide) (show 0 < 1000 by decide) r
    moodTable .default fun _ => false
  have ratio : ((1000 : ℕ) : ℚ) / (1 : ℕ) = 1000 := by norm_num
  rw [ha, hb, ratio] at alike
  cases alike with
  | ok h => exact ⟨r, a, b, hr, ha, hb, h, of_decide_eq_true (Except.ok.inj checked)⟩

/-- **Splits of shares.** If the conditions of a strategy read indicators made of ratios only, then
multiplying the closes of every ticker by a positive factor of its own changes nothing in the
outcome of a backtest but the number of trades. -/
theorem run_after_splits {request : Request K}
    (hread : ∀ key ∈ request.tree.readings, key.function.ScaleFree) {factor : String → K}
    (hfactor : ∀ x, 0 < factor x) (r : Requirements) (table : PriceTable K) (settings : Settings K)
    (stop : ℕ → Bool) :
    Alike (fun a b => b = { a with trades := b.trades }) (run request r table settings stop)
      (run request r (table.scaled factor) settings stop) := by
  let u : Rescaling K := ⟨1, factor, one_pos, hfactor⟩
  have rescaled := run_rescaled u request request rfl rfl (one_mul _).symm
    (fun key hkey => .inl (hread key hkey)) r table settings stop
  exact rescaled.mono fun _ _ h => h.eq_of_one

theorem run_after_splits_moodTree :
    ∃ r a b, Requirements.ofTree moodTree = .ok r ∧
      run moodRequest r moodTable .default (fun _ => false) = .ok a ∧
      run moodRequest r (moodTable.scaled fun x => if x = "LAND" then 1 / 100000 else 3) .default
        (fun _ => false) = .ok b ∧
      b = { a with trades := b.trades } ∧ a.trades = 2 ∧ b.trades = 4 := by
  have checked : (do
      let r ← Requirements.ofTree moodTree
      let a ← run moodRequest r moodTable .default fun _ => false
      let b ← run moodRequest r (moodTable.scaled fun x => if x = "LAND" then 1 / 100000 else 3)
        .default fun _ => false
      return decide (a.trades = 2 ∧ b.trades = 4)) = .ok true := by
    decide +kernel
  obtain ⟨r, hr, checked⟩ := Except.bind_eq_ok.1 checked
  obtain ⟨a, ha, checked⟩ := Except.bind_eq_ok.1 checked
  obtain ⟨b, hb, checked⟩ := Except.bind_eq_ok.1 checked
  have read : ∀ key ∈ moodRequest.tree.readings, key.function.ScaleFree := by decide
  have positive : ∀ x : String, (0 : ℚ) < if x = "LAND" then 1 / 100000 else 3 := by
    intro x
    split <;> norm_num
  have alike := run_after_splits read positive r moodTable .default fun _ => false
  rw [ha, hb] at alike
  cases alike with
  | ok h => exact ⟨r, a, b, hr, ha, hb, h, of_decide_eq_true (Except.ok.inj checked)⟩

end Backtest

end StrategyTree
