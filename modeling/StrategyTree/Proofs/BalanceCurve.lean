import Mathlib.Algebra.BigOperators.Ring.List
import Mathlib.Algebra.Order.BigOperators.Group.List
import Mathlib.Data.Rat.Floor
import Mathlib.Data.Rat.Sqrt
import Mathlib.Tactic.FieldSimp
import Mathlib.Tactic.Linarith
import Mathlib.Tactic.Positivity
import Mathlib.Tactic.Ring
import StrategyTree.Proofs.Exact
import StrategyTree.Proofs.Requirements.Gathered
import StrategyTree.Proofs.Simulation.Run

/-!
# The balance curve

A backtest keeps share counts, marked values and cash. In exact arithmetic, with positive closes and
allocations that give out at most the whole of the balance, its balances are the ones of a simple
recursion: from one day to the next the balance grows by the mean growth of the prices, weighted by
the percentages of the allocation.

* `Allocation.growth`: the growth of a balance under an allocation.
* `Portfolio.Holds`: what is held of given tickers, with the rest in cash.
* `Portfolio.Holds.markedBalance_eq`: the balance of such holdings at new prices.
* `Backtest.balance_curve`: the balances of a backtest.
-/

namespace StrategyTree

variable {K : Type} [Field K] [LinearOrder K] [Roots K]

/-! ## Specification -/

/-- The percentage of a ticker in an allocation, zero where it has none. -/
def Allocation.percentageOf (a : Allocation K) (x : String) : K := (a.get? x).join.getD 0

/-- No percentage is negative, and together they are no more than the whole. -/
structure Allocation.Fair (a : Allocation K) : Prop where
  nonneg : ∀ x ∈ a.keys, 0 ≤ a.percentageOf x
  total : (a.keys.map a.percentageOf).sum ≤ 100

instance (a : Allocation K) : Decidable a.Fair :=
  decidable_of_iff ((∀ x ∈ a.keys, 0 ≤ a.percentageOf x) ∧ (a.keys.map a.percentageOf).sum ≤ 100)
    ⟨fun h => ⟨h.1, h.2⟩, fun h => ⟨h.nonneg, h.total⟩⟩

/-- The growth of a balance under an allocation while the prices go from `p` to `q`. -/
def Allocation.growth (a : Allocation K) (p q : String → K) : K :=
  1 + (a.keys.map fun x => a.percentageOf x / 100 * (q x / p x - 1)).sum

/-- A ticker has a positive close on a day. -/
def PriceTable.Priced (table : PriceTable K) (index : ℕ) (x : String) : Prop :=
  ∃ p, table.closeAt? x index = some p ∧ 0 < p

/-- The close of a ticker on a day, zero where it has none. -/
def PriceTable.priceAt (table : PriceTable K) (index : ℕ) (x : String) : K :=
  (table.closeAt? x index).getD 0

instance (table : PriceTable K) (index : ℕ) (x : String) : Decidable (table.Priced index x) :=
  decidable_of_iff (∃ p ∈ table.closeAt? x index, 0 < p) Iff.rfl

theorem PriceTable.Priced.priceAt_pos {table : PriceTable K} {index : ℕ} {x : String}
    (h : table.Priced index x) : 0 < table.priceAt index x := by
  obtain ⟨p, hclose, hpos⟩ := h
  rw [PriceTable.priceAt, hclose]
  exact hpos

theorem PriceTable.Priced.isSome {table : PriceTable K} {index : ℕ} {x : String}
    (h : table.Priced index x) : (table.closeAt? x index).isSome = true := by
  obtain ⟨p, hclose, -⟩ := h
  rw [hclose]
  rfl

/-- The balance of a day is that of the day before, grown by its allocation. -/
def Day.Follows (table : PriceTable K) (d d' : Day K) : Prop :=
  d'.balance = d.balance * d.allocation.growth (table.priceAt d.index) (table.priceAt d'.index)

/-! ## What a portfolio holds -/

namespace Portfolio

/-- A portfolio worth a balance at some prices: given numbers of shares of the listed tickers, and
the rest in cash. -/
structure Holds (p : Portfolio K) (tickers : List String) (shares price : String → K)
    (balance : K) : Prop where
  held : ∀ x h, p.holdings.get? x = some h → x ∈ tickers ∧ h.shares = shares x
  unheld : ∀ x ∈ tickers, p.holdings.get? x = none → shares x = 0
  cash : p.cash = balance - (tickers.map fun x => shares x * price x).sum

theorem holds_ofCash (capital : K) (price : String → K) :
    Holds (ofCash capital) [] (fun _ => 0) price capital where
  held x h hx := by cases hx
  unheld x hx := by cases hx
  cash := by
    show capital = capital - 0
    rw [sub_zero]

theorem Holds.mem_of_mem_keys {p : Portfolio K} {tickers : List String} {shares price : String → K}
    {balance : K} (h : p.Holds tickers shares price balance) {x : String}
    (hx : x ∈ p.holdings.keys) : x ∈ tickers := by
  rw [← SortedMap.contains_iff_mem_keys, SortedMap.contains, Option.isSome_iff_exists] at hx
  obtain ⟨holding, hx⟩ := hx
  exact (h.held x holding hx).1

variable {table : PriceTable K} {index : ℕ}

/-- Marking. At new prices the balance changes by what the shares change. -/
theorem Holds.markedBalance_eq {p : Portfolio K} {tickers : List String}
    {shares price : String → K} {balance : K} (h : p.Holds tickers shares price balance)
    (hn : tickers.Nodup) (hq : ∀ x ∈ tickers, table.Priced index x) :
    p.markedBalance table index =
      balance + (tickers.map fun x => shares x * (table.priceAt index x - price x)).sum := by
  have worth : invested (p.marked table index) =
      (tickers.map fun x => shares x * table.priceAt index x).sum := by
    unfold invested
    rw [Exact.sum_eq]
    apply SortedMap.sum_values_eq hn
    · intro x hx
      rw [marked, SortedMap.keys_mapValues] at hx
      exact h.mem_of_mem_keys hx
    · intro x v hv
      rw [marked, SortedMap.get?_mapValues, Option.map_eq_some_iff] at hv
      obtain ⟨holding, hget, rfl⟩ := hv
      obtain ⟨hmem, hshares⟩ := h.held x holding hget
      obtain ⟨q, hclose, -⟩ := hq x hmem
      simp only [markHolding, PriceTable.priceAt, hclose, hshares, Option.getD_some]
    · intro x hx hnone
      rw [marked, SortedMap.get?_mapValues, Option.map_eq_none_iff] at hnone
      rw [h.unheld x hx hnone, zero_mul]
  have change : (tickers.map fun x => shares x * (table.priceAt index x - price x)).sum =
      (tickers.map fun x => shares x * table.priceAt index x).sum -
        (tickers.map fun x => shares x * price x).sum := by
    rw [eq_sub_iff_add_eq, ← List.sum_map_add]
    congr 1
    apply List.map_congr_left
    intro x _
    ring
  unfold markedBalance
  rw [worth, h.cash, change]
  ring

theorem markedBalance_ofCash (capital : K) :
    (ofCash capital).markedBalance table index = capital := by
  have none_priced : ∀ x ∈ ([] : List String), table.Priced index x :=
    fun x hx => absurd hx List.not_mem_nil
  rw [(holds_ofCash capital fun _ => 0).markedBalance_eq List.nodup_nil none_priced,
    List.map_nil, List.sum_nil, add_zero]

end Portfolio

variable [IsStrictOrderedRing K]

/-! ## Growth is positive -/

/-- Finitely many positive numbers stay above a positive number, which can be taken below one. -/
theorem exists_floor {r : String → K} :
    ∀ {xs : List String}, (∀ x ∈ xs, 0 < r x) → ∃ m, 0 < m ∧ m ≤ 1 ∧ ∀ x ∈ xs, m ≤ r x := by
  intro xs
  induction xs with
  | nil =>
    intro _
    exact ⟨1, one_pos, le_refl 1, fun x hx => absurd hx List.not_mem_nil⟩
  | cons x xs ih =>
    intro h
    rw [List.forall_mem_cons] at h
    obtain ⟨m, hm, hm₁, hle⟩ := ih h.2
    refine ⟨min m (r x), lt_min hm h.1, (min_le_left _ _).trans hm₁, ?_⟩
    rw [List.forall_mem_cons]
    exact ⟨min_le_right _ _, fun y hy => (min_le_left _ _).trans (hle y hy)⟩

theorem Allocation.growth_pos {a : Allocation K} (ha : a.Fair) {p q : String → K}
    (hp : ∀ x ∈ a.keys, 0 < p x) (hq : ∀ x ∈ a.keys, 0 < q x) : 0 < a.growth p q := by
  obtain ⟨m, hm, hm₁, hle⟩ := exists_floor fun x hx => div_pos (hq x hx) (hp x hx)
  -- every ticker loses at most the part `1 - m` of its weight
  have loss : (a.keys.map fun x => a.percentageOf x * ((m - 1) / 100)).sum ≤
      (a.keys.map fun x => a.percentageOf x / 100 * (q x / p x - 1)).sum := by
    apply List.sum_le_sum
    intro x hx
    have hw : 0 ≤ a.percentageOf x / 100 := div_nonneg (ha.nonneg x hx) (by norm_num)
    have hr : m - 1 ≤ q x / p x - 1 := by linarith [hle x hx]
    calc a.percentageOf x * ((m - 1) / 100) = a.percentageOf x / 100 * (m - 1) := by ring
      _ ≤ a.percentageOf x / 100 * (q x / p x - 1) := mul_le_mul_of_nonneg_left hr hw
  rw [List.sum_map_mul_right] at loss
  have total : (100 : K) * ((m - 1) / 100) ≤
      (a.keys.map a.percentageOf).sum * ((m - 1) / 100) :=
    mul_le_mul_of_nonpos_right ha.total (by linarith)
  have whole : (100 : K) * ((m - 1) / 100) = m - 1 := by ring
  unfold Allocation.growth
  linarith

/-! ## A day -/

/-- The shares that make up a ticker's percentage of a balance at the price of a day. -/
def Allocation.targetOf (a : Allocation K) (table : PriceTable K) (index : ℕ) (balance : K)
    (x : String) : K :=
  Portfolio.targetShares balance (a.percentageOf x) (table.priceAt index x)

namespace Portfolio

section Trades

variable {table : PriceTable K} {index : ℕ} {a : Allocation K} {balance : K} {s s' : Trading K}

omit [IsStrictOrderedRing K] in
/-- The trades of an allocation bring a ticker with a price to its target. -/
theorem get?_of_priced (h : tradeAll table index balance s a.entries = (s', .ok ())) {x : String}
    (hx : x ∈ a.keys) (hprice : table.Priced index x) :
    s'.holdings.get? x = holdingOf (a.percentageOf x) (table.priceAt index x)
      (a.targetOf table index balance x) := by
  obtain ⟨⟨y, given⟩, he, rfl⟩ := List.mem_map.1 hx
  obtain ⟨price, hclose, hpos⟩ := hprice
  have hpos' : Scalar.zero < price := by
    rw [Exact.zero_eq]
    exact hpos
  have percentage : a.percentageOf y = given.getD Scalar.zero := by
    rw [Allocation.percentageOf, SortedMap.get?_eq_some_iff.2 he, Exact.zero_eq]
    rfl
  have price' : table.priceAt index y = price := by
    rw [PriceTable.priceAt, hclose]
    rfl
  unfold Allocation.targetOf
  rw [get?_tradeAll_of_mem hclose hpos' a.nodup_keys he h, percentage, price']

/-- Holdings that have reached the targets of an allocation. -/
structure Reached (holdings : SortedMap String (Holding K)) (tickers : List String)
    (target price : String → K) : Prop where
  held : ∀ x h, holdings.get? x = some h →
    x ∈ tickers ∧ h.shares = target x ∧ h.value = target x * price x
  unheld : ∀ x ∈ tickers, holdings.get? x = none → target x = 0

/-- Trades. The trades of a fair allocation of priced tickers reach its targets. -/
theorem reached_of_tradeAll (h : tradeAll table index balance s a.entries = (s', .ok ()))
    (hsub : ∀ x ∈ s.holdings.keys, x ∈ a.keys) (hprice : ∀ x ∈ a.keys, table.Priced index x)
    (hfair : a.Fair) (hbalance : 0 ≤ balance) :
    Reached s'.holdings a.keys (a.targetOf table index balance) (table.priceAt index) where
  held x holding hget := by
    by_cases hx : x ∈ a.keys
    · rw [get?_of_priced h hx (hprice x hx), holdingOf] at hget
      split at hget
      · cases hget
        exact ⟨hx, rfl, rfl⟩
      · cases hget
    · rw [get?_tradeAll_of_not_mem hx h] at hget
      exact absurd (hsub x (SortedMap.mem_keys_of_get? hget)) hx
  unheld x hx hget := by
    have hpos := (hprice x hx).priceAt_pos
    have hweight := hfair.nonneg x hx
    have nonneg : 0 ≤ a.targetOf table index balance x := by
      unfold Allocation.targetOf targetShares
      rw [Exact.hundred_eq]
      positivity
    rw [get?_of_priced h hx (hprice x hx), holdingOf] at hget
    split at hget
    · cases hget
    · rename_i hle
      rw [Exact.zero_eq, not_lt] at hle
      exact le_antisymm hle nonneg

end Trades

/-- Rebalancing. After a rebalancing to a fair allocation of priced tickers, the portfolio holds
of every ticker the shares that make up its percentage of the marked balance. -/
theorem holds_rebalance {table : PriceTable K} {index : ℕ} {p q : Portfolio K}
    {a : Allocation K} {r : Rebalanced K} (h : p.rebalance table index a = (q, .ok r))
    (hsub : ∀ x ∈ p.holdings.keys, x ∈ a.keys) (hprice : ∀ x ∈ a.keys, table.Priced index x)
    (hfair : a.Fair) (hbalance : 0 ≤ p.markedBalance table index) :
    q.Holds a.keys (a.targetOf table index (p.markedBalance table index)) (table.priceAt index)
      (p.markedBalance table index) := by
  obtain ⟨-, s, hs, rfl, -⟩ := rebalance_eq_ok.1 h
  have marked_sub : ∀ x ∈ (p.marked table index).keys, x ∈ a.keys := by
    intro x hx
    rw [marked, SortedMap.keys_mapValues] at hx
    exact hsub x hx
  have reached := reached_of_tradeAll hs marked_sub hprice hfair hbalance
  refine ⟨fun x h hx => ?_, fun x hx hnone => ?_, ?_⟩
  · rw [withPercentages, SortedMap.get?_mapValues, Option.map_eq_some_iff] at hx
    obtain ⟨holding, hget, rfl⟩ := hx
    obtain ⟨hmem, hshares, -⟩ := reached.held x holding hget
    exact ⟨hmem, hshares⟩
  · rw [withPercentages, SortedMap.get?_mapValues, Option.map_eq_none_iff] at hnone
    exact reached.unheld x hx hnone
  · show p.markedBalance table index - invested s.holdings = _
    congr 1
    unfold invested
    rw [Exact.sum_eq]
    apply SortedMap.sum_values_eq a.nodup_keys
    · intro x hx
      obtain ⟨holding, hget⟩ := Option.isSome_iff_exists.1 (SortedMap.contains_iff_mem_keys.2 hx)
      exact (reached.held x holding hget).1
    · intro x holding hget
      exact (reached.held x holding hget).2.2
    · intro x hx hnone
      rw [reached.unheld x hx hnone, zero_mul]

end Portfolio

/-- From one day to the next. The balance of what a rebalancing leaves grows with the prices. -/
theorem Portfolio.Holds.grows {table : PriceTable K} {i j : ℕ} {p : Portfolio K} {a : Allocation K}
    {balance : K}
    (h : p.Holds a.keys (a.targetOf table i balance) (table.priceAt i) balance)
    (hi : ∀ x ∈ a.keys, table.Priced i x) (hj : ∀ x ∈ a.keys, table.Priced j x) :
    p.markedBalance table j = balance * a.growth (table.priceAt i) (table.priceAt j) := by
  rw [h.markedBalance_eq a.nodup_keys hj, Allocation.growth, mul_add, mul_one,
    ← List.sum_map_mul_left]
  congr 2
  apply List.map_congr_left
  intro x hx
  have hpos := (hi x hx).priceAt_pos
  unfold Allocation.targetOf targetShares
  rw [Exact.hundred_eq]
  field_simp

/-! ## A run -/

/-- The curve of a run. If every allocation names the same tickers, all of them priced, and is
fair, then the balances of a run follow one another, from the marked balance of the first day on. -/
theorem follows_of_simulate {e : Evaluator K} {table : PriceTable K} {tree : Node K}
    {stop : ℕ → Bool} {tickers : List String} {indices : List ℕ}
    (hprice : ∀ i ∈ indices, ∀ x ∈ tickers, table.Priced i x) :
    ∀ {p q : Portfolio K} {days : List (Day K)},
      simulate e table tree stop indices p = .ok (days, q) →
      (∀ d ∈ days, d.allocation.keys = tickers ∧ d.allocation.Fair) →
      (∀ x ∈ p.holdings.keys, x ∈ tickers) →
      (∀ i ∈ indices.head?, 0 ≤ p.markedBalance table i) →
        (∀ d ∈ days.head?, d.balance = p.markedBalance table d.index) ∧
          days.IsChain (Day.Follows table) := by
  induction indices with
  | nil =>
    intro p q days h _ _ _
    cases h
    exact ⟨fun d hd => absurd hd (Option.not_mem_none d), List.IsChain.nil⟩
  | cons i rest ih =>
    intro p q days h hdays hsub hbalance
    obtain ⟨-, allocation, p', r, days', -, hr, hrest, rfl⟩ := simulate_cons_eq_ok.1 h
    rw [List.forall_mem_cons] at hprice hdays
    obtain ⟨⟨hkeys, hfair⟩, hdays⟩ := hdays
    obtain rfl : allocation.keys = tickers := hkeys
    have hV : 0 ≤ p.markedBalance table i := hbalance i rfl
    have holds := Portfolio.holds_rebalance hr hsub hprice.1 hfair hV
    have balance : r.balance = p.markedBalance table i := by
      obtain ⟨-, s, -, -, rfl⟩ := Portfolio.rebalance_eq_ok.1 hr
      rfl
    have grows : ∀ j ∈ rest, p'.markedBalance table j = p.markedBalance table i *
        allocation.growth (table.priceAt i) (table.priceAt j) :=
      fun j hj => holds.grows hprice.1 (hprice.2 j hj)
    obtain ⟨hhead, hchain⟩ := ih hprice.2 hrest hdays (fun x hx => holds.mem_of_mem_keys hx)
      fun j hj => by
        have hj := List.mem_of_mem_head? hj
        have growth := Allocation.growth_pos hfair (fun x hx => (hprice.1 x hx).priceAt_pos)
          fun x hx => (hprice.2 j hj x hx).priceAt_pos
        rw [grows j hj]
        exact mul_nonneg hV growth.le
    constructor
    · intro d hd
      obtain rfl := Option.some.inj hd
      exact balance
    · rw [List.isChain_cons]
      refine ⟨fun d hd => ?_, hchain⟩
      have hindex : d.index ∈ rest := by
        rw [← map_index_simulate hrest]
        exact List.mem_map_of_mem (List.mem_of_mem_head? hd)
      show d.balance = r.balance * _
      rw [hhead d hd, grows d.index hindex, balance]

/-! ## A backtest -/

/-- In an accepted tree an allocation names just the tickers that may be traded. -/
theorem keys_evaluate_of_ofTree {α : Type} [Scalar α] {e : Evaluator α} {tree : Node α}
    {r : Requirements} (hr : Requirements.ofTree tree = .ok r) (he : e.tradeable = r.tradeable)
    {i : ℕ} {a : Allocation α} (ha : e.evaluate i tree = .ok a) : a.keys = r.tradeable.keys := by
  rw [← he]
  apply Evaluator.keys_evaluate ha
  intro x hx
  rw [he, Requirements.tradeable_iff_of_ofTree hr]
  exact hx

/-- The curve of a backtest, from its capital on. -/
theorem follows_of_run {request : Request K} {r : Requirements}
    (hr : Requirements.ofTree request.tree = .ok r) {table : PriceTable K} {settings : Settings K}
    {stop : ℕ → Bool} {e : Evaluator K} {start : ℕ} {portfolio : Portfolio K} {days : List (Day K)}
    {points : List (HistoryPoint K)}
    (hprepare : Backtest.prepare request r table settings = .ok (e, start))
    (hdays : simulate e table request.tree stop (table.daysFrom start)
      (Portfolio.ofCash (Backtest.capital request)) = .ok (days, portfolio))
    (hpoints : List.Forall₂ (fun d point => Backtest.pointOf table d = .ok point) days points)
    (hprice : ∀ t < points.length, ∀ x, r.tradeable.contains x = true →
      table.Priced (start + t) x)
    (hfair : ∀ point ∈ points, point.allocation.Fair) :
    (∀ d ∈ days.head?, d.balance = (request.startingBalance : K)) ∧
      days.IsChain (Day.Follows table) := by
  have count : (table.daysFrom start).length = points.length := by
    rw [← map_index_simulate hdays, List.length_map, hpoints.length_eq]
  have priced : ∀ i ∈ table.daysFrom start, ∀ x ∈ r.tradeable.keys, table.Priced i x := by
    intro i hi x hx
    obtain ⟨t, ht, rfl⟩ := List.getElem_of_mem hi
    rw [PriceTable.getElem_daysFrom ht]
    exact hprice t (count ▸ ht) x (SortedMap.contains_iff_mem_keys.2 hx)
  have allocations : ∀ d ∈ days, d.allocation.keys = r.tradeable.keys ∧ d.allocation.Fair := by
    intro d hd
    obtain ⟨point, hmem, hpoint⟩ := Outcome.exists_of_forall₂ hpoints hd
    refine ⟨keys_evaluate_of_ofTree hr (Backtest.tradeable_of_prepare hprepare)
      (evaluate_of_mem_simulate hdays d hd), ?_⟩
    rw [← (Backtest.pointOf_eq_ok.1 hpoint).2.1]
    exact hfair point hmem
  have capital : ∀ i ∈ (table.daysFrom start).head?,
      0 ≤ (Portfolio.ofCash (Backtest.capital request)).markedBalance table i := by
    intro i _
    rw [Portfolio.markedBalance_ofCash]
    exact Nat.cast_nonneg request.startingBalance
  obtain ⟨hhead, hchain⟩ := follows_of_simulate priced hdays allocations
    (fun x hx => absurd hx List.not_mem_nil) capital
  refine ⟨fun d hd => ?_, hchain⟩
  rw [hhead d hd, Portfolio.markedBalance_ofCash]
  rfl

/-- **Main theorem: the balance curve.** Let every ticker that may be traded be priced on every day
of a backtest's history, and let every allocation be fair. Then the allocations are those of the
strategy, the history starts with the capital, each balance is the one before, grown by its
allocation, the last one is the balance at the end, and all are positive if the capital is. -/
theorem Backtest.balance_curve {request : Request K} {r : Requirements}
    (hr : Requirements.ofTree request.tree = .ok r) {table : PriceTable K} {settings : Settings K}
    {stop : ℕ → Bool} {report : Backtest K} {points : List (HistoryPoint K)}
    (hrun : run request r table settings stop = .ok report)
    (hpoints : report.history = some points) {e : Evaluator K} {start : ℕ}
    (hprepare : prepare request r table settings = .ok (e, start))
    (hprice : ∀ t < points.length, ∀ x, r.tradeable.contains x = true →
      table.Priced (start + t) x)
    (hfair : ∀ point ∈ points, point.allocation.Fair) :
    (∀ t (ht : t < points.length),
      e.evaluate (start + t) request.tree = .ok points[t].allocation) ∧
    points.head?.map HistoryPoint.value = some (request.startingBalance : K) ∧
    (∀ t (ht : t + 1 < points.length), points[t + 1].value = points[t].value *
      points[t].allocation.growth (table.priceAt (start + t)) (table.priceAt (start + (t + 1)))) ∧
    points.getLast?.map HistoryPoint.value = some report.endingBalance ∧
    (0 < request.startingBalance → ∀ point ∈ points, 0 < point.value) := by
  obtain ⟨e', start', days, portfolio, first, last, hprepare', hdays, hzip, hfirst, hlast, -, -,
    hend⟩ := run_with_history hrun hpoints
  rw [hprepare] at hprepare'
  cases hprepare'
  have hnonempty : 0 < points.length := List.length_pos_of_mem (List.mem_of_mem_head? hfirst)
  have hpoint := fun t (ht : t < points.length) => getElem_points hdays hzip ht
  have hchain := follows_of_run hr hprepare hdays hzip hprice hfair
  have hcurve : ∀ t (ht : t + 1 < points.length),
      points[t + 1].value = points[t].value * points[t].allocation.growth
        (table.priceAt (start + t)) (table.priceAt (start + (t + 1))) := by
    intro t ht
    obtain ⟨hd, hindex, -, -, hallocation, hvalue⟩ := hpoint t (by omega)
    obtain ⟨hd', hindex', -, -, -, hvalue'⟩ := hpoint (t + 1) ht
    have step := List.isChain_iff_getElem.1 hchain.2 t hd'
    unfold Day.Follows at step
    rw [hvalue', hvalue, hallocation, step, hindex, hindex']
  have hzero : points[0].value = (request.startingBalance : K) := by
    obtain ⟨hd, -, -, -, -, hvalue⟩ := hpoint 0 hnonempty
    rw [hvalue]
    exact hchain.1 _ (List.head?_eq_getElem? ▸ List.getElem?_eq_getElem hd)
  refine ⟨?_, ?_, hcurve, ?_, ?_⟩
  · intro t ht
    obtain ⟨-, -, -, hevaluate, -⟩ := hpoint t ht
    exact hevaluate
  · rw [List.head?_eq_getElem?, List.getElem?_eq_getElem hnonempty, Option.map_some, hzero]
  · rw [hlast, Option.map_some, hend]
  · intro hpositive point hmem
    obtain ⟨t, ht, rfl⟩ := List.getElem_of_mem hmem
    induction t with
    | zero =>
      rw [hzero]
      exact Nat.cast_pos.2 hpositive
    | succ t ih =>
      have hkeys := keys_evaluate_of_ofTree hr (tradeable_of_prepare hprepare)
        (hpoint t (by omega)).2.2.2.1
      have priced : ∀ j < points.length, ∀ x ∈ points[t].allocation.keys,
          0 < table.priceAt (start + j) x := by
        intro j hj x hx
        rw [hkeys] at hx
        exact (hprice j hj x (SortedMap.contains_iff_mem_keys.2 hx)).priceAt_pos
      rw [hcurve t ht]
      apply mul_pos (ih (by omega) (List.getElem_mem _))
      exact Allocation.growth_pos (hfair _ (List.getElem_mem _)) (priced t (by omega))
        (priced (t + 1) ht)

/-! ## A backtest over the rationals -/

/-- Roots of squares, and whole powers. -/
instance : Roots ℚ where
  sqrt := Rat.sqrt
  pow x y := x ^ ⌊y⌋

/-- Half in one ticker, and half in another one while the first one is dear. -/
def halvesTree : Node ℚ :=
  .split "halves" none .equal
    [.asset "stocks" none "SPY",
      .choice "switch" none
        ⟨.all, [⟨⟨"SPY", .movingAveragePrice, 2⟩, .greater, .fixed 104⟩]⟩
        (.asset "bonds" none "TLT") (.unknown "nothing" none)]

/-- A request for `halvesTree` with its history. -/
def halvesRequest : Request ℚ where
  startingBalance := 10000
  startDate := ⟨20001, by decide⟩
  endDate := ⟨20003, by decide⟩
  tree := halvesTree
  history := true

/-- Four days of prices for the tickers of `halvesTree`. -/
def halvesTable : PriceTable ℚ where
  dates := [⟨20000, by decide⟩, ⟨20001, by decide⟩, ⟨20002, by decide⟩, ⟨20003, by decide⟩]
  series := .ofList [("SPY", [some 100, some 110, some 99, some 108]),
    ("TLT", [some 80, some 84, some 82, some 86])]
  tradeableStart := 1
  aligned := by decide

theorem Backtest.balance_curve_halvesTree :
    ∃ r report points e start, Requirements.ofTree halvesTree = .ok r ∧
      run halvesRequest r halvesTable .default (fun _ => false) = .ok report ∧
      report.history = some points ∧ points.length = 3 ∧
      prepare halvesRequest r halvesTable .default = .ok (e, start) ∧
      (∀ t (ht : t + 1 < points.length), points[t + 1].value = points[t].value *
        points[t].allocation.growth (halvesTable.priceAt (start + t))
          (halvesTable.priceAt (start + (t + 1)))) ∧
      ∀ point ∈ points, 0 < point.value := by
  have checked : (do
      let r ← Requirements.ofTree halvesTree
      let (_, start) ← prepare halvesRequest r halvesTable .default
      let report ← run halvesRequest r halvesTable .default fun _ => false
      let points : List (HistoryPoint ℚ) ← report.history.elim (.error .malformedDocument) .ok
      return decide (points.length = 3 ∧ (∀ point ∈ points, point.allocation.Fair) ∧
        ∀ t ∈ List.range 3, ∀ x ∈ r.tradeable.keys, halvesTable.Priced (start + t) x)) =
          .ok true := by
    decide +kernel
  obtain ⟨r, hr, checked⟩ := Except.bind_eq_ok.1 checked
  obtain ⟨⟨e, start⟩, hprepare, checked⟩ := Except.bind_eq_ok.1 checked
  obtain ⟨report, hrun, checked⟩ := Except.bind_eq_ok.1 checked
  obtain ⟨points, hpoints, checked⟩ := Except.bind_eq_ok.1 checked
  obtain ⟨hlength, hfair, hprice⟩ := of_decide_eq_true (Except.ok.inj checked)
  have hhistory : report.history = some points := by
    cases h : report.history with
    | none =>
      rw [h] at hpoints
      cases hpoints
    | some points' =>
      rw [h] at hpoints
      cases hpoints
      rfl
  obtain ⟨-, -, curve, -, positive⟩ := balance_curve hr hrun hhistory hprepare
    (fun t ht x hx => hprice t (List.mem_range.2 (hlength ▸ ht)) x
      (SortedMap.contains_iff_mem_keys.1 hx)) hfair
  exact ⟨r, report, points, e, start, hr, hrun, hhistory, hlength, hprepare, curve,
    positive (by decide)⟩

end StrategyTree
