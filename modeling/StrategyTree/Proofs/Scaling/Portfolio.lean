import Mathlib.Tactic.FieldSimp
import StrategyTree.Proofs.Portfolio.Rebalance
import StrategyTree.Proofs.Scaling.Prices

/-!
# Portfolios in other units

Let all money be counted in another unit, and let the shares of each ticker be split, each ticker
by a factor of its own. Then a portfolio is the same portfolio with other numbers: cash and values
change with the unit of money, and of a ticker there are more shares the lower its prices become. In
exact arithmetic rebalancing does not see the difference. It fails with the same error, or it leaves
the same portfolio in other units. Only its trades may differ, since a change of less than a fixed
number of shares is no trade.

* `Rescaling`: a change of units.
* `Portfolio.Rescales`: one portfolio is another one in other units.
* `Portfolio.rebalance_rescaled`: what a rebalancing preserves.
* `simulate_rescaled`: what a whole run preserves.
-/

namespace StrategyTree

open Scalar

variable {K : Type} [Field K] [LinearOrder K]

/-! ## Changes of units -/

/-- A change of units: all money is multiplied by one positive factor, and the prices of each ticker
by another one. -/
structure Rescaling (K : Type) [Field K] [LinearOrder K] where
  money : K
  price : String → K
  money_pos : 0 < money
  price_pos : ∀ x, 0 < price x

namespace Rescaling

variable (u : Rescaling K)

/-- A holding of a ticker in other units. -/
def holding (x : String) (h : Holding K) : Holding K :=
  ⟨h.percentage, u.money / u.price x * h.shares, u.money * h.value⟩

/-- Holdings in other units. -/
def holdings (hs : SortedMap String (Holding K)) : SortedMap String (Holding K) :=
  hs.mapValues u.holding

/-- A day of a run in other units. -/
def day (d : Day K) : Day K := { d with balance := u.money * d.balance }

theorem keys_holdings (hs : SortedMap String (Holding K)) : (u.holdings hs).keys = hs.keys :=
  SortedMap.keys_mapValues _ _

/-- A number of shares at a price is worth as much as before, in the new unit. -/
theorem shares_mul_price (x : String) (shares price : K) :
    u.money / u.price x * shares * (u.price x * price) = u.money * (shares * price) := by
  have hx := (u.price_pos x).ne'
  field_simp

end Rescaling

variable [Roots K]

namespace Portfolio

/-- One portfolio is another one in other units, but for the trades that led to it. -/
structure Rescales (u : Rescaling K) (p q : Portfolio K) : Prop where
  holdings : q.holdings = u.holdings p.holdings
  cash : q.cash = u.money * p.cash
  balance : q.balance = u.money * p.balance

theorem rescales_ofCash (u : Rescaling K) (cash : K) :
    Rescales u (ofCash cash) (ofCash (u.money * cash)) := ⟨rfl, rfl, rfl⟩

/-! ## Marking -/

variable {u : Rescaling K} {table : PriceTable K} {index : ℕ}

theorem markHolding_rescaled (x : String) (h : Holding K) :
    markHolding (table.scaled u.price) index x (u.holding x h) =
      u.holding x (markHolding table index x h) := by
  unfold markHolding
  rw [PriceTable.closeAt?_scaled]
  cases table.closeAt? x index with
  | none => rfl
  | some price => simp only [Option.map_some, Rescaling.holding, u.shares_mul_price]

theorem Rescales.marked {p q : Portfolio K} (h : Rescales u p q) :
    q.marked (table.scaled u.price) index = u.holdings (p.marked table index) := by
  unfold Portfolio.marked
  rw [h.holdings, Rescaling.holdings, SortedMap.mapValues_mapValues, Rescaling.holdings,
    SortedMap.mapValues_mapValues]
  congr 1
  funext x holding
  exact markHolding_rescaled x holding

theorem invested_rescaled (hs : SortedMap String (Holding K)) :
    invested (u.holdings hs) = u.money * invested hs := by
  unfold invested
  rw [Exact.sum_eq, Exact.sum_eq, ← List.sum_map_mul_left]
  simp [Rescaling.holdings, Rescaling.holding, SortedMap.values, SortedMap.mapValues,
    Function.comp_def]

theorem Rescales.markedBalance {p q : Portfolio K} (h : Rescales u p q) :
    q.markedBalance (table.scaled u.price) index = u.money * p.markedBalance table index := by
  unfold Portfolio.markedBalance
  rw [h.marked, invested_rescaled, h.cash, mul_add]

theorem withPercentages_rescaled (balance : K) (hs : SortedMap String (Holding K)) :
    withPercentages (u.money * balance) (u.holdings hs) =
      u.holdings (withPercentages balance hs) := by
  unfold withPercentages Rescaling.holdings
  rw [SortedMap.mapValues_mapValues, SortedMap.mapValues_mapValues]
  congr 1
  funext x h
  simp only [Rescaling.holding, mul_div_mul_left _ _ u.money_pos.ne']

/-! ## Trading -/

/-- The target of a ticker is worth the same part of the balance. -/
theorem target_rescaled (x : String) (percentage balance price : K) :
    percentage / hundred * (u.money * balance) / (u.price x * price) =
      u.money / u.price x * (percentage / hundred * balance / price) := by
  rw [mul_left_comm, mul_div_mul_comm]

variable [IsStrictOrderedRing K]

theorem setShares_rescaled (hs : SortedMap String (Holding K)) (x : String)
    (percentage price target : K) :
    setShares (u.holdings hs) x percentage (u.price x * price) (u.money / u.price x * target) =
      u.holdings (setShares hs x percentage price target) := by
  have positive := zero_lt_scaled (div_pos u.money_pos (u.price_pos x)) (x := target)
  unfold setShares Rescaling.holdings
  by_cases ht : zero < target
  · rw [if_pos ht, if_pos (positive.2 ht), SortedMap.mapValues_insert, u.shares_mul_price]
    rfl
  · rw [if_neg ht, if_neg fun h => ht (positive.1 h), SortedMap.mapValues_erase]

variable (table index)

/-- One ticker. Trading a ticker in other units leaves the same holdings. -/
theorem tradeTicker_rescaled {s t : Trading K} (h : t.holdings = u.holdings s.holdings)
    (balance : K) (x : String) (given : Option K) :
    Alike (fun s' t' => t'.holdings = u.holdings s'.holdings)
      (tradeTicker table index balance s x given)
      (tradeTicker (table.scaled u.price) index (u.money * balance) t x given) := by
  unfold tradeTicker
  rw [PriceTable.close_scaled, bind_assoc]
  refine Alike.bind (Alike.refl (fun _ => rfl) _) ?_
  rintro close _ - - rfl
  cases close with
  | none => exact Alike.ok h
  | some price =>
    have positive := zero_lt_scaled (u.price_pos x) (x := price)
    simp only [Except.ok_bind, Option.map_some, positive]
    split
    · refine Alike.ok ?_
      simp only [holdings_file, h, target_rescaled, setShares_rescaled]
    · exact Alike.ok h

/-- All tickers. Trading in other units ends in the same way, and leaves the same holdings. -/
theorem tradeAll_rescaled (balance : K) (entries : List (String × Option K)) :
    ∀ {s t : Trading K}, t.holdings = u.holdings s.holdings →
      (tradeAll (table.scaled u.price) index (u.money * balance) t entries).1.holdings =
          u.holdings (tradeAll table index balance s entries).1.holdings ∧
        (tradeAll (table.scaled u.price) index (u.money * balance) t entries).2 =
          (tradeAll table index balance s entries).2 := by
  induction entries with
  | nil =>
    intro s t h
    exact ⟨h, rfl⟩
  | cons entry entries ih =>
    obtain ⟨x, given⟩ := entry
    intro s t h
    have first := tradeTicker_rescaled table index h balance x given
    rw [tradeAll, tradeAll]
    cases hs : tradeTicker table index balance s x given <;>
      cases ht : tradeTicker (table.scaled u.price) index (u.money * balance) t x given <;>
      rw [hs, ht] at first <;> cases first
    case error.error.error => exact ⟨h, rfl⟩
    case ok.ok.ok h' => exact ih h'

/-! ## Rebalancing -/

/-- A rebalancing in other units fails with the same error, or finds the same balance; in either
case it leaves the same portfolio behind. -/
theorem rebalance_rescaled {p q : Portfolio K} (h : Rescales u p q) (allocation : Allocation K) :
    Alike (fun r s => s.balance = u.money * r.balance)
        (p.rebalance table index allocation).2
        (q.rebalance (table.scaled u.price) index allocation).2 ∧
      Rescales u (p.rebalance table index allocation).1
        (q.rebalance (table.scaled u.price) index allocation).1 := by
  have loaded : (fun x => !(table.scaled u.price).isLoaded x) = fun x => !table.isLoaded x := by
    funext x
    rw [PriceTable.isLoaded_scaled]
  obtain ⟨holdings, ending⟩ := tradeAll_rescaled table index
    (p.markedBalance table index) allocation.entries
    (s := { holdings := p.marked table index })
    (t := { holdings := q.marked (table.scaled u.price) index }) h.marked
  unfold rebalance
  rw [loaded, h.holdings, u.keys_holdings]
  split
  · exact ⟨Alike.error _, h⟩
  · dsimp only
    rw [h.markedBalance]
    generalize tradeAll table index (p.markedBalance table index)
      { holdings := p.marked table index } allocation.entries = traded at holdings ending ⊢
    generalize tradeAll (table.scaled u.price) index (u.money * p.markedBalance table index)
      { holdings := q.marked (table.scaled u.price) index } allocation.entries = traded'
      at holdings ending ⊢
    obtain ⟨s, x⟩ := traded
    obtain ⟨t, y⟩ := traded'
    obtain rfl : y = x := ending
    cases y with
    | error e => exact ⟨Alike.error e, holdings, h.cash, rfl⟩
    | ok _ =>
      refine ⟨Alike.ok rfl, ?_, ?_, rfl⟩
      · show withPercentages _ t.holdings = _
        rw [holdings, withPercentages_rescaled]
      · show _ - invested t.holdings = _
        rw [holdings, invested_rescaled, mul_sub]

end Portfolio

/-! ## Runs -/

variable [IsStrictOrderedRing K]

/-- A run in other units. Where two evaluators come to the same allocations, a run over scaled
prices from a portfolio in other units fails with the same error as the run before, or records the
same days in other units. -/
theorem simulate_rescaled (u : Rescaling K) {e e' : Evaluator K} {table : PriceTable K}
    {tree : Node K} (he : ∀ i, e.evaluate i tree = e'.evaluate i tree) (stop : ℕ → Bool)
    (indices : List ℕ) :
    ∀ {p q : Portfolio K}, Portfolio.Rescales u p q →
      Alike (fun a b => b.1 = a.1.map u.day ∧ Portfolio.Rescales u a.2 b.2)
        (simulate e table tree stop indices p)
        (simulate e' (table.scaled u.price) tree stop indices q) := by
  induction indices with
  | nil =>
    intro p q h
    exact Alike.ok ⟨rfl, h⟩
  | cons index rest ih =>
    intro p q h
    rw [simulate, simulate]
    split
    · exact Alike.error _
    · rw [he]
      refine Alike.bind (Alike.refl (fun _ => rfl) _) ?_
      rintro allocation _ - - rfl
      obtain ⟨ending, rescales⟩ :=
        Portfolio.rebalance_rescaled table index h allocation
      generalize p.rebalance table index allocation = done at ending rescales ⊢
      generalize q.rebalance (table.scaled u.price) index allocation = done' at ending rescales ⊢
      obtain ⟨p', x⟩ := done
      obtain ⟨q', y⟩ := done'
      dsimp only at ending rescales
      cases ending with
      | error err => exact Alike.error err
      | ok balance =>
        refine Alike.bind (ih rescales) ?_
        rintro ⟨days, p''⟩ ⟨days', q''⟩ - - ⟨rfl, rescales'⟩
        refine Alike.ok ⟨?_, rescales'⟩
        simp only [List.map_cons, Rescaling.day, balance]

end StrategyTree
