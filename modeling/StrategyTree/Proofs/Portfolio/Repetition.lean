import StrategyTree.Proofs.Portfolio.TradeLog

/-!
# Rebalancing twice

A rebalancing leaves nothing to do for a second one at the same closes and to the same allocation.
The holdings are at these closes already, so marking does not change them; the cash is what the
first rebalancing left of its balance, so the balance is the same; and the second one asks for the
numbers of shares that are held. This takes an allocation that gives no ticker less than nothing,
and a balance that is not negative: a negative number of shares is sold every time that it is asked
for. A balance of zero leaves percentages of zero, the same ones both times, as a field divides by
zero.

* `Portfolio.marked_rebalance`, `Portfolio.markedBalance_rebalance`: marking again.
* `Portfolio.Fulfils.trades_eq_nil`: no trades where the shares asked for are held.
* `Portfolio.rebalance_again`: a rebalancing that is repeated.
-/

namespace StrategyTree

namespace Portfolio

open Scalar

/-! ## Holdings at the closes of the day -/

section Marking

variable {α : Type} [Scalar α] {table : PriceTable α} {index : Nat} {a : Allocation α}
  {p q : Portfolio α} {r : Rebalanced α} {x : String}

/-- Every holding that a rebalancing leaves is at the close of its ticker. -/
theorem value_of_rebalance (h : p.rebalance table index a = (q, .ok r)) {holding : Holding α}
    (hx : q.holdings.get? x = some holding) {close : α}
    (hclose : table.closeAt? x index = some close) : holding.value = holding.shares * close := by
  by_cases hasked : ∃ price target, Asks table index r.balance a x price target
  · obtain ⟨price, target, hasks⟩ := hasked
    rw [hasks.get?_rebalance h, holdingOf, Option.ite_none_right_eq_some] at hx
    obtain ⟨-, -, hprice, -⟩ := hasks
    rw [hclose] at hprice
    cases hprice
    rw [← Option.some.inj hx.2]
  · rw [get?_rebalance_of_unasked (fun price target hasks => hasked ⟨price, target, hasks⟩) h,
      marked, SortedMap.get?_mapValues, Option.map_map] at hx
    obtain ⟨before, -, rfl⟩ := Option.map_eq_some_iff.1 hx
    simp [Holding.withPercentage, markHolding, hclose]

/-- Marking again at the closes of a rebalancing changes nothing. -/
theorem marked_rebalance (h : p.rebalance table index a = (q, .ok r)) :
    q.marked table index = q.holdings := by
  apply SortedMap.ext_get?
  intro x
  rw [marked, SortedMap.get?_mapValues]
  cases hx : q.holdings.get? x with
  | none => rfl
  | some holding =>
    rw [Option.map_some, markHolding]
    cases hclose : table.closeAt? x index with
    | none => rfl
    | some close =>
      dsimp only
      rw [← value_of_rebalance h hx hclose]

/-- The tickers that a successful rebalancing names or leaves are loaded. -/
theorem isLoaded_of_rebalance (h : p.rebalance table index a = (q, .ok r)) :
    (∀ x ∈ q.holdings.keys, table.isLoaded x = true) ∧ ∀ x ∈ a.keys, table.isLoaded x = true := by
  have held : ∀ x ∈ p.holdings.keys, table.isLoaded x = true := (rebalance_eq_ok.1 h).1
  constructor
  · have after : ∀ x ∈ (p.rebalance table index a).1.holdings.keys, table.isLoaded x = true :=
      isLoaded_rebalance held
    rwa [h] at after
  · intro x hx
    by_contra missing
    have found : (a.keys.find? fun x => !table.isLoaded x).isSome = true := by
      rw [List.find?_isSome]
      exact ⟨x, hx, by simpa using missing⟩
    obtain ⟨first, hfirst⟩ := Option.isSome_iff_exists.1 found
    have failed : (p.rebalance table index a).2 = .error (.tickerNotLoaded first) :=
      (snd_rebalance_eq_error held).2 ⟨first, hfirst, rfl⟩
    rw [h] at failed
    cases failed

/-- The balance that a rebalancing reports is that of the portfolio it leaves. -/
theorem balance_of_rebalance (h : p.rebalance table index a = (q, .ok r)) :
    q.balance = r.balance := by
  obtain ⟨-, s, -, rfl, rfl⟩ := rebalance_eq_ok.1 h
  rfl

/-- There are no trades if every ticker asked for has the number of shares asked for, up to less
than the least trade. -/
theorem Fulfils.trades_eq_nil (h : Fulfils table index a p q r)
    (hheld : ∀ x price target, Asks table index r.balance a x price target →
      atLeast (abs (target - sharesOf p.holdings x)) leastTrade = false) : r.trades = [] := by
  rw [List.eq_nil_iff_forall_not_mem]
  intro t ht
  obtain ⟨price, target, hasks⟩ := h.asked t ht
  have own : t ∈ r.trades.filter (fun u => u.ticker == t.ticker) :=
    List.mem_filter.2 ⟨ht, beq_self_eq_true _⟩
  rw [h.traded _ price target hasks, hheld _ price target hasks] at own
  cases own

end Marking

/-! ## A second rebalancing -/

variable {K : Type} [Field K] [LinearOrder K] [Roots K] {table : PriceTable K} {index : ℕ}
  {a : Allocation K} {p q q' : Portfolio K} {r r' : Rebalanced K}

/-- The cash is what a rebalancing does not invest of its balance. -/
theorem cash_eq_sub (h : p.rebalance table index a = (q, .ok r)) :
    q.cash = r.balance - invested q.holdings := by
  obtain ⟨-, s, -, rfl, rfl⟩ := rebalance_eq_ok.1 h
  rw [invested_withPercentages]

/-- The balance again is that of the rebalancing. -/
theorem markedBalance_rebalance (h : p.rebalance table index a = (q, .ok r)) :
    q.markedBalance table index = r.balance := by
  rw [markedBalance, marked_rebalance h, cash_eq_sub h, add_sub_cancel]

/-- A second rebalancing leaves the same holdings as the first one. -/
theorem holdings_rebalance_again (h : p.rebalance table index a = (q, .ok r))
    (h' : q.rebalance table index a = (q', .ok r')) (hr : r'.balance = r.balance) :
    q'.holdings = q.holdings := by
  apply SortedMap.ext_get?
  intro x
  by_cases hasked : ∃ price target, Asks table index r.balance a x price target
  · obtain ⟨price, target, hasks⟩ := hasked
    rw [hasks.get?_rebalance h, ← hr]
    rw [← hr] at hasks
    exact hasks.get?_rebalance h'
  · have unasked : ∀ price target, ¬ Asks table index r.balance a x price target :=
      fun price target hasks => hasked ⟨price, target, hasks⟩
    rw [get?_rebalance_of_unasked (hr ▸ unasked) h', marked_rebalance h, hr,
      get?_rebalance_of_unasked unasked h, Option.map_map]
    rfl

variable [IsStrictOrderedRing K]

/-- **Main theorem: rebalancing twice is rebalancing once.** Where a rebalancing of any portfolio to
an allocation that gives no ticker less than nothing succeeds with a balance that is not negative,
it succeeds again on the same day, reports the same balance and no trades, and leaves the portfolio
as it is: its holdings with their percentages, its cash, its balance and its log. -/
theorem rebalance_again (ha : NonNegative a) (h : p.rebalance table index a = (q, .ok r))
    (hbalance : 0 ≤ r.balance) :
    q.rebalance table index a = (q, .ok ⟨r.balance, []⟩) := by
  have loaded := isLoaded_of_rebalance h
  have succeeds : ∃ q' r', q.rebalance table index a = (q', .ok r') :=
    rebalance_succeeds loaded.1 loaded.2
  obtain ⟨q', r', h'⟩ := succeeds
  have balance : r'.balance = r.balance :=
    (fulfils_of_eq_ok h').balance.trans (markedBalance_rebalance h)
  have holdings : q'.holdings = q.holdings := holdings_rebalance_again h h' balance
  have cash : q'.cash = q.cash := by
    rw [cash_eq_sub h', cash_eq_sub h, balance, holdings]
  have trades : r'.trades = [] := by
    apply (fulfils_of_eq_ok h').trades_eq_nil
    intro x price target hasks
    -- the first rebalancing has left exactly as many shares as it was asked for
    rw [balance] at hasks
    have held := (fulfils_of_eq_ok h).sharesOf_eq hasks (hasks.target_nonneg ha hbalance)
    rw [held, sub_self, ← Bool.not_eq_true, Exact.atLeast_iff, Exact.abs_eq, abs_zero, not_le]
    exact leastTrade_pos
  have log : q'.log = q.log := by
    rw [rebalance_log h', trades, List.append_nil]
  have same : q' = q := by
    obtain ⟨_, _, _, _⟩ := q
    obtain ⟨_, _, _, _⟩ := q'
    cases holdings
    cases cash
    cases log
    cases (balance_of_rebalance h').trans (balance.trans (balance_of_rebalance h).symm)
    rfl
  obtain ⟨_, _⟩ := r'
  cases balance
  cases trades
  rw [h', same]

theorem rebalance_again_restlessSteps :
    ∃ p q r, rebalanceAll gappyTable (ofCash 1000) restlessSteps = .ok p ∧
      p.rebalance gappyTable 1 (.ofList [("SPY", some 40), ("TLT", some 25)]) = (q, .ok r) ∧
      r.trades.length = 1 ∧ q.holdings.keys = ["SPY", "TLT"] ∧
      q.rebalance gappyTable 1 (.ofList [("SPY", some 40), ("TLT", some 25)]) =
        (q, .ok ⟨r.balance, []⟩) := by
  have checked : (rebalanceAll gappyTable (ofCash 1000) restlessSteps >>= fun p =>
      match p.rebalance gappyTable 1 (.ofList [("SPY", some 40), ("TLT", some 25)]) with
      | (_, .error e) => .error e
      | (q, .ok r) => .ok (decide (r.trades.length = 1 ∧ q.holdings.keys = ["SPY", "TLT"] ∧
          0 ≤ r.balance))) = .ok true := by
    decide +kernel
  obtain ⟨p, hp, checked⟩ := Except.bind_eq_ok.1 checked
  split at checked
  · cases checked
  · rename_i q r h
    obtain ⟨trades, held, balance⟩ := of_decide_eq_true (Except.ok.inj checked)
    exact ⟨p, q, r, hp, h, trades, held, rebalance_again (by decide +kernel) h balance⟩

end Portfolio

end StrategyTree
