import Mathlib.Tactic.LinearCombination
import StrategyTree.Proofs.BalanceCurve

/-!
# Money is conserved

Rebalancing turns cash into shares and back at the closes of its day. In exact arithmetic nothing is
lost on the way, whatever the allocations ask for, also where they name tickers without a close,
give out more than the whole, or take from one ticker more than nothing.

* `Portfolio.worthOf`: what a holding is worth at the closes of a day.
* `Portfolio.invested_tradeTicker`, `Portfolio.invested_tradeAll`: what trades pay for shares.
* `Portfolio.rebalanceAll`, `Portfolio.Consistent`: sequences of rebalancings and what they
  preserve.
* `Portfolio.money_conserved`: the balance sheet after every rebalancing of a sequence.
-/

namespace StrategyTree

namespace Portfolio

variable {K : Type} [Field K] [LinearOrder K] [Roots K] {table : PriceTable K} {index : ℕ}

/-! ## The worth of holdings -/

theorem invested_eq (holdings : SortedMap String (Holding K)) :
    invested holdings = (holdings.values.map Holding.value).sum :=
  Exact.sum_eq _

/-- What a holding is worth at the closes of a day: its shares at the ticker's close, or its last
value where the ticker has none. -/
def worthOf (table : PriceTable K) (index : ℕ) (ticker : String) (h : Holding K) : K :=
  match table.closeAt? ticker index with
  | some close => h.shares * close
  | none => h.value

theorem value_markHolding (x : String) (h : Holding K) :
    (markHolding table index x h).value = worthOf table index x h := by
  unfold markHolding worthOf
  cases table.closeAt? x index <;> rfl

/-- The balance at the closes of a day is the cash and what the holdings are worth. -/
theorem markedBalance_eq (p : Portfolio K) :
    p.markedBalance table index =
      p.cash + (p.holdings.entries.map fun e => worthOf table index e.1 e.2).sum := by
  unfold markedBalance marked
  rw [invested_eq, add_comm, SortedMap.values, SortedMap.mapValues, List.map_map, List.map_map]
  simp only [Function.comp_def, value_markHolding]

theorem invested_withPercentages (balance : K) (holdings : SortedMap String (Holding K)) :
    invested (withPercentages balance holdings) = invested holdings := by
  rw [invested_eq, invested_eq, withPercentages, SortedMap.mapValues, SortedMap.values,
    SortedMap.values, List.map_map, List.map_map, List.map_map]
  rfl

/-! ## What trades pay -/

/-- A ticker is held at the close of a day, if it has one: its value is that of its shares. -/
def AtClose (table : PriceTable K) (index : ℕ) (holdings : SortedMap String (Holding K))
    (x : String) : Prop :=
  ∀ close, table.closeAt? x index = some close →
    holdings.part Holding.value x = sharesOf holdings x * close

theorem atClose_marked (p : Portfolio K) (x : String) :
    AtClose table index (p.marked table index) x := by
  intro close hclose
  unfold SortedMap.part sharesOf
  rw [marked, SortedMap.get?_mapValues]
  cases p.holdings.get? x with
  | none => simp
  | some h => simp [markHolding, hclose]

/-- What is paid for a ticker when its number of shares changes: the close for every share, where
the ticker has a positive close. -/
def paidFor (table : PriceTable K) (index : ℕ) (before after : SortedMap String (Holding K))
    (x : String) : K :=
  if table.Priced index x then table.priceAt index x * (sharesOf after x - sharesOf before x)
  else 0

theorem paidFor_self (holdings : SortedMap String (Holding K)) (x : String) :
    paidFor table index holdings holdings x = 0 := by
  unfold paidFor
  rw [sub_self, mul_zero, ite_self]

theorem invested_setShares (holdings : SortedMap String (Holding K)) (x : String)
    (percentage price target : K) :
    invested (setShares holdings x percentage price target) + holdings.part Holding.value x =
      invested holdings + sharesOf (setShares holdings x percentage price target) x * price := by
  have shares : sharesOf (setShares holdings x percentage price target) x =
      if Scalar.zero < target then target else 0 := by
    unfold sharesOf
    rw [get?_setShares_self, holdingOf]
    by_cases hpos : Scalar.zero < target
    · rw [if_pos hpos, if_pos hpos]
    · rw [if_neg hpos, if_neg hpos, Exact.zero_eq]
  rw [shares, invested_eq, invested_eq]
  unfold setShares
  split
  · exact SortedMap.sum_values_insert Holding.value holdings x _
  · rw [SortedMap.sum_values_erase, zero_mul, add_zero]

/-- One ticker. What a trade adds to the value of the holdings is what it pays. -/
theorem invested_tradeTicker {balance : K} {s s' : Trading K} {x : String} {given : Option K}
    (h : tradeTicker table index balance s x given = .ok s')
    (hclose : AtClose table index s.holdings x) :
    invested s'.holdings = invested s.holdings +
      paidFor table index s.holdings s'.holdings x := by
  obtain ⟨-, ⟨-, rfl⟩ | ⟨price, hc, hpos, rfl⟩⟩ := tradeTicker_cases h
  · rw [paidFor_self, add_zero]
  · have priced : table.Priced index x := ⟨price, hc, Exact.zero_lt_iff.1 hpos⟩
    have change := invested_setShares s.holdings x (given.getD Scalar.zero) price
      (targetShares balance (given.getD Scalar.zero) price)
    rw [hclose price hc] at change
    rw [paidFor, if_pos priced, PriceTable.priceAt, hc, Option.getD_some]
    dsimp only
    linear_combination change

/-- All tickers. What the trades of different tickers add to the value of the holdings is what
they pay together. -/
theorem invested_tradeAll {balance : K} {entries : List (String × Option K)} :
    ∀ {s s' : Trading K}, (entries.map Prod.fst).Nodup →
      (∀ x ∈ entries.map Prod.fst, AtClose table index s.holdings x) →
      tradeAll table index balance s entries = (s', .ok ()) →
        invested s'.holdings = invested s.holdings +
          ((entries.map Prod.fst).map (paidFor table index s.holdings s'.holdings)).sum := by
  induction entries with
  | nil =>
    intro s s' _ _ h
    cases h
    simp
  | cons entry entries ih =>
    intro s s' hn hclose h
    rw [List.map_cons, List.nodup_cons] at hn
    rw [List.map_cons, List.forall_mem_cons] at hclose
    rw [tradeAll] at h
    split at h
    · cases h
    · rename_i s₁ h₁
      -- the first trade leaves the other tickers alone, the others leave the first one alone
      have others : ∀ x ∈ entries.map Prod.fst, s₁.holdings.get? x = s.holdings.get? x := by
        intro x hx
        exact (tradeTicker_eq_ok h₁).1 x fun e => hn.1 (e ▸ hx)
      have first : s'.holdings.get? entry.1 = s₁.holdings.get? entry.1 :=
        get?_tradeAll_of_not_mem hn.1 h
      have rest : ∀ x ∈ entries.map Prod.fst, AtClose table index s₁.holdings x := by
        intro x hx
        have before := hclose.2 x hx
        unfold AtClose SortedMap.part sharesOf at before ⊢
        rwa [others x hx]
      have paid_first : paidFor table index s.holdings s₁.holdings entry.1 =
          paidFor table index s.holdings s'.holdings entry.1 := by
        unfold paidFor sharesOf
        rw [first]
      have paid_rest : (entries.map Prod.fst).map (paidFor table index s₁.holdings s'.holdings) =
          (entries.map Prod.fst).map (paidFor table index s.holdings s'.holdings) := by
        apply List.map_congr_left
        intro x hx
        unfold paidFor sharesOf
        rw [others x hx]
      rw [ih hn.2 rest h, invested_tradeTicker h₁ hclose.1, paid_first, paid_rest, List.map_cons,
        List.map_cons, List.sum_cons, add_assoc]

/-! ## Holdings stay positive -/

/-- Every holding has a positive number of shares. -/
def AllPositive (holdings : SortedMap String (Holding K)) : Prop :=
  ∀ x h, holdings.get? x = some h → 0 < h.shares

theorem AllPositive.mapValues {holdings : SortedMap String (Holding K)} (h : AllPositive holdings)
    {f : String → Holding K → Holding K} (hf : ∀ x holding, (f x holding).shares = holding.shares) :
    AllPositive (holdings.mapValues f) := by
  intro x holding hx
  rw [SortedMap.get?_mapValues, Option.map_eq_some_iff] at hx
  obtain ⟨held, hget, rfl⟩ := hx
  rw [hf]
  exact h x held hget

theorem AllPositive.tradeTicker {balance : K} {s s' : Trading K} {x : String} {given : Option K}
    (hs : AllPositive s.holdings) (h : tradeTicker table index balance s x given = .ok s') :
    AllPositive s'.holdings := by
  obtain ⟨-, ⟨-, rfl⟩ | ⟨price, -, -, rfl⟩⟩ := tradeTicker_cases h
  · exact hs
  · intro y holding hy
    dsimp only at hy
    by_cases hxy : x = y
    · subst hxy
      rw [get?_setShares_self, holdingOf] at hy
      split at hy
      · rename_i hpos
        cases hy
        exact Exact.zero_lt_iff.1 hpos
      · cases hy
    · rw [get?_setShares_of_ne hxy] at hy
      exact hs y holding hy

theorem AllPositive.tradeAll {balance : K} {entries : List (String × Option K)} :
    ∀ {s s' : Trading K}, AllPositive s.holdings →
      tradeAll table index balance s entries = (s', .ok ()) → AllPositive s'.holdings := by
  induction entries with
  | nil =>
    intro s s' hs h
    cases h
    exact hs
  | cons entry entries ih =>
    intro s s' hs h
    rw [Portfolio.tradeAll] at h
    split at h
    · cases h
    · rename_i s₁ h₁
      exact ih (hs.tradeTicker h₁) h

/-! ## Sequences of rebalancings -/

/-- Brings a portfolio to one allocation after the other, each at the closes of its own day, up to
the first that fails. -/
def rebalanceAll {α : Type} [Scalar α] (table : PriceTable α) :
    Portfolio α → List (ℕ × Allocation α) → Except Error (Portfolio α)
  | p, [] => .ok p
  | p, (index, allocation) :: rest =>
    match p.rebalance table index allocation with
    | (_, .error e) => .error e
    | (q, .ok _) => rebalanceAll table q rest

/-- A portfolio whose balance is its holdings and its cash, with a positive number of shares of
everything it holds. -/
structure Consistent (p : Portfolio K) : Prop where
  balance : (p.holdings.values.map Holding.value).sum + p.cash = p.balance
  positive : AllPositive p.holdings

theorem consistent_ofCash (capital : K) : (ofCash capital).Consistent where
  balance := zero_add capital
  positive x h hx := by cases hx

/-- One rebalancing keeps a portfolio consistent. -/
theorem Consistent.rebalance {p q : Portfolio K} {a : Allocation K} {r : Rebalanced K}
    (hp : p.Consistent) (h : p.rebalance table index a = (q, .ok r)) : q.Consistent := by
  obtain ⟨-, s, hs, rfl, -⟩ := rebalance_eq_ok.1 h
  constructor
  · rw [← invested_eq, invested_withPercentages]
    exact add_sub_cancel _ _
  · have marked : AllPositive (p.marked table index) :=
      hp.positive.mapValues fun x holding => shares_markHolding x holding
    exact (marked.tradeAll hs).mapValues fun _ _ => rfl

/-- A sequence of rebalancings keeps a portfolio consistent. -/
theorem Consistent.rebalanceAll {steps : List (ℕ × Allocation K)} :
    ∀ {p q : Portfolio K}, p.Consistent → rebalanceAll table p steps = .ok q → q.Consistent := by
  induction steps with
  | nil =>
    intro p q hp h
    cases h
    exact hp
  | cons step steps ih =>
    intro p q hp h
    rw [Portfolio.rebalanceAll] at h
    split at h
    · cases h
    · rename_i p' r h₁
      exact ih (hp.rebalance h₁) h

/-- The cash pays for the trades of a rebalancing. -/
theorem cash_rebalance {p q : Portfolio K} {a : Allocation K} {r : Rebalanced K}
    (h : p.rebalance table index a = (q, .ok r)) :
    q.cash = p.cash - (a.keys.map (paidFor table index p.holdings q.holdings)).sum := by
  obtain ⟨-, s, hs, rfl, -⟩ := rebalance_eq_ok.1 h
  have spent := invested_tradeAll a.nodup_keys (fun x _ => atClose_marked p x) hs
  have paid : ∀ x, paidFor table index (p.marked table index) s.holdings x =
      paidFor table index p.holdings
        (withPercentages (p.markedBalance table index) s.holdings) x := by
    intro x
    unfold paidFor
    rw [sharesOf_marked, sharesOf_withPercentages]
  change invested s.holdings = _ + (a.keys.map _).sum at spent
  dsimp only at spent ⊢
  rw [spent, funext paid, markedBalance]
  ring

/-- **Main theorem: money is conserved.** After every rebalancing of a sequence that started with
cash only, at whatever indices and to whatever allocations: the values of the holdings and the cash
make up the balance; whatever is held is held in a positive number of shares; the cash has changed
by what the new shares cost at the closes of the day; and the next rebalancing reports the cash and
what the holdings are worth at its own closes. -/
theorem money_conserved {capital : K} {steps : List (ℕ × Allocation K)} {p q : Portfolio K}
    {a : Allocation K} {r : Rebalanced K}
    (hp : rebalanceAll table (ofCash capital) steps = .ok p)
    (hq : p.rebalance table index a = (q, .ok r)) :
    (q.holdings.values.map Holding.value).sum + q.cash = q.balance ∧
    (∀ x h, q.holdings.get? x = some h → 0 < h.shares) ∧
    q.cash - p.cash = -(a.keys.map fun x =>
      if table.Priced index x then
        table.priceAt index x * (sharesOf q.holdings x - sharesOf p.holdings x)
      else 0).sum ∧
    ∀ (index' : ℕ) (a' : Allocation K) (q' : Portfolio K) (r' : Rebalanced K),
      q.rebalance table index' a' = (q', .ok r') →
        r'.balance = q'.balance ∧ r'.balance = q.cash + (q.holdings.entries.map fun e =>
          match table.closeAt? e.1 index' with
          | some close => e.2.shares * close
          | none => e.2.value).sum := by
  have consistent := ((consistent_ofCash capital).rebalanceAll hp).rebalance hq
  refine ⟨consistent.balance, consistent.positive, ?_, ?_⟩
  · rw [cash_rebalance hq, sub_sub_cancel_left]
    rfl
  · intro index' a' q' r' h
    obtain ⟨-, s, -, rfl, rfl⟩ := rebalance_eq_ok.1 h
    exact ⟨rfl, markedBalance_eq q⟩

/-- Three days on which stocks are not traded in the middle, and bonds are worth nothing in the
end. -/
def gappyTable : PriceTable ℚ where
  dates := [20000, 20001, 20002]
  series := .ofList [("SPY", [some 100, none, some 120]), ("TLT", [some 80, some 90, some 0])]
  tradeableStart := 0
  aligned := by decide

/-- Rebalancings back and forth: more than the whole, less than nothing, and nothing at all. -/
def restlessSteps : List (ℕ × Allocation ℚ) :=
  [(2, .ofList [("SPY", some 60), ("TLT", some 60)]),
    (0, .ofList [("SPY", some 150), ("TLT", some (-20))]),
    (0, .ofList [("TLT", some 30)]),
    (1, .ofList [("SPY", none), ("TLT", some 10)])]

theorem money_conserved_restlessSteps :
    ∃ p q r, rebalanceAll gappyTable (ofCash 1000) restlessSteps = .ok p ∧
      p.rebalance gappyTable 2 (.ofList [("SPY", some 40), ("TLT", none)]) = (q, .ok r) ∧
      q.holdings.keys = ["SPY", "TLT"] ∧
      (q.holdings.values.map Holding.value).sum + q.cash = q.balance ∧
      ∀ x h, q.holdings.get? x = some h → 0 < h.shares := by
  have checked : (rebalanceAll gappyTable (ofCash 1000) restlessSteps >>= fun p =>
      match p.rebalance gappyTable 2 (.ofList [("SPY", some 40), ("TLT", none)]) with
      | (_, .error e) => .error e
      | (q, .ok _) => .ok (decide (q.holdings.keys = ["SPY", "TLT"]))) = .ok true := by
    decide +kernel
  obtain ⟨p, hp, checked⟩ := Except.bind_eq_ok.1 checked
  split at checked
  · cases checked
  · rename_i q r hq
    have keys := of_decide_eq_true (Except.ok.inj checked)
    obtain ⟨worth, positive, -⟩ := money_conserved hp hq
    exact ⟨p, q, r, hp, hq, keys, worth, positive⟩

end Portfolio

end StrategyTree
