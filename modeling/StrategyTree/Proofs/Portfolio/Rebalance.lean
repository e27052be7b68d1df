import StrategyTree.Portfolio
import StrategyTree.Proofs.Lookup
import StrategyTree.Proofs.Outcome

/-!
# What rebalancing reads and does

Rebalancing reads the closes of its day. It brings every ticker of the allocation that has a
positive close to its number of shares, and leaves all other holdings alone.

* `Portfolio.rebalance_congr`: rebalancing reads the closes of its day only.
* `Portfolio.map_shares_marked`, `Portfolio.map_shares_withPercentages`: what changes no shares.
* `Portfolio.tradeTicker_cases`: all that a step of trading can do.
* `Portfolio.rebalance_eq_ok`: what a successful rebalancing leaves behind.
* `Portfolio.rebalance_succeeds`: it succeeds if all tickers it meets are loaded.
-/

namespace StrategyTree

variable {α : Type} [Scalar α] {table table' : PriceTable α} {index : Nat}

/-! ## Closes of a day -/

omit [Scalar α] in
theorem PriceTable.close_eq_ok_iff {ticker : String} {c : Option α} :
    table.close ticker index = .ok c ↔
      table.isLoaded ticker = true ∧ table.closeAt? ticker index = c := by
  unfold PriceTable.close PriceTable.closes PriceTable.isLoaded PriceTable.closeAt?
    SortedMap.contains
  cases table.series.get? ticker <;> simp

omit [Scalar α] in
theorem PriceTable.isLoaded_congr {ticker : String}
    (h : table.close ticker index = table'.close ticker index) :
    table.isLoaded ticker = table'.isLoaded ticker := by
  rw [Bool.eq_iff_iff]
  constructor
  · intro hl
    exact (PriceTable.close_eq_ok_iff.1 (h ▸ PriceTable.close_eq_ok_iff.2 ⟨hl, rfl⟩)).1
  · intro hl
    exact (PriceTable.close_eq_ok_iff.1 (h ▸ PriceTable.close_eq_ok_iff.2 ⟨hl, rfl⟩)).1

omit [Scalar α] in
theorem PriceTable.closeAt?_eq_none {ticker : String} (h : table.isLoaded ticker = false) :
    table.closeAt? ticker index = none := by
  unfold PriceTable.isLoaded at h
  unfold PriceTable.closeAt?
  rw [SortedMap.contains_eq_false_iff.1 h]

omit [Scalar α] in
theorem PriceTable.closeAt?_congr {ticker : String}
    (h : table.close ticker index = table'.close ticker index) :
    table.closeAt? ticker index = table'.closeAt? ticker index := by
  have hl := PriceTable.isLoaded_congr h
  by_cases hb : table.isLoaded ticker = true
  · exact ((PriceTable.close_eq_ok_iff.1
      (h ▸ PriceTable.close_eq_ok_iff.2 ⟨hb, rfl⟩)).2).symm
  · rw [Bool.not_eq_true] at hb
    rw [PriceTable.closeAt?_eq_none hb, PriceTable.closeAt?_eq_none (hl ▸ hb)]

namespace Portfolio

open Scalar

/-! ## What rebalancing reads -/

theorem tradeAll_congr (h : ∀ x, table.close x index = table'.close x index)
    {balance : α} {entries : List (String × Option α)} :
    ∀ s, tradeAll table index balance s entries =
      tradeAll table' index balance s entries := by
  induction entries with
  | nil => intro s; rfl
  | cons entry entries ih =>
    intro s
    obtain ⟨ticker, percentage⟩ := entry
    have step : tradeTicker table index balance s ticker percentage =
        tradeTicker table' index balance s ticker percentage := by
      rw [tradeTicker, tradeTicker, h ticker]
    rw [tradeAll, tradeAll, step]
    split
    · rfl
    · exact ih _

/-- Reads of a rebalancing. Rebalancing on a day reads the closes of that day only. -/
theorem rebalance_congr (h : ∀ x, table.close x index = table'.close x index)
    (p : Portfolio α) (allocation : Allocation α) :
    p.rebalance table index allocation = p.rebalance table' index allocation := by
  have loaded : table.isLoaded = table'.isLoaded := by
    funext x
    exact PriceTable.isLoaded_congr (h x)
  have marked : p.marked table index = p.marked table' index := by
    unfold marked
    congr 1
    funext x holding
    unfold markHolding
    rw [PriceTable.closeAt?_congr (h x)]
  have balance : p.markedBalance table index = p.markedBalance table' index := by
    unfold markedBalance
    rw [marked]
  unfold rebalance
  rw [loaded, marked, balance]
  simp only [tradeAll_congr h]

/-! ## Numbers of shares -/

theorem shares_markHolding (x : String) (h : Holding α) :
    (markHolding table index x h).shares = h.shares := by
  unfold markHolding
  cases table.closeAt? x index <;> rfl

/-- Marking changes no number of shares. -/
theorem map_shares_marked (p : Portfolio α) (x : String) :
    ((p.marked table index).get? x).map Holding.shares =
      (p.holdings.get? x).map Holding.shares := by
  rw [marked, SortedMap.get?_mapValues, Option.map_map]
  congr 1
  funext h
  exact shares_markHolding x h

/-- Setting the percentages changes no number of shares. -/
theorem map_shares_withPercentages (balance : α) (holdings : SortedMap String (Holding α))
    (x : String) :
    ((withPercentages balance holdings).get? x).map Holding.shares =
      (holdings.get? x).map Holding.shares := by
  rw [withPercentages, SortedMap.get?_mapValues, Option.map_map]
  rfl

theorem sharesOf_congr {holdings holdings' : SortedMap String (Holding α)} {x : String}
    (h : (holdings.get? x).map Holding.shares = (holdings'.get? x).map Holding.shares) :
    sharesOf holdings x = sharesOf holdings' x := by
  unfold sharesOf
  cases hx : holdings.get? x <;> cases hx' : holdings'.get? x <;> simp_all

theorem sharesOf_withPercentages (balance : α) (holdings : SortedMap String (Holding α))
    (x : String) : sharesOf (withPercentages balance holdings) x = sharesOf holdings x :=
  sharesOf_congr (map_shares_withPercentages balance holdings x)

theorem sharesOf_marked (p : Portfolio α) (x : String) :
    sharesOf (p.marked table index) x = sharesOf p.holdings x :=
  sharesOf_congr (map_shares_marked p x)

/-! ## One ticker -/

section Ticker

variable {balance percentage price target : α} {holdings : SortedMap String (Holding α)}
  {x y : String}

/-- The number of shares that make up a percentage of a balance at a price. -/
def targetShares (balance percentage price : α) : α := percentage / hundred * balance / price

/-- What is held of a ticker at a number of shares, if that is positive. -/
def holdingOf (percentage price target : α) : Option (Holding α) :=
  if zero < target then some ⟨percentage, target, target * price⟩ else none

theorem get?_setShares_self :
    (setShares holdings x percentage price target).get? x = holdingOf percentage price target := by
  unfold setShares holdingOf
  split
  · exact SortedMap.get?_insert_self ..
  · exact SortedMap.get?_erase_self ..

theorem get?_setShares_of_ne (h : x ≠ y) :
    (setShares holdings x percentage price target).get? y = holdings.get? y := by
  unfold setShares
  split
  · exact SortedMap.get?_insert_of_ne _ _ h
  · exact SortedMap.get?_erase_of_ne _ h

omit [Scalar α] in
@[simp] theorem holdings_file (s : Trading α) (trade : Option (Trade α)) :
    (Trading.file s trade).holdings = s.holdings := by
  unfold Trading.file
  cases trade with
  | none => rfl
  | some t => cases h : t.side <;> simp [h]

/-- One step of trading. The ticker is loaded. Without a positive close nothing happens; with one,
its trade is filed and it is brought to its number of shares. -/
theorem tradeTicker_cases {s s' : Trading α} {given : Option α}
    (h : tradeTicker table index balance s x given = .ok s') :
    table.isLoaded x = true ∧
      ((∀ price, table.closeAt? x index = some price → ¬ zero < price) ∧ s' = s ∨
        ∃ price, table.closeAt? x index = some price ∧ zero < price ∧
          s' = { Trading.file s (tradeFor index x price (sharesOf s.holdings x)
              (targetShares balance (given.getD zero) price)) with
            holdings := setShares s.holdings x (given.getD zero) price
              (targetShares balance (given.getD zero) price) }) := by
  obtain ⟨c, hc, h⟩ := Except.bind_eq_ok.1 h
  obtain ⟨loaded, hclose⟩ := PriceTable.close_eq_ok_iff.1 hc
  refine ⟨loaded, ?_⟩
  rw [hclose]
  cases c with
  | none =>
    cases h
    refine .inl ⟨fun price hprice => ?_, rfl⟩
    cases hprice
  | some price =>
    dsimp only at h
    split at h
    · rename_i hpos
      cases h
      rw [holdings_file]
      exact .inr ⟨price, rfl, hpos, rfl⟩
    · rename_i hpos
      cases h
      refine .inl ⟨fun price' hprice => ?_, rfl⟩
      cases hprice
      exact hpos

/-- Trading a ticker leaves the other holdings alone, and brings it to its number of shares if it
has a positive close. -/
theorem tradeTicker_eq_ok {s s' : Trading α} {given : Option α}
    (h : tradeTicker table index balance s x given = .ok s') :
    (∀ y, x ≠ y → s'.holdings.get? y = s.holdings.get? y) ∧
      ∀ price, table.closeAt? x index = some price → zero < price →
        s'.holdings.get? x = holdingOf (given.getD zero) price
          (targetShares balance (given.getD zero) price) := by
  obtain ⟨-, ⟨unpriced, rfl⟩ | ⟨price, hclose, -, rfl⟩⟩ := tradeTicker_cases h
  · exact ⟨fun _ _ => rfl, fun price hprice hpos => absurd hpos (unpriced price hprice)⟩
  · refine ⟨fun y hy => get?_setShares_of_ne hy, fun price' hprice _ => ?_⟩
    rw [hclose] at hprice
    cases hprice
    exact get?_setShares_self

theorem tradeTicker_succeeds {s : Trading α} {given : Option α} (h : table.isLoaded x = true) :
    ∃ s', tradeTicker table index balance s x given = .ok s' := by
  unfold tradeTicker
  rw [PriceTable.close_eq_ok_iff.2 ⟨h, rfl⟩, Except.ok_bind]
  split
  · exact ⟨_, rfl⟩
  · split
    · exact ⟨_, rfl⟩
    · exact ⟨_, rfl⟩

end Ticker

/-! ## All tickers of an allocation -/

theorem get?_tradeAll_of_not_mem {balance : α} {entries : List (String × Option α)} {y : String}
    (hy : y ∉ entries.map Prod.fst) :
    ∀ {s s' : Trading α}, tradeAll table index balance s entries = (s', .ok ()) →
      s'.holdings.get? y = s.holdings.get? y := by
  induction entries with
  | nil =>
    intro s s' h
    cases h
    rfl
  | cons entry entries ih =>
    intro s s' h
    rw [List.map_cons, List.mem_cons, not_or] at hy
    rw [tradeAll] at h
    split at h
    · cases h
    · rename_i s₁ h₁
      rw [ih hy.2 h]
      exact (tradeTicker_eq_ok h₁).1 y (Ne.symm hy.1)

theorem get?_tradeAll_of_mem {balance : α} {entries : List (String × Option α)} {x : String}
    {given : Option α} {price : α} (hc : table.closeAt? x index = some price) (hp : zero < price) :
    ∀ {s s' : Trading α}, (entries.map Prod.fst).Nodup → (x, given) ∈ entries →
      tradeAll table index balance s entries = (s', .ok ()) →
        s'.holdings.get? x = holdingOf (given.getD zero) price
          (targetShares balance (given.getD zero) price) := by
  induction entries with
  | nil =>
    intro s s' _ hx
    cases hx
  | cons entry entries ih =>
    intro s s' hn hx h
    rw [List.map_cons, List.nodup_cons] at hn
    rw [tradeAll] at h
    split at h
    · cases h
    · rename_i s₁ h₁
      rcases List.mem_cons.1 hx with rfl | hx
      · rw [get?_tradeAll_of_not_mem hn.1 h]
        exact (tradeTicker_eq_ok h₁).2 price hc hp
      · exact ih hn.2 hx h

theorem tradeAll_succeeds {balance : α} {entries : List (String × Option α)}
    (h : ∀ entry ∈ entries, table.isLoaded entry.1 = true) :
    ∀ s : Trading α, ∃ s', tradeAll table index balance s entries = (s', .ok ()) := by
  induction entries with
  | nil =>
    intro s
    exact ⟨s, rfl⟩
  | cons entry entries ih =>
    intro s
    rw [List.forall_mem_cons] at h
    have step : ∃ s₁, tradeTicker table index balance s entry.1 entry.2 = .ok s₁ :=
      tradeTicker_succeeds h.1
    obtain ⟨s₁, h₁⟩ := step
    rw [tradeAll, h₁]
    exact ih h.2 s₁

/-! ## A whole rebalancing -/

/-- A successful rebalancing. It marks the balance, trades the allocation from the marked
holdings, and keeps what is not invested as cash. -/
theorem rebalance_eq_ok {p q : Portfolio α} {allocation : Allocation α} {r : Rebalanced α} :
    p.rebalance table index allocation = (q, .ok r) ↔
      (∀ x ∈ p.holdings.keys, table.isLoaded x = true) ∧
      ∃ s, tradeAll table index (p.markedBalance table index)
          { holdings := p.marked table index } allocation.entries = (s, .ok ()) ∧
        q = { holdings := withPercentages (p.markedBalance table index) s.holdings
              cash := p.markedBalance table index - invested s.holdings
              balance := p.markedBalance table index
              log := p.log ++ (s.sales ++ s.purchases) } ∧
        r = ⟨p.markedBalance table index, s.sales ++ s.purchases⟩ := by
  unfold rebalance
  split
  · rename_i ticker hfind
    have hmem := List.mem_of_find?_eq_some hfind
    have hno := List.find?_some hfind
    constructor
    · intro h
      cases h
    · rintro ⟨hl, -⟩
      rw [hl ticker hmem] at hno
      cases hno
  · rename_i hfind
    have hl : ∀ x ∈ p.holdings.keys, table.isLoaded x = true := by
      simpa using hfind
    rw [and_iff_right hl]
    dsimp only
    split
    · rename_i s e hs
      constructor
      · intro h
        cases h
      · rintro ⟨s', hs', -, -⟩
        rw [hs] at hs'
        cases hs'
    · rename_i s hs
      constructor
      · intro h
        cases h
        exact ⟨s, hs, rfl, rfl⟩
      · rintro ⟨s', hs', rfl, rfl⟩
        rw [hs] at hs'
        cases hs'
        rfl

theorem keys_withPercentages (balance : α) (holdings : SortedMap String (Holding α)) :
    (withPercentages balance holdings).keys = holdings.keys :=
  SortedMap.keys_mapValues _ _

/-- After a rebalancing only tickers are held that were held before or that the allocation names. -/
theorem mem_keys_rebalance {p q : Portfolio α} {allocation : Allocation α} {r : Rebalanced α}
    (h : p.rebalance table index allocation = (q, .ok r)) {x : String}
    (hx : x ∈ q.holdings.keys) : x ∈ p.holdings.keys ∨ x ∈ allocation.keys := by
  obtain ⟨-, s, hs, rfl, -⟩ := rebalance_eq_ok.1 h
  rw [keys_withPercentages] at hx
  by_cases hmem : x ∈ allocation.keys
  · exact .inr hmem
  · left
    rw [← SortedMap.contains_iff_mem_keys, SortedMap.contains,
      get?_tradeAll_of_not_mem hmem hs, ← SortedMap.contains,
      SortedMap.contains_iff_mem_keys] at hx
    rwa [marked, SortedMap.keys_mapValues] at hx

/-- Success. Rebalancing succeeds if every ticker held or named is loaded. -/
theorem rebalance_succeeds {p : Portfolio α} {allocation : Allocation α}
    (hp : ∀ x ∈ p.holdings.keys, table.isLoaded x = true)
    (ha : ∀ x ∈ allocation.keys, table.isLoaded x = true) :
    ∃ q r, p.rebalance table index allocation = (q, .ok r) := by
  have hentries : ∀ entry ∈ allocation.entries, table.isLoaded entry.1 = true :=
    fun entry he => ha entry.1 (List.mem_map_of_mem he)
  have trades : ∃ s, tradeAll table index (p.markedBalance table index)
      { holdings := p.marked table index } allocation.entries = (s, .ok ()) :=
    tradeAll_succeeds hentries _
  obtain ⟨s, hs⟩ := trades
  exact ⟨_, _, rebalance_eq_ok.2 ⟨hp, s, hs, rfl, rfl⟩⟩

end Portfolio

end StrategyTree
