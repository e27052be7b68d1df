import StrategyTree.Proofs.Portfolio.Rebalance
import StrategyTree.Proofs.Simulation.Run

/-!
# One rebalancing, ticker by ticker

An allocation asks for a number of shares of every ticker that it names and that has a positive
close: as many as make up the ticker's percentage of the marked balance. A successful rebalancing
brings exactly these tickers to these numbers, and records one trade for each of them whose shares
change by enough. A rebalancing fails only if its allocation names a ticker that was never loaded.
Held tickers cannot make it fail, since they are loaded in every portfolio that rebalancings lead
to, also where some of these failed half-way.

* `Portfolio.Asks`, `Portfolio.Fulfils`: what an allocation asks for, and what fulfils it.
* `Portfolio.Reachable`: the portfolios that rebalancings lead to.
* `Portfolio.fulfils_of_eq_ok`: what a successful rebalancing does.
* `Portfolio.rebalance_of_reachable`: when a rebalancing fails and what it does otherwise.
-/

namespace StrategyTree

variable {α : Type} [Scalar α] {table : PriceTable α} {index : Nat}

/-- A holding with its percentage of a balance. -/
def Holding.withPercentage (balance : α) (h : Holding α) : Holding α :=
  { h with percentage := h.value / balance * Scalar.hundred }

namespace Portfolio

open Scalar

/-! ## Specification -/

/-- An allocation asks for a number of shares of a ticker at a price: it names the ticker, the price
is the ticker's close and positive, and the shares make up the ticker's percentage of a balance. -/
def Asks (table : PriceTable α) (index : Nat) (balance : α) (a : Allocation α) (x : String)
    (price target : α) : Prop :=
  ∃ given, a.get? x = some given ∧ table.closeAt? x index = some price ∧ zero < price ∧
    target = given.getD zero / hundred * balance / price

/-- The trade from one number of shares to another one. -/
def tradeTo (index : Nat) (x : String) (price held target : α) : Trade α where
  index := index
  ticker := x
  side := if zero < target - held then .buy else .sell
  shares := abs (target - held)
  price := price

/-- A rebalancing from `p` to `q` with the report `r` does what an allocation asks for. What is
asked for is held at the close, or dropped if that is no positive number of shares; what is not
asked for is kept. Each trade is of a ticker asked for whose shares change by enough, sales come
before purchases, both in ascending order of their tickers, and the log grows by the trades. -/
structure Fulfils (table : PriceTable α) (index : Nat) (a : Allocation α) (p q : Portfolio α)
    (r : Rebalanced α) : Prop where
  balance : r.balance = p.markedBalance table index
  held : ∀ x price target, Asks table index r.balance a x price target → zero < target →
    ∃ h, q.holdings.get? x = some h ∧ h.shares = target ∧ h.value = target * price
  dropped : ∀ x price target, Asks table index r.balance a x price target → ¬ zero < target →
    q.holdings.get? x = none
  kept : ∀ x, (∀ price target, ¬ Asks table index r.balance a x price target) →
    (q.holdings.get? x).map Holding.shares = (p.holdings.get? x).map Holding.shares
  traded : ∀ x price target, Asks table index r.balance a x price target →
    r.trades.filter (fun t => t.ticker == x) =
      if atLeast (abs (target - sharesOf p.holdings x)) leastTrade then
        [tradeTo index x price (sharesOf p.holdings x) target]
      else []
  asked : ∀ t ∈ r.trades, ∃ price target, Asks table index r.balance a t.ticker price target
  ordered : ∃ sales purchases, r.trades = sales ++ purchases ∧
    (∀ t ∈ sales, t.side = .sell) ∧ (∀ t ∈ purchases, t.side = .buy) ∧
    sales.Pairwise (fun t u => t.ticker < u.ticker) ∧
    purchases.Pairwise fun t u => t.ticker < u.ticker
  log : q.log = p.log ++ r.trades

/-- The portfolios that rebalancings lead to from cash only, whether they succeed or fail. -/
inductive Reachable (table : PriceTable α) : Portfolio α → Prop where
  | ofCash (cash : α) : Reachable table (ofCash cash)
  | rebalance {p : Portfolio α} (index : Nat) (a : Allocation α) (h : Reachable table p) :
    Reachable table (p.rebalance table index a).1

/-! ## Tickers that are not loaded -/

section Loaded

variable {balance : α} {x : String} {given : Option α} {s s' : Trading α}

theorem tradeTicker_of_not_loaded (h : table.isLoaded x = false) :
    tradeTicker table index balance s x given = .error (.tickerNotLoaded x) := by
  unfold tradeTicker PriceTable.close PriceTable.closes
  rw [SortedMap.contains_eq_false_iff.1 h]
  rfl

/-- Trading fails at the first ticker that is not loaded. -/
theorem snd_tradeAll_eq_error {entries : List (String × Option α)} {e : Error} :
    ∀ s : Trading α, (tradeAll table index balance s entries).2 = .error e ↔
      ∃ x, (entries.map Prod.fst).find? (fun x => !table.isLoaded x) = some x ∧
        e = .tickerNotLoaded x := by
  induction entries with
  | nil =>
    intro s
    simp [tradeAll]
  | cons entry entries ih =>
    intro s
    obtain ⟨x, given⟩ := entry
    rw [tradeAll, List.map_cons]
    cases hx : table.isLoaded x with
    | false =>
      rw [tradeTicker_of_not_loaded hx, List.find?_cons_of_pos (by simp [hx])]
      simp [eq_comm]
    | true =>
      have succeeds : ∃ s₁, tradeTicker table index balance s x given = .ok s₁ :=
        tradeTicker_succeeds hx
      obtain ⟨s₁, h₁⟩ := succeeds
      rw [h₁, List.find?_cons_of_neg (by simp [hx])]
      exact ih s₁

/-- Also where trading stops half-way, the tickers it has added are loaded. -/
theorem mem_keys_tradeAll {entries : List (String × Option α)} {y : String} :
    ∀ s : Trading α, y ∈ (tradeAll table index balance s entries).1.holdings.keys →
      y ∈ s.holdings.keys ∨ table.isLoaded y = true := by
  induction entries with
  | nil =>
    intro s hy
    exact .inl hy
  | cons entry entries ih =>
    intro s hy
    rw [tradeAll] at hy
    split at hy
    · exact .inl hy
    · rename_i s₁ h₁
      rcases ih s₁ hy with hy | hy
      · by_cases hxy : entry.1 = y
        · right
          rw [← hxy]
          exact (tradeTicker_cases h₁).1
        · left
          rwa [← SortedMap.contains_iff_mem_keys, SortedMap.contains,
            (tradeTicker_eq_ok h₁).1 y hxy, ← SortedMap.contains,
            SortedMap.contains_iff_mem_keys] at hy
      · exact .inr hy

end Loaded

/-- One rebalancing leaves loaded tickers only, whether it succeeds or fails. -/
theorem isLoaded_rebalance {p : Portfolio α} {a : Allocation α}
    (hp : ∀ x ∈ p.holdings.keys, table.isLoaded x = true) :
    ∀ x ∈ (p.rebalance table index a).1.holdings.keys, table.isLoaded x = true := by
  have traded : ∀ x, x ∈ (tradeAll table index (p.markedBalance table index)
      { holdings := p.marked table index } a.entries).1.holdings.keys →
        table.isLoaded x = true := by
    intro x hx
    rcases mem_keys_tradeAll _ hx with hx | hx
    · rw [marked, SortedMap.keys_mapValues] at hx
      exact hp x hx
    · exact hx
  intro x hx
  unfold rebalance at hx
  split at hx
  · exact hp x hx
  · dsimp only at hx
    split at hx
    · rename_i s e hs
      rw [hs] at traded
      exact traded x hx
    · rename_i s hs
      rw [hs] at traded
      rw [keys_withPercentages] at hx
      exact traded x hx

/-- Every sequence of rebalancings leaves loaded tickers only. -/
theorem Reachable.isLoaded {p : Portfolio α} (h : Reachable table p) :
    ∀ x ∈ p.holdings.keys, table.isLoaded x = true := by
  induction h with
  | ofCash cash =>
    intro x hx
    cases hx
  | rebalance index a _ ih => exact isLoaded_rebalance ih

/-! ## Trades -/

section Trades

/-- The trades of one side. -/
def onSide (side : TradeSide) (trades : List (Trade α)) : List (Trade α) :=
  trades.filter fun t => t.side == side

/-- The trade that an entry of an allocation leads to, from given numbers of shares. -/
def tradeOf (table : PriceTable α) (index : Nat) (balance : α) (held : String → α)
    (entry : String × Option α) : Option (Trade α) :=
  match table.closeAt? entry.1 index with
  | none => none
  | some price =>
    if zero < price then
      tradeFor index entry.1 price (held entry.1)
        (targetShares balance (entry.2.getD zero) price)
    else none

/-- The trades that the entries of an allocation lead to, in their order. -/
def tradesOf (table : PriceTable α) (index : Nat) (balance : α) (held : String → α)
    (entries : List (String × Option α)) : List (Trade α) :=
  entries.flatMap fun entry => (tradeOf table index balance held entry).toList

variable {balance : α} {held held' : String → α}

omit [Scalar α] in
theorem onSide_append (side : TradeSide) (ts us : List (Trade α)) :
    onSide side (ts ++ us) = onSide side ts ++ onSide side us :=
  List.filter_append ..

omit [Scalar α] in
theorem side_of_mem_onSide {side : TradeSide} {trades : List (Trade α)} {t : Trade α}
    (h : t ∈ onSide side trades) : t.side = side :=
  beq_iff_eq.1 (List.mem_filter.1 h).2

omit [Scalar α] in
/-- A single trade is on one of the sides. -/
theorem onSide_toList (trade : Option (Trade α)) :
    onSide .sell trade.toList ++ onSide .buy trade.toList = trade.toList := by
  cases trade with
  | none => rfl
  | some t => cases h : t.side <;> simp [onSide, h]

omit [Scalar α] in
theorem filter_onSide (side : TradeSide) (keep : Trade α → Bool) (trades : List (Trade α)) :
    (onSide side trades).filter keep = onSide side (trades.filter keep) :=
  List.filter_comm ..

theorem tradesOf_cons (entry : String × Option α) (entries : List (String × Option α)) :
    tradesOf table index balance held (entry :: entries) =
      (tradeOf table index balance held entry).toList ++
        tradesOf table index balance held entries := rfl

theorem mem_tradesOf {entries : List (String × Option α)} {t : Trade α} :
    t ∈ tradesOf table index balance held entries ↔
      ∃ entry ∈ entries, tradeOf table index balance held entry = some t := by
  simp [tradesOf, List.mem_flatMap]

theorem tradeFor_eq (x : String) (price held target : α) :
    tradeFor index x price held target =
      if atLeast (abs (target - held)) leastTrade then some (tradeTo index x price held target)
      else none := rfl

theorem tradeOf_of_priced {x : String} {given : Option α} {price : α}
    (hclose : table.closeAt? x index = some price) (hpos : zero < price) :
    tradeOf table index balance held (x, given) =
      tradeFor index x price (held x) (targetShares balance (given.getD zero) price) := by
  unfold tradeOf
  rw [hclose]
  exact if_pos hpos

theorem tradeOf_of_unpriced {x : String} {given : Option α}
    (h : ∀ price, table.closeAt? x index = some price → ¬ zero < price) :
    tradeOf table index balance held (x, given) = none := by
  unfold tradeOf
  split
  · rfl
  · rename_i price hclose
    exact if_neg (h price hclose)

/-- A trade is that of its ticker, which has a positive close. -/
theorem tradeOf_eq_some {entry : String × Option α} {t : Trade α}
    (h : tradeOf table index balance held entry = some t) :
    t.ticker = entry.1 ∧ ∃ price, table.closeAt? entry.1 index = some price ∧ zero < price := by
  unfold tradeOf at h
  split at h
  · cases h
  · rename_i price hclose
    split at h
    · rename_i hpos
      refine ⟨?_, price, hclose, hpos⟩
      rw [tradeFor_eq] at h
      split at h
      · cases h
        rfl
      · cases h
    · cases h

theorem tradeOf_congr {entry : String × Option α} (h : held entry.1 = held' entry.1) :
    tradeOf table index balance held entry = tradeOf table index balance held' entry := by
  unfold tradeOf
  rw [h]

/-- Trades depend on the shares held of their own tickers. -/
theorem tradesOf_congr {entries : List (String × Option α)}
    (h : ∀ entry ∈ entries, held entry.1 = held' entry.1) :
    tradesOf table index balance held entries = tradesOf table index balance held' entries := by
  apply List.flatMap_congr
  intro entry he
  rw [tradeOf_congr (h entry he)]

omit [Scalar α] in
/-- A trade is filed on its own side. -/
theorem trades_file (s : Trading α) (trade : Option (Trade α)) :
    (Trading.file s trade).sales = s.sales ++ onSide .sell trade.toList ∧
      (Trading.file s trade).purchases = s.purchases ++ onSide .buy trade.toList := by
  cases trade with
  | none => simp [Trading.file, onSide]
  | some t => cases h : t.side <;> simp [Trading.file, onSide, h]

/-- Trades of one ticker. -/
theorem trades_tradeTicker {s s' : Trading α} {x : String} {given : Option α}
    (h : tradeTicker table index balance s x given = .ok s') :
    s'.sales = s.sales ++
        onSide .sell (tradeOf table index balance (sharesOf s.holdings) (x, given)).toList ∧
      s'.purchases = s.purchases ++
        onSide .buy (tradeOf table index balance (sharesOf s.holdings) (x, given)).toList := by
  obtain ⟨-, ⟨unpriced, rfl⟩ | ⟨price, hclose, hpos, rfl⟩⟩ := tradeTicker_cases h
  · rw [tradeOf_of_unpriced unpriced]
    simp [onSide]
  · rw [tradeOf_of_priced hclose hpos]
    exact trades_file s _

/-- Trades of all tickers. Every entry leads to its trade from the shares held at first. -/
theorem trades_tradeAll {entries : List (String × Option α)} :
    ∀ {s s' : Trading α}, (entries.map Prod.fst).Nodup →
      tradeAll table index balance s entries = (s', .ok ()) →
        s'.sales = s.sales ++
            onSide .sell (tradesOf table index balance (sharesOf s.holdings) entries) ∧
          s'.purchases = s.purchases ++
            onSide .buy (tradesOf table index balance (sharesOf s.holdings) entries) := by
  induction entries with
  | nil =>
    intro s s' _ h
    cases h
    simp [tradesOf, onSide]
  | cons entry entries ih =>
    intro s s' hn h
    rw [List.map_cons, List.nodup_cons] at hn
    rw [tradeAll] at h
    split at h
    · cases h
    · rename_i s₁ h₁
      -- the first trade leaves the shares of the other tickers alone
      have later : tradesOf table index balance (sharesOf s₁.holdings) entries =
          tradesOf table index balance (sharesOf s.holdings) entries := by
        apply tradesOf_congr
        intro e he
        have other : entry.1 ≠ e.1 := fun same => hn.1 (same ▸ List.mem_map_of_mem he)
        apply sharesOf_congr
        rw [(tradeTicker_eq_ok h₁).1 e.1 other]
      obtain ⟨sales, purchases⟩ := ih hn.2 h
      obtain ⟨sales₁, purchases₁⟩ := trades_tradeTicker h₁
      rw [sales, purchases, sales₁, purchases₁, later, tradesOf_cons, onSide_append, onSide_append,
        List.append_assoc, List.append_assoc]
      exact ⟨rfl, rfl⟩

/-- Different tickers have their trades in the order of the entries. -/
theorem pairwise_tradesOf {entries : List (String × Option α)}
    (h : entries.Pairwise fun a b => a.1 < b.1) :
    (tradesOf table index balance held entries).Pairwise fun t u => t.ticker < u.ticker := by
  rw [tradesOf, List.pairwise_flatMap]
  constructor
  · intro entry _
    cases tradeOf table index balance held entry <;> simp
  · apply h.imp
    intro e f hlt t ht u hu
    rw [Option.mem_toList] at ht hu
    rw [(tradeOf_eq_some ht).1, (tradeOf_eq_some hu).1]
    exact hlt

/-- The trades of a ticker are that of its entry. -/
theorem filter_tradesOf {x : String} {given : Option α} {entries : List (String × Option α)}
    (hn : (entries.map Prod.fst).Nodup) (hx : (x, given) ∈ entries) :
    (tradesOf table index balance held entries).filter (fun t => t.ticker == x) =
      (tradeOf table index balance held (x, given)).toList := by
  have own : ∀ {entry : String × Option α} {keep : Bool}, (entry.1 == x) = keep →
      ∀ t ∈ (tradeOf table index balance held entry).toList, (t.ticker == x) = keep := by
    rintro entry keep hentry t ht
    rw [(tradeOf_eq_some (Option.mem_toList.1 ht)).1, hentry]
  induction entries with
  | nil => cases hx
  | cons entry entries ih =>
    rw [List.map_cons, List.nodup_cons] at hn
    rw [tradesOf_cons, List.filter_append]
    rcases List.mem_cons.1 hx with rfl | hx
    · -- the entries after it are of other tickers
      have others : (tradesOf table index balance held entries).filter
          (fun t => t.ticker == x) = [] := by
        rw [List.filter_eq_nil_iff]
        intro t ht hticker
        obtain ⟨e, he, ht⟩ := mem_tradesOf.1 ht
        rw [beq_iff_eq, (tradeOf_eq_some ht).1] at hticker
        exact hn.1 (List.mem_map.2 ⟨e, he, hticker⟩)
      rw [others, List.append_nil, List.filter_eq_self]
      exact own (beq_self_eq_true x)
    · -- and so is an entry before it
      have other : (entry.1 == x) = false := by
        rw [beq_eq_false_iff_ne]
        rintro rfl
        exact hn.1 (List.mem_map.2 ⟨_, hx, rfl⟩)
      have nothing : (tradeOf table index balance held entry).toList.filter
          (fun t => t.ticker == x) = [] := by
        rw [List.filter_eq_nil_iff]
        intro t ht
        rw [own other t ht]
        exact Bool.false_ne_true
      rw [nothing, ih hn.2 hx, List.nil_append]

end Trades

/-! ## Tickers without a positive close -/

section Unpriced

variable {balance : α} {x : String}

/-- Trading a ticker without a positive close does nothing. -/
theorem tradeTicker_of_unpriced {given : Option α} {s s' : Trading α}
    (hx : ∀ price, table.closeAt? x index = some price → ¬ zero < price)
    (h : tradeTicker table index balance s x given = .ok s') : s' = s := by
  obtain ⟨-, ⟨-, rfl⟩ | ⟨price, hclose, hpos, -⟩⟩ := tradeTicker_cases h
  · rfl
  · exact absurd hpos (hx price hclose)

theorem get?_tradeAll_of_unpriced {entries : List (String × Option α)}
    (hx : ∀ price, table.closeAt? x index = some price → ¬ zero < price) :
    ∀ {s s' : Trading α}, tradeAll table index balance s entries = (s', .ok ()) →
      s'.holdings.get? x = s.holdings.get? x := by
  induction entries with
  | nil =>
    intro s s' h
    cases h
    rfl
  | cons entry entries ih =>
    intro s s' h
    rw [tradeAll] at h
    split at h
    · cases h
    · rename_i s₁ h₁
      rw [ih h]
      by_cases hentry : entry.1 = x
      · rw [hentry] at h₁
        rw [tradeTicker_of_unpriced hx h₁]
      · exact (tradeTicker_eq_ok h₁).1 x hentry

/-- A ticker that no entry asks for is held as before. -/
theorem get?_tradeAll_of_unasked {entries : List (String × Option α)} {s s' : Trading α}
    (hx : ∀ given price, (x, given) ∈ entries → table.closeAt? x index = some price →
      ¬ zero < price)
    (h : tradeAll table index balance s entries = (s', .ok ())) :
    s'.holdings.get? x = s.holdings.get? x := by
  by_cases hmem : x ∈ entries.map Prod.fst
  · obtain ⟨entry, hentry, rfl⟩ := List.mem_map.1 hmem
    exact get?_tradeAll_of_unpriced (fun price => hx entry.2 price hentry) h
  · exact get?_tradeAll_of_not_mem hmem h

end Unpriced

/-! ## A whole rebalancing -/

section Whole

variable {balance : α} {a : Allocation α} {x : String} {price target : α}

/-- What an allocation asks for of a ticker, by the ticker's entry. -/
theorem Asks.exists_entry (h : Asks table index balance a x price target) :
    ∃ given, (x, given) ∈ a.entries ∧ table.closeAt? x index = some price ∧ zero < price ∧
      target = targetShares balance (given.getD zero) price := by
  obtain ⟨given, hget, hclose, hpos, htarget⟩ := h
  exact ⟨given, SortedMap.get?_eq_some_iff.1 hget, hclose, hpos, htarget⟩

/-- What is held of a ticker that is asked for. -/
theorem Asks.get?_rebalance {p q : Portfolio α} {r : Rebalanced α}
    (hx : Asks table index r.balance a x price target)
    (h : p.rebalance table index a = (q, .ok r)) :
    q.holdings.get? x = (holdingOf (target * price / r.balance * hundred) price target) := by
  obtain ⟨-, s, hs, rfl, rfl⟩ := rebalance_eq_ok.1 h
  obtain ⟨given, hmem, hclose, hpos, rfl⟩ := hx.exists_entry
  dsimp only
  rw [withPercentages, SortedMap.get?_mapValues,
    get?_tradeAll_of_mem hclose hpos a.nodup_keys hmem hs]
  unfold holdingOf
  split <;> rfl

/-- What is held of a ticker that is not asked for is what was held, at the close of the day. -/
theorem get?_rebalance_of_unasked {p q : Portfolio α} {r : Rebalanced α}
    (hx : ∀ price target, ¬ Asks table index r.balance a x price target)
    (h : p.rebalance table index a = (q, .ok r)) :
    q.holdings.get? x =
      ((p.marked table index).get? x).map (Holding.withPercentage r.balance) := by
  obtain ⟨-, s, hs, rfl, rfl⟩ := rebalance_eq_ok.1 h
  have unasked : ∀ given price, (x, given) ∈ a.entries → table.closeAt? x index = some price →
      ¬ zero < price := fun given price hentry hclose hpos =>
    hx price _ ⟨given, SortedMap.get?_eq_some_iff.2 hentry, hclose, hpos, rfl⟩
  show (withPercentages _ s.holdings).get? x = _
  rw [withPercentages, SortedMap.get?_mapValues, get?_tradeAll_of_unasked unasked hs]
  rfl

/-- A ticker that is not asked for keeps its shares. -/
theorem map_shares_rebalance {p q : Portfolio α} {r : Rebalanced α}
    (hx : ∀ price target, ¬ Asks table index r.balance a x price target)
    (h : p.rebalance table index a = (q, .ok r)) :
    (q.holdings.get? x).map Holding.shares = (p.holdings.get? x).map Holding.shares := by
  rw [get?_rebalance_of_unasked hx h, Option.map_map]
  exact map_shares_marked ..

/-- The trades of a rebalancing are those of its entries, from the shares held before. -/
theorem trades_rebalance {p q : Portfolio α} {r : Rebalanced α}
    (h : p.rebalance table index a = (q, .ok r)) :
    r.trades = onSide .sell (tradesOf table index r.balance (sharesOf p.holdings) a.entries) ++
      onSide .buy (tradesOf table index r.balance (sharesOf p.holdings) a.entries) := by
  obtain ⟨-, s, hs, rfl, rfl⟩ := rebalance_eq_ok.1 h
  have shares : sharesOf (p.marked table index) = sharesOf p.holdings :=
    funext fun x => sharesOf_marked p x
  obtain ⟨sales, purchases⟩ := trades_tradeAll a.nodup_keys hs
  dsimp only at sales purchases ⊢
  rw [sales, purchases, shares, List.nil_append, List.nil_append]

/-- A successful rebalancing does what its allocation asks for. -/
theorem fulfils_of_eq_ok {p q : Portfolio α} {r : Rebalanced α}
    (h : p.rebalance table index a = (q, .ok r)) : Fulfils table index a p q r where
  balance := by
    obtain ⟨-, s, -, -, rfl⟩ := rebalance_eq_ok.1 h
    rfl
  held x price target hx hpos := by
    rw [hx.get?_rebalance h, holdingOf, if_pos hpos]
    exact ⟨_, rfl, rfl, rfl⟩
  dropped x price target hx hpos := by
    rw [hx.get?_rebalance h, holdingOf, if_neg hpos]
  kept x hx := map_shares_rebalance hx h
  traded x price target hx := by
    obtain ⟨given, hmem, hclose, hpos, rfl⟩ := hx.exists_entry
    rw [trades_rebalance h, List.filter_append, filter_onSide, filter_onSide,
      filter_tradesOf a.nodup_keys hmem, onSide_toList, tradeOf_of_priced hclose hpos, tradeFor_eq]
    split <;> rfl
  asked t ht := by
    rw [trades_rebalance h, List.mem_append] at ht
    have made : t ∈ tradesOf table index r.balance (sharesOf p.holdings) a.entries :=
      ht.elim List.mem_of_mem_filter List.mem_of_mem_filter
    obtain ⟨⟨x, given⟩, hmem, ht⟩ := mem_tradesOf.1 made
    obtain ⟨hticker, price, hclose, hpos⟩ := tradeOf_eq_some ht
    rw [hticker]
    exact ⟨price, _, given, SortedMap.get?_eq_some_iff.2 hmem, hclose, hpos, rfl⟩
  ordered := by
    have ascending : ∀ side, (onSide side (tradesOf table index r.balance (sharesOf p.holdings)
        a.entries)).Pairwise fun t u => t.ticker < u.ticker :=
      fun side => (pairwise_tradesOf a.ascending).filter _
    exact ⟨_, _, trades_rebalance h, fun _ => side_of_mem_onSide, fun _ => side_of_mem_onSide,
      ascending _, ascending _⟩
  log := rebalance_log h

end Whole

/-- Where all tickers held are loaded, a rebalancing fails with the first ticker of its allocation
that is not. -/
theorem snd_rebalance_eq_error {p : Portfolio α} {a : Allocation α} {e : Error}
    (hp : ∀ x ∈ p.holdings.keys, table.isLoaded x = true) :
    (p.rebalance table index a).2 = .error e ↔
      ∃ x, a.keys.find? (fun x => !table.isLoaded x) = some x ∧ e = .tickerNotLoaded x := by
  have all : p.holdings.keys.find? (fun x => !table.isLoaded x) = none := by
    simpa using hp
  have outcome : (p.rebalance table index a).2 = .error e ↔
      (tradeAll table index (p.markedBalance table index)
        { holdings := p.marked table index } a.entries).2 = .error e := by
    unfold rebalance
    rw [all]
    dsimp only
    split
    · rename_i s e' hs
      simp [hs]
    · rename_i s hs
      simp [hs]
  rw [outcome]
  exact snd_tradeAll_eq_error _

/-- **Main theorem: one rebalancing.** From every portfolio that rebalancings lead to, whether they
succeeded or failed: a rebalancing fails if and only if its allocation names a ticker that is not
loaded, and then with the first such ticker; if it succeeds, it does what the allocation asks
for. -/
theorem rebalance_of_reachable {p : Portfolio α} (hp : Reachable table p) (index : Nat)
    (a : Allocation α) :
    (∀ e, (p.rebalance table index a).2 = .error e ↔
      ∃ x, a.keys.find? (fun x => !table.isLoaded x) = some x ∧ e = .tickerNotLoaded x) ∧
    ∀ q r, p.rebalance table index a = (q, .ok r) → Fulfils table index a p q r :=
  ⟨fun _ => snd_rebalance_eq_error hp.isLoaded, fun _ _ h => fulfils_of_eq_ok h⟩

/-- Three days on which stocks are not traded in the middle, and bonds are worth nothing in the
end. -/
def haltedTable : PriceTable Float where
  dates := [20000, 20001, 20002]
  series := .ofList [("SPY", [some 100, none, some 120]), ("TLT", [some 80, some 90, some 0])]
  tradeableStart := 0
  aligned := by decide

/-- What a rebalancing leaves behind that stops at a ticker that is not loaded, after it has traded
the bonds. -/
def interrupted : Portfolio Float :=
  (((ofCash 1000).rebalance haltedTable 0 (.ofList [("SPY", some 60), ("TLT", some 40)])).1.rebalance
    haltedTable 1 (.ofList [("TLT", some 50), ("XOM", some 50)])).1

theorem rebalance_of_reachable_interrupted :
    Reachable haltedTable interrupted ∧ interrupted.log.length = 2 ∧
      (interrupted.rebalance haltedTable 2 (.ofList [("SPY", none), ("XOM", none)])).2 =
        .error (.tickerNotLoaded "XOM") ∧
      ∃ q r, interrupted.rebalance haltedTable 2 (.ofList [("SPY", some 50), ("TLT", some 50)]) =
          (q, .ok r) ∧
        r.trades.length = 1 ∧
        Fulfils haltedTable 2 (.ofList [("SPY", some 50), ("TLT", some 50)]) interrupted q r := by
  have reachable : Reachable haltedTable interrupted :=
    .rebalance 1 _ (.rebalance 0 _ (.ofCash 1000))
  have checked : (match interrupted.rebalance haltedTable 2
        (.ofList [("SPY", some 50), ("TLT", some 50)]) with
      | (_, .error _) => false
      | (_, .ok r) => decide (r.trades.length = 1)) = true := by
    decide +kernel
  refine ⟨reachable, by decide +kernel, ?_, ?_⟩
  · exact ((rebalance_of_reachable reachable 2 _).1 _).2 ⟨"XOM", by decide +kernel, rfl⟩
  · split at checked
    · cases checked
    · rename_i q r h
      exact ⟨q, r, h, of_decide_eq_true checked, (rebalance_of_reachable reachable 2 _).2 q r h⟩

end Portfolio

end StrategyTree
