import StrategyTree.Proofs.Portfolio.Conservation
import StrategyTree.Proofs.Portfolio.Step

/-!
# What a failed rebalancing leaves behind

A rebalancing fails at the first ticker of its allocation that is not loaded. Holdings are changed
one ticker after the other, cash and log only after the last one. So a failure leaves the tickers
before the missing one at the shares that were asked for, while nothing was paid for them and no
trade was recorded: money appears, or vanishes, by what the new shares are worth. The portfolio is
intact exactly if none of these tickers had to change.

* `Portfolio.Interrupted`, `Portfolio.Intact`: what a failed rebalancing leaves behind, and what it
  leaves where nothing had to change.
* `Portfolio.tradeAll_eq_error`: trading up to the first ticker that is not loaded.
* `Portfolio.Interrupted.invested_eq`, `Portfolio.Interrupted.markedBalance_eq`: the money that
  appears, at once and in later rebalancings.
* `Portfolio.interrupted_of_reachable`: every failure in a sequence of rebalancings.
-/

namespace StrategyTree

namespace Portfolio

open Scalar

/-! ## Specification -/

section Specification

variable {α : Type} [Scalar α]

/-- What a holding stands for: its shares and their value. -/
def position (h : Holding α) : α × α := (h.shares, h.value)

/-- A rebalancing from `p` met a ticker that is not loaded, and left `q` behind: the tickers that
are asked for and come before it are held as asked for, the others as before at the closes of the
day, with the cash and the log of before. -/
structure Interrupted (table : PriceTable α) (index : Nat) (a : Allocation α) (p q : Portfolio α)
    (missing : String) : Prop where
  first : a.keys.find? (fun x => !table.isLoaded x) = some missing
  balance : q.balance = p.markedBalance table index
  held : ∀ x price target, x < missing → Asks table index q.balance a x price target →
    (q.holdings.get? x).map position = if zero < target then some (target, target * price) else none
  kept : ∀ x, (∀ price target, x < missing → ¬ Asks table index q.balance a x price target) →
    q.holdings.get? x = (p.marked table index).get? x
  cash : q.cash = p.cash
  log : q.log = p.log

/-- A portfolio is left intact: it has the same shares, valued at the closes of the day, the same
cash and the same trades. -/
structure Intact (table : PriceTable α) (index : Nat) (p q : Portfolio α) : Prop where
  holdings : ∀ x, (q.holdings.get? x).map position = ((p.marked table index).get? x).map position
  cash : q.cash = p.cash
  log : q.log = p.log

end Specification

/-! ## Up to the missing ticker -/

section Trading

variable {α : Type} [Scalar α] {table : PriceTable α} {index : Nat} {a : Allocation α}
  {p q : Portfolio α} {x : String}

/-- Trading that fails has succeeded for the tickers before the one that is not loaded. -/
theorem tradeAll_eq_error {balance : α} {entries : List (String × Option α)} {e : Error} :
    ∀ {s s' : Trading α}, tradeAll table index balance s entries = (s', .error e) →
      ∃ before x given after, entries = before ++ (x, given) :: after ∧ e = .tickerNotLoaded x ∧
        tradeAll table index balance s before = (s', .ok ()) := by
  induction entries with
  | nil =>
    intro s s' h
    cases h
  | cons entry entries ih =>
    intro s s' h
    rw [tradeAll] at h
    split at h
    · rename_i e' h₁
      cases h
      cases hx : table.isLoaded entry.1 with
      | true =>
        have succeeds : ∃ s₁, tradeTicker table index balance s entry.1 entry.2 = .ok s₁ :=
          tradeTicker_succeeds hx
        obtain ⟨s₁, hs₁⟩ := succeeds
        rw [hs₁] at h₁
        cases h₁
      | false =>
        rw [tradeTicker_of_not_loaded hx] at h₁
        cases h₁
        exact ⟨[], entry.1, entry.2, entries, rfl, rfl, rfl⟩
    · rename_i s₁ h₁
      obtain ⟨before, x, given, after, rfl, rfl, hs⟩ := ih h
      refine ⟨entry :: before, x, given, after, rfl, rfl, ?_⟩
      rw [tradeAll, h₁]
      exact hs

/-- A failed rebalancing was interrupted by the first ticker that is not loaded. -/
theorem interrupted_of_eq_error {e : Error} (hp : ∀ x ∈ p.holdings.keys, table.isLoaded x = true)
    (h : p.rebalance table index a = (q, .error e)) :
    ∃ x, e = .tickerNotLoaded x ∧ Interrupted table index a p q x := by
  obtain ⟨x, hfind, rfl⟩ := (snd_rebalance_eq_error hp).1 (congrArg Prod.snd h)
  refine ⟨x, rfl, ?_⟩
  have all : p.holdings.keys.find? (fun x => !table.isLoaded x) = none := by
    simpa using hp
  unfold rebalance at h
  rw [all] at h
  dsimp only at h
  split at h
  · rename_i s e hs
    obtain ⟨before, y, given, after, hentries, rfl, succeeded⟩ := tradeAll_eq_error hs
    cases h
    have nodup : (before.map Prod.fst).Nodup := by
      have keys := a.nodup_keys
      rw [SortedMap.keys, hentries, List.map_append] at keys
      exact (List.nodup_append.1 keys).1
    refine ⟨hfind, rfl, fun y price target hlt hy => ?_, fun y hy => ?_, rfl, rfl⟩
    · obtain ⟨given, hmem, hclose, hpos, rfl⟩ := hy.exists_entry
      have traded := (SortedMap.mem_before_iff hentries).2 ⟨hmem, hlt⟩
      dsimp only
      rw [get?_tradeAll_of_mem hclose hpos nodup traded succeeded]
      unfold holdingOf
      split <;> rfl
    · refine get?_tradeAll_of_unasked (fun given price hentry hclose hpos => ?_) succeeded
      obtain ⟨named, hlt⟩ := (SortedMap.mem_before_iff hentries).1 hentry
      exact hy price _ hlt ⟨given, SortedMap.get?_eq_some_iff.2 named, hclose, hpos, rfl⟩
  · cases h

theorem Asks.mem_keys {balance price target : α} (h : Asks table index balance a x price target) :
    x ∈ a.keys := by
  obtain ⟨given, hget, -⟩ := h
  exact SortedMap.mem_keys_of_get? hget

/-- At the close of a ticker, its shares say what is held of it. -/
theorem position_marked {price : α} (hclose : table.closeAt? x index = some price) :
    ((p.marked table index).get? x).map position =
      ((p.holdings.get? x).map Holding.shares).map fun n => (n, n * price) := by
  rw [marked, SortedMap.get?_mapValues]
  cases p.holdings.get? x with
  | none => rfl
  | some h => simp [markHolding, hclose, position]

/-- When a portfolio stays intact: the tickers before the missing one have to be held as asked
for already. -/
theorem Interrupted.intact_iff {missing : String} (h : Interrupted table index a p q missing) :
    Intact table index p q ↔ ∀ x price target, x < missing →
      Asks table index (p.markedBalance table index) a x price target →
        (p.holdings.get? x).map Holding.shares = if zero < target then some target else none := by
  have asked : ∀ {x price target}, x < missing → Asks table index q.balance a x price target →
      ((q.holdings.get? x).map position = ((p.marked table index).get? x).map position ↔
        (p.holdings.get? x).map Holding.shares =
          if zero < target then some target else none) := by
    intro x price target hlt hx
    obtain ⟨-, -, hclose, -⟩ := id hx
    have wanted : (if zero < target then some (target, target * price) else none) =
        (if zero < target then some target else none).map fun n => (n, n * price) := by
      split <;> rfl
    have injective : Function.Injective fun n : α => (n, n * price) :=
      fun m n e => (Prod.mk.inj e).1
    rw [h.held x price target hlt hx, wanted, position_marked hclose, eq_comm,
      (Option.map_injective injective).eq_iff]
  rw [← h.balance]
  constructor
  · intro intact x price target hlt hx
    exact (asked hlt hx).1 (intact.holdings x)
  · intro already
    refine ⟨fun x => ?_, h.cash, h.log⟩
    by_cases hx : ∃ price target, x < missing ∧ Asks table index q.balance a x price target
    · obtain ⟨price, target, hlt, hx⟩ := hx
      exact (asked hlt hx).2 (already x price target hlt hx)
    · rw [h.kept x fun price target hlt hasks => hx ⟨price, target, hlt, hasks⟩]

end Trading

/-! ## Money from nothing -/

variable {K : Type} [Field K] [LinearOrder K] [Roots K] {table : PriceTable K} {index later : ℕ}
  {a : Allocation K} {p q : Portfolio K} {missing : String}

/-- What the shares of some tickers that `q` has more than `p` are worth at the closes of a day. -/
def addedWorth (table : PriceTable K) (index : ℕ) (tickers : List String) (p q : Portfolio K) : K :=
  (tickers.map fun x =>
    table.priceAt index x * (sharesOf q.holdings x - sharesOf p.holdings x)).sum

theorem get?_marked_of_unpriced {x : String} (hx : table.closeAt? x index = none) :
    (p.marked table index).get? x = p.holdings.get? x := by
  have mark : markHolding table index x = id := by
    funext holding
    unfold markHolding
    rw [hx]
    rfl
  rw [marked, SortedMap.get?_mapValues, mark, Option.map_id, id]

/-- Holdings at the closes of a day differ in value by what the shares of one that the other has not
are worth, if tickers without a close are held alike. -/
theorem invested_add_addedWorth {held held' : SortedMap String (Holding K)} {tickers : List String}
    (hn : tickers.Nodup)
    (hp : ∀ x, AtClose table index held x ∧ sharesOf held x = sharesOf p.holdings x)
    (hq : ∀ x, AtClose table index held' x ∧ sharesOf held' x = sharesOf q.holdings x)
    (hunpriced : ∀ x, table.closeAt? x index = none → held'.get? x = held.get? x)
    (hsame : ∀ x ∉ tickers, sharesOf q.holdings x = sharesOf p.holdings x) :
    invested held' = invested held + addedWorth table index tickers p q := by
  have added : ∀ x, held'.part Holding.value x - held.part Holding.value x =
      table.priceAt index x * (sharesOf q.holdings x - sharesOf p.holdings x) := by
    intro x
    rw [← (hp x).2, ← (hq x).2]
    cases hclose : table.closeAt? x index with
    | some close =>
      rw [(hp x).1 close hclose, (hq x).1 close hclose, PriceTable.priceAt, hclose,
        Option.getD_some]
      ring
    | none =>
      unfold SortedMap.part sharesOf
      rw [hunpriced x hclose, sub_self, sub_self, mul_zero]
  have same : ∀ x ∉ tickers, held'.part Holding.value x = held.part Holding.value x := by
    intro x hx
    rw [← sub_eq_zero, added, hsame x hx, sub_self, mul_zero]
  rw [invested_eq, invested_eq, SortedMap.sum_values_change Holding.value hn same, addedWorth,
    funext added]

theorem Intact.addedWorth_eq_zero (h : Intact table index p q) (day : ℕ) (tickers : List String) :
    addedWorth table day tickers p q = 0 := by
  apply List.sum_eq_zero
  intro worth hworth
  obtain ⟨x, -, rfl⟩ := List.mem_map.1 hworth
  have shares : (q.holdings.get? x).map Holding.shares = (p.holdings.get? x).map Holding.shares := by
    have both := congrArg (Option.map Prod.fst) (h.holdings x)
    rw [Option.map_map, Option.map_map] at both
    exact both.trans (map_shares_marked p x)
  rw [sharesOf_congr shares, sub_self, mul_zero]

namespace Interrupted

variable (h : Interrupted table index a p q missing) {x : String}

include h

theorem sharesOf_of_not_mem (hx : x ∉ a.keys) : sharesOf q.holdings x = sharesOf p.holdings x := by
  have marked : sharesOf (p.marked table index) x = sharesOf p.holdings x := sharesOf_marked p x
  rw [← marked]
  unfold sharesOf
  rw [h.kept x fun price target _ hasks => hx hasks.mem_keys]

/-- A ticker without a close is held as before. -/
theorem get?_of_unpriced (hx : table.closeAt? x index = none) :
    q.holdings.get? x = p.holdings.get? x := by
  have unasked : ∀ price target, x < missing → ¬ Asks table index q.balance a x price target := by
    rintro price target - ⟨given, -, hclose, -⟩
    rw [hx] at hclose
    cases hclose
  rw [h.kept x unasked, get?_marked_of_unpriced hx]

/-- All tickers are held at their closes. -/
theorem atClose (x : String) : AtClose table index q.holdings x := by
  by_cases hx : ∃ price target, x < missing ∧ Asks table index q.balance a x price target
  · obtain ⟨price, target, hlt, hx⟩ := hx
    have held := h.held x price target hlt hx
    obtain ⟨-, -, hprice, -⟩ := hx
    intro close hclose
    cases hclose.symm.trans hprice
    unfold SortedMap.part sharesOf
    cases hget : q.holdings.get? x with
    | none => simp
    | some holding =>
      rw [hget] at held
      split at held
      · obtain ⟨shares, value⟩ := Prod.mk.inj (Option.some.inj held)
        simp [shares, value]
      · cases held
  · have unchanged := h.kept x fun price target hlt hasks => hx ⟨price, target, hlt, hasks⟩
    have before : AtClose table index (p.marked table index) x := atClose_marked p x
    unfold AtClose SortedMap.part sharesOf at before ⊢
    rwa [unchanged]

/-- Money appears at once. The holdings are worth more than the marked ones by what the added
shares are worth. -/
theorem invested_eq : invested q.holdings =
    invested (p.marked table index) + addedWorth table index a.keys p q := by
  refine invested_add_addedWorth a.nodup_keys (fun x => ⟨atClose_marked p x, sharesOf_marked p x⟩)
    (fun x => ⟨h.atClose x, rfl⟩) (fun x hx => ?_) fun x => h.sharesOf_of_not_mem
  rw [h.get?_of_unpriced hx, get?_marked_of_unpriced hx]

/-- Money appears later. The balance of a later day is higher than it would have been by what the
added shares are worth then, if the tickers held have closes on both days. -/
theorem markedBalance_eq
    (hcloses : ∀ x, x ∈ p.holdings.keys ∨ x ∈ q.holdings.keys →
      (table.closeAt? x index).isSome = true → (table.closeAt? x later).isSome = true) :
    q.markedBalance table later =
      p.markedBalance table later + addedWorth table later a.keys p q := by
  have alike : ∀ x, table.closeAt? x later = none →
      (q.marked table later).get? x = (p.marked table later).get? x := by
    intro x hx
    rw [get?_marked_of_unpriced hx, get?_marked_of_unpriced hx]
    by_cases hheld : x ∈ p.holdings.keys ∨ x ∈ q.holdings.keys
    · have gone := mt (hcloses x hheld)
      rw [hx, Option.not_isSome_iff_eq_none, Option.not_isSome_iff_eq_none] at gone
      exact h.get?_of_unpriced (gone rfl)
    · rw [not_or] at hheld
      rw [SortedMap.get?_eq_none_iff.2 hheld.1, SortedMap.get?_eq_none_iff.2 hheld.2]
  unfold markedBalance
  rw [h.cash, invested_add_addedWorth a.nodup_keys
    (fun x => ⟨atClose_marked p x, sharesOf_marked p x⟩)
    (fun x => ⟨atClose_marked q x, sharesOf_marked q x⟩) alike fun x => h.sharesOf_of_not_mem]
  ring

end Interrupted

/-- **Main theorem: what a failed rebalancing leaves behind.** Take any portfolio that rebalancings
lead to, whether they succeeded or failed, and a rebalancing of it that fails. It fails with the
first ticker of its allocation that is not loaded, and leaves the tickers before that one as asked
for, the others as before, and cash and log unchanged. The portfolio is intact exactly if the
tickers before the missing one were held as asked for already. Holdings and cash exceed the balance
by what the added shares are worth, and so does every later report the one that would have been
given without the failure, if the tickers held have closes then; an intact portfolio has no shares
added. -/
theorem interrupted_of_reachable {e : Error} (hp : Reachable table p)
    (h : p.rebalance table index a = (q, .error e)) :
    ∃ missing, e = .tickerNotLoaded missing ∧ Interrupted table index a p q missing ∧
      (Intact table index p q ↔ ∀ x price target, x < missing →
        Asks table index (p.markedBalance table index) a x price target →
          (p.holdings.get? x).map Holding.shares = if zero < target then some target else none) ∧
      (Intact table index p q → ∀ day, addedWorth table day a.keys p q = 0) ∧
      (q.holdings.values.map Holding.value).sum + q.cash =
        q.balance + addedWorth table index a.keys p q ∧
      ∀ later b p' q' r r',
        (∀ x, x ∈ p.holdings.keys ∨ x ∈ q.holdings.keys →
          (table.closeAt? x index).isSome = true → (table.closeAt? x later).isSome = true) →
        p.rebalance table later b = (p', .ok r) → q.rebalance table later b = (q', .ok r') →
          r'.balance = r.balance + addedWorth table later a.keys p q := by
  obtain ⟨missing, rfl, interrupted⟩ := interrupted_of_eq_error hp.isLoaded h
  refine ⟨missing, rfl, interrupted, interrupted.intact_iff,
    fun intact day => intact.addedWorth_eq_zero day a.keys, ?_, ?_⟩
  · rw [← invested_eq, interrupted.invested_eq, interrupted.balance, interrupted.cash,
      markedBalance]
    ring
  · intro later b p' q' r r' hcloses hp' hq'
    rw [(fulfils_of_eq_ok hq').balance, (fulfils_of_eq_ok hp').balance]
    exact interrupted.markedBalance_eq hcloses

/-! ### A ticker that is not listed -/

/-- Stocks, and a ticker for which no prices are loaded. -/
def unlistedAllocation : Allocation ℚ := .ofList [("SPY", some 60), ("XOM", some 40)]

/-- What the failure to rebalance to `unlistedAllocation` leaves of some cash. -/
def halfInvested : Portfolio ℚ := ((ofCash 1000).rebalance gappyTable 0 unlistedAllocation).1

theorem rebalance_unlistedAllocation : (ofCash 1000).rebalance gappyTable 0 unlistedAllocation =
    (halfInvested, .error (.tickerNotLoaded "XOM")) := by
  have none_held : ∀ x ∈ (ofCash (1000 : ℚ)).holdings.keys, gappyTable.isLoaded x = true := by
    decide
  exact Prod.ext rfl ((snd_rebalance_eq_error none_held).2 ⟨"XOM", by decide +kernel, rfl⟩)

theorem interrupted_of_reachable_unlisted :
    Reachable gappyTable (ofCash (1000 : ℚ)) ∧
    (ofCash 1000).rebalance gappyTable 0 unlistedAllocation =
      (halfInvested, .error (.tickerNotLoaded "XOM")) ∧
    (halfInvested.holdings.values.map Holding.value).sum + halfInvested.cash =
      halfInvested.balance + 600 := by
  have worth : addedWorth gappyTable 0 unlistedAllocation.keys (ofCash 1000) halfInvested = 600 := by
    decide +kernel
  obtain ⟨-, -, -, -, -, sheet, -⟩ :=
    interrupted_of_reachable (.ofCash 1000) rebalance_unlistedAllocation
  rw [worth] at sheet
  exact ⟨.ofCash 1000, rebalance_unlistedAllocation, sheet⟩

/-- A failure can leave more than there was: it adds stocks that the cash does not pay for, and they
are reported with the balance of a later day. -/
theorem failed_rebalance_adds_money :
    Reachable gappyTable (ofCash (1000 : ℚ)) ∧
    (ofCash 1000).rebalance gappyTable 0 unlistedAllocation =
      (halfInvested, .error (.tickerNotLoaded "XOM")) ∧
    ¬ Intact gappyTable 0 (ofCash 1000) halfInvested ∧
    (halfInvested.holdings.values.map Holding.value).sum + halfInvested.cash ≠
      halfInvested.balance ∧
    ∃ p q r r', (ofCash 1000).rebalance gappyTable 2 .empty = (p, .ok r) ∧
      halfInvested.rebalance gappyTable 2 .empty = (q, .ok r') ∧ r'.balance ≠ r.balance := by
  have changed : ¬ Intact gappyTable 0 (ofCash 1000) halfInvested := by
    intro intact
    have stocks := intact.holdings "SPY"
    revert stocks
    decide +kernel
  have without : ∃ p r, (ofCash (1000 : ℚ)).rebalance gappyTable 2 .empty = (p, .ok r) :=
    rebalance_succeeds (by decide +kernel) (by decide +kernel)
  have after : ∃ q r', halfInvested.rebalance gappyTable 2 .empty = (q, .ok r') :=
    rebalance_succeeds (by decide +kernel) (by decide +kernel)
  obtain ⟨p, r, hp⟩ := without
  obtain ⟨q, r', hq⟩ := after
  refine ⟨.ofCash 1000, rebalance_unlistedAllocation, changed, by decide +kernel, p, q, r, r', hp, hq,
    ?_⟩
  rw [(fulfils_of_eq_ok hp).balance, (fulfils_of_eq_ok hq).balance]
  decide +kernel

end Portfolio

end StrategyTree
