import StrategyTree.Proofs.Portfolio.Conservation
import StrategyTree.Proofs.Portfolio.Step

/-!
# The trade log accounts for the shares

What a portfolio holds of a ticker is what its log has bought less what it has sold, up to the
changes that are too small to be trades. A ticker is also brought to its number of shares where the
change is smaller than `Portfolio.leastTrade`, and then nothing is logged. So every rebalancing may
move the holdings away from the log by less than that.

* `Portfolio.callsOf`: the rebalancings of a sequence, with what each has found and reported.
* `Portfolio.netBought`: what a log has bought of a ticker less what it has sold.
* `Portfolio.Fulfils.drift`: how far one rebalancing moves the holdings away from the log.
* `Portfolio.drift_rebalanceAll`: how far a sequence of rebalancings does.
* `Portfolio.log_accounts_for_shares`: the log of a portfolio that started with cash only.
-/

namespace StrategyTree

namespace Portfolio

/-! ## Specification -/

section Specification

variable {α : Type} [Scalar α]

/-- A successful rebalancing. -/
structure Call (α : Type) where
  before : Portfolio α
  report : Rebalanced α

/-- The rebalancings of a sequence, up to the first that fails. -/
def callsOf (table : PriceTable α) : Portfolio α → List (ℕ × Allocation α) → List (Call α)
  | _, [] => []
  | p, (index, allocation) :: rest =>
    match p.rebalance table index allocation with
    | (_, .error _) => []
    | (q, .ok r) => ⟨p, r⟩ :: callsOf table q rest

end Specification

variable {K : Type} [Field K] [LinearOrder K] [Roots K]

/-- The number of shares of a ticker that a log trades on a side. -/
def sharesTraded (side : TradeSide) (log : List (Trade K)) (x : String) : K :=
  (((log.filter fun t => t.ticker == x).filter fun t => t.side == side).map Trade.shares).sum

/-- What a log has bought of a ticker less what it has sold. -/
def netBought (log : List (Trade K)) (x : String) : K :=
  sharesTraded .buy log x - sharesTraded .sell log x

/-- An allocation gives no ticker less than nothing. -/
def NonNegative (a : Allocation K) : Prop :=
  ∀ x percentage, a.get? x = some (some percentage) → 0 ≤ percentage

/-- How far the shares held of a ticker are from what the log has bought. -/
def drift (p : Portfolio K) (x : String) : K := sharesOf p.holdings x - netBought p.log x

omit [Roots K] in
theorem nonNegative_iff {a : Allocation K} :
    NonNegative a ↔ ∀ e ∈ a.entries, 0 ≤ e.2.getD 0 := by
  constructor
  · rintro h ⟨x, given⟩ he
    cases given with
    | none => exact le_refl _
    | some percentage => exact h x percentage (SortedMap.get?_eq_some_iff.2 he)
  · intro h x percentage hget
    exact h (x, some percentage) (SortedMap.get?_eq_some_iff.1 hget)

instance (a : Allocation K) : Decidable (NonNegative a) :=
  decidable_of_iff _ nonNegative_iff.symm

/-! ## Logs -/

theorem netBought_append (log trades : List (Trade K)) (x : String) :
    netBought (log ++ trades) x = netBought log x + netBought trades x := by
  unfold netBought sharesTraded
  simp only [List.filter_append, List.map_append, List.sum_append]
  ring

theorem netBought_of_not_mem {log : List (Trade K)} {x : String}
    (h : ∀ t ∈ log, t.ticker ≠ x) : netBought log x = 0 := by
  have none_of_it : log.filter (fun t => t.ticker == x) = [] := by
    simpa using h
  unfold netBought sharesTraded
  rw [none_of_it]
  simp

variable [IsStrictOrderedRing K] {table : PriceTable K} {index : ℕ}

theorem tradeTo_of_lt {x : String} {price held target : K} (h : held < target) :
    tradeTo index x price held target = ⟨index, x, .buy, target - held, price⟩ := by
  have change : 0 < target - held := sub_pos.2 h
  rw [tradeTo, if_pos (Exact.zero_lt_iff.2 change), Exact.abs_eq, abs_of_pos change]

theorem tradeTo_of_le {x : String} {price held target : K} (h : target ≤ held) :
    tradeTo index x price held target = ⟨index, x, .sell, held - target, price⟩ := by
  have change : target - held ≤ 0 := sub_nonpos.2 h
  rw [tradeTo, if_neg (mt Exact.zero_lt_iff.1 change.not_gt), Exact.abs_eq, abs_of_nonpos change,
    neg_sub]

/-- A trade moves what the log has bought by the difference of the numbers of shares. -/
theorem netBought_tradeTo {trades : List (Trade K)} {x : String} {price held target : K}
    (h : trades.filter (fun t => t.ticker == x) = [tradeTo index x price held target]) :
    netBought trades x = target - held := by
  unfold netBought sharesTraded
  rw [h]
  rcases lt_or_ge held target with hlt | hle
  · rw [tradeTo_of_lt hlt]
    simp
  · rw [tradeTo_of_le hle]
    simp

theorem leastTrade_pos : 0 < (leastTrade : K) := by
  show (0 : K) < (10 ^ 12)⁻¹
  positivity

/-! ## One rebalancing -/

section Step

variable {a : Allocation K} {p q : Portfolio K} {r : Rebalanced K} {x : String} {price target : K}

/-- Of no ticker less than nothing is asked for. -/
theorem Asks.target_nonneg {balance : K} (h : Asks table index balance a x price target)
    (ha : NonNegative a) (hbalance : 0 ≤ balance) : 0 ≤ target := by
  obtain ⟨given, hget, -, hpos, rfl⟩ := h
  have percentage : 0 ≤ given.getD Scalar.zero := by
    cases given with
    | none => exact Exact.zero_eq.ge
    | some percentage => exact ha x percentage hget
  have price_pos : 0 < price := Exact.zero_lt_iff.1 hpos
  rw [Exact.hundred_eq]
  positivity

omit [IsStrictOrderedRing K] in
/-- Exactly the number of shares that is asked for is held, also where that is none. -/
theorem Fulfils.sharesOf_eq (h : Fulfils table index a p q r)
    (hx : Asks table index r.balance a x price target) (htarget : 0 ≤ target) :
    sharesOf q.holdings x = target := by
  unfold sharesOf
  by_cases hpos : Scalar.zero < target
  · obtain ⟨holding, hget, hshares, -⟩ := h.held x price target hx hpos
    rw [hget]
    exact hshares
  · rw [h.dropped x price target hx hpos]
    rw [Exact.zero_lt_iff, not_lt] at hpos
    exact Exact.zero_eq.trans (le_antisymm htarget hpos)

/-- Sales. No more is sold of a ticker than is held of it. -/
theorem Fulfils.sale_le (h : Fulfils table index a p q r) (ha : NonNegative a)
    (hbalance : 0 ≤ r.balance) {t : Trade K} (ht : t ∈ r.trades) (hside : t.side = .sell) :
    t.shares ≤ sharesOf p.holdings t.ticker := by
  obtain ⟨price, target, hx⟩ := h.asked t ht
  have own : t ∈ r.trades.filter (fun u => u.ticker == t.ticker) :=
    List.mem_filter.2 ⟨ht, beq_self_eq_true _⟩
  rw [h.traded _ price target hx] at own
  split at own
  · rw [List.mem_singleton] at own
    rcases lt_or_ge (sharesOf p.holdings t.ticker) target with hlt | hle
    · rw [tradeTo_of_lt hlt] at own
      rw [own] at hside
      cases hside
    · rw [tradeTo_of_le hle] at own
      rw [own]
      exact sub_le_self _ (hx.target_nonneg ha hbalance)
  · cases own

/-- One rebalancing moves the shares of a ticker and the log alike, up to a change that is too
small to be a trade. -/
theorem Fulfils.drift_sub (h : Fulfils table index a p q r) (ha : NonNegative a)
    (hbalance : 0 ≤ r.balance) (x : String) : |drift q x - drift p x| < leastTrade := by
  have moved : drift q x - drift p x =
      sharesOf q.holdings x - sharesOf p.holdings x - netBought r.trades x := by
    unfold drift
    rw [h.log, netBought_append]
    ring
  rw [moved]
  by_cases hx : ∃ price target, Asks table index r.balance a x price target
  · obtain ⟨price, target, hx⟩ := hx
    have traded := h.traded x price target hx
    rw [h.sharesOf_eq hx (hx.target_nonneg ha hbalance)]
    split at traded
    · rw [netBought_tradeTo traded, sub_self, abs_zero]
      exact leastTrade_pos
    · rename_i small
      rw [Exact.atLeast_iff, not_le] at small
      have untraded : ∀ t ∈ r.trades, t.ticker ≠ x := by
        simpa using traded
      rw [netBought_of_not_mem untraded, sub_zero]
      exact small
  · push Not at hx
    have untraded : ∀ t ∈ r.trades, t.ticker ≠ x := by
      rintro t ht rfl
      obtain ⟨price, target, asked⟩ := h.asked t ht
      exact hx price target asked
    rw [sharesOf_congr (h.kept x hx), netBought_of_not_mem untraded, sub_self, sub_zero, abs_zero]
    exact leastTrade_pos

end Step

/-! ## Sequences of rebalancings -/

section Calls

variable {α : Type} [Scalar α] {prices : PriceTable α} {steps : List (ℕ × Allocation α)}

/-- The first rebalancing of a sequence that succeeds. -/
theorem rebalanceAll_cons_eq_ok {p q : Portfolio α} {step : ℕ × Allocation α}
    (h : rebalanceAll prices p (step :: steps) = .ok q) :
    ∃ p' r, p.rebalance prices step.1 step.2 = (p', .ok r) ∧ rebalanceAll prices p' steps = .ok q ∧
      callsOf prices p (step :: steps) = ⟨p, r⟩ :: callsOf prices p' steps := by
  rw [rebalanceAll] at h
  split at h
  · cases h
  · rename_i p' r hr
    refine ⟨p', r, hr, h, ?_⟩
    rw [callsOf, hr]

/-- A sequence that succeeds has a call for every step. -/
theorem length_callsOf :
    ∀ {p q : Portfolio α}, rebalanceAll prices p steps = .ok q →
      (callsOf prices p steps).length = steps.length := by
  induction steps with
  | nil => exact fun _ => rfl
  | cons step steps ih =>
    intro p q h
    obtain ⟨p', r, -, hrest, hcalls⟩ := rebalanceAll_cons_eq_ok h
    rw [hcalls, List.length_cons, List.length_cons, ih hrest]

/-- The log of a sequence is the trades of its calls. -/
theorem log_rebalanceAll :
    ∀ {p q : Portfolio α}, rebalanceAll prices p steps = .ok q →
      q.log = p.log ++ (callsOf prices p steps).flatMap fun call => call.report.trades := by
  induction steps with
  | nil =>
    intro p q h
    cases h
    exact (List.append_nil _).symm
  | cons step steps ih =>
    intro p q h
    obtain ⟨p', r, hr, hrest, hcalls⟩ := rebalanceAll_cons_eq_ok h
    rw [hcalls, List.flatMap_cons, ih hrest, rebalance_log hr, List.append_assoc]

/-- A call does what the allocation of its step asks for. -/
theorem fulfils_of_mem_callsOf {call : Call α} :
    ∀ {p q : Portfolio α}, rebalanceAll prices p steps = .ok q → call ∈ callsOf prices p steps →
      ∃ step ∈ steps, ∃ after,
        Fulfils prices step.1 step.2 call.before after call.report := by
  induction steps with
  | nil =>
    intro p q _ hcall
    cases hcall
  | cons step steps ih =>
    intro p q h hcall
    obtain ⟨p', r, hr, hrest, hcalls⟩ := rebalanceAll_cons_eq_ok h
    rw [hcalls] at hcall
    rcases List.mem_cons.1 hcall with rfl | hcall
    · exact ⟨step, List.mem_cons_self, p', fulfils_of_eq_ok hr⟩
    · obtain ⟨later, hmem, after, fulfils⟩ := ih hrest hcall
      exact ⟨later, List.mem_cons_of_mem _ hmem, after, fulfils⟩

end Calls

section Run

variable {steps : List (ℕ × Allocation K)}

/-- A sequence of rebalancings moves the shares of a ticker away from its log by less than one
smallest trade a rebalancing, wherever they have been before. -/
theorem drift_rebalanceAll {origin : K} (x : String) :
    ∀ {bound : K} {p q : Portfolio K}, rebalanceAll table p steps = .ok q →
      (∀ step ∈ steps, NonNegative step.2) →
      (∀ call ∈ callsOf table p steps, 0 ≤ call.report.balance) →
      |drift p x - origin| < bound → |drift q x - origin| < bound + steps.length * leastTrade := by
  induction steps with
  | nil =>
    intro bound p q h _ _ hp
    cases h
    simpa using hp
  | cons step steps ih =>
    intro bound p q h ha hbalance hp
    obtain ⟨p', r, hr, hrest, hcalls⟩ := rebalanceAll_cons_eq_ok h
    rw [List.forall_mem_cons] at ha
    rw [hcalls, List.forall_mem_cons] at hbalance
    have first : |drift p' x - origin| < bound + leastTrade := by
      calc |drift p' x - origin|
          ≤ |drift p' x - drift p x| + |drift p x - origin| := abs_sub_le ..
        _ < leastTrade + bound :=
            add_lt_add ((fulfils_of_eq_ok hr).drift_sub ha.1 hbalance.1 x) hp
        _ = bound + leastTrade := add_comm ..
    calc |drift q x - origin|
        < bound + leastTrade + steps.length * leastTrade := ih hrest ha.2 hbalance.2 first
      _ = bound + (step :: steps).length * leastTrade := by
          push_cast [List.length_cons]
          ring

omit [IsStrictOrderedRing K] in
/-- A portfolio of cash only has no shares and no log. -/
theorem drift_ofCash (capital : K) (x : String) : drift (ofCash capital) x = 0 := by
  unfold drift netBought sharesTraded
  simp [ofCash, sharesOf]

/-- **Main theorem: the log accounts for the shares.** Take a sequence of successful rebalancings
that starts with cash only, whose allocations give no ticker less than nothing and whose balances
are not negative. Its log is the trades of its rebalancings; no rebalancing sells more of a ticker
than is held just before it; and the shares held of a ticker in the end are what the log has bought
of it less what it has sold, up to less than `10⁻¹²` for each rebalancing, and exactly if there is
none. -/
theorem log_accounts_for_shares {capital : K} {q : Portfolio K}
    (h : rebalanceAll table (ofCash capital) steps = .ok q)
    (ha : ∀ step ∈ steps, NonNegative step.2)
    (hbalance : ∀ call ∈ callsOf table (ofCash capital) steps, 0 ≤ call.report.balance) :
    (callsOf table (ofCash capital) steps).length = steps.length ∧
    q.log = (callsOf table (ofCash capital) steps).flatMap (fun call => call.report.trades) ∧
    (∀ call ∈ callsOf table (ofCash capital) steps, ∀ t ∈ call.report.trades, t.side = .sell →
      t.shares ≤ sharesOf call.before.holdings t.ticker) ∧
    ∀ x, (steps = [] → sharesOf q.holdings x = netBought q.log x) ∧
      (steps ≠ [] →
        |sharesOf q.holdings x - netBought q.log x| < steps.length * (10 ^ 12)⁻¹) := by
  refine ⟨length_callsOf h, log_rebalanceAll h, ?_, fun x => ⟨?_, ?_⟩⟩
  · intro call hcall t ht hside
    obtain ⟨step, hstep, after, fulfils⟩ := fulfils_of_mem_callsOf h hcall
    exact fulfils.sale_le (ha step hstep) (hbalance call hcall) ht hside
  · rintro rfl
    cases h
    exact sub_eq_zero.1 (drift_ofCash capital x)
  · intro hne
    cases steps with
    | nil => exact absurd rfl hne
    | cons step steps =>
      obtain ⟨p, r, hr, hrest, hcalls⟩ := rebalanceAll_cons_eq_ok h
      rw [List.forall_mem_cons] at ha
      rw [hcalls, List.forall_mem_cons] at hbalance
      have first := (fulfils_of_eq_ok hr).drift_sub ha.1 hbalance.1 x
      have last := drift_rebalanceAll x hrest ha.2 hbalance.2 first
      rw [drift_ofCash, sub_zero] at last
      calc |sharesOf q.holdings x - netBought q.log x|
          < leastTrade + steps.length * leastTrade := last
        _ = (step :: steps).length * leastTrade := by
            push_cast [List.length_cons]
            ring

end Run

/-- Rebalancings of which the second one moves the stocks by too little for a trade, and the third
one finds no close of theirs. -/
def fineSteps : List (ℕ × Allocation ℚ) :=
  [(0, .ofList [("SPY", some 60), ("TLT", some 40)]),
    (0, .ofList [("SPY", some (60 + 1 / 10 ^ 13)), ("TLT", some 20)]),
    (1, .ofList [("SPY", none), ("TLT", some 10)])]

theorem log_accounts_for_shares_fineSteps :
    ∃ q, rebalanceAll gappyTable (ofCash 1000) fineSteps = .ok q ∧
      sharesOf q.holdings "SPY" ≠ netBought q.log "SPY" ∧
      ∀ x, |sharesOf q.holdings x - netBought q.log x| < 3 * (10 ^ 12)⁻¹ := by
  have checked : (rebalanceAll gappyTable (ofCash 1000) fineSteps >>= fun q =>
      .ok (decide (sharesOf q.holdings "SPY" ≠ netBought q.log "SPY"))) = .ok true := by
    decide +kernel
  obtain ⟨q, hq, checked⟩ := Except.bind_eq_ok.1 checked
  have drifted := of_decide_eq_true (Except.ok.inj checked)
  obtain ⟨-, -, -, close⟩ := log_accounts_for_shares hq (by decide +kernel) (by decide +kernel)
  exact ⟨q, hq, drifted, fun x => (close x).2 (List.cons_ne_nil _ _)⟩

end Portfolio

end StrategyTree
