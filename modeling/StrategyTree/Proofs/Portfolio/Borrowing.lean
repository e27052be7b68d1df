import Mathlib.Algebra.BigOperators.Field
import Mathlib.Algebra.BigOperators.Ring.Finset
import Mathlib.Algebra.Order.BigOperators.Group.Finset
import Mathlib.Data.List.ReduceOption
import StrategyTree.Proofs.Portfolio.Repetition

/-!
# When a portfolio borrows

A rebalancing asks for parts of the whole balance, while it keeps the holdings whose tickers have no
close on the day or are not named. Nothing makes room for these: if they are worth more than the
part of the balance that is not asked for, the purchases are paid on credit, also where the
percentages add up to the whole at most. The cash is negative then, and a later fall of prices can
leave a balance that is negative too. In exact arithmetic this is the only way to borrow: as long as
what is kept fits into what is not asked for, cash does not become negative, and the balance stays
positive.

* `Portfolio.keptWorth`, `Portfolio.askedPart`: what is kept and which part is asked for.
* `Portfolio.cash_eq_of_rebalance`: the cash that a rebalancing leaves.
* `Portfolio.Solvent`: what rebalancings preserve that do not borrow.
* `Portfolio.cash_nonneg_iff_kept_fits`: the cash and the balance of a sequence of rebalancings.
* `Portfolio.long_only_run_borrows`: a sequence that borrows.
-/

namespace StrategyTree

variable {K : Type} [Field K] [LinearOrder K] [Roots K]

/-! ## Specification -/

/-- All closes of a table are positive. -/
def PriceTable.PositiveCloses (table : PriceTable K) : Prop :=
  ∀ e ∈ table.series.entries, ∀ close ∈ e.2.reduceOption, 0 < close

instance (table : PriceTable K) : Decidable table.PositiveCloses :=
  inferInstanceAs (Decidable (∀ e ∈ table.series.entries, ∀ close ∈ e.2.reduceOption, 0 < close))

theorem PriceTable.PositiveCloses.close_pos {table : PriceTable K} (h : table.PositiveCloses)
    {x : String} {index : ℕ} {close : K} (hclose : table.closeAt? x index = some close) :
    0 < close := by
  unfold PriceTable.closeAt? at hclose
  split at hclose
  · rename_i closes hget
    rw [Option.join_eq_some_iff] at hclose
    exact h _ (SortedMap.get?_eq_some_iff.1 hget) close
      (List.reduceOption_mem_iff.2 (List.mem_of_getElem? hclose))
  · cases hclose

namespace Portfolio

/-- The tickers that a rebalancing brings to their percentages: those that are named and have a
positive close. -/
def asked (table : PriceTable K) (index : ℕ) (a : Allocation K) : Finset String :=
  {x ∈ a.keys.toFinset | table.Priced index x}

/-- The part of a balance that goes into these tickers. -/
def askedPart (table : PriceTable K) (index : ℕ) (a : Allocation K) : K :=
  ∑ x ∈ asked table index a, a.percentageOf x / Scalar.hundred

/-- What is held of a ticker is worth so much at the closes of a day. -/
def worthHeld (table : PriceTable K) (index : ℕ) (p : Portfolio K) (x : String) : K :=
  (p.marked table index).part Holding.value x

/-- What the holdings are worth that a rebalancing keeps as they are. -/
def keptWorth (table : PriceTable K) (index : ℕ) (a : Allocation K) (p : Portfolio K) : K :=
  ∑ x ∈ p.holdings.keys.toFinset \ asked table index a, worthHeld table index p x

/-- A rebalancing of a sequence that succeeds, with the portfolios before and after it. -/
structure Stage (K : Type) where
  index : ℕ
  allocation : Allocation K
  before : Portfolio K
  after : Portfolio K

/-- The rebalancings of a sequence, up to the first that fails. -/
def stagesOf (table : PriceTable K) : Portfolio K → List (ℕ × Allocation K) → List (Stage K)
  | _, [] => []
  | p, (index, a) :: rest =>
    match p.rebalance table index a with
    | (_, .error _) => []
    | (q, .ok _) => ⟨index, a, p, q⟩ :: stagesOf table q rest

/-- What is kept is worth no more than the part of the balance that is not asked for. -/
def Stage.KeptFits (table : PriceTable K) (s : Stage K) : Prop :=
  keptWorth table s.index s.allocation s.before ≤
    (1 - askedPart table s.index s.allocation) * s.after.balance

/-- Nothing is kept: every ticker held is named and has a close. -/
def Stage.KeepsNothing (table : PriceTable K) (s : Stage K) : Prop :=
  ∀ x ∈ s.before.holdings.keys,
    x ∈ s.allocation.keys ∧ (table.closeAt? x s.index).isSome = true

instance (table : PriceTable K) (s : Stage K) : Decidable (s.KeptFits table) :=
  inferInstanceAs (Decidable (_ ≤ _))

variable {table : PriceTable K} {index : ℕ} {a : Allocation K} {p q : Portfolio K}
  {r : Rebalanced K} {x : String}

theorem mem_asked : x ∈ asked table index a ↔ x ∈ a.keys ∧ table.Priced index x := by
  rw [asked, Finset.mem_filter, List.mem_toFinset]

/-- Of these tickers their percentages of the balance are asked for. -/
theorem exists_asks (hx : x ∈ asked table index a) (balance : K) :
    ∃ price, 0 < price ∧
      Asks table index balance a x price (a.percentageOf x / Scalar.hundred * balance / price) := by
  obtain ⟨named, price, hclose, hpos⟩ := mem_asked.1 hx
  rw [← SortedMap.contains_iff_mem_keys, SortedMap.contains, Option.isSome_iff_exists] at named
  obtain ⟨given, hget⟩ := named
  refine ⟨price, hpos, given, hget, hclose, Exact.zero_lt_iff.2 hpos, ?_⟩
  rw [Allocation.percentageOf, hget, Exact.zero_eq]
  rfl

theorem not_asks (hx : x ∉ asked table index a) {balance : K} :
    ∀ price target, ¬ Asks table index balance a x price target := by
  rintro price target ⟨given, hget, hclose, hpos, -⟩
  exact hx (mem_asked.2
    ⟨SortedMap.mem_keys_of_get? hget, price, hclose, Exact.zero_lt_iff.1 hpos⟩)

theorem nonNegative_of_fair (ha : a.Fair) : NonNegative a := by
  intro x percentage hx
  have named := ha.nonneg x (SortedMap.mem_keys_of_get? hx)
  rwa [Allocation.percentageOf, hx] at named

/-! ## The cash that a rebalancing leaves -/

/-- A ticker that is kept is held at its worth. -/
theorem part_of_not_mem_asked (h : p.rebalance table index a = (q, .ok r))
    (hx : x ∉ asked table index a) :
    q.holdings.part Holding.value x = worthHeld table index p x := by
  unfold SortedMap.part worthHeld SortedMap.part
  rw [get?_rebalance_of_unasked (not_asks hx) h, Option.map_map]
  rfl

variable [IsStrictOrderedRing K]

/-- A ticker that is asked for is held at its percentage of the balance. -/
theorem part_of_mem_asked (ha : NonNegative a) (h : p.rebalance table index a = (q, .ok r))
    (hbalance : 0 ≤ r.balance) (hx : x ∈ asked table index a) :
    q.holdings.part Holding.value x = a.percentageOf x / Scalar.hundred * r.balance := by
  obtain ⟨price, hpos, hasks⟩ := exists_asks hx r.balance
  have target := hasks.target_nonneg ha hbalance
  have worth : a.percentageOf x / Scalar.hundred * r.balance / price * price =
      a.percentageOf x / Scalar.hundred * r.balance := div_mul_cancel₀ _ hpos.ne'
  unfold SortedMap.part
  rw [hasks.get?_rebalance h, holdingOf]
  split
  · exact worth
  · rename_i nothing
    rw [Exact.zero_lt_iff, not_lt] at nothing
    rw [← worth, le_antisymm nothing target, zero_mul]
    rfl

/-- What is invested: of the tickers asked for their percentages, of the others what is kept. -/
theorem invested_rebalance (ha : NonNegative a) (h : p.rebalance table index a = (q, .ok r))
    (hbalance : 0 ≤ r.balance) :
    invested q.holdings =
      askedPart table index a * r.balance + keptWorth table index a p := by
  let all := asked table index a ∪ p.holdings.keys.toFinset
  have spread : invested q.holdings = ∑ x ∈ all, q.holdings.part Holding.value x := by
    rw [invested_eq, ← Finset.sum_map_toList]
    refine SortedMap.sum_values_eq all.nodup_toList (fun x hx => ?_) (fun x holding hx => ?_)
      fun x _ hx => ?_
    · rw [Finset.mem_toList, Finset.mem_union, or_iff_not_imp_left, List.mem_toFinset]
      intro kept
      rw [← SortedMap.contains_iff_mem_keys, SortedMap.contains,
        get?_rebalance_of_unasked (not_asks kept) h, Option.isSome_map, ← SortedMap.contains,
        SortedMap.contains_iff_mem_keys, marked, SortedMap.keys_mapValues] at hx
      exact hx
    · rw [SortedMap.part, hx]
      rfl
    · rw [SortedMap.part, hx]
      rfl
  have parted : all = asked table index a ∪ (p.holdings.keys.toFinset \ asked table index a) :=
    Finset.union_sdiff_self_eq_union.symm
  rw [spread, parted, Finset.sum_union Finset.disjoint_sdiff, askedPart, keptWorth, Finset.sum_mul]
  congr 1
  · exact Finset.sum_congr rfl fun x hx => part_of_mem_asked ha h hbalance hx
  · exact Finset.sum_congr rfl fun x hx => part_of_not_mem_asked h (Finset.mem_sdiff.1 hx).2

/-- The cash of one rebalancing is the part of the balance that is not asked for, less what the
holdings are worth that are kept. -/
theorem cash_eq_of_rebalance (ha : NonNegative a) (h : p.rebalance table index a = (q, .ok r))
    (hbalance : 0 ≤ r.balance) :
    q.cash = (1 - askedPart table index a) * r.balance - keptWorth table index a p := by
  rw [cash_eq_sub h, invested_rebalance ha h hbalance]
  ring

/-! ## What fits -/

/-- The part asked for of a fair allocation is the whole at most. -/
theorem askedPart_le_one (ha : a.Fair) : askedPart table index a ≤ 1 := by
  have whole : 0 < (Scalar.hundred : K) := by
    rw [Exact.hundred_eq]
    norm_num
  have named : asked table index a ⊆ a.keys.toFinset := Finset.filter_subset _ _
  calc askedPart table index a
      ≤ ∑ x ∈ a.keys.toFinset, a.percentageOf x / Scalar.hundred := by
        refine Finset.sum_le_sum_of_subset_of_nonneg named fun x hx _ => ?_
        exact div_nonneg (ha.nonneg x (List.mem_toFinset.1 hx)) whole.le
    _ = (a.keys.map a.percentageOf).sum / Scalar.hundred := by
        rw [← Finset.sum_div, List.sum_toFinset _ a.nodup_keys]
    _ ≤ 1 := by
        rw [div_le_one whole, Exact.hundred_eq]
        exact ha.total

/-- The cash is not negative exactly if what is kept fits. -/
theorem cash_nonneg_iff {s : Stage K} {r : Rebalanced K}
    (h : s.before.rebalance table s.index s.allocation = (s.after, .ok r))
    (ha : s.allocation.Fair) (hbalance : 0 ≤ s.after.balance) :
    0 ≤ s.after.cash ↔ s.KeptFits table := by
  rw [balance_of_rebalance h] at hbalance
  rw [cash_eq_of_rebalance (nonNegative_of_fair ha) h hbalance, sub_nonneg, Stage.KeptFits,
    balance_of_rebalance h]

/-- Nothing kept fits in any case. -/
theorem Stage.KeepsNothing.keptFits {s : Stage K} (h : s.KeepsNothing table)
    (hprices : table.PositiveCloses) (ha : s.allocation.Fair) (hbalance : 0 ≤ s.after.balance) :
    s.KeptFits table := by
  have nothing : s.before.holdings.keys.toFinset \ asked table s.index s.allocation = ∅ := by
    rw [Finset.sdiff_eq_empty_iff_subset]
    intro x hx
    obtain ⟨named, traded⟩ := h x (List.mem_toFinset.1 hx)
    obtain ⟨close, hclose⟩ := Option.isSome_iff_exists.1 traded
    exact mem_asked.2 ⟨named, close, hclose, hprices.close_pos hclose⟩
  rw [Stage.KeptFits, keptWorth, nothing, Finset.sum_empty]
  exact mul_nonneg (sub_nonneg.2 (askedPart_le_one ha)) hbalance

/-! ## What rebalancings preserve that do not borrow -/

/-- A portfolio that has not borrowed: all that it holds is worth something, and so is the whole. -/
structure Solvent (p : Portfolio K) : Prop extends Consistent p where
  cash : 0 ≤ p.cash
  worth : ∀ x h, p.holdings.get? x = some h → 0 < h.value
  total : 0 < p.balance

omit [IsStrictOrderedRing K] in
theorem solvent_ofCash {capital : K} (h : 0 < capital) : (ofCash capital).Solvent where
  toConsistent := consistent_ofCash capital
  cash := h.le
  worth x h hx := by cases hx
  total := h

/-- Also at the closes of another day, what is held is worth something. -/
theorem Solvent.worth_marked (hp : p.Solvent) (hprices : table.PositiveCloses)
    {holding : Holding K} (hx : (p.marked table index).get? x = some holding) :
    0 < holding.value := by
  rw [marked, SortedMap.get?_mapValues, Option.map_eq_some_iff] at hx
  obtain ⟨before, hget, rfl⟩ := hx
  rw [value_markHolding, worthOf]
  split
  · rename_i close hclose
    exact mul_pos (hp.positive x before hget) (hprices.close_pos hclose)
  · exact hp.worth x before hget

/-- The balance of the next rebalancing is positive. -/
theorem Solvent.markedBalance_pos (hp : p.Solvent) (hprices : table.PositiveCloses) :
    0 < p.markedBalance table index := by
  have worth : ∀ v ∈ (p.marked table index).values.map Holding.value, 0 < v := by
    intro v hv
    obtain ⟨holding, hmem, rfl⟩ := List.mem_map.1 hv
    obtain ⟨x, hx⟩ := SortedMap.mem_values.1 hmem
    exact hp.worth_marked hprices hx
  rw [markedBalance, invested_eq]
  by_cases hempty : p.holdings.entries = []
  · -- where nothing is held, the cash is the whole balance
    have cash : p.cash = p.balance := by
      have sheet := hp.balance
      rwa [SortedMap.values, hempty, List.map_nil, List.map_nil, List.sum_nil, zero_add] at sheet
    rw [cash]
    exact add_pos_of_nonneg_of_pos (List.sum_nonneg fun v hv => (worth v hv).le) hp.total
  · have some_held : (p.marked table index).values.map Holding.value ≠ [] := by
      simpa [marked, SortedMap.mapValues, SortedMap.values] using hempty
    exact add_pos_of_pos_of_nonneg (List.sum_pos _ worth some_held) hp.cash

/-- One rebalancing that leaves no negative cash keeps a portfolio solvent. -/
theorem Solvent.rebalance (hp : p.Solvent) (hprices : table.PositiveCloses)
    (h : p.rebalance table index a = (q, .ok r)) (hcash : 0 ≤ q.cash) : q.Solvent where
  toConsistent := hp.toConsistent.rebalance h
  cash := hcash
  worth x holding hx := by
    by_cases hasked : x ∈ asked table index a
    · obtain ⟨price, hpos, hasks⟩ := exists_asks hasked r.balance
      rw [hasks.get?_rebalance h, holdingOf, Option.ite_none_right_eq_some] at hx
      rw [← Option.some.inj hx.2]
      exact mul_pos (Exact.zero_lt_iff.1 hx.1) hpos
    · rw [get?_rebalance_of_unasked (not_asks hasked) h, Option.map_eq_some_iff] at hx
      obtain ⟨before, hget, rfl⟩ := hx
      show 0 < before.value
      exact hp.worth_marked hprices hget
  total := by
    rw [balance_of_rebalance h, (fulfils_of_eq_ok h).balance]
    exact hp.markedBalance_pos hprices

/-! ## Sequences of rebalancings -/

section Stages

variable {steps : List (ℕ × Allocation K)} {s : Stage K}

omit [IsStrictOrderedRing K] in
/-- A sequence that succeeds has a stage for every step. -/
theorem length_stagesOf :
    ∀ {p q : Portfolio K}, rebalanceAll table p steps = .ok q →
      (stagesOf table p steps).length = steps.length := by
  induction steps with
  | nil => exact fun _ => rfl
  | cons step steps ih =>
    intro p q h
    obtain ⟨p', r, hr, hrest, -⟩ := rebalanceAll_cons_eq_ok h
    rw [stagesOf, hr]
    exact congrArg (· + 1) (ih hrest)

omit [IsStrictOrderedRing K] in
/-- A stage is a rebalancing of the sequence that succeeds. -/
theorem of_mem_stagesOf :
    ∀ {p : Portfolio K}, s ∈ stagesOf table p steps →
      (s.index, s.allocation) ∈ steps ∧
        ∃ r, s.before.rebalance table s.index s.allocation = (s.after, .ok r) := by
  induction steps with
  | nil =>
    intro p hs
    cases hs
  | cons step steps ih =>
    intro p hs
    rw [stagesOf] at hs
    split at hs
    · cases hs
    · rename_i q r hr
      rcases List.mem_cons.1 hs with rfl | hs
      · exact ⟨List.mem_cons_self, r, hr⟩
      · exact ⟨List.mem_cons_of_mem _ (ih hs).1, (ih hs).2⟩

/-- A sequence of rebalancings keeps a portfolio solvent, if every one of them does something
that leaves no negative cash to a solvent portfolio. -/
theorem solvent_of_mem_stagesOf (hprices : table.PositiveCloses) {Cautious : Stage K → Prop} :
    ∀ {p : Portfolio K}, p.Solvent →
      (∀ s ∈ stagesOf table p steps, s.before.Solvent → Cautious s → 0 ≤ s.after.cash) →
      (∀ s ∈ stagesOf table p steps, Cautious s) →
        ∀ s ∈ stagesOf table p steps, s.before.Solvent ∧ s.after.Solvent := by
  induction steps with
  | nil =>
    intro p _ _ _ s hs
    cases hs
  | cons step steps ih =>
    intro p hp hcash hall s hs
    rw [stagesOf] at hcash hall hs
    split at hs
    · cases hs
    · rename_i q r hr
      rw [hr] at hcash hall
      dsimp only at hcash hall
      rw [List.forall_mem_cons] at hcash hall
      have hq : q.Solvent := hp.rebalance hprices hr (hcash.1 hp hall.1)
      rcases List.mem_cons.1 hs with rfl | hs
      · exact ⟨hp, hq⟩
      · exact ih hq hcash.2 hall.2 s hs

end Stages

/-- **Main theorem: when a long-only run borrows.** Take a table whose closes are all positive,
though there may be none on any days, and a sequence of successful rebalancings that starts with a
positive amount of cash, to allocations whose percentages are not negative and add up to the whole
at most. The cash is not negative after any of them exactly if at each of them what the holdings are
worth that are kept, since their tickers are not named or have no close, is no more than the part of
the balance that is not asked for; and then the balance is positive at each of them. This is so
where every ticker held is named and has a close. -/
theorem cash_nonneg_iff_kept_fits {capital : K} {steps : List (ℕ × Allocation K)} {q : Portfolio K}
    (hprices : table.PositiveCloses) (hcapital : 0 < capital)
    (h : rebalanceAll table (ofCash capital) steps = .ok q) (ha : ∀ step ∈ steps, step.2.Fair) :
    (stagesOf table (ofCash capital) steps).length = steps.length ∧
    ((∀ s ∈ stagesOf table (ofCash capital) steps, 0 ≤ s.after.cash) ↔
      ∀ s ∈ stagesOf table (ofCash capital) steps, s.KeptFits table) ∧
    ((∀ s ∈ stagesOf table (ofCash capital) steps, s.KeptFits table) →
      ∀ s ∈ stagesOf table (ofCash capital) steps, 0 < s.after.balance) ∧
    ((∀ s ∈ stagesOf table (ofCash capital) steps, s.KeepsNothing table) →
      ∀ s ∈ stagesOf table (ofCash capital) steps, s.KeptFits table) := by
  have start : (ofCash capital).Solvent := solvent_ofCash hcapital
  have nonneg : ∀ s ∈ stagesOf table (ofCash capital) steps, s.before.Solvent →
      0 ≤ s.after.balance := by
    intro s hs solvent
    obtain ⟨-, r, hr⟩ := of_mem_stagesOf hs
    rw [balance_of_rebalance hr, (fulfils_of_eq_ok hr).balance]
    exact (solvent.markedBalance_pos hprices).le
  have cash : ∀ s ∈ stagesOf table (ofCash capital) steps, s.before.Solvent →
      (0 ≤ s.after.cash ↔ s.KeptFits table) := by
    intro s hs solvent
    obtain ⟨hstep, r, hr⟩ := of_mem_stagesOf hs
    exact cash_nonneg_iff hr (ha _ hstep) (nonneg s hs solvent)
  have empty : ∀ s ∈ stagesOf table (ofCash capital) steps, s.before.Solvent →
      s.KeepsNothing table → s.KeptFits table := by
    intro s hs solvent keeps
    exact keeps.keptFits hprices (ha _ (of_mem_stagesOf hs).1) (nonneg s hs solvent)
  -- each condition by itself keeps all portfolios of the sequence solvent
  have by_cash : (∀ s ∈ stagesOf table (ofCash capital) steps, 0 ≤ s.after.cash) →
      ∀ s ∈ stagesOf table (ofCash capital) steps, s.before.Solvent ∧ s.after.Solvent :=
    solvent_of_mem_stagesOf hprices start fun s _ _ hs => hs
  have by_fit := solvent_of_mem_stagesOf hprices start fun s hs solvent => (cash s hs solvent).2
  have by_empty := solvent_of_mem_stagesOf hprices start fun s hs solvent keeps =>
    (cash s hs solvent).2 (empty s hs solvent keeps)
  refine ⟨length_stagesOf h, ⟨fun hall s hs => ?_, fun hall s hs => ?_⟩, fun hall s hs => ?_,
    fun hall s hs => ?_⟩
  · exact (cash s hs (by_cash hall s hs).1).1 (hall s hs)
  · exact (by_fit hall s hs).2.cash
  · exact (by_fit hall s hs).2.total
  · exact empty s hs (by_empty hall s hs).1 (hall s hs)

/-! ### Stocks that are not traded for a day -/

/-- Three days on which stocks are not traded in the middle, while bonds double and then fall. -/
def haltedStocks : PriceTable ℚ where
  dates := [20000, 20001, 20002]
  series := .ofList [("SPY", [some 10, none, some 1]), ("TLT", [some 10, some 20, some 5])]
  tradeableStart := 0
  aligned := by decide

/-- Half in stocks, some in bonds, and then less in bonds than the stocks that are kept leave. -/
def moderateSteps : List (ℕ × Allocation ℚ) :=
  [(0, .ofList [("SPY", some 50), ("TLT", some 30)]),
    (1, .ofList [("SPY", none), ("TLT", some 40)]),
    (2, .ofList [("SPY", none), ("TLT", some 100)])]

theorem cash_nonneg_iff_kept_fits_moderateSteps :
    haltedStocks.PositiveCloses ∧ (∀ step ∈ moderateSteps, step.2.Fair) ∧
    ∃ q, rebalanceAll haltedStocks (ofCash 1000) moderateSteps = .ok q ∧
      (∃ s ∈ stagesOf haltedStocks (ofCash 1000) moderateSteps, ¬ s.KeepsNothing haltedStocks) ∧
      ∀ s ∈ stagesOf haltedStocks (ofCash 1000) moderateSteps,
        0 ≤ s.after.cash ∧ 0 < s.after.balance := by
  have prices : haltedStocks.PositiveCloses := by decide +kernel
  have fair : ∀ step ∈ moderateSteps, step.2.Fair := by decide +kernel
  have fits : ∀ s ∈ stagesOf haltedStocks (ofCash 1000) moderateSteps, s.KeptFits haltedStocks := by
    decide +kernel
  have halted : ∃ s ∈ stagesOf haltedStocks (ofCash 1000) moderateSteps,
      "SPY" ∈ s.before.holdings.keys ∧ (haltedStocks.closeAt? "SPY" s.index).isSome = false := by
    decide +kernel
  have succeeds : (rebalanceAll haltedStocks (ofCash 1000) moderateSteps).isOk = true := by
    decide +kernel
  obtain ⟨q, hq⟩ := Outcome.exists_of_isOk succeeds
  obtain ⟨-, cash, balance, -⟩ := cash_nonneg_iff_kept_fits prices (by norm_num) hq fair
  refine ⟨prices, fair, q, hq, ?_, fun s hs => ⟨cash.2 fits s hs, balance fits s hs⟩⟩
  obtain ⟨s, hs, held, unpriced⟩ := halted
  refine ⟨s, hs, fun keeps => ?_⟩
  rw [(keeps "SPY" held).2] at unpriced
  cases unpriced

/-- Half in stocks and half in bonds, then everything in bonds while the stocks cannot be sold. -/
def eagerSteps : List (ℕ × Allocation ℚ) :=
  [(0, .ofList [("SPY", some 50), ("TLT", some 50)]),
    (1, .ofList [("SPY", none), ("TLT", some 100)]),
    (2, .ofList [("SPY", none), ("TLT", none)])]

/-- A long-only run that borrows, and whose balance becomes negative. -/
theorem long_only_run_borrows :
    haltedStocks.PositiveCloses ∧ (∀ step ∈ eagerSteps, step.2.Fair) ∧
    (eagerSteps.map Prod.fst).Pairwise (· < ·) ∧
    ∃ q, rebalanceAll haltedStocks (ofCash 1000) eagerSteps = .ok q ∧
      (∃ s ∈ stagesOf haltedStocks (ofCash 1000) eagerSteps, s.after.cash < 0) ∧ q.balance < 0 := by
  have checked : (rebalanceAll haltedStocks (ofCash 1000) eagerSteps >>= fun q =>
      .ok (decide (q.balance < 0))) = .ok true := by
    decide +kernel
  obtain ⟨q, hq, checked⟩ := Except.bind_eq_ok.1 checked
  exact ⟨by decide +kernel, by decide +kernel, by decide, q, hq, by decide +kernel,
    of_decide_eq_true (Except.ok.inj checked)⟩

end Portfolio

end StrategyTree
