import StrategyTree.Proofs.Causality.LookBack
import StrategyTree.Proofs.Simulation.Run

/-!
# What the tables hold

Successful computations of indicators and of statistics of ranked nodes, and successful reads of
them, described by the values they end with.

* `IndicatorTable.compute_eq_ok`, `IndicatorTable.load_eq_ok`, `IndicatorTable.value_eq_ok`:
  indicators.
* `IndicatorTable.firstIndex_eq_add`: an indicator's start, as a sum of words.
* `StatisticTable.ofNode_eq_ok`, `StatisticTable.value_eq_ok`: statistics of ranked nodes.
* `IndicatorTable.value_of_get?`, `StatisticTable.value_of_get?`: how reads fail.
* `StatisticTable.RanksBy`: what the values of such a statistic are, by the returns of the run.
-/

namespace StrategyTree

variable {α : Type}

theorem checkWindow_eq_ok {function : String} {available window needed : Nat} {u : Unit} :
    checkWindow function available window needed = .ok u ↔ 0 < window ∧ needed ≤ available := by
  unfold checkWindow
  split_ifs with hw hn
  · simp only [false_iff]
    omega
  · simp only [false_iff]
    omega
  · simp only [true_iff]
    omega

theorem Series.valueAt_eq_some_iff {s : Series α} {i : Nat} {x : α} :
    s.valueAt i = some x ↔ s.start ≤ i ∧ s.values[i - s.start]? = some x := by
  unfold Series.valueAt
  by_cases h : i < s.start
  · rw [if_pos h]
    constructor
    · intro e
      cases e
    · intro e
      omega
  · rw [if_neg h, and_iff_right (Nat.not_lt.1 h)]

theorem Series.valueAt_start_add (s : Series α) (k : Nat) :
    s.valueAt (s.start + k) = s.values[k]? := by
  unfold Series.valueAt
  rw [if_neg (Nat.not_lt.2 (Nat.le_add_right _ _)), Nat.add_sub_cancel_left]

/-! ## Indicators -/

namespace Indicator.Function

theorem checkCut_of_lt {f : Indicator.Function} {window count : Nat}
    (h : f.firstOffset window < count) : f.checkCut window count = .ok () := by
  cases f with
  | cumulativeReturn => exact if_pos (Nat.le_of_lt h)
  | relativeStrengthIndex => exact if_pos (Nat.le_sub_one_of_lt h)
  | _ => rfl

variable [Scalar α] {f : Indicator.Function} {closes values : List α} {window : Nat}

/-- Closes that go beyond the first offset suffice. -/
theorem compute_of_lt (hw : 0 < window) (h : f.firstOffset window < closes.length) :
    f.compute closes window = .ok (f.values window closes) := by
  have enough : Word.add (f.firstOffset window) 1 ≤ closes.length :=
    Nat.le_trans (Word.add_le _ _) h
  unfold compute
  rw [(checkWindow_eq_ok (u := ())).2 ⟨hw, enough⟩, Except.ok_bind, checkCut_of_lt h,
    Except.ok_bind]
  rfl

/-- A computation that succeeds. Its closes go beyond the first offset, or there are no values and
the number of closes that the first one takes does not fit into a word. -/
theorem of_compute_eq_ok (h : f.compute closes window = .ok values) :
    0 < window ∧ values = f.values window closes ∧
      (f.firstOffset window < closes.length ∨
        values = [] ∧ Word.size ≤ f.firstOffset window + 1) := by
  obtain ⟨u, hcheck, h⟩ := Except.bind_eq_ok.1 h
  obtain ⟨hw, enough⟩ := checkWindow_eq_ok.1 hcheck
  obtain ⟨_, -, h⟩ := Except.bind_eq_ok.1 h
  cases h
  refine ⟨hw, rfl, ?_⟩
  by_cases hlt : f.firstOffset window < closes.length
  · exact .inl hlt
  · refine .inr ⟨?_, ?_⟩
    · rw [← List.length_eq_zero_iff, length_values f hw]
      omega
    · by_contra hfits
      rw [Word.add_of_lt (Nat.lt_of_not_le hfits)] at enough
      omega

end Indicator.Function

/-- The number of closes that the first value of an indicator takes fits into a word. Of the windows
that are words themselves, only the largest one may not do, for a function that starts a window
after the first close. -/
def Indicator.Key.Fits (key : Indicator.Key) : Prop :=
  key.function.firstOffset key.window + 1 < Word.size

instance Indicator.Key.decidableFits (key : Indicator.Key) : Decidable key.Fits :=
  inferInstanceAs (Decidable (key.function.firstOffset key.window + 1 < Word.size))

namespace IndicatorTable

/-- The start of an indicator is that of a word on every axis of fewer days than there are words. -/
theorem firstIndex_eq_add {first offset : Nat} {values : List α}
    (h : values ≠ [] → first + offset < Word.size) :
    firstIndex first offset values = Word.add first offset := by
  unfold firstIndex
  cases values with
  | nil => rfl
  | cons x xs => exact (Word.add_of_lt (h (List.cons_ne_nil x xs))).symm

section Compute

variable [Scalar α] {table : PriceTable α} {key : Indicator.Key} {s : Series α}

theorem compute_of_compute {closes : List (Option α)} {values : List α}
    (hget : table.series.get? key.ticker = some closes)
    (h : key.function.compute (firstStretch closes).values key.window = .ok values) :
    compute table key =
      .ok ⟨firstIndex (firstStretch closes).start (key.function.firstOffset key.window) values,
        values⟩ := by
  unfold compute PriceTable.closes
  rw [hget, Except.ok_bind]
  dsimp only
  rw [h]
  rfl

/-- An indicator. It is computed over the first stretch of its ticker's closes. -/
theorem exists_of_compute (h : compute table key = .ok s) :
    ∃ closes values, table.series.get? key.ticker = some closes ∧
      key.function.compute (firstStretch closes).values key.window = .ok values ∧
      s = ⟨firstIndex (firstStretch closes).start (key.function.firstOffset key.window) values,
        values⟩ := by
  cases hget : table.series.get? key.ticker with
  | none =>
    unfold compute PriceTable.closes at h
    rw [hget] at h
    cases h
  | some closes =>
    cases hc : key.function.compute (firstStretch closes).values key.window with
    | error e =>
      unfold compute PriceTable.closes at h
      rw [hget, Except.ok_bind] at h
      dsimp only at h
      rw [hc] at h
      cases e <;> cases h
    | ok values =>
      rw [compute_of_compute hget hc, Except.ok.injEq] at h
      exact ⟨closes, values, rfl, hc, h.symm⟩

/-- An indicator over closes that go beyond its first offset. -/
theorem compute_of_lt {closes : List (Option α)}
    (hget : table.series.get? key.ticker = some closes) (hw : 0 < key.window)
    (h : key.function.firstOffset key.window < (firstStretch closes).values.length) :
    compute table key = .ok ⟨(firstStretch closes).start + key.function.firstOffset key.window,
      key.function.values key.window (firstStretch closes).values⟩ := by
  have nonempty : key.function.values key.window (firstStretch closes).values ≠ [] := by
    rw [← List.length_pos_iff, Indicator.length_values _ hw]
    omega
  rw [compute_of_compute hget (Indicator.Function.compute_of_lt hw h), firstIndex,
    if_neg (mt List.isEmpty_iff.1 nonempty)]

/-- An indicator that succeeds over closes that go beyond its first offset, or has no values because
the number of closes that the first one takes does not fit into a word. -/
theorem of_compute_eq_ok (h : compute table key = .ok s) :
    ∃ closes, table.series.get? key.ticker = some closes ∧ 0 < key.window ∧
      (key.function.firstOffset key.window < (firstStretch closes).values.length ∧
          s = ⟨(firstStretch closes).start + key.function.firstOffset key.window,
            key.function.values key.window (firstStretch closes).values⟩ ∨
        Word.size ≤ key.function.firstOffset key.window + 1 ∧
          (firstStretch closes).values.length ≤ key.function.firstOffset key.window ∧
          s =
            ⟨Word.add (firstStretch closes).start (key.function.firstOffset key.window), []⟩) := by
  obtain ⟨closes, values, hget, hc, hs⟩ := exists_of_compute h
  obtain ⟨hw, -, hcases⟩ := Indicator.Function.of_compute_eq_ok hc
  refine ⟨closes, hget, hw, ?_⟩
  by_cases hlt : key.function.firstOffset key.window < (firstStretch closes).values.length
  · refine .inl ⟨hlt, ?_⟩
    rw [compute_of_lt hget hw hlt, Except.ok.injEq] at h
    exact h.symm
  · obtain ⟨rfl, hsize⟩ := hcases.resolve_left hlt
    exact .inr ⟨hsize, Nat.le_of_not_lt hlt, hs⟩

theorem compute_eq_ok (hfits : key.Fits) :
    compute table key = .ok s ↔ ∃ closes, table.series.get? key.ticker = some closes ∧
      0 < key.window ∧ key.function.firstOffset key.window < (firstStretch closes).values.length ∧
      s = ⟨(firstStretch closes).start + key.function.firstOffset key.window,
        key.function.values key.window (firstStretch closes).values⟩ := by
  constructor
  · intro h
    obtain ⟨closes, hget, hw, ⟨hlt, hs⟩ | ⟨hsize, -⟩⟩ := of_compute_eq_ok h
    · exact ⟨closes, hget, hw, hlt, hs⟩
    · exact absurd hfits (Nat.not_lt.2 hsize)
  · rintro ⟨closes, hget, hw, hlt, rfl⟩
    exact compute_of_lt hget hw hlt

end Compute

theorem value_eq_ok {t : IndicatorTable α} {key : Indicator.Key} {i : Nat} {x : α} :
    t.value key i = .ok x ↔ ∃ s, t.series.get? key = some s ∧ s.valueAt i = some x := by
  unfold value
  cases t.series.get? key with
  | none => simp
  | some s =>
    simp only [Option.some.injEq, exists_eq_left']
    by_cases h : i < s.start
    · rw [if_pos h, Series.valueAt_eq_some_iff]
      simp only [reduceCtorEq, false_iff]
      omega
    · rw [if_neg h]
      cases s.valueAt i <;> simp

/-- Reads of a series. When a read succeeds, and how it fails. -/
theorem value_of_get? {t : IndicatorTable α} {key : Indicator.Key} {s : Series α}
    (h : t.series.get? key = some s) (i : Nat) :
    (i < s.start → t.value key i = .error (.notYetAvailable key.text i s.start)) ∧
    (s.start ≤ i → s.stop ≤ i → t.value key i = .error (.insufficientData
      s!"{key.text} has no value at index {i} (series ends at {s.stop})")) ∧
    ∀ x, s.valueAt i = some x → t.value key i = .ok x := by
  unfold value
  rw [h]
  dsimp only
  refine ⟨fun hlt => if_pos hlt, fun hle hstop => ?_, fun x hx => ?_⟩
  · rw [if_neg (Nat.not_lt.2 hle), (s.valueAt_eq_none_iff i).2 (.inr hstop)]
  · rw [if_neg (Nat.not_lt.2 (Series.valueAt_eq_some_iff.1 hx).1), hx]

variable [Scalar α] {table : PriceTable α}

/-- A successful load computes every indicator asked for, and no other. The list may ask for one
several times. -/
theorem load_eq_ok {keys : List Indicator.Key} {t : IndicatorTable α}
    (h : load table keys = .ok t) :
    (∀ key ∈ keys, ∃ s, t.series.get? key = some s ∧ compute table key = .ok s) ∧
      ∀ key, key ∉ keys → t.series.get? key = none := by
  obtain ⟨computed, hcomputed, h⟩ := Except.bind_eq_ok.1 h
  cases h
  have names : computed.map Prod.fst = keys := by
    rw [← List.map_id keys]
    apply Outcome.map_eq_map_of_mapM _ hcomputed
    intro key entry hentry
    obtain ⟨s, -, hentry⟩ := Except.bind_eq_ok.1 hentry
    cases hentry
    rfl
  have entries : ∀ entry ∈ computed, compute table entry.1 = .ok entry.2 := by
    intro entry hentry
    obtain ⟨key, -, hkey⟩ := Outcome.exists_of_mem_mapM hcomputed hentry
    obtain ⟨s, hs, hkey⟩ := Except.bind_eq_ok.1 hkey
    cases hkey
    exact hs
  constructor
  · intro key hkey
    rw [← names] at hkey
    obtain ⟨entry, hmem, rfl⟩ := List.mem_map.1 hkey
    have unique : ∀ e ∈ computed, e.1 = entry.1 → e.2 = entry.2 := by
      intro e he hname
      have same := entries e he
      rw [hname, entries entry hmem] at same
      exact (Except.ok.inj same).symm
    exact ⟨entry.2, SortedMap.get?_ofList_of_unique unique hkey, entries entry hmem⟩
  · intro key hkey
    rw [SortedMap.get?_eq_none_iff, SortedMap.mem_keys_ofList, names]
    exact hkey

/-- A value of a loaded indicator is a value of the computed one. -/
theorem compute_of_value {keys : List Indicator.Key} {t : IndicatorTable α}
    (h : load table keys = .ok t) {key : Indicator.Key} {i : Nat} {x : α}
    (hx : t.value key i = .ok x) : ∃ s, compute table key = .ok s ∧ s.valueAt i = some x := by
  obtain ⟨present, absent⟩ := load_eq_ok h
  obtain ⟨s, hs, hvalue⟩ := value_eq_ok.1 hx
  by_cases hkey : key ∈ keys
  · obtain ⟨s', hs', hcompute⟩ := present key hkey
    rw [hs] at hs'
    cases hs'
    exact ⟨s, hcompute, hvalue⟩
  · rw [absent key hkey] at hs
    cases hs

/-- A value of an indicator does not depend on which others are loaded with it. -/
theorem value_agrees_of_load {keys keys' : List Indicator.Key} {t t' : IndicatorTable α}
    (h : load table keys = .ok t) (h' : load table keys' = .ok t') (key : Indicator.Key) (i : Nat) :
    BothEnd Eq (t.value key i) (t'.value key i) := by
  intro x x' hx hx'
  obtain ⟨s, hs, hvalue⟩ := compute_of_value h hx
  obtain ⟨s', hs', hvalue'⟩ := compute_of_value h' hx'
  rw [hs] at hs'
  cases hs'
  rw [hvalue] at hvalue'
  exact Option.some.inj hvalue'

end IndicatorTable

/-! ## Statistics of ranked nodes -/

/-- A statistic of returns. It takes one balance more than its window is long. -/
theorem ReturnStatistic.compute_eq_ok [Scalar α] {f : ReturnStatistic} {balances values : List α}
    {window : Nat} :
    f.compute (dailyReturns balances) window = .ok values ↔
      0 < window ∧ window < balances.length ∧ values = f.ofBalances window balances := by
  have hlen : (dailyReturns balances).length = balances.length - 1 := by simp [dailyReturns]
  unfold ReturnStatistic.compute
  rw [Except.bind_eq_ok]
  constructor
  · rintro ⟨_, h, e⟩
    cases e
    obtain ⟨hw, hn⟩ := checkWindow_eq_ok.1 h
    exact ⟨hw, by omega, rfl⟩
  · rintro ⟨hw, hn, rfl⟩
    exact ⟨(), checkWindow_eq_ok.2 ⟨hw, by omega⟩, rfl⟩

namespace StatisticTable

theorem value_eq_ok {t : StatisticTable α} {id : String} {i : Nat} {x : α} :
    t.value id i = .ok x ↔ ∃ s, t.series.get? id = some s ∧ s.valueAt i = some x := by
  unfold value
  cases t.series.get? id with
  | none => simp
  | some s =>
    simp only [Option.some.injEq, exists_eq_left']
    by_cases h : i < s.start
    · rw [if_pos h, Series.valueAt_eq_some_iff]
      simp only [reduceCtorEq, false_iff]
      omega
    · rw [if_neg h]
      cases s.valueAt i <;> simp

/-- Reads of a series. When a read succeeds, and how it fails. -/
theorem value_of_get? {t : StatisticTable α} {id : String} {s : Series α}
    (h : t.series.get? id = some s) (i : Nat) :
    (i < s.start → t.value id i = .error (.notYetAvailable ("pre-calc " ++ id) i s.start)) ∧
    (s.start ≤ i → s.stop ≤ i → t.value id i =
      .error (.insufficientData s!"pre-calc {id} has no value at index {i}")) ∧
    ∀ x, s.valueAt i = some x → t.value id i = .ok x := by
  unfold value
  rw [h]
  dsimp only
  refine ⟨fun hlt => if_pos hlt, fun hle hstop => ?_, fun x hx => ?_⟩
  · rw [if_neg (Nat.not_lt.2 hle), (s.valueAt_eq_none_iff i).2 (.inr hstop)]
  · rw [if_neg (Nat.not_lt.2 (Series.valueAt_eq_some_iff.1 hx).1), hx]

variable [Scalar α] {t : StatisticTable α} {table : PriceTable α} {indicators : IndicatorTable α}
  {settings : Settings α} {capital : α} {tree : Node α}

/-- A statistic of a ranked node. It is computed over the balances of the run of its subtree. -/
theorem ofNode_eq_ok {s : NodeStatistic} {series : Series α} :
    t.ofNode table indicators settings capital tree s = .ok series ↔
      ∃ days portfolio,
        simulate ⟨tree.tickers, indicators, t, settings⟩ table tree (fun _ => false)
          (table.daysFrom (t.simulationStart table indicators tree))
          (Portfolio.ofCash capital) = .ok (days, portfolio) ∧
        0 < s.ranking.window ∧ s.ranking.window < days.length ∧
        series = ⟨t.simulationStart table indicators tree +
            (1 + s.ranking.statistic.firstOffset s.ranking.window),
          s.ranking.statistic.ofBalances s.ranking.window (days.map Day.balance)⟩ := by
  unfold ofNode balancesFrom
  dsimp only
  cases hrun : simulate ⟨tree.tickers, indicators, t, settings⟩ table tree (fun _ => false)
      (table.daysFrom (t.simulationStart table indicators tree)) (Portfolio.ofCash capital) with
  | error e => simp
  | ok run =>
    obtain ⟨days, portfolio⟩ := run
    simp only [Except.ok_bind, Except.pure_eq_ok, Except.ok.injEq, Prod.mk.injEq]
    cases hc : s.ranking.statistic.compute (dailyReturns (days.map Day.balance))
        s.ranking.window with
    | error e =>
      constructor
      · intro h
        cases e <;> cases h
      · rintro ⟨_, _, ⟨rfl, rfl⟩, hw, hn, -⟩
        rw [ReturnStatistic.compute_eq_ok.2 ⟨hw, by rwa [List.length_map], rfl⟩] at hc
        cases hc
    | ok values =>
      obtain ⟨hw, hn, rfl⟩ := ReturnStatistic.compute_eq_ok.1 hc
      rw [List.length_map] at hn
      simp only [Nat.add_assoc, Except.ok.injEq]
      constructor
      · rintro rfl
        exact ⟨days, portfolio, ⟨rfl, rfl⟩, hw, hn, rfl⟩
      · rintro ⟨_, _, ⟨rfl, rfl⟩, -, -, rfl⟩
        rfl

/-- Under an id, the table `C` has the values of a statistic of the simulated returns of a node: the
node has been run against the table `t`, and the value on a day is that of the returns, as many as
the window is long, of which the last is the return to that day. -/
def RanksBy (C t : StatisticTable α) (table : PriceTable α) (indicators : IndicatorTable α)
    (settings : Settings α) (capital : α) (id : String) (node : Node α) (ranking : Ranking) : Prop :=
  ∃ days portfolio,
    simulate ⟨node.tickers, indicators, t, settings⟩ table node (fun _ => false)
      (table.daysFrom (t.simulationStart table indicators node)) (Portfolio.ofCash capital) =
        .ok (days, portfolio) ∧
    ∀ i x, C.value id i = .ok x ↔
      t.simulationStart table indicators node + ranking.window ≤ i ∧
      i < t.simulationStart table indicators node + days.length ∧
      x = ranking.statistic.ofWindow (((dailyReturns (days.map Day.balance)).drop
        (i - ranking.window - t.simulationStart table indicators node)).take ranking.window)

/-- Values of a ranked node. A statistic computed against one table and put into another one is
read there as the statistic of the simulated returns. -/
theorem ranksBy_of_ofNode {C : StatisticTable α} {s : NodeStatistic} {series : Series α}
    (hget : C.series.get? s.node = some series)
    (hof : t.ofNode table indicators settings capital tree s = .ok series) :
    RanksBy C t table indicators settings capital s.node tree s.ranking := by
  obtain ⟨days, portfolio, hdays, hw, -, rfl⟩ := ofNode_eq_ok.1 hof
  refine ⟨days, portfolio, hdays, fun i x => ?_⟩
  generalize t.simulationStart table indicators tree = start at hget ⊢
  -- a value's place in the series is the place of the first return of its window
  have place : start + s.ranking.window ≤ i →
      i - (start + (1 + s.ranking.statistic.firstOffset s.ranking.window)) =
        i - s.ranking.window - start := by
    intro hi
    unfold ReturnStatistic.firstOffset
    omega
  have length := s.ranking.statistic.length_ofBalances hw (days.map Day.balance)
  rw [List.length_map] at length
  rw [value_eq_ok]
  simp only [hget, Option.some.injEq, exists_eq_left', Series.valueAt_eq_some_iff,
    List.getElem?_eq_some_iff]
  constructor
  · rintro ⟨hstart, hk, rfl⟩
    have hi : start + s.ranking.window ≤ i := by
      unfold ReturnStatistic.firstOffset at hstart
      omega
    refine ⟨hi, by omega, ?_⟩
    simp only [ReturnStatistic.ofBalances, List.getElem_map, getElem_windows hw, place hi]
  · rintro ⟨hi, hend, rfl⟩
    have hk : i - (start + (1 + s.ranking.statistic.firstOffset s.ranking.window)) <
        (s.ranking.statistic.ofBalances s.ranking.window (days.map Day.balance)).length := by
      rw [length]
      unfold ReturnStatistic.firstOffset
      omega
    refine ⟨by unfold ReturnStatistic.firstOffset; omega, hk, ?_⟩
    simp only [ReturnStatistic.ofBalances, List.getElem_map, getElem_windows hw, place hi]

end StatisticTable

end StrategyTree
