import StrategyTree.Proofs.Prices.Alignment
import StrategyTree.Proofs.Prices.Closes
import StrategyTree.Proofs.Prices.Search
import StrategyTree.Proofs.Requirements.Gathered

/-!
# What is loaded within resolved bounds

A source that serves some data is asked for bounds first and for the closes within them then. Both
times the calendar is that of the anchor, so the axis starts with the first day looked back on, and
the first day of trading lies as many days after it as the strategy looks back, if the positions in
the calendar fit into words.

* `PriceSource.Serves`: what a source promises.
* `Bounds.positions_of_fits`: the positions in a calendar, where they fit into words.
* `Bounds.resolve_eq_ok`: where resolved bounds lie in the anchor's calendar.
* `PriceTable.load_eq_ok`: what is loaded within some bounds.
* `PriceTable.Axis`: how the axis of a table lies in the anchor's trading days.
* `PriceTable.Loaded.axis`: the axis of a table loaded within resolved bounds.
-/

namespace StrategyTree

variable {α : Type}

/-! ## Sources -/

/-- A source serves some data: the days of each ticker ascend, no question fails, and all answers
are taken from the data. The calendar of a ticker without any data is not asked for. -/
structure PriceSource.Serves (source : PriceSource α) (data : String → List (Close α)) : Prop where
  ascending : ∀ x, (tradingDays (data x)).Pairwise fun a b => a < b
  closes : ∀ x first last, source.closes x first last = .ok (within first last (data x))
  calendar : ∀ x, data x ≠ [] → ∀ first last,
    source.calendar x first last = .ok (Date.between first last (tradingDays (data x)))
  span : ∀ x, source.span x = .ok (spanOf (data x))

/-- A ticker whose data has an extent has data. -/
theorem PriceSource.Serves.ne_nil {source : PriceSource α} {data : String → List (Close α)}
    (h : source.Serves data) {x : String} {s : Span} (hs : source.span x = .ok (some s)) :
    data x ≠ [] := by
  intro hempty
  rw [h.span, hempty] at hs
  cases hs

/-- A source of closes held in memory serves them, if they ascend and none are out of reach. -/
theorem PriceSource.serves_ofCloses {closes : SortedMap String (List (Close α))}
    (h : ∀ cs ∈ closes.values, (tradingDays cs).Pairwise fun a b => a < b) :
    (ofCloses closes .empty).Serves fun x => (closes.get? x).getD [] where
  ascending x := by
    cases hx : closes.get? x with
    | none => exact List.Pairwise.nil
    | some cs => exact h cs (SortedMap.mem_values.2 ⟨x, hx⟩)
  closes _ _ _ := rfl
  calendar x hne first last := by
    cases hx : closes.get? x with
    | none =>
      rw [hx] at hne
      exact absurd rfl hne
    | some cs =>
      rw [Option.getD_some, ← tradingDays_within]
      simp only [ofCloses, hx]
      rfl
  span x := by
    show Except.ok (closes.get? x >>= spanOf) = _
    cases closes.get? x <;> rfl

/-- The trading days of the anchor of a strategy. -/
def Requirements.anchorDays (r : Requirements) (data : String → List (Close α)) : List Date :=
  match r.anchor with
  | some anchor => tradingDays (data anchor)
  | none => []

theorem Requirements.anchorDays_eq {r : Requirements} (data : String → List (Close α))
    {anchor : String} (h : r.anchor = some anchor) :
    r.anchorDays data = tradingDays (data anchor) := by
  unfold anchorDays
  rw [h]

theorem Requirements.ascending_anchorDays (r : Requirements) {data : String → List (Close α)}
    (h : ∀ x, (tradingDays (data x)).Pairwise fun a b => a < b) :
    (r.anchorDays data).Pairwise fun a b => a < b := by
  unfold anchorDays
  split
  · exact h _
  · exact List.Pairwise.nil

/-- The anchor is looked back on, or else traded. -/
theorem Requirements.anchor_cases {r : Requirements} {anchor : String}
    (h : r.anchor = some anchor) :
    r.lookback.contains anchor = true ∨
      r.lookback.toList = [] ∧ r.tradeable.contains anchor = true := by
  unfold Requirements.anchor at h
  rw [← SortedSet.mem_toList, ← SortedSet.mem_toList]
  cases hl : r.lookback.toList with
  | nil =>
    rw [hl] at h
    exact .inr ⟨rfl, List.mem_of_head? h⟩
  | cons x xs =>
    rw [hl] at h
    cases h
    exact .inl List.mem_cons_self

/-! ## Bounds -/

namespace Bounds

theorem anchorOf_eq_ok {r : Requirements} {anchor : String} :
    anchorOf r = .ok anchor ↔ r.anchor = some anchor := by
  unfold anchorOf
  cases r.anchor <;> simp

theorem knownSpan_eq_ok {source : PriceSource α} {x : String} {s : Span} :
    source.knownSpan x = .ok s ↔ source.span x = .ok (some s) := by
  unfold PriceSource.knownSpan
  cases source.span x with
  | error e => simp
  | ok found => cases found <;> simp

theorem Reach.earliest_le_length (reach : Reach) (calendar : List Date) :
    reach.earliest calendar ≤ calendar.length := by
  unfold Reach.earliest
  split
  · exact searchFirst_le_length ..
  · exact Nat.zero_le _

/-- If the look-back, added to the end of a calendar, fits into a word, then the positions are those
of unbounded numbers. -/
theorem positions_of_fits {calendar : List Date} {lookback : Nat} (reach : Reach)
    (h : calendar.length + lookback < Word.size) :
    positions calendar lookback reach =
      (max (searchFirst (fun d => decide (d < reach.start)) calendar)
          (reach.earliest calendar + lookback) - lookback,
        max (searchFirst (fun d => decide (d < reach.start)) calendar)
          (reach.earliest calendar + lookback)) := by
  have earliest := reach.earliest_le_length calendar
  have requested := searchFirst_le_length (fun d => decide (d < reach.start)) calendar
  unfold positions
  dsimp only
  rw [Word.add_of_lt (by omega), Word.sub_of_le (by omega) (by omega)]

/-- Resolved bounds. They are the days at the two positions in the anchor's calendar up to the last
day. -/
theorem resolve_eq_ok {source : PriceSource α} {r : Requirements} {first last today : Date}
    {b : Bounds} (h : resolve source r first last today = .ok b) :
    ∃ anchor span calendar reach, r.anchor = some anchor ∧
      source.span anchor = .ok (some span) ∧
      source.calendar anchor span.first b.tradeableEnd = .ok calendar ∧
      calendar[(positions calendar r.requiredLookback reach).1]? = some b.lookbackStart ∧
      calendar[(positions calendar r.requiredLookback reach).2]? = some b.tradeableStart := by
  unfold resolve at h
  dsimp only at h
  split at h
  · cases h
  obtain ⟨reach, -, h⟩ := Except.bind_eq_ok.1 h
  split at h
  · cases h
  obtain ⟨anchor, hanchor, h⟩ := Except.bind_eq_ok.1 h
  obtain ⟨span, hspan, h⟩ := Except.bind_eq_ok.1 h
  obtain ⟨calendar, hcalendar, h⟩ := Except.bind_eq_ok.1 h
  split at h
  · rename_i day start hday hstart
    cases h
    exact ⟨anchor, span, calendar, reach, anchorOf_eq_ok.1 hanchor, knownSpan_eq_ok.1 hspan,
      hcalendar, hstart, hday⟩
  · cases h
  · cases h

end Bounds

/-! ## Loading -/

namespace PriceTable

/-- A table loaded within bounds for a strategy, from the data that a source serves. The axis is the
anchor's calendar; tickers looked back on are loaded from the first day looked back on, tickers only
traded from the first day of trading. -/
structure Loaded (table : PriceTable α) (r : Requirements) (b : Bounds)
    (data : String → List (Close α)) : Prop where
  dates : table.dates = Date.between b.lookbackStart b.tradeableEnd (r.anchorDays data)
  tradeableStart :
    table.tradeableStart = searchFirst (fun d => decide (d < b.tradeableStart)) table.dates
  isLoaded : ∀ x, r.tickers.contains x = true → table.isLoaded x = true
  lookback : ∀ x, r.tickers.contains x = true → r.lookback.contains x = true →
    table.series.get? x =
      some (align table.dates (PriceSource.within b.lookbackStart b.tradeableEnd (data x)))
  tradeableOnly : ∀ x, r.tickers.contains x = true → r.tradeableOnly.contains x = true →
    table.series.get? x =
      some (align table.dates (PriceSource.within b.tradeableStart b.tradeableEnd (data x)))

section Fetched

variable (r : Requirements) (b : Bounds) (data : String → List (Close α))

/-- The closes looked back on, by ticker. -/
def lookedCloses : List (String × List (Close α)) :=
  r.lookback.toList.map fun x =>
    (x, PriceSource.within b.lookbackStart b.tradeableEnd (data x))

/-- The closes that are only traded, by ticker. -/
def tradedCloses : List (String × List (Close α)) :=
  r.tradeableOnly.toList.map fun x =>
    (x, PriceSource.within b.tradeableStart b.tradeableEnd (data x))

/-- A ticker is looked back on or only traded, not both. -/
theorem nodup_closes : ((lookedCloses r b data ++ tradedCloses r b data).map Prod.fst).Nodup := by
  have looked : (lookedCloses r b data).map Prod.fst = r.lookback.toList := by
    unfold lookedCloses
    rw [List.map_map]
    exact List.map_id _
  have traded : (tradedCloses r b data).map Prod.fst = r.tradeableOnly.toList := by
    unfold tradedCloses
    rw [List.map_map]
    exact List.map_id _
  rw [List.map_append, looked, traded, List.nodup_append']
  refine ⟨SortedMap.nodup_keys _, SortedMap.nodup_keys _, ?_⟩
  intro x hl ht
  rw [SortedSet.mem_toList] at hl ht
  rw [Requirements.tradeableOnly, SortedSet.contains_diff, hl] at ht
  cases ht.2

end Fetched

/-- Loading succeeds from a source that serves data with closes of the anchor. -/
theorem load_eq_ok {source : PriceSource α} {data : String → List (Close α)}
    (hs : source.Serves data) {r : Requirements} {anchor : String} (ha : r.anchor = some anchor)
    (hdata : data anchor ≠ []) (b : Bounds) :
    ∃ table, load source r b = .ok table ∧ table.Loaded r b data := by
  have looked : (r.lookback.toList.mapM fun x =>
      return (x, ← source.closes x b.lookbackStart b.tradeableEnd)) =
      .ok (lookedCloses r b data) := by
    apply Outcome.mapM_eq_map
    intro x _
    rw [hs.closes]
    rfl
  have traded : (r.tradeableOnly.toList.mapM fun x =>
      return (x, ← source.closes x b.tradeableStart b.tradeableEnd)) =
      .ok (tradedCloses r b data) := by
    apply Outcome.mapM_eq_map
    intro x _
    rw [hs.closes]
    rfl
  unfold load
  rw [Bounds.anchorOf_eq_ok.2 ha, Except.ok_bind, hs.calendar anchor hdata, Except.ok_bind, looked,
    Except.ok_bind, traded, Except.ok_bind, ← Requirements.anchorDays_eq data ha]
  have series : ∀ {x closes}, r.tickers.contains x = true →
      (x, closes) ∈ lookedCloses r b data ++ tradedCloses r b data →
        ∀ dates : List Date, (r.tickers.mapValues fun t _ => align dates
          (((SortedMap.ofList (lookedCloses r b data ++ tradedCloses r b data)).get? t).getD
            [])).get? x = some (align dates closes) := by
    intro x closes hx hmem dates
    obtain ⟨u, hu⟩ := Option.isSome_iff_exists.1 hx
    rw [SortedMap.get?_mapValues, hu, SortedMap.get?_ofList_of_mem (nodup_closes r b data) hmem]
    rfl
  refine ⟨_, rfl, rfl, rfl, ?_, ?_, ?_⟩
  · intro x hx
    exact (SortedMap.contains_mapValues _ r.tickers x).trans hx
  · intro x hx hl
    refine series hx (List.mem_append_left _ ?_) _
    exact List.mem_map.2 ⟨x, SortedSet.mem_toList.2 hl, rfl⟩
  · intro x hx ht
    refine series hx (List.mem_append_right _ ?_) _
    exact List.mem_map.2 ⟨x, SortedSet.mem_toList.2 ht, rfl⟩

/-! ## The axis -/

/-- How the axis of a table loaded for a strategy lies in the trading days of its anchor. -/
structure Axis (table : PriceTable α) (r : Requirements) (b : Bounds) (days : List Date)
    (last : Date) : Prop where
  ascending : table.dates.Pairwise fun d e => d < e
  first : table.dates[0]? = some b.lookbackStart
  trading : table.dates[r.requiredLookback]? = some b.tradeableStart
  tradeableStart : table.tradeableStart = r.requiredLookback
  getLast : table.dates.getLast? = some last
  isLast : Date.IsLastBy days b.tradeableEnd last
  rest : table.dates.drop r.requiredLookback = Date.between b.tradeableStart last days

theorem Axis.lt_length {table : PriceTable α} {r : Requirements} {b : Bounds} {days : List Date}
    {last : Date} (h : table.Axis r b days last) : r.requiredLookback < table.length :=
  (List.getElem?_eq_some_iff.1 h.trading).1

section Resolved

variable {source : PriceSource α} {data : String → List (Close α)} (hs : source.Serves data)
  {r : Requirements} {first last today : Date} {b : Bounds}
  (hb : Bounds.resolve source r first last today = .ok b)

include hs hb

/-- Resolved bounds rest on an anchor with data. -/
theorem exists_anchor : ∃ anchor, r.anchor = some anchor ∧ data anchor ≠ [] := by
  obtain ⟨anchor, span, -, -, hanchor, hspan, -⟩ := Bounds.resolve_eq_ok hb
  exact ⟨anchor, hanchor, hs.ne_nil hspan⟩

/-- Whatever table is loaded within resolved bounds holds the data of the source. -/
theorem loaded_of_load {table : PriceTable α} (h : load source r b = .ok table) :
    table.Loaded r b data := by
  obtain ⟨anchor, hanchor, hdata⟩ := exists_anchor hs hb
  obtain ⟨loaded, hload, holds⟩ := load_eq_ok hs hanchor hdata b
  rw [h] at hload
  cases hload
  exact holds

/-- The axis. A table loaded within resolved bounds has the first day of trading as many days
after its first day as the strategy looks back, and goes on to the last trading day. -/
theorem Loaded.axis {table : PriceTable α} (h : table.Loaded r b data)
    (hfits : (r.anchorDays data).length + r.requiredLookback < Word.size) :
    ∃ last, table.Axis r b (r.anchorDays data) last := by
  obtain ⟨anchor, span, calendar, reach, hanchor, hspan, hcalendar, hstart, htrading⟩ :=
    Bounds.resolve_eq_ok hb
  have hdays := Requirements.anchorDays_eq data hanchor
  rw [hs.calendar anchor (hs.ne_nil hspan), ← hdays, Except.ok.injEq] at hcalendar
  have shorter : calendar.length ≤ (r.anchorDays data).length :=
    hcalendar ▸ List.length_filter_le ..
  have found := Bounds.positions_of_fits reach
    (show calendar.length + r.requiredLookback < Word.size by omega)
  obtain ⟨position, hstart, htrading⟩ : ∃ position, calendar[position]? = some b.lookbackStart ∧
      calendar[position + r.requiredLookback]? = some b.tradeableStart := by
    rw [found] at hstart htrading
    refine ⟨_, hstart, ?_⟩
    rw [← htrading]
    congr 1
    omega
  have days_ascend := r.ascending_anchorDays hs.ascending
  have calendar_ascends : calendar.Pairwise fun d e => d < e :=
    hcalendar ▸ days_ascend.filter _
  have in_calendar : b.lookbackStart ∈ Date.between span.first b.tradeableEnd (r.anchorDays data) :=
    hcalendar ▸ List.mem_of_getElem? hstart
  have dates : table.dates = calendar.drop position := by
    rw [h.dates, ← Date.filter_between (Date.mem_between.1 in_calendar).2.1, hcalendar]
    exact Date.filter_le_eq_drop calendar_ascends hstart
  have ascending : table.dates.Pairwise fun d e => d < e :=
    h.dates ▸ days_ascend.filter _
  have head : table.dates[0]? = some b.lookbackStart := by
    rw [dates, List.getElem?_drop]
    exact hstart
  have trading : table.dates[r.requiredLookback]? = some b.tradeableStart := by
    rw [dates, List.getElem?_drop]
    exact htrading
  obtain ⟨last, getLast⟩ : ∃ last, table.dates.getLast? = some last := by
    rw [← Option.isSome_iff_exists, List.getLast?_isSome]
    intro hempty
    rw [hempty] at head
    cases head
  have isLast : Date.IsLastBy (r.anchorDays data) b.tradeableEnd last := by
    rw [h.dates] at getLast
    exact Date.isLastBy_of_getLast? days_ascend getLast
  refine ⟨last, ascending, head, trading, ?_, getLast, isLast, ?_⟩
  · rw [h.tradeableStart]
    exact Date.searchFirst_lt ascending trading
  · have later : b.lookbackStart ≤ b.tradeableStart :=
      Date.le_of_getElem? ascending head trading (Nat.zero_le _)
    rw [← Date.filter_le_eq_drop ascending trading, h.dates, Date.filter_between later]
    apply List.filter_congr
    intro d hd
    have limit : d ≤ b.tradeableEnd ↔ d ≤ last :=
      ⟨isLast.greatest d hd, fun hle => Date.le_trans hle isLast.le⟩
    simp only [limit]

end Resolved

/-- A ticker that trades on the first and on the last day of the axis has closes on all days. -/
theorem Axis.full {table : PriceTable α} {r : Requirements} {b : Bounds} {days : List Date}
    {last : Date} (h : table.Axis r b days last) {x : String} {closes : List (Close α)}
    (hcloses : (tradingDays closes).Pairwise fun d e => d < e)
    (hx : table.series.get? x =
      some (align table.dates (PriceSource.within b.lookbackStart b.tradeableEnd closes)))
    (mem_first : b.lookbackStart ∈ tradingDays closes) (mem_last : last ∈ tradingDays closes) :
    table.Full x := by
  have head : table.dates.head? = some b.lookbackStart := by
    rw [List.head?_eq_getElem?]
    exact h.first
  have order : b.lookbackStart ≤ last := by
    have hlast := h.getLast
    rw [List.getLast?_eq_getElem?] at hlast
    exact Date.le_of_getElem? h.ascending h.first hlast (Nat.zero_le _)
  refine ⟨_, hx, ?_⟩
  apply isSome_of_mem_align h.ascending head h.getLast
  · rw [tradingDays_within]
    exact hcloses.filter _
  · rw [tradingDays_within, Date.mem_between]
    exact ⟨mem_first, Date.le_refl _, Date.le_trans order h.isLast.le⟩
  · rw [tradingDays_within, Date.mem_between]
    exact ⟨mem_last, order, h.isLast.le⟩

/-! ## Sufficient tables -/

/-- A table suffices for a strategy: it has the tickers, without gaps those looked back on, and
more days than the strategy looks back, all of them with closes. -/
structure Sufficient (table : PriceTable α) (r : Requirements) : Prop where
  isLoaded : ∀ x, r.tickers.contains x = true → table.isLoaded x = true
  full : ∀ x, r.lookback.contains x = true → table.Full x
  hasCloses : ∀ i < table.length, table.hasCloses i = true
  long : r.exactLookback < table.length

/-- What is loaded suffices, if every ticker looked back on trades on the first and on the last
day, and if a strategy that looks back does so on some ticker. -/
theorem Loaded.sufficient {table : PriceTable α} {tree : Node α} {r : Requirements} {b : Bounds}
    {data : String → List (Close α)} {last : Date} (hr : Requirements.ofTree tree = .ok r)
    (hasc : ∀ x, (tradingDays (data x)).Pairwise fun d e => d < e)
    (h : table.Loaded r b data) (hax : table.Axis r b (r.anchorDays data) last)
    (hends : ∀ x, r.lookback.contains x = true →
      b.lookbackStart ∈ tradingDays (data x) ∧ last ∈ tradingDays (data x))
    (hexact : r.requiredLookback = r.exactLookback)
    (hne : r.lookback.toList ≠ [] ∨ r.requiredLookback = 0) : table.Sufficient r := by
  have full : ∀ x, r.lookback.contains x = true → table.Full x := by
    intro x hx
    have ht := Requirements.tickers_of_lookback hr hx
    exact hax.full (hasc x) (h.lookback x ht hx) (hends x hx).1 (hends x hx).2
  obtain ⟨anchor, hanchor⟩ : ∃ anchor, r.anchor = some anchor := by
    have mem := hax.isLast.mem
    unfold Requirements.anchorDays at mem
    split at mem
    · exact ⟨_, ‹_›⟩
    · cases mem
  have hdays := Requirements.anchorDays_eq data hanchor
  have anchor_full : table.Full anchor := by
    rcases Requirements.anchor_cases hanchor with hx | ⟨hempty, hx⟩
    · exact full anchor hx
    · -- nothing is looked back on, and the axis starts with the first day of trading
      have zero := hne.resolve_left (not_not_intro hempty)
      have same : b.tradeableStart = b.lookbackStart := by
        have trading := hax.trading
        rw [zero, hax.first, Option.some.injEq] at trading
        exact trading.symm
      have only : r.tradeableOnly.contains anchor = true := by
        rw [Requirements.tradeableOnly, SortedSet.contains_diff]
        refine ⟨hx, ?_⟩
        rw [← Bool.not_eq_true, ← SortedSet.mem_toList, hempty]
        exact List.not_mem_nil
      have series := h.tradeableOnly anchor (Requirements.tickers_of_tradeable hr hx) only
      rw [same] at series
      have mem_first : b.lookbackStart ∈ tradingDays (data anchor) := by
        have mem := List.mem_of_getElem? hax.first
        rw [h.dates, hdays] at mem
        exact (Date.mem_between.1 mem).1
      exact hax.full (hasc anchor) series mem_first (hdays ▸ hax.isLast.mem)
  exact ⟨h.isLoaded, full, fun i hi => anchor_full.hasCloses hi, hexact ▸ hax.lt_length⟩

end PriceTable

end StrategyTree
