import Mathlib.Order.Bounds.Basic
import StrategyTree.Proofs.Prices.Gaps

/-!
# Resolved bounds leave no day out

Where trading may begin can be said without a search: a day of the anchor's calendar will do if it
is not before the first day asked for, nor before the data of any ticker that is traded, and if the
day as many days before it as the strategy looks back is not before the data of any ticker looked
back on. Bounds are resolved to the first day that will do, and they are refused just if there is
none. That is so if the days looked back on, added to the anchor's trading days, are fewer than
there are words; a longer look-back comes around to days that it does not reach back from.

* `Requirements.tradingFrom`, `Requirements.tradingTo`: the days that the data leave to trade on.
* `Requirements.Admits`: the days on which trading may begin.
* `Bounds.resolve_exact`: bounds are resolved to the first such day, if there is one.
* `Bounds.overlong_lookback_resolved`: bounds for a look-back that comes around.
-/

namespace StrategyTree

variable {α : Type}

/-! ## Where trading may begin -/

/-- The first days of the data of some tickers. -/
def firstDays (data : String → List (Close α)) (tickers : List String) : List Date :=
  tickers.filterMap fun x => (tradingDays (data x)).head?

/-- The last days of the data of some tickers. -/
def lastDays (data : String → List (Close α)) (tickers : List String) : List Date :=
  tickers.filterMap fun x => (tradingDays (data x)).getLast?

namespace Requirements

variable (r : Requirements) (data : String → List (Close α))

/-- The day before which nothing is traded: the first working day asked for, or the latest first day
of a ticker that is traded. -/
def tradingFrom (first : Date) : Date :=
  (firstDays data r.tradeable.toList).foldl max first.rollForward

/-- The day after which nothing is traded: the last working day asked for and not after today, or
the earliest last day of a ticker. -/
def tradingTo (last today : Date) : Date :=
  (lastDays data r.tickers.toList).foldl min (min last today).rollBack

/-- The anchor's trading days up to a day. -/
def calendarTo (stop : Date) : List Date :=
  (r.anchorDays data).filter fun d => decide (d ≤ stop)

/-- Trading may begin at a position of a calendar, for a first day of trading that is wanted: as
many days stand before it as the strategy looks back, it is not before the day wanted, and the first
day looked back on is not before the data of any ticker looked back on. -/
structure Admits (calendar : List Date) (start : Date) (p : Nat) : Prop where
  lookback_le : r.requiredLookback ≤ p
  trading : ∃ day, calendar[p]? = some day ∧ start ≤ day
  looking : ∃ day, calendar[p - r.requiredLookback]? = some day ∧
    ∀ d ∈ firstDays data r.lookback.toList, d ≤ day

/-- The tickers of accepted requirements are held or looked back on. -/
theorem tradeable_or_lookback {tree : Node α} {r : Requirements} (h : ofTree tree = .ok r)
    {x : String} (hx : r.tickers.contains x = true) :
    r.tradeable.contains x = true ∨ r.lookback.contains x = true := by
  rw [(gathers_of_ofTree h).tickers] at hx
  rcases hx with hx | hx
  · obtain ⟨p, hp, hx⟩ := List.mem_flatMap.1 hx
    refine (List.mem_append.1 hx).imp (fun hx => ?_) fun hx => ?_
    · exact (gathers_of_ofTree h).tradeable x |>.2 (.inl (List.mem_flatMap.2 ⟨p, hp, hx⟩))
    · exact (gathers_of_ofTree h).lookback x |>.2
        (.inl (List.mem_flatMap.2 ⟨p, hp, List.mem_append_right _ hx⟩))
  · cases hx

/-- A strategy that mentions a ticker has an anchor among its tickers. -/
theorem exists_anchor {tree : Node α} {r : Requirements} (h : ofTree tree = .ok r)
    (hne : r.tickers.toList ≠ []) :
    ∃ anchor, r.anchor = some anchor ∧ r.tickers.contains anchor = true := by
  obtain ⟨x, hx⟩ := List.exists_mem_of_ne_nil _ hne
  have some_anchor : r.anchor.isSome = true := by
    rw [Requirements.anchor, Option.orElse_eq_orElse, Option.orElse_eq_or, Option.isSome_or,
      Bool.or_eq_true, List.isSome_head?, List.isSome_head?]
    rcases tradeable_or_lookback h (SortedSet.mem_toList.1 hx) with ht | hl
    · exact .inr (List.ne_nil_of_mem (SortedSet.mem_toList.2 ht))
    · exact .inl (List.ne_nil_of_mem (SortedSet.mem_toList.2 hl))
  obtain ⟨anchor, hanchor⟩ := Option.isSome_iff_exists.1 some_anchor
  refine ⟨anchor, hanchor, ?_⟩
  rcases anchor_cases hanchor with hl | ⟨-, ht⟩
  · exact tickers_of_lookback h hl
  · exact tickers_of_tradeable h ht

end Requirements

/-! ## The data of the tickers -/

/-- The extent of ascending data goes from its first to its last day. -/
theorem PriceSource.exists_spanOf {closes : List (Close α)}
    (h : (tradingDays closes).Pairwise fun a b => a < b) (hne : closes ≠ []) :
    ∃ span, spanOf closes = some span ∧ (tradingDays closes).head? = some span.first ∧
      (tradingDays closes).getLast? = some span.last := by
  cases closes with
  | nil => exact absurd rfl hne
  | cons c cs =>
    have head : (tradingDays (c :: cs)).head? = some c.date := rfl
    obtain ⟨last, hlast⟩ : ∃ last, (tradingDays (c :: cs)).getLast? = some last := by
      rw [← Option.isSome_iff_exists, List.getLast?_isSome]
      exact List.cons_ne_nil _ _
    refine ⟨_, rfl, ?_, ?_⟩
    · rw [head, Option.some.injEq, ← List.foldl_map (f := Close.date) (g := min)]
      apply Date.eq_of_iff_le
      intro m
      rw [Date.le_foldl_min_iff]
      exact (Date.le_head?_iff h head).trans List.forall_mem_cons
    · rw [hlast, Option.some.injEq, ← List.foldl_map (f := Close.date) (g := max)]
      apply Date.eq_of_le_iff
      intro m
      rw [Date.foldl_max_le_iff]
      exact (Date.getLast?_le_iff h hlast).trans List.forall_mem_cons

namespace Bounds

variable {data : String → List (Close α)} {r : Requirements}

/-- `reach'` is `reach` with the data of some tickers taken in. -/
structure Reach.Covers (r : Requirements) (data : String → List (Close α)) (xs : List String)
    (reach reach' : Reach) : Prop where
  start : ∀ m, reach'.start ≤ m ↔ reach.start ≤ m ∧
    ∀ x ∈ xs, r.tradeable.contains x = true → ∀ d ∈ (tradingDays (data x)).head?, d ≤ m
  stop : ∀ m, m ≤ reach'.stop ↔ m ≤ reach.stop ∧
    ∀ x ∈ xs, ∀ d ∈ (tradingDays (data x)).getLast?, m ≤ d
  lookback : ∀ m, (∀ d ∈ reach'.lookback, d ≤ m) ↔ (∀ d ∈ reach.lookback, d ≤ m) ∧
    ∀ x ∈ xs, r.lookback.contains x = true → ∀ d ∈ (tradingDays (data x)).head?, d ≤ m

theorem Reach.Covers.nil (reach : Reach) : Reach.Covers r data [] reach reach := by
  constructor <;> simp

theorem Reach.Covers.cons {x : String} {xs : List String} {reach₁ reach₂ reach₃ : Reach}
    (h : Reach.Covers r data [x] reach₁ reach₂) (g : Reach.Covers r data xs reach₂ reach₃) :
    Reach.Covers r data (x :: xs) reach₁ reach₃ where
  start m := by
    rw [g.start, h.start, List.forall_mem_singleton, List.forall_mem_cons, and_assoc]
  stop m := by
    rw [g.stop, h.stop, List.forall_mem_singleton, List.forall_mem_cons, and_assoc]
  lookback m := by
    rw [g.lookback, h.lookback, List.forall_mem_singleton, List.forall_mem_cons, and_assoc]

variable {source : PriceSource α} (hs : source.Serves data)

include hs

/-- A ticker with data is taken in. -/
theorem Reach.exists_add {x : String} (hx : data x ≠ []) (reach : Reach) :
    ∃ reach', Reach.add source r reach x = .ok reach' ∧ Reach.Covers r data [x] reach reach' := by
  obtain ⟨span, hspan, hfirst, hlast⟩ := PriceSource.exists_spanOf (hs.ascending x) hx
  have known : source.knownSpan x = .ok span := knownSpan_eq_ok.2 (by rw [hs.span, hspan])
  refine ⟨_, by rw [Reach.add, known]; rfl, ?_⟩
  constructor
  · intro m
    rw [List.forall_mem_singleton, hfirst]
    dsimp only
    split <;> simp_all [Date.max_le_iff]
  · intro m
    rw [List.forall_mem_singleton, hlast]
    simp [Date.le_min_iff]
  · intro m
    rw [List.forall_mem_singleton, hfirst]
    dsimp only
    cases reach.lookback <;> split <;> simp_all [Date.max_le_iff]

/-- The reach of data. Where all tickers have data, all are taken in. -/
theorem Reach.exists_foldlM {xs : List String} (hdata : ∀ x ∈ xs, data x ≠ []) :
    ∀ reach, ∃ reach', xs.foldlM (Reach.add source r) reach = .ok reach' ∧
      Reach.Covers r data xs reach reach' := by
  induction xs with
  | nil =>
    intro reach
    exact ⟨reach, rfl, .nil reach⟩
  | cons x xs ih =>
    intro reach
    rw [List.forall_mem_cons] at hdata
    obtain ⟨reach₁, h₁, covers₁⟩ := Reach.exists_add hs hdata.1 reach
    obtain ⟨reach₂, h₂, covers₂⟩ := ih hdata.2 reach₁
    exact ⟨reach₂, by rw [List.foldlM_cons, h₁]; exact h₂, covers₁.cons covers₂⟩

end Bounds

/-! ## Positions -/

section Positions

variable {r : Requirements} {data : String → List (Close α)} {calendar : List Date}
  (h : calendar.Pairwise fun a b => a < b) {reach : Bounds.Reach}
  (hlookback : ∀ m, (∀ d ∈ reach.lookback, d ≤ m) ↔
    ∀ d ∈ firstDays data r.lookback.toList, d ≤ m)

include h hlookback

/-- From the earliest position on, the days of a calendar are not before the data of any ticker
looked back on. -/
theorem Bounds.Reach.earliest_le_iff {i : Nat} {day : Date} (hi : calendar[i]? = some day) :
    reach.earliest calendar ≤ i ↔ ∀ d ∈ firstDays data r.lookback.toList, d ≤ day := by
  rw [← hlookback, Reach.earliest]
  cases reach.lookback with
  | none => simp
  | some first => simpa using Date.searchFirst_le_iff h hi

/-- The position found. Trading may begin at the positions of the calendar from the one found
on. -/
theorem Bounds.admits_iff (hfits : calendar.length + r.requiredLookback < Word.size) {p : Nat} :
    r.Admits data calendar reach.start p ↔
      p < calendar.length ∧ (positions calendar r.requiredLookback reach).2 ≤ p := by
  rw [positions_of_fits reach hfits]
  dsimp only
  rw [Nat.max_le]
  constructor
  · rintro ⟨back, ⟨day, hday, start⟩, day', hday', looking⟩
    have started := (Date.searchFirst_le_iff h hday).2 start
    have looked := (Reach.earliest_le_iff h hlookback hday').2 looking
    exact ⟨(List.getElem?_eq_some_iff.1 hday).1, started, by omega⟩
  · rintro ⟨hp, started, looked⟩
    have hday := List.getElem?_eq_getElem hp
    have hday' := List.getElem?_eq_getElem (l := calendar) (i := p - r.requiredLookback) (by omega)
    exact ⟨by omega, ⟨_, hday, (Date.searchFirst_le_iff h hday).1 started⟩, _, hday',
      (Reach.earliest_le_iff h hlookback hday').1 (by omega)⟩

end Positions

/-! ## Bounds -/

namespace Requirements

variable {r : Requirements} {data : String → List (Close α)} {m : Date}

theorem tradingFrom_le_iff {first : Date} :
    r.tradingFrom data first ≤ m ↔ first.rollForward ≤ m ∧
      ∀ x, r.tradeable.contains x = true → ∀ d ∈ (tradingDays (data x)).head?, d ≤ m := by
  rw [tradingFrom, Date.foldl_max_le_iff]
  simp only [firstDays, List.mem_filterMap, SortedSet.mem_toList, forall_exists_index, and_imp]
  exact and_congr_right fun _ => ⟨fun h x hx d hd => h d x hx hd, fun h d x hx hd => h x hx d hd⟩

theorem le_tradingTo_iff {last today : Date} :
    m ≤ r.tradingTo data last today ↔ m ≤ (min last today).rollBack ∧
      ∀ x, r.tickers.contains x = true → ∀ d ∈ (tradingDays (data x)).getLast?, m ≤ d := by
  rw [tradingTo, Date.le_foldl_min_iff]
  simp only [lastDays, List.mem_filterMap, SortedSet.mem_toList, forall_exists_index, and_imp]
  exact and_congr_right fun _ => ⟨fun h x hx d hd => h d x hx hd, fun h d x hx hd => h x hx d hd⟩

theorem mem_calendarTo {stop d : Date} :
    d ∈ r.calendarTo data stop ↔ d ∈ r.anchorDays data ∧ d ≤ stop := by
  rw [calendarTo, List.mem_filter, decide_eq_true_eq]

theorem ascending_calendarTo (h : ∀ x, (tradingDays (data x)).Pairwise fun a b => a < b)
    (stop : Date) : (r.calendarTo data stop).Pairwise fun a b => a < b := by
  exact (r.ascending_anchorDays h).filter _

/-- Trading that may begin on a day up to another one is wanted from a day up to that one. -/
theorem Admits.le {start stop : Date} {p : Nat}
    (h : r.Admits data (r.calendarTo data stop) start p) : start ≤ stop := by
  obtain ⟨day, hday, later⟩ := h.trading
  exact Date.le_trans later (mem_calendarTo.1 (List.mem_of_getElem? hday)).2

end Requirements

namespace Bounds

section Served

variable {source : PriceSource α} {data : String → List (Close α)} (hs : source.Serves data)
  {tree : Node α} {r : Requirements} (hr : Requirements.ofTree tree = .ok r)
  (hne : r.tickers.toList ≠ []) (hdata : ∀ x, r.tickers.contains x = true → data x ≠ [])

include hs hr hdata

/-- The reach of a strategy. The tickers of a strategy leave the days between two to trade on,
and looking back begins with their data. -/
theorem exists_reach (first last today : Date) :
    ∃ reach, r.tickers.toList.foldlM (Reach.add source r)
        { start := first.rollForward, stop := (min last today).rollBack } = .ok reach ∧
      reach.start = r.tradingFrom data first ∧ reach.stop = r.tradingTo data last today ∧
      ∀ m, (∀ d ∈ reach.lookback, d ≤ m) ↔ ∀ d ∈ firstDays data r.lookback.toList, d ≤ m := by
  have nonempty : ∀ x ∈ r.tickers.toList, data x ≠ [] := fun x hx =>
    hdata x (SortedSet.mem_toList.1 hx)
  obtain ⟨reach, hreach, covers⟩ := Reach.exists_foldlM (r := r) hs nonempty
    { start := first.rollForward, stop := (min last today).rollBack }
  refine ⟨reach, hreach, ?_, ?_, ?_⟩
  · apply Date.eq_of_le_iff
    intro m
    rw [covers.start, Requirements.tradingFrom_le_iff]
    refine and_congr_right fun _ => ⟨fun h x hx => h x ?_ hx, fun h x _ hx => h x hx⟩
    exact SortedSet.mem_toList.2 (Requirements.tickers_of_tradeable hr hx)
  · apply Date.eq_of_iff_le
    intro m
    rw [covers.stop, Requirements.le_tradingTo_iff]
    simp only [SortedSet.mem_toList]
  · intro m
    rw [covers.lookback]
    simp only [firstDays, List.mem_filterMap, SortedSet.mem_toList, forall_exists_index, and_imp]
    constructor
    · rintro ⟨-, h⟩ d x hx hd
      exact h x (Requirements.tickers_of_lookback hr hx) hx d hd
    · intro h
      refine ⟨fun d hd => ?_, fun x _ hx d hd => h d x hx hd⟩
      cases hd

omit hr in
/-- The calendar asked for is that of the anchor. -/
theorem exists_calendar {anchor : String} (ha : r.anchor = some anchor)
    (hx : r.tickers.contains anchor = true) (stop : Date) :
    ∃ span, source.knownSpan anchor = .ok span ∧
      source.calendar anchor span.first stop = .ok (r.calendarTo data stop) := by
  obtain ⟨span, hspan, hfirst, -⟩ :=
    PriceSource.exists_spanOf (hs.ascending anchor) (hdata anchor hx)
  refine ⟨span, knownSpan_eq_ok.2 (by rw [hs.span, hspan]), ?_⟩
  rw [hs.calendar anchor (hdata anchor hx), Requirements.calendarTo,
    Requirements.anchorDays_eq data ha]
  refine congrArg Except.ok (List.filter_congr fun d hd => ?_)
  rw [decide_eq_true (Date.le_of_head? (hs.ascending anchor) hfirst hd), Bool.true_and]

include hne

/-- The two ends of a resolution. Bounds are resolved to the first day on which trading may
begin, or there is none and they are refused. -/
theorem resolve_cases (hfits : (r.anchorDays data).length + r.requiredLookback < Word.size)
    (first last today : Date) :
    (∃ p b, IsLeast { p | r.Admits data (r.calendarTo data (r.tradingTo data last today))
        (r.tradingFrom data first) p } p ∧
      resolve source r first last today = .ok b ∧
      (r.calendarTo data (r.tradingTo data last today))[p]? = some b.tradeableStart ∧
      (r.calendarTo data (r.tradingTo data last today))[p - r.requiredLookback]? =
        some b.lookbackStart ∧
      b.tradeableEnd = r.tradingTo data last today) ∨
    (∀ p, ¬ r.Admits data (r.calendarTo data (r.tradingTo data last today))
        (r.tradingFrom data first) p) ∧
      ∃ reason, resolve source r first last today = .error (.insufficientData reason) := by
  unfold resolve
  dsimp only
  have from_le := Requirements.tradingFrom_le_iff.1 (Date.le_refl (r.tradingFrom data first))
  have le_to := Requirements.le_tradingTo_iff.1 (Date.le_refl (r.tradingTo data last today))
  by_cases early : (min last today).rollBack < first.rollForward
  · -- no working day is asked for
    rw [if_pos early]
    refine .inr ⟨fun p hp => Date.not_le_of_lt early ?_, _, rfl⟩
    exact Date.le_trans from_le.1 (Date.le_trans hp.le le_to.1)
  rw [if_neg early]
  obtain ⟨reach, hreach, hstart, hstop, hlookback⟩ := exists_reach hs hr hdata first last today
  rw [hreach, Except.ok_bind, ← hstart, ← hstop]
  by_cases late : reach.stop < reach.start
  · -- the data of the tickers have no day in common
    rw [if_pos late]
    exact .inr ⟨fun p hp => Date.not_le_of_lt late hp.le, _, rfl⟩
  rw [if_neg late]
  obtain ⟨anchor, ha, hx⟩ := Requirements.exists_anchor hr hne
  obtain ⟨span, hspan, hcalendar⟩ := exists_calendar hs hdata ha hx reach.stop
  rw [anchorOf_eq_ok.2 ha, Except.ok_bind, hspan, Except.ok_bind, hcalendar, Except.ok_bind]
  have ascending := Requirements.ascending_calendarTo (r := r) hs.ascending reach.stop
  have hfits : (r.calendarTo data reach.stop).length + r.requiredLookback < Word.size := by
    have shorter : (r.calendarTo data reach.stop).length ≤ (r.anchorDays data).length :=
      List.length_filter_le ..
    omega
  generalize r.calendarTo data reach.stop = calendar at ascending hfits ⊢
  have admits : ∀ {p}, r.Admits data calendar reach.start p ↔ _ :=
    admits_iff ascending hlookback hfits
  have found : positions calendar r.requiredLookback reach =
      ((positions calendar r.requiredLookback reach).2 - r.requiredLookback,
        (positions calendar r.requiredLookback reach).2) := by
    rw [positions_of_fits reach hfits]
  rw [found]
  generalize (positions calendar r.requiredLookback reach).2 = position at admits
  dsimp only
  by_cases within : position < calendar.length
  · have trading := List.getElem?_eq_getElem within
    have looking := List.getElem?_eq_getElem (l := calendar) (i := position - r.requiredLookback)
      (by omega)
    rw [trading, looking]
    refine .inl ⟨position, _, ⟨admits.2 ⟨within, Nat.le_refl _⟩, fun q hq => (admits.1 hq).2⟩, rfl,
      trading, looking, rfl⟩
  · -- the position found lies behind the end of the calendar
    refine .inr ⟨fun p hp => ?_, ?_⟩
    · obtain ⟨hlt, hle⟩ := admits.1 hp
      omega
    · rw [List.getElem?_eq_none (Nat.not_lt.1 within)]
      exact ⟨_, rfl⟩

/-- **Main theorem: resolution is exact.** Let a source serve data for all tickers of a strategy
that has some, and let the days it looks back on, added to the anchor's trading days, be fewer than
there are words. Bounds are resolved just if there is a day on which trading may begin. Trading then
begins on the first such day, looking back as many days before as the strategy looks back, and ends
on the last day that the data and the request allow, with the three days in order. Otherwise the
resolution fails for want of data. -/
theorem resolve_exact (hfits : (r.anchorDays data).length + r.exactLookback < Word.size)
    (first last today : Date) :
    ((∃ b, resolve source r first last today = .ok b) ↔
      ∃ p, r.Admits data (r.calendarTo data (r.tradingTo data last today))
        (r.tradingFrom data first) p) ∧
    (∀ b, resolve source r first last today = .ok b →
      ∃ p, IsLeast { p | r.Admits data (r.calendarTo data (r.tradingTo data last today))
          (r.tradingFrom data first) p } p ∧
        (r.calendarTo data (r.tradingTo data last today))[p]? = some b.tradeableStart ∧
        (r.calendarTo data (r.tradingTo data last today))[p - r.requiredLookback]? =
          some b.lookbackStart ∧
        b.tradeableEnd = r.tradingTo data last today ∧
        b.lookbackStart ≤ b.tradeableStart ∧ b.tradeableStart ≤ b.tradeableEnd) ∧
    ((¬ ∃ p, r.Admits data (r.calendarTo data (r.tradingTo data last today))
        (r.tradingFrom data first) p) →
      ∃ reason, resolve source r first last today = .error (.insufficientData reason)) := by
  rw [← Requirements.requiredLookback_eq (by omega)] at hfits
  rcases resolve_cases hs hr hne hdata hfits first last today with
    ⟨p, b, least, resolved, trading, looking, stop⟩ | ⟨none_admitted, reason, refused⟩
  · rw [resolved]
    refine ⟨⟨fun _ => ⟨p, least.1⟩, fun _ => ⟨b, rfl⟩⟩, ?_, fun h => absurd ⟨p, least.1⟩ h⟩
    rintro _ ⟨⟩
    refine ⟨p, least, trading, looking, stop, ?_, ?_⟩
    · exact Date.le_of_getElem? (Requirements.ascending_calendarTo hs.ascending _) looking trading
        (Nat.sub_le _ _)
    · rw [stop]
      exact (Requirements.mem_calendarTo.1 (List.mem_of_getElem? trading)).2
  · rw [refused]
    refine ⟨⟨?_, fun ⟨p, hp⟩ => absurd hp (none_admitted p)⟩, ?_, fun _ => ⟨reason, rfl⟩⟩
    · rintro ⟨b, ⟨⟩⟩
    · rintro b ⟨⟩

end Served

/-- The closes of a week by ticker. -/
def weekData (x : String) : List (Close Nat) := (PriceTable.weekCloses.get? x).getD []

theorem resolve_exact_eitherTree :
    ∃ r b, Requirements.ofTree PriceTable.eitherTree = .ok r ∧ r.tickers.toList = ["SPY", "TLT"] ∧
      (∀ x, r.tickers.contains x = true → weekData x ≠ []) ∧
      resolve (.ofCloses PriceTable.weekCloses .empty) r 20003 20007 20014 = .ok b ∧
      b.tradeableStart = 20005 ∧
      ∃ p, IsLeast { p | r.Admits weekData
          (r.calendarTo weekData (r.tradingTo weekData 20007 20014))
          (r.tradingFrom weekData 20003) p } p ∧
        b.lookbackStart ≤ b.tradeableStart ∧ b.tradeableStart ≤ b.tradeableEnd := by
  have checked : (do
      let r ← Requirements.ofTree PriceTable.eitherTree
      let b ← resolve (.ofCloses PriceTable.weekCloses .empty) r 20003 20007 20014
      return decide (r.tickers.toList = ["SPY", "TLT"] ∧ b.tradeableStart = 20005 ∧
        (r.anchorDays weekData).length + r.exactLookback < Word.size)) = .ok true := by
    decide +kernel
  obtain ⟨r, hr, checked⟩ := Except.bind_eq_ok.1 checked
  obtain ⟨b, hb, checked⟩ := Except.bind_eq_ok.1 checked
  obtain ⟨tickers, day, fits⟩ := of_decide_eq_true (Except.ok.inj checked)
  have served : (PriceSource.ofCloses PriceTable.weekCloses .empty).Serves weekData :=
    PriceSource.serves_ofCloses (by decide)
  have nonempty : ∀ x, r.tickers.contains x = true → weekData x ≠ [] := by
    intro x hx
    have known : ∀ x ∈ ["SPY", "TLT"], weekData x ≠ [] := by decide
    exact known x (tickers ▸ SortedSet.mem_toList.2 hx)
  obtain ⟨p, least, -, -, -, order⟩ :=
    (resolve_exact served hr (tickers ▸ List.cons_ne_nil _ _) nonempty fits 20003 20007
      20014).2.1 b hb
  exact ⟨r, b, hr, tickers, nonempty, hb, day, p, least, order⟩

/-- Two children ranked over the largest window. -/
def patientTree : Node Nat :=
  .split "patient" none (.inverseVolatility 18446744073709551615)
    [.asset "stocks" none "SPY", .asset "bonds" none "TLT"]

/-- Closes of a week in which bonds are first traded on the second day. -/
def lateCloses : SortedMap String (List (Close Nat)) where
  entries :=
    [("SPY", [⟨20003, 500⟩, ⟨20004, 505⟩, ⟨20005, 490⟩, ⟨20006, 510⟩, ⟨20007, 515⟩]),
      ("TLT", [⟨20004, 90⟩, ⟨20005, 91⟩, ⟨20006, 92⟩, ⟨20007, 93⟩])]
  ascending := by decide

/-- The closes of that week by ticker. -/
def lateData (x : String) : List (Close Nat) := (lateCloses.get? x).getD []

/-- A look-back of `2⁶⁴ - 1` days comes around behind the second day. From the first day of the week
on, bounds are resolved in which looking back begins after trading; on the last day, the day to look
back from lies behind the end of the calendar. No day may trading begin on in either case. -/
theorem overlong_lookback_resolved :
    ∃ r, Requirements.ofTree patientTree = .ok r ∧
      (PriceSource.ofCloses lateCloses .empty).Serves lateData ∧
      r.tickers.toList = ["SPY", "TLT"] ∧ (∀ x ∈ r.tickers.toList, lateData x ≠ []) ∧
      (∀ first p, ¬ r.Admits lateData (r.calendarTo lateData (r.tradingTo lateData 20007 20014))
        (r.tradingFrom lateData first) p) ∧
      resolve (.ofCloses lateCloses .empty) r 20003 20007 20014 =
        .ok ⟨20005, 20004, 20007⟩ ∧
      resolve (.ofCloses lateCloses .empty) r 20007 20007 20014 = .error (.outOfRange 5 5) := by
  have checked : (do
      let r ← Requirements.ofTree patientTree
      return decide (r.tickers.toList = ["SPY", "TLT"] ∧
        (∀ x ∈ r.tickers.toList, lateData x ≠ []) ∧
        (r.calendarTo lateData (r.tradingTo lateData 20007 20014)).length < r.requiredLookback ∧
        resolve (.ofCloses lateCloses .empty) r 20003 20007 20014 =
          Except.ok ⟨20005, 20004, 20007⟩ ∧
        resolve (.ofCloses lateCloses .empty) r 20007 20007 20014 =
          Except.error (.outOfRange 5 5))) = Except.ok true := by
    decide +kernel
  obtain ⟨r, hr, checked⟩ := Except.bind_eq_ok.1 checked
  obtain ⟨tickers, nonempty, short, resolved, failed⟩ :=
    of_decide_eq_true (Except.ok.inj checked)
  refine ⟨r, hr, PriceSource.serves_ofCloses (by decide), tickers, nonempty, fun first p hp => ?_,
    resolved, failed⟩
  obtain ⟨day, hday, -⟩ := hp.trading
  obtain ⟨hlt, -⟩ := List.getElem?_eq_some_iff.1 hday
  have back := hp.lookback_le
  omega

end Bounds

end StrategyTree
