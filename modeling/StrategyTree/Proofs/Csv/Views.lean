import Mathlib.Data.Finset.Card
import Mathlib.Data.List.Sort
import Mathlib.Order.Bounds.Defs
import StrategyTree.Csv.Folder
import StrategyTree.Proofs.Prices.Resolution

/-!
# Views of a price file

A folder answers three questions about a ticker from its file: for the closes between two days, for
the trading days between them, and for the extent of the data. The file may have its rows in any
order and several for one date. The specification of the answers is in terms of the rows as they
stand in the file; the code sorts them by date, which leaves rows of one date in their order, and
then keeps the first one of each date.

* `Shows`: what the closes between two days are, for some rows; `Shows.eq` says that there is only
  one such list.
* `Extent`: what the extent of some rows is.
* `firstOn_byDate`, `shows_within`: what sorting and dropping repeats leave is to be shown.
* `Folder.views_agree`: the three answers for a file whose rows can all be read.
* `Folder.serves_source`: a folder of such files keeps the promises of a price source.
-/

namespace StrategyTree.Csv

/-! ## Rows of a file -/

/-- The fields of the records of a text. -/
def table (content : String) : List (List String) := (records content.toList).map Record.fields

/-- The rows of a text in the order in which they stand there. -/
def rowsOfText (content : String) : Except Error (List (Close Float)) :=
  match records content.toList with
  | [] => .ok []
  | header :: rows => closesOf header.fields.length (closeColumn header.fields) 1 rows

/-- The closes of rows: sorted by date, without repeats. -/
def inOrder (rows : List (Close Float)) : List (Close Float) := dropRepeats (byDate rows)

theorem inOrder_nil : inOrder [] = [] := by rw [inOrder, byDate, List.mergeSort_nil, dropRepeats]

/-- The closes of a text are those of its rows. -/
theorem closesOfText_eq (content : String) :
    closesOfText content = rowsOfText content >>= fun rows => .ok (inOrder rows) := by
  unfold closesOfText rowsOfText
  cases records content.toList with
  | nil =>
    rw [Except.ok_bind, inOrder_nil]
    rfl
  | cons header rows => rfl

/-- Under a header, the fields of a record are read as a row. -/
def ReadsAs (header fields : List String) (row : Close Float) : Prop :=
  fields.length = header.length ∧ closeOf (closeColumn header) fields = .ok row

theorem checkWidth_eq_ok {width number : Nat} {r : Record} {u : Unit} :
    checkWidth width number r = .ok u ↔ r.fields.length = width := by
  by_cases h : r.fields.length = width <;> simp [checkWidth, h]

theorem closesOf_eq_ok {header : List String} {rs : List Record} :
    ∀ {number : Nat} {rows : List (Close Float)},
      closesOf header.length (closeColumn header) number rs = .ok rows ↔
        List.Forall₂ (ReadsAs header) (rs.map Record.fields) rows := by
  induction rs with
  | nil =>
    intro number rows
    simp [closesOf, eq_comm]
  | cons r rs ih =>
    intro number rows
    rw [closesOf, List.map_cons, List.forall₂_cons_left_iff]
    simp only [Except.bind_eq_ok, checkWidth_eq_ok, ih, ReadsAs]
    constructor
    · rintro ⟨_, width, c, hc, cs, hcs, h⟩
      cases h
      exact ⟨c, cs, ⟨width, hc⟩, hcs, rfl⟩
    · rintro ⟨c, cs, ⟨width, hc⟩, hcs, rfl⟩
      exact ⟨(), width, c, hc, cs, hcs, rfl⟩

/-- The rows of a text are what its fields are read as, record by record. -/
theorem rowsOfText_eq_ok {content : String} {rows : List (Close Float)} :
    rowsOfText content = .ok rows ↔
      match (table content).head? with
      | none => rows = []
      | some header => List.Forall₂ (ReadsAs header) (table content).tail rows := by
  unfold rowsOfText table
  cases records content.toList with
  | nil => simp [eq_comm]
  | cons r rs => exact closesOf_eq_ok

/-- One text has the header and the rows of another one, but the rows in any order. -/
def Rearranges (content' content : String) : Prop :=
  (table content').head? = (table content).head? ∧
    (table content').tail.Perm (table content).tail

/-- A text with the same rows in another order can be read as well. -/
theorem rowsOfText_of_rearranges {content content' : String} (h : Rearranges content' content)
    {rows : List (Close Float)} (hrows : rowsOfText content = .ok rows) :
    ∃ rows', rowsOfText content' = .ok rows' ∧ rows'.Perm rows := by
  rw [rowsOfText_eq_ok] at hrows
  simp only [rowsOfText_eq_ok, h.1]
  cases hheader : (table content).head? with
  | none =>
    rw [hheader] at hrows
    exact ⟨rows, hrows, List.Perm.refl rows⟩
  | some header =>
    rw [hheader] at hrows
    obtain ⟨rows', reads, perm⟩ := List.perm_comp_forall₂ h.2 hrows
    exact ⟨rows', reads, perm⟩

/-! ## The first row of a date -/

/-- The first row of a date. -/
def firstOn (rows : List (Close Float)) (d : Date) : Option (Close Float) :=
  rows.find? fun r => decide (r.date = d)

theorem date_of_firstOn {rows : List (Close Float)} {d : Date} {c : Close Float}
    (h : firstOn rows d = some c) : c.date = d := by
  simpa using List.find?_some h

theorem firstOn_cons_self (c : Close Float) (rows : List (Close Float)) :
    firstOn (c :: rows) c.date = some c :=
  List.find?_cons_of_pos (decide_eq_true rfl)

theorem firstOn_cons_of_ne {c : Close Float} {d : Date} (h : c.date ≠ d)
    (rows : List (Close Float)) : firstOn (c :: rows) d = firstOn rows d :=
  List.find?_cons_of_neg (by simpa using h)

theorem exists_firstOn_iff {rows : List (Close Float)} {d : Date} :
    (∃ c, firstOn rows d = some c) ↔ d ∈ tradingDays rows := by
  rw [← Option.isSome_iff_exists, firstOn, List.find?_isSome, tradingDays, List.mem_map]
  simp only [decide_eq_true_eq]

/-- If no date repeats, every row is the first one of its date. -/
theorem firstOn_eq_some_iff {rows : List (Close Float)} (distinct : (tradingDays rows).Nodup)
    {d : Date} {c : Close Float} : firstOn rows d = some c ↔ c ∈ rows ∧ c.date = d := by
  constructor
  · exact fun h => ⟨List.mem_of_find?_eq_some h, date_of_firstOn h⟩
  · rintro ⟨hc, rfl⟩
    obtain ⟨found, hfound⟩ := exists_firstOn_iff.2 (List.mem_map_of_mem (f := Close.date) hc)
    have same := List.inj_on_of_nodup_map distinct (List.mem_of_find?_eq_some hfound) hc
      (date_of_firstOn hfound)
    rw [hfound, same]

/-! ## Sorting and dropping repeats -/

theorem date_le_trans (a b c : Close Float) (hab : decide (a.date ≤ b.date) = true)
    (hbc : decide (b.date ≤ c.date) = true) : decide (a.date ≤ c.date) = true :=
  decide_eq_true (Date.le_trans (of_decide_eq_true hab) (of_decide_eq_true hbc))

theorem date_le_total (a b : Close Float) :
    (decide (a.date ≤ b.date) || decide (b.date ≤ a.date)) = true := by
  rw [Bool.or_eq_true, decide_eq_true_eq, decide_eq_true_eq]
  exact Int.le_total a.date.day b.date.day

theorem pairwise_byDate (rows : List (Close Float)) :
    (byDate rows).Pairwise fun c d => c.date ≤ d.date :=
  (List.pairwise_mergeSort date_le_trans date_le_total rows).imp of_decide_eq_true

/-- Sorting is stable. The first row of a date stays the first one. -/
theorem firstOn_byDate (rows : List (Close Float)) (d : Date) :
    firstOn (byDate rows) d = firstOn rows d := by
  induction rows with
  | nil => rw [byDate, List.mergeSort_nil]
  | cons c rows ih =>
    -- a row is put before another one only if its date is earlier
    obtain ⟨before, after, sorted, rest, earlier⟩ :=
      List.mergeSort_cons date_le_trans date_le_total c rows
    have sorted : byDate (c :: rows) = before ++ c :: after := sorted
    have rest : byDate rows = before ++ after := rest
    rw [sorted]
    by_cases hc : c.date = d
    · subst hc
      have absent : firstOn before c.date = none := by
        rw [firstOn, List.find?_eq_none]
        intro b hb same
        have late : c.date ≤ b.date := by
          rw [of_decide_eq_true same]
          exact Date.le_refl _
        simpa [late] using earlier b hb
      rw [firstOn_cons_self, firstOn, List.find?_append, ← firstOn, absent, Option.none_or]
      exact firstOn_cons_self c after
    · rw [firstOn_cons_of_ne hc, ← ih, rest, firstOn, firstOn, List.find?_append,
        List.find?_append, ← firstOn, ← firstOn, ← firstOn, firstOn_cons_of_ne hc]

/-- Dropping repeats of a date keeps what is found for the other ones. -/
theorem firstOn_after {d e : Date} (hne : e ≠ d) (rows : List (Close Float)) :
    firstOn (dropRepeats.after e rows) d = firstOn rows d := by
  induction rows generalizing e with
  | nil => rfl
  | cons c rows ih =>
    rw [dropRepeats.after]
    split
    · rename_i same
      rw [ih hne, firstOn_cons_of_ne (by rwa [same])]
    · by_cases hc : c.date = d
      · subst hc
        rw [firstOn_cons_self, firstOn_cons_self]
      · rw [firstOn_cons_of_ne hc, firstOn_cons_of_ne hc, ih hc]

theorem firstOn_dropRepeats (rows : List (Close Float)) (d : Date) :
    firstOn (dropRepeats rows) d = firstOn rows d := by
  cases rows with
  | nil => rfl
  | cons c rows =>
    rw [dropRepeats]
    by_cases hc : c.date = d
    · subst hc
      rw [firstOn_cons_self, firstOn_cons_self]
    · rw [firstOn_cons_of_ne hc, firstOn_cons_of_ne hc, firstOn_after hc]

/-- What is kept of sorted rows after a date that is not after them comes after it and ascends. -/
theorem ascending_after {e : Date} {rows : List (Close Float)} (late : ∀ c ∈ rows, e ≤ c.date)
    (sorted : rows.Pairwise fun c d => c.date ≤ d.date) :
    (e :: tradingDays (dropRepeats.after e rows)).Pairwise fun a b => a < b := by
  induction rows generalizing e with
  | nil => exact List.pairwise_singleton _ e
  | cons c rows ih =>
    rw [List.forall_mem_cons] at late
    rw [List.pairwise_cons] at sorted
    rw [dropRepeats.after]
    split
    · exact ih late.2 sorted.2
    · rename_i hne
      have rest := ih sorted.1 sorted.2
      have next : e < c.date := by
        by_contra hno
        exact hne (Date.le_antisymm (Date.not_lt.1 hno) late.1)
      refine List.pairwise_cons.2 ⟨fun d hd => ?_, rest⟩
      rcases List.mem_cons.1 hd with rfl | hd
      · exact next
      · exact Int.lt_trans next ((List.pairwise_cons.1 rest).1 d hd)

/-- The closes of rows ascend strictly. -/
theorem ascending_inOrder (rows : List (Close Float)) :
    (tradingDays (inOrder rows)).Pairwise fun a b => a < b := by
  unfold inOrder
  have sorted := pairwise_byDate rows
  cases h : byDate rows with
  | nil => exact List.Pairwise.nil
  | cons c cs =>
    rw [h, List.pairwise_cons] at sorted
    exact ascending_after sorted.1 sorted.2

/-- The closes of rows have the first row of each date. -/
theorem firstOn_inOrder (rows : List (Close Float)) (d : Date) :
    firstOn (inOrder rows) d = firstOn rows d := by
  rw [inOrder, firstOn_dropRepeats, firstOn_byDate]

theorem mem_tradingDays_inOrder {rows : List (Close Float)} {d : Date} :
    d ∈ tradingDays (inOrder rows) ↔ d ∈ tradingDays rows := by
  rw [← exists_firstOn_iff, ← exists_firstOn_iff, firstOn_inOrder]

theorem nodup_inOrder (rows : List (Close Float)) : (tradingDays (inOrder rows)).Nodup :=
  Date.nodup_of_ascending (ascending_inOrder rows)

theorem mem_inOrder_iff {rows : List (Close Float)} {c : Close Float} :
    c ∈ inOrder rows ↔ firstOn rows c.date = some c := by
  rw [← firstOn_inOrder, firstOn_eq_some_iff (nodup_inOrder rows), and_iff_left rfl]

/-- Closes that ascend strictly are determined by which ones they are. -/
theorem eq_of_ascending {cs cs' : List (Close Float)}
    (h : (tradingDays cs).Pairwise fun a b => a < b)
    (h' : (tradingDays cs').Pairwise fun a b => a < b) (same : ∀ c, c ∈ cs ↔ c ∈ cs') :
    cs = cs' := by
  let before (c d : Close Float) : Prop := c.date < d.date
  have : Std.Irrefl before := ⟨fun c => Int.lt_irrefl c.date.day⟩
  have : Std.Antisymm before := ⟨fun c d hcd hdc => absurd hdc (Int.lt_asymm hcd)⟩
  have ascending : cs.Pairwise before := List.pairwise_map.1 h
  exact ascending.eq_of_mem_iff (List.pairwise_map.1 h') same

/-- Without repeats, the order of the rows does not matter. -/
theorem inOrder_of_perm {rows rows' : List (Close Float)} (distinct : (tradingDays rows).Nodup)
    (perm : rows'.Perm rows) : inOrder rows' = inOrder rows := by
  have distinct' : (tradingDays rows').Nodup := (perm.map Close.date).nodup_iff.2 distinct
  apply eq_of_ascending (ascending_inOrder rows') (ascending_inOrder rows)
  intro c
  rw [mem_inOrder_iff, mem_inOrder_iff, firstOn_eq_some_iff distinct,
    firstOn_eq_some_iff distinct', perm.mem_iff]

/-! ## The closes between two days -/

/-- What the closes between two days are, for the rows of a file: they ascend strictly, their dates
are those of the rows between the two days, and each of them is the first row of its date. -/
structure Shows (rows : List (Close Float)) (first last : Date) (cs : List (Close Float)) :
    Prop where
  ascending : (tradingDays cs).Pairwise fun a b => a < b
  dates : ∀ d, d ∈ tradingDays cs ↔ d ∈ tradingDays rows ∧ first ≤ d ∧ d ≤ last
  first : ∀ c ∈ cs, firstOn rows c.date = some c

/-- Sorting and dropping repeats. The closes of the rows between two days are those to be
shown. -/
theorem shows_within (rows : List (Close Float)) (first last : Date) :
    Shows rows first last (PriceSource.within first last (inOrder rows)) where
  ascending := by
    rw [tradingDays_within]
    exact (ascending_inOrder rows).filter _
  dates d := by rw [tradingDays_within, Date.mem_between, mem_tradingDays_inOrder]
  first c hc := mem_inOrder_iff.1 (List.mem_of_mem_filter hc)

theorem Shows.mem_iff {rows cs : List (Close Float)} {first last : Date}
    (h : Shows rows first last cs) {c : Close Float} :
    c ∈ cs ↔ firstOn rows c.date = some c ∧ first ≤ c.date ∧ c.date ≤ last := by
  constructor
  · intro hc
    exact ⟨h.first c hc, ((h.dates c.date).1 (List.mem_map_of_mem hc)).2⟩
  · rintro ⟨hfirst, between⟩
    have day : c.date ∈ tradingDays cs :=
      (h.dates c.date).2 ⟨exists_firstOn_iff.1 ⟨c, hfirst⟩, between⟩
    obtain ⟨d, hd, date⟩ := List.mem_map.1 day
    have same := h.first d hd
    rw [date, hfirst] at same
    exact Option.some.inj same ▸ hd

/-- The closes are determined. There is only one list to be shown. -/
theorem Shows.eq {rows cs cs' : List (Close Float)} {first last : Date}
    (h : Shows rows first last cs) (h' : Shows rows first last cs') : cs = cs' :=
  eq_of_ascending h.ascending h'.ascending fun _ => h.mem_iff.trans h'.mem_iff.symm

/-! ## The extent -/

/-- What the extent of some rows is: nothing without rows, and else the earliest date, the latest
one and the number of different dates. -/
def Extent (rows : List (Close Float)) : Option Span → Prop
  | none => rows = []
  | some span =>
    IsLeast { d | d ∈ tradingDays rows } span.first ∧
      IsGreatest { d | d ∈ tradingDays rows } span.last ∧
      span.count = (tradingDays rows).toFinset.card

/-- The extent is determined. -/
theorem Extent.eq {rows : List (Close Float)} {span span' : Option Span} (h : Extent rows span)
    (h' : Extent rows span') : span = span' := by
  have nonempty : ∀ {s : Span}, Extent rows (some s) → rows ≠ [] := by
    rintro s h rfl
    exact List.not_mem_nil h.1.1
  cases span with
  | none =>
    cases span' with
    | none => rfl
    | some s' => exact absurd h (nonempty h')
  | some s =>
    cases span' with
    | none => exact absurd h' (nonempty h)
    | some s' =>
      obtain ⟨first, last, count⟩ := s
      obtain ⟨first', last', count'⟩ := s'
      obtain ⟨least, greatest, rfl⟩ := h
      obtain ⟨least', greatest', rfl⟩ := h'
      obtain rfl : first = first' := Date.le_antisymm (least.2 least'.1) (least'.2 least.1)
      obtain rfl : last = last' :=
        Date.le_antisymm (greatest'.2 greatest.1) (greatest.2 greatest'.1)
      rfl

theorem length_of_spanOf {cs : List (Close Float)} {span : Span}
    (h : PriceSource.spanOf cs = some span) : cs.length = span.count := by
  cases cs with
  | nil => cases h
  | cons c cs =>
    cases h
    rfl

/-- Closes that ascend span from the first one to the last one. -/
theorem spanOfSorted_eq {cs : List (Close Float)}
    (ascending : (tradingDays cs).Pairwise fun a b => a < b) :
    Folder.spanOfSorted cs = PriceSource.spanOf cs := by
  cases cs with
  | nil => rfl
  | cons c cs =>
    obtain ⟨⟨first, last, count⟩, hspan, hfirst, hlast⟩ :=
      PriceSource.exists_spanOf ascending (List.cons_ne_nil c cs)
    rw [tradingDays, List.getLast?_map, Option.map_eq_some_iff] at hlast
    obtain ⟨d, hd, rfl⟩ := hlast
    obtain rfl : c.date = first := Option.some.inj hfirst
    obtain rfl : (c :: cs).length = count := length_of_spanOf hspan
    rw [hspan, Folder.spanOfSorted, hd]
    rfl

/-- The extent. What the closes of rows span is the extent of the rows. -/
theorem extent_spanOf (rows : List (Close Float)) :
    Extent rows (PriceSource.spanOf (inOrder rows)) := by
  have ascending := ascending_inOrder rows
  by_cases none : inOrder rows = []
  · rw [none]
    show rows = []
    rw [← List.map_eq_nil_iff (f := Close.date), List.eq_nil_iff_forall_not_mem]
    intro d hd
    have kept := mem_tradingDays_inOrder.2 hd
    rw [none] at kept
    exact List.not_mem_nil kept
  · obtain ⟨⟨first, last, count⟩, hspan, hfirst, hlast⟩ :=
      PriceSource.exists_spanOf ascending none
    rw [hspan]
    refine ⟨⟨?_, fun d hd => ?_⟩, ⟨?_, fun d hd => ?_⟩, ?_⟩
    · exact mem_tradingDays_inOrder.1 (List.mem_of_head? hfirst)
    · exact Date.le_of_head? ascending hfirst (mem_tradingDays_inOrder.2 hd)
    · exact mem_tradingDays_inOrder.1 (List.mem_of_getLast? hlast)
    · exact Date.le_of_getLast? ascending hlast (mem_tradingDays_inOrder.2 hd)
    · have same : (tradingDays (inOrder rows)).toFinset = (tradingDays rows).toFinset := by
        ext d
        rw [List.mem_toFinset, List.mem_toFinset, mem_tradingDays_inOrder]
      rw [← same, List.toFinset_card_of_nodup (nodup_inOrder rows), tradingDays, List.length_map,
        length_of_spanOf hspan]

/-! ## The answers of a folder -/

namespace Folder

variable {f : Folder} {ticker content : String} {rows : List (Close Float)}

theorem closes_eq_ok (hfile : f.file ticker = .text content)
    (hrows : rowsOfText content = .ok rows) : f.closes ticker = .ok (some (inOrder rows)) := by
  rw [closes, hfile]
  show (closesOfText content).map some = _
  rw [closesOfText_eq, hrows]
  rfl

/-- The answers of a folder about a ticker with given closes. -/
theorem answers_of_closes {cs : List (Close Float)} (h : f.closes ticker = .ok (some cs)) :
    (∀ first last, f.source.closes ticker first last = .ok (PriceSource.within first last cs) ∧
      f.source.calendar ticker first last =
        .ok (tradingDays (PriceSource.within first last cs))) ∧
    f.source.span ticker = .ok (spanOfSorted cs) := by
  simp only [source, h]
  exact ⟨fun _ _ => ⟨rfl, rfl⟩, rfl⟩

/-- **Main theorem: the views of a file agree.** Let all rows of a ticker's file be readable. Then
the closes between two days are those to be shown, the trading days between them are the dates of
these closes, and the extent is that of the rows. If no date repeats, a file with the rows in
another order gives the same three answers. -/
theorem views_agree (hfile : f.file ticker = .text content)
    (hrows : rowsOfText content = .ok rows) :
    (∀ first last, ∃ cs, f.source.closes ticker first last = .ok cs ∧ Shows rows first last cs ∧
      f.source.calendar ticker first last = .ok (tradingDays cs)) ∧
    (∃ span, f.source.span ticker = .ok span ∧ Extent rows span) ∧
    ((tradingDays rows).Nodup → ∀ (g : Folder) (other content' : String),
      g.file other = .text content' → Rearranges content' content →
      (∀ first last,
        g.source.closes other first last = f.source.closes ticker first last ∧
        g.source.calendar other first last = f.source.calendar ticker first last) ∧
      g.source.span other = f.source.span ticker) := by
  obtain ⟨views, extent⟩ := answers_of_closes (closes_eq_ok hfile hrows)
  refine ⟨fun first last => ⟨_, (views first last).1, shows_within rows first last,
    (views first last).2⟩, ⟨_, extent, ?_⟩, ?_⟩
  · rw [spanOfSorted_eq (ascending_inOrder rows)]
    exact extent_spanOf rows
  · intro distinct g other content' hfile' rearranges
    obtain ⟨rows', hrows', perm⟩ := rowsOfText_of_rearranges rearranges hrows
    have same := closes_eq_ok hfile' hrows'
    rw [inOrder_of_perm distinct perm] at same
    obtain ⟨views', extent'⟩ := answers_of_closes same
    refine ⟨fun first last => ⟨?_, ?_⟩, extent'.trans extent.symm⟩
    · exact (views' first last).1.trans (views first last).1.symm
    · exact (views' first last).2.trans (views first last).2.symm

deriving instance DecidableEq for Close

/-- A file with its rows out of order and two of them for one date. -/
def untidyText : String := "date,close\n2024-01-03,12\n2024-01-02,11\n2024-01-03,13\n"

/-- A folder with this file only. -/
def untidyFolder : Folder where
  path := "data"
  file ticker := if ticker = "SPY" then .text untidyText else .missing
  names := .ok ["SPY.csv"]

/-- 2 January 2024. -/
def secondDay : Date := ⟨19724, by decide⟩

/-- 3 January 2024. -/
def thirdDay : Date := ⟨19725, by decide⟩

theorem views_agree_untidyFolder :
    untidyFolder.source.closes "SPY" secondDay thirdDay =
      .ok [⟨secondDay, 11⟩, ⟨thirdDay, 12⟩] ∧
    untidyFolder.source.calendar "SPY" secondDay thirdDay = .ok [secondDay, thirdDay] ∧
    untidyFolder.source.span "SPY" = .ok (some ⟨secondDay, thirdDay, 2⟩) := by
  let rows : List (Close Float) := [⟨thirdDay, 12⟩, ⟨secondDay, 11⟩, ⟨thirdDay, 13⟩]
  have file : untidyFolder.file "SPY" = .text untidyText := by simp [untidyFolder]
  have reads : rowsOfText untidyText = .ok rows := by decide +kernel
  have days : ∀ d ∈ tradingDays rows, secondDay ≤ d ∧ d ≤ thirdDay := by decide
  have tidy : Shows rows secondDay thirdDay [⟨secondDay, 11⟩, ⟨thirdDay, 12⟩] := by
    refine ⟨by decide, fun d => ⟨fun hd => ?_, fun hd => ?_⟩, by decide +kernel⟩
    · rcases List.mem_pair.1 hd with rfl | rfl <;> decide
    · have hd : d ∈ [thirdDay, secondDay, thirdDay] := hd.1
      show d ∈ [secondDay, thirdDay]
      rcases List.mem_cons.1 hd with rfl | hd
      · decide
      · exact hd
  have wide : Extent rows (some ⟨secondDay, thirdDay, 2⟩) :=
    ⟨⟨by decide, fun d hd => (days d hd).1⟩, ⟨by decide, fun d hd => (days d hd).2⟩, by decide⟩
  obtain ⟨views, ⟨span, hspan, extent⟩, -⟩ := views_agree file reads
  obtain ⟨cs, hcs, shows', calendar⟩ := views secondDay thirdDay
  obtain rfl := shows'.eq tidy
  obtain rfl := extent.eq wide
  exact ⟨hcs, calendar, hspan⟩

/-- The promises of a source. A folder in which every file has readable rows serves their
closes; tickers without a file have none. -/
theorem serves_source {rows : String → List (Close Float)}
    (h : ∀ x, f.file x = .missing ∧ rows x = [] ∨
      ∃ content, f.file x = .text content ∧ rowsOfText content = .ok (rows x)) :
    f.source.Serves fun x => inOrder (rows x) := by
  have closes : ∀ x, f.closes x = .ok none ∧ inOrder (rows x) = [] ∨
      f.closes x = .ok (some (inOrder (rows x))) := by
    intro x
    rcases h x with ⟨missing, none⟩ | ⟨content, hfile, hrows⟩
    · exact .inl ⟨by rw [Folder.closes, missing], by rw [none, inOrder_nil]⟩
    · exact .inr (closes_eq_ok hfile hrows)
  refine ⟨fun x => ascending_inOrder (rows x), fun x first last => ?_,
    fun x hne first last => ?_, fun x => ?_⟩
  · rcases closes x with ⟨hc, none⟩ | hc
    · simp only [source, hc, none]
      rfl
    · exact ((answers_of_closes hc).1 first last).1
  · rcases closes x with ⟨-, none⟩ | hc
    · exact absurd none hne
    · rw [← tradingDays_within]
      exact ((answers_of_closes hc).1 first last).2
  · rw [← spanOfSorted_eq (ascending_inOrder (rows x))]
    rcases closes x with ⟨hc, none⟩ | hc
    · simp only [source, hc, none]
      rfl
    · exact (answers_of_closes hc).2

end Folder

end StrategyTree.Csv
