import Mathlib.Data.List.Nodup
import Mathlib.Data.Set.Finite.Lemmas
import StrategyTree.Proofs.Prices.Alignment
import StrategyTree.Proofs.Simulation.Run

/-!
# Which close is carried forward

The axis of a price table is the calendar of one ticker, and another ticker may trade on days that
are not on it. The first and the last close of a ticker bound its series wherever they lie, but
prices are only picked up on the days of the axis: a close between two of them is never seen. So
what a series carries forward is the latest close on the axis, and that is the latest close only
if the latest one lies on the axis. If no close on the axis has been passed yet, the series has
nothing to carry, though the ticker has traded.

* `IsLatest`, `onAxis`: the latest of some closes up to a day, and the closes on an axis.
* `getLast?_priceOn`: the latest price on the axis.
* `align_carries_forward`: the closes of an aligned series, and when they are the latest ones.
-/

namespace StrategyTree

variable {α : Type}

/-- A close is the latest one of some closes that is not after a day. -/
structure IsLatest (closes : List (Close α)) (d : Date) (c : Close α) : Prop where
  mem : c ∈ closes
  le : c.date ≤ d
  greatest : ∀ c' ∈ closes, c'.date ≤ d → c'.date ≤ c.date

/-- The closes of the days of an axis. -/
def onAxis (dates : List Date) (closes : List (Close α)) : List (Close α) :=
  closes.filter fun c => decide (c.date ∈ dates)

/-! ## The latest close -/

section Closes

variable {closes : List (Close α)} {d : Date} {c c' : Close α}

/-- Some close is the latest one, unless all of them are after the day. -/
theorem exists_isLatest (closes : List (Close α)) (d : Date) :
    (∃ c, IsLatest closes d c) ∨ ∀ c ∈ closes, d < c.date := by
  by_cases h : ∃ c ∈ closes, c.date ≤ d
  · have finite : {c | c ∈ closes ∧ c.date ≤ d}.Finite :=
      (List.finite_toSet closes).subset fun c hc => hc.1
    obtain ⟨c, ⟨hc, hle⟩, greatest⟩ := Set.exists_max_image _ (fun c => c.date.day) finite h
    exact .inl ⟨c, hc, hle, fun c' hc' hle' => greatest c' ⟨hc', hle'⟩⟩
  · exact .inr fun c hc => Int.not_le.1 fun hle => h ⟨c, hc, hle⟩

variable (hcloses : (tradingDays closes).Pairwise fun a b => a < b)

include hcloses

/-- A ticker has one close a day. -/
theorem close_eq_of_date_eq (hc : c ∈ closes) (hc' : c' ∈ closes) (h : c.date = c'.date) :
    c = c' :=
  List.inj_on_of_nodup_map (Date.nodup_of_ascending hcloses) hc hc' h

/-- There is one latest close. -/
theorem IsLatest.eq (h : IsLatest closes d c) (h' : IsLatest closes d c') : c = c' :=
  close_eq_of_date_eq hcloses h.mem h'.mem
    (Date.le_antisymm (h'.greatest c h.mem h.le) (h.greatest c' h'.mem h'.le))

theorem priceOn_of_mem (hc : c ∈ closes) : priceOn closes c.date = some c.price := by
  have traded : (priceOn closes c.date).isSome = true :=
    isSome_priceOn_iff.2 (List.mem_map_of_mem hc)
  unfold priceOn at traded ⊢
  cases found : closes.reverse.find? fun x => x.date == c.date with
  | none =>
    rw [found] at traded
    cases traded
  | some x =>
    have mem := List.mem_reverse.1 (List.mem_of_find?_eq_some found)
    have date := List.find?_some found
    rw [Option.map_some, close_eq_of_date_eq hcloses mem hc (beq_iff_eq.1 date)]

end Closes

/-! ## Closes on an axis -/

section Axis

variable {dates : List Date} {closes : List (Close α)} {d : Date} {c : Close α}

theorem mem_onAxis : c ∈ onAxis dates closes ↔ c ∈ closes ∧ c.date ∈ dates := by
  unfold onAxis
  rw [List.mem_filter, decide_eq_true_eq]

/-- The latest close is the latest one on the axis, if it lies on it. -/
theorem IsLatest.of_mem_axis (h : IsLatest closes d c) (hc : c.date ∈ dates) :
    IsLatest (onAxis dates closes) d c :=
  ⟨mem_onAxis.2 ⟨h.mem, hc⟩, h.le, fun c' hc' => h.greatest c' (mem_onAxis.1 hc').1⟩

variable (hdates : dates.Pairwise fun a b => a < b) {i : Nat} (hi : dates[i]? = some d)

include hdates hi

/-- A trading day among the days of the axis up to `d` is that of a close on the axis. -/
theorem exists_mem_onAxis {e : Date} (he : e ∈ dates.take (i + 1))
    (traded : e ∈ tradingDays closes) : ∃ c ∈ onAxis dates closes, c.date = e ∧ c.date ≤ d := by
  obtain ⟨c, hc, rfl⟩ := List.mem_map.1 traded
  obtain ⟨haxis, hle⟩ := (Date.mem_take_iff hdates hi).1 he
  exact ⟨c, mem_onAxis.2 ⟨hc, haxis⟩, rfl, hle⟩

/-- If no close on the axis has been passed, no day up to then has a price. -/
theorem getLast?_priceOn_eq_none (h : ∀ c ∈ onAxis dates closes, d < c.date) :
    ((dates.take (i + 1)).filterMap (priceOn closes)).getLast? = none := by
  rw [List.getLast?_eq_none_iff, List.filterMap_eq_nil_iff]
  intro e he
  rw [← Option.not_isSome_iff_eq_none, isSome_priceOn_iff]
  intro traded
  obtain ⟨c, hc, -, hle⟩ := exists_mem_onAxis hdates hi he traded
  exact Date.not_le_of_lt (h c hc) hle

variable (hcloses : (tradingDays closes).Pairwise fun a b => a < b)

include hcloses

/-- The latest price on the axis. The last of the prices on the days of an axis up to one of them
is that of the latest close on the axis. -/
theorem getLast?_priceOn (h : IsLatest (onAxis dates closes) d c) :
    ((dates.take (i + 1)).filterMap (priceOn closes)).getLast? = some c.price := by
  obtain ⟨hc, haxis⟩ := mem_onAxis.1 h.mem
  obtain ⟨before, after, split⟩ :=
    List.append_of_mem ((Date.mem_take_iff hdates hi).2 ⟨haxis, h.le⟩)
  have ascending : (before ++ c.date :: after).Pairwise fun a b => a < b :=
    split ▸ hdates.sublist (List.take_sublist _ _)
  have unpriced : after.filterMap (priceOn closes) = [] := by
    rw [List.filterMap_eq_nil_iff]
    intro e he
    rw [← Option.not_isSome_iff_eq_none, isSome_priceOn_iff]
    intro traded
    have passed : e ∈ dates.take (i + 1) :=
      split ▸ List.mem_append_right before (List.mem_cons_of_mem c.date he)
    obtain ⟨c', hc', rfl, hle⟩ := exists_mem_onAxis hdates hi passed traded
    have later : c.date < c'.date :=
      (List.pairwise_cons.1 (List.pairwise_append.1 ascending).2.1).1 _ he
    exact Date.not_le_of_lt later (h.greatest c' hc' hle)
  rw [split, List.filterMap_append, List.filterMap_cons_some (priceOn_of_mem hcloses hc), unpriced]
  exact List.getLast?_concat

/-- The close of a day of an aligned series is the latest price on the axis, up to the last
close. -/
theorem getElem?_align_eq : (align dates closes)[i]? = some (if ∃ e ∈ tradingDays closes, d ≤ e
    then ((dates.take (i + 1)).filterMap (priceOn closes)).getLast? else none) := by
  have hlt : i < (align dates closes).length := by
    rw [length_align]
    exact (List.getElem?_eq_some_iff.1 hi).1
  rw [← getElem?_align hdates hcloses hi, List.getElem?_eq_getElem hlt, Option.join_some]

/-- **Main theorem: carrying closes forward.** A series aligned with an axis has no close on the
days before the first close of the ticker and after the last one. In between it has the price of the
latest close on the axis, and none if no close on the axis has been passed. So it has the price of
the latest close exactly if that one lies on the axis, or happens to repeat the price of the latest
one that does. -/
theorem align_carries_forward :
    ((∀ c ∈ closes, d < c.date) ∨ (∀ c ∈ closes, c.date < d) →
      (align dates closes)[i]? = some none) ∧
    ((∃ e ∈ closes, d ≤ e.date) →
      (∀ c, IsLatest (onAxis dates closes) d c →
        (align dates closes)[i]? = some (some c.price)) ∧
      ((∀ c ∈ onAxis dates closes, d < c.date) → (align dates closes)[i]? = some none) ∧
      ∀ c, IsLatest closes d c → ((align dates closes)[i]? = some (some c.price) ↔
        c.date ∈ dates ∨ ∃ c', IsLatest (onAxis dates closes) d c' ∧ c'.price = c.price)) := by
  have aligned := getElem?_align_eq hdates hi hcloses
  refine ⟨?_, fun ⟨e, he, hle⟩ => ?_⟩
  · rintro (before | after)
    · -- no close has been passed, on the axis or not
      rw [aligned, getLast?_priceOn_eq_none hdates hi fun c hc => before c (mem_onAxis.1 hc).1,
        ite_self]
    · rw [aligned, if_neg]
      rintro ⟨_, he, hle⟩
      obtain ⟨c, hc, rfl⟩ := List.mem_map.1 he
      exact Date.not_le_of_lt (after c hc) hle
  · rw [if_pos ⟨e.date, List.mem_map_of_mem he, hle⟩] at aligned
    have carried : ∀ c, IsLatest (onAxis dates closes) d c →
        (align dates closes)[i]? = some (some c.price) := fun c hc =>
      aligned.trans (congrArg some (getLast?_priceOn hdates hi hcloses hc))
    have empty : (∀ c ∈ onAxis dates closes, d < c.date) →
        (align dates closes)[i]? = some none := fun hno =>
      aligned.trans (congrArg some (getLast?_priceOn_eq_none hdates hi hno))
    refine ⟨carried, empty, fun c hc => ⟨fun hprice => .inr ?_, ?_⟩⟩
    · obtain ⟨c', hc'⟩ | hno := exists_isLatest (onAxis dates closes) d
      · rw [carried c' hc', Option.some_inj, Option.some_inj] at hprice
        exact ⟨c', hc', hprice⟩
      · rw [empty hno] at hprice
        cases hprice
    · rintro (haxis | ⟨c', hc', hprice⟩)
      · exact carried c (hc.of_mem_axis haxis)
      · rw [carried c' hc', hprice]

end Axis

/-! ### A close between two days of the axis -/

/-- Closes on three days. -/
def threeCloses : List (Close Nat) := [⟨20000, 10⟩, ⟨20002, 20⟩, ⟨20004, 30⟩]

theorem align_carries_forward_threeCloses :
    (([20000, 20003] : List Date).Pairwise fun a b => a < b) ∧
    ((tradingDays threeCloses).Pairwise fun a b => a < b) ∧
    (align [20000, 20003] threeCloses)[1]? = some (some 10) := by
  have hdates : ([20000, 20003] : List Date).Pairwise fun a b => a < b := by decide
  have hcloses : (tradingDays threeCloses).Pairwise fun a b => a < b := by decide
  have goes_on : ∃ e ∈ threeCloses, (20003 : Date) ≤ e.date := by decide
  have latest : IsLatest (onAxis [20000, 20003] threeCloses) 20003 ⟨20000, 10⟩ :=
    ⟨List.mem_cons_self, by decide, by decide⟩
  exact ⟨hdates, hcloses,
    ((align_carries_forward (i := 1) hdates rfl hcloses).2 goes_on).1 _ latest⟩

/-- A close between two days of the axis is not carried on to the second one, though the ticker goes
on to trade after it; if it is the first one of the ticker, there is none at all. -/
theorem align_skips_close :
    (([20000, 20003] : List Date).Pairwise fun a b => a < b) ∧
    ((tradingDays threeCloses).Pairwise fun a b => a < b) ∧
    IsLatest threeCloses 20003 ⟨20002, 20⟩ ∧ (∃ e ∈ threeCloses, (20003 : Date) ≤ e.date) ∧
    (align [20000, 20003] threeCloses)[1]? ≠ some (some 20) ∧
    IsLatest threeCloses 20001 ⟨20000, 10⟩ ∧
    (align [20001, 20003] threeCloses)[0]? = some none :=
  ⟨by decide, by decide,
    ⟨List.mem_cons_of_mem _ List.mem_cons_self, by decide, by decide⟩, by decide, by decide,
    ⟨List.mem_cons_self, by decide, by decide⟩, by decide⟩

end StrategyTree
