import StrategyTree.PriceSource
import StrategyTree.Proofs.Prices.Search

/-!
# Ascending trading days

The trading days of a ticker ascend. So a day of a calendar cuts it into the days before and the
days from it on, and a search for the day finds its index.

* `Date.filter_le_eq_drop`: the days from a day of a calendar on.
* `Date.searchFirst_lt`: the search for a day of a calendar.
* `Date.IsLastBy`: the last day of a calendar up to a limit.
-/

namespace StrategyTree

namespace Date

/-! ## The order of days -/

theorem lt_iff {a b : Date} : a < b ↔ a.day < b.day := Iff.rfl

theorem le_iff {a b : Date} : a ≤ b ↔ a.day ≤ b.day := Iff.rfl

theorem le_refl (a : Date) : a ≤ a := Int.le_refl a.day

theorem le_trans {a b c : Date} (h : a ≤ b) (g : b ≤ c) : a ≤ c := Int.le_trans h g

theorem le_of_lt {a b : Date} (h : a < b) : a ≤ b := Int.le_of_lt h

theorem not_le_of_lt {a b : Date} (h : a < b) : ¬ b ≤ a := Int.not_le.2 h

theorem not_lt {a b : Date} : ¬ a < b ↔ b ≤ a := Int.not_lt

theorem le_of_not_le {a b : Date} (h : ¬ a ≤ b) : b ≤ a := Int.le_of_lt (Int.not_le.1 h)

theorem le_antisymm {a b : Date} (h : a ≤ b) (g : b ≤ a) : a = b := by
  obtain ⟨a, ha⟩ := a
  obtain ⟨b, hb⟩ := b
  have day : a = b := Int.le_antisymm h g
  subst day
  rfl

/-! ### The latest and the earliest of some days -/

theorem max_le_iff {a b m : Date} : max a b ≤ m ↔ a ≤ m ∧ b ≤ m := by
  show (if a ≤ b then b else a) ≤ m ↔ _
  split
  · rename_i h
    exact ⟨fun hm => ⟨le_trans h hm, hm⟩, And.right⟩
  · rename_i h
    exact ⟨fun hm => ⟨hm, le_trans (le_of_not_le h) hm⟩, And.left⟩

theorem le_min_iff {a b m : Date} : m ≤ min a b ↔ m ≤ a ∧ m ≤ b := by
  show m ≤ (if a ≤ b then a else b) ↔ _
  split
  · rename_i h
    exact ⟨fun hm => ⟨hm, le_trans hm h⟩, And.left⟩
  · rename_i h
    exact ⟨fun hm => ⟨le_trans hm (le_of_not_le h), hm⟩, And.right⟩

theorem foldl_max_le_iff {days : List Date} {m : Date} :
    ∀ {a : Date}, days.foldl max a ≤ m ↔ a ≤ m ∧ ∀ d ∈ days, d ≤ m := by
  induction days with
  | nil => simp
  | cons d days ih =>
    intro a
    rw [List.foldl_cons, ih, max_le_iff, List.forall_mem_cons, and_assoc]

theorem le_foldl_min_iff {days : List Date} {m : Date} :
    ∀ {a : Date}, m ≤ days.foldl min a ↔ m ≤ a ∧ ∀ d ∈ days, m ≤ d := by
  induction days with
  | nil => simp
  | cons d days ih =>
    intro a
    rw [List.foldl_cons, ih, le_min_iff, List.forall_mem_cons, and_assoc]

/-- A day is determined by the days it is not after. -/
theorem eq_of_le_iff {a b : Date} (h : ∀ m, a ≤ m ↔ b ≤ m) : a = b :=
  le_antisymm ((h b).2 (le_refl b)) ((h a).1 (le_refl a))

/-- A day is determined by the days that are not after it. -/
theorem eq_of_iff_le {a b : Date} (h : ∀ m, m ≤ a ↔ m ≤ b) : a = b :=
  le_antisymm ((h a).1 (le_refl a)) ((h b).2 (le_refl b))

/-! ## Days in a calendar -/

section Ascending

variable {days : List Date} (h : days.Pairwise fun a b => a < b)

include h

/-- Ascending days do not repeat. -/
theorem nodup_of_ascending : days.Nodup := by
  apply h.imp
  rintro a b before rfl
  exact not_le_of_lt before (le_refl a)

theorem le_of_getElem? {i j : Nat} {a b : Date} (hi : days[i]? = some a) (hj : days[j]? = some b)
    (hij : i ≤ j) : a ≤ b := by
  obtain ⟨hi', rfl⟩ := List.getElem?_eq_some_iff.1 hi
  obtain ⟨hj', rfl⟩ := List.getElem?_eq_some_iff.1 hj
  by_cases e : i = j
  · subst e
    exact le_refl _
  · exact le_of_lt (List.pairwise_iff_getElem.1 h i j hi' hj' (by omega))

theorem lt_of_getElem? {i j : Nat} {a b : Date} (hi : days[i]? = some a) (hj : days[j]? = some b)
    (hij : i < j) : a < b := by
  obtain ⟨hi', rfl⟩ := List.getElem?_eq_some_iff.1 hi
  obtain ⟨hj', rfl⟩ := List.getElem?_eq_some_iff.1 hj
  exact List.pairwise_iff_getElem.1 h i j hi' hj' hij

theorem le_of_head? {a e : Date} (ha : days.head? = some a) (he : e ∈ days) : a ≤ e := by
  obtain ⟨i, hi⟩ := List.mem_iff_getElem?.1 he
  rw [List.head?_eq_getElem?] at ha
  exact le_of_getElem? h ha hi (Nat.zero_le i)

theorem le_head?_iff {a m : Date} (ha : days.head? = some a) : m ≤ a ↔ ∀ d ∈ days, m ≤ d :=
  ⟨fun hm _ hd => le_trans hm (le_of_head? h ha hd), fun hm => hm a (List.mem_of_head? ha)⟩

theorem le_of_getLast? {a e : Date} (ha : days.getLast? = some a) (he : e ∈ days) : e ≤ a := by
  obtain ⟨i, hi⟩ := List.mem_iff_getElem?.1 he
  obtain ⟨hlt, -⟩ := List.getElem?_eq_some_iff.1 hi
  rw [List.getLast?_eq_getElem?] at ha
  exact le_of_getElem? h hi ha (by omega)

theorem getLast?_le_iff {a m : Date} (ha : days.getLast? = some a) : a ≤ m ↔ ∀ d ∈ days, d ≤ m :=
  ⟨fun hm _ hd => le_trans (le_of_getLast? h ha hd) hm, fun hm => hm a (List.mem_of_getLast? ha)⟩

/-- The days of a calendar up to one of its days are those up to its index. -/
theorem mem_take_iff {i : Nat} {d e : Date} (hi : days[i]? = some d) :
    e ∈ days.take (i + 1) ↔ e ∈ days ∧ e ≤ d := by
  constructor
  · intro he
    obtain ⟨j, hj⟩ := List.mem_iff_getElem?.1 he
    obtain ⟨hlt, -⟩ := List.getElem?_eq_some_iff.1 hj
    rw [List.length_take] at hlt
    rw [List.getElem?_take_of_lt (by omega)] at hj
    exact ⟨List.mem_of_getElem? hj, le_of_getElem? h hj hi (by omega)⟩
  · rintro ⟨he, hle⟩
    obtain ⟨j, hj⟩ := List.mem_iff_getElem?.1 he
    have hji : j < i + 1 := by
      by_contra hno
      exact not_le_of_lt (lt_of_getElem? h hi hj (by omega)) hle
    exact List.mem_of_getElem? ((List.getElem?_take_of_lt hji).trans hj)

/-- From a day on. The days of a calendar that are not before one of its days are those from its
index on. -/
theorem filter_le_eq_drop {k : Nat} {d : Date} (hk : days[k]? = some d) :
    (days.filter fun x => decide (d ≤ x)) = days.drop k := by
  have before : (days.take k).filter (fun x => decide (d ≤ x)) = [] := by
    rw [List.filter_eq_nil_iff]
    intro x hx
    obtain ⟨i, hi⟩ := List.mem_iff_getElem?.1 hx
    obtain ⟨hlt, -⟩ := List.getElem?_eq_some_iff.1 hi
    rw [List.length_take] at hlt
    rw [List.getElem?_take_of_lt (by omega)] at hi
    rw [decide_eq_true_eq]
    exact not_le_of_lt (lt_of_getElem? h hi hk (by omega))
  have after : (days.drop k).filter (fun x => decide (d ≤ x)) = days.drop k := by
    rw [List.filter_eq_self]
    intro x hx
    obtain ⟨i, hi⟩ := List.mem_iff_getElem?.1 hx
    rw [List.getElem?_drop] at hi
    rw [decide_eq_true_eq]
    exact le_of_getElem? h hk hi (by omega)
  calc (days.filter fun x => decide (d ≤ x))
      = (days.take k ++ days.drop k).filter fun x => decide (d ≤ x) := by
        rw [List.take_append_drop]
    _ = days.drop k := by rw [List.filter_append, before, after, List.nil_append]

/-- The days before a day come first. -/
theorem pairwise_lt (start : Date) :
    days.Pairwise fun a b => decide (b < start) = true → decide (a < start) = true := by
  apply h.imp
  intro a b hab hb
  rw [decide_eq_true_eq] at hb ⊢
  rw [lt_iff] at hab hb ⊢
  omega

/-- Search for a bound. The search for the first day of a calendar that is not before a day has
passed a position just if the day there is before it. -/
theorem searchFirst_le_iff {i : Nat} {start day : Date} (hi : days[i]? = some day) :
    searchFirst (fun d => decide (d < start)) days ≤ i ↔ start ≤ day := by
  rw [← Nat.not_lt, lt_searchFirst_iff (pairwise_lt h start), hi, Option.any_some,
    decide_eq_true_eq, not_lt]

/-- Search for a day. The search for the first day not before a day of a calendar finds it. -/
theorem searchFirst_lt {k : Nat} {d : Date} (hk : days[k]? = some d) :
    searchFirst (fun x => decide (x < d)) days = k := by
  apply searchFirst_eq
  · intro i
    cases hi : days[i]? with
    | none =>
      rw [List.getElem?_eq_none_iff] at hi
      obtain ⟨hlt, -⟩ := List.getElem?_eq_some_iff.1 hk
      simp only [Option.any_none, Bool.false_eq_true, iff_false]
      omega
    | some x =>
      rw [Option.any_some, decide_eq_true_eq]
      constructor
      · intro hik
        exact lt_of_getElem? h hi hk hik
      · intro hx
        by_contra hno
        exact not_le_of_lt hx (le_of_getElem? h hk hi (by omega))
  · exact pairwise_lt h d

end Ascending

/-! ## The last day up to a limit -/

/-- A day is the last one of some days that is not after a limit. -/
structure IsLastBy (days : List Date) (limit d : Date) : Prop where
  mem : d ∈ days
  le : d ≤ limit
  greatest : ∀ x ∈ days, x ≤ limit → x ≤ d

/-- The days from one day up to another one. -/
def between (first last : Date) (days : List Date) : List Date :=
  days.filter fun d => decide (first ≤ d) && decide (d ≤ last)

theorem mem_between {first last d : Date} {days : List Date} :
    d ∈ between first last days ↔ d ∈ days ∧ first ≤ d ∧ d ≤ last := by
  unfold between
  rw [List.mem_filter, Bool.and_eq_true, decide_eq_true_eq, decide_eq_true_eq]

/-- A later first day leaves fewer of the days. -/
theorem filter_between {first first' last : Date} {days : List Date} (h : first ≤ first') :
    (between first last days).filter (fun d => decide (first' ≤ d)) = between first' last days := by
  unfold between
  rw [List.filter_filter]
  apply List.filter_congr
  intro d _
  rw [Bool.eq_iff_iff]
  simp only [Bool.and_eq_true, decide_eq_true_eq]
  constructor
  · rintro ⟨hd, -, hl⟩
    exact ⟨hd, hl⟩
  · rintro ⟨hd, hl⟩
    exact ⟨hd, le_trans h hd, hl⟩

/-- The last one of the days up to a limit. -/
theorem isLastBy_of_getLast? {days : List Date} (h : days.Pairwise fun a b => a < b)
    {first limit d : Date} (hd : (between first limit days).getLast? = some d) :
    IsLastBy days limit d := by
  have hmem := mem_between.1 (List.mem_of_getLast? hd)
  refine ⟨hmem.1, hmem.2.2, fun x hx hlimit => ?_⟩
  by_cases hfirst : first ≤ x
  · have ascending : (between first limit days).Pairwise fun a b => a < b := h.filter _
    obtain ⟨i, hi⟩ := List.mem_iff_getElem?.1 (mem_between.2 ⟨hx, hfirst, hlimit⟩)
    obtain ⟨hlt, -⟩ := List.getElem?_eq_some_iff.1 hi
    rw [List.getLast?_eq_getElem?] at hd
    exact le_of_getElem? ascending hi hd (by omega)
  · have hle := hmem.2.1
    rw [le_iff] at hfirst hle ⊢
    omega

end Date

/-! ## Trading days -/

variable {α : Type}

/-- The days with a close. -/
def tradingDays (closes : List (Close α)) : List Date := closes.map Close.date

theorem tradingDays_within (first last : Date) (closes : List (Close α)) :
    tradingDays (PriceSource.within first last closes) =
      Date.between first last (tradingDays closes) := by
  unfold tradingDays PriceSource.within Date.between
  rw [List.filter_map]
  rfl

end StrategyTree
