import Mathlib.Data.List.TakeWhile
import StrategyTree.PriceTable
import StrategyTree.Proofs.Lookup

/-!
# Closes of a price table

Reads of single closes, the first close of a ticker, and the days a run goes through. A ticker that
has a close on every day is `Full`.

* `PriceTable.hasCloses_iff`, `PriceTable.firstIndex_le_iff`: reads in terms of single closes.
* `PriceTable.Full.firstIndex`: a full ticker starts with the first day.
* `PriceTable.daysFrom_eq_range'`: where every day has closes, a run goes on to the last day.
-/

namespace StrategyTree

variable {α : Type}

namespace PriceTable

variable {t : PriceTable α} {x : String}

/-! ## Single closes -/

theorem length_of_get? {closes : List (Option α)} (h : t.series.get? x = some closes) :
    closes.length = t.length :=
  t.aligned (x, closes) (SortedMap.get?_eq_some_iff.1 h)

theorem closeAt?_of_get? {closes : List (Option α)} (h : t.series.get? x = some closes) (i : Nat) :
    t.closeAt? x i = closes[i]?.join := by
  unfold closeAt?
  rw [h]

theorem closeAt?_of_length_le {i : Nat} (h : t.length ≤ i) : t.closeAt? x i = none := by
  cases hx : t.series.get? x with
  | none =>
    unfold closeAt?
    rw [hx]
  | some closes =>
    rw [closeAt?_of_get? hx, List.getElem?_eq_none (length_of_get? hx ▸ h), Option.join_none]

theorem hasCloses_iff {i : Nat} : t.hasCloses i = true ↔ ∃ x, (t.closeAt? x i).isSome = true := by
  unfold hasCloses
  rw [List.any_eq_true]
  constructor
  · rintro ⟨closes, hmem, hsome⟩
    obtain ⟨x, hx⟩ := SortedMap.mem_values.1 hmem
    exact ⟨x, closeAt?_of_get? hx i ▸ hsome⟩
  · rintro ⟨x, hsome⟩
    cases hx : t.series.get? x with
    | none =>
      unfold closeAt? at hsome
      rw [hx] at hsome
      cases hsome
    | some closes =>
      rw [closeAt?_of_get? hx] at hsome
      exact ⟨closes, SortedMap.mem_values.2 ⟨x, hx⟩, hsome⟩

theorem hasCloses_eq_false_iff {i : Nat} :
    t.hasCloses i = false ↔ ∀ x, t.closeAt? x i = none := by
  rw [← Bool.not_eq_true, hasCloses_iff]
  simp

/-- A ticker has had a close by a day iff it has one on that day or on one before. -/
theorem firstIndex_le_iff {m : Nat} (hm : m < t.length) :
    (t.firstIndex? x).getD t.length ≤ m ↔ ∃ i ≤ m, (t.closeAt? x i).isSome = true := by
  unfold firstIndex?
  cases hx : t.series.get? x with
  | none =>
    have none_close : ∀ i, t.closeAt? x i = none := by
      intro i
      unfold closeAt?
      rw [hx]
    constructor
    · intro h
      exact absurd h (Nat.not_le.2 hm)
    · rintro ⟨i, -, hsome⟩
      rw [none_close] at hsome
      cases hsome
  | some closes =>
    have hlen := length_of_get? hx
    show (closes.findIdx? Option.isSome).getD t.length ≤ m ↔ _
    rw [← hlen, ← List.findIdx_eq_getD_findIdx?]
    constructor
    · intro h
      have hlt : closes.findIdx Option.isSome < closes.length := by omega
      refine ⟨_, h, ?_⟩
      rw [closeAt?_of_get? hx, List.getElem?_eq_getElem hlt]
      exact List.findIdx_getElem
    · rintro ⟨i, hi, hsome⟩
      rw [closeAt?_of_get? hx, List.getElem?_eq_getElem (by omega)] at hsome
      by_contra hno
      have before : i < closes.findIdx Option.isSome := by omega
      have hnone := List.not_of_lt_findIdx before
      rw [Option.join_some] at hsome
      rw [hsome] at hnone
      cases hnone

/-! ## Full tickers -/

/-- A ticker has a close on every day. -/
def Full (t : PriceTable α) (x : String) : Prop :=
  ∃ closes, t.series.get? x = some closes ∧ ∀ c ∈ closes, c.isSome = true

/-- A loaded ticker that has a close on every day is full. -/
theorem full_of_get? {closes : List (Option α)} (hx : t.series.get? x = some closes)
    (h : ∀ i < t.length, (t.closeAt? x i).isSome = true) : t.Full x := by
  refine ⟨closes, hx, fun c hc => ?_⟩
  obtain ⟨i, hi, rfl⟩ := List.getElem_of_mem hc
  have hsome := h i (length_of_get? hx ▸ hi)
  rwa [closeAt?_of_get? hx, List.getElem?_eq_getElem hi, Option.join_some] at hsome

/-- A ticker that has a close on every day, of which there is one, is full. -/
theorem full_of_closeAt? (ht : 0 < t.length)
    (h : ∀ i < t.length, (t.closeAt? x i).isSome = true) : t.Full x := by
  cases hx : t.series.get? x with
  | none =>
    have first := h 0 ht
    unfold PriceTable.closeAt? at first
    rw [hx] at first
    cases first
  | some closes => exact full_of_get? hx h

/-- The closes of a full ticker are prices. -/
theorem Full.exists_prices (h : t.Full x) :
    ∃ prices : List α, t.series.get? x = some (prices.map some) ∧ prices.length = t.length := by
  obtain ⟨closes, hget, hsome⟩ := h
  have prices : (closes.filterMap id).map some = closes := by
    clear hget
    induction closes with
    | nil => rfl
    | cons c closes ih =>
      rw [List.forall_mem_cons] at hsome
      obtain ⟨price, rfl⟩ := Option.isSome_iff_exists.1 hsome.1
      exact congrArg (some price :: ·) (ih hsome.2)
  refine ⟨closes.filterMap id, by rw [prices, hget], ?_⟩
  rw [← length_of_get? hget, ← congrArg List.length prices, List.length_map]

theorem Full.closeAt? (h : t.Full x) {i : Nat} (hi : i < t.length) :
    (t.closeAt? x i).isSome = true := by
  obtain ⟨closes, hget, hsome⟩ := h
  have hlen := length_of_get? hget
  rw [closeAt?_of_get? hget, List.getElem?_eq_getElem (by omega), Option.join_some]
  exact hsome _ (List.getElem_mem _)

/-- A full ticker starts with the first day. -/
theorem Full.firstIndex (h : t.Full x) (ht : 0 < t.length) :
    (t.firstIndex? x).getD t.length = 0 := by
  have first := (firstIndex_le_iff (x := x) ht).2 ⟨0, Nat.le_refl 0, h.closeAt? ht⟩
  omega

theorem Full.hasCloses (h : t.Full x) {i : Nat} (hi : i < t.length) : t.hasCloses i = true :=
  hasCloses_iff.2 ⟨x, h.closeAt? hi⟩

/-- Where every day has closes, the days of a run go on to the last one. -/
theorem daysFrom_eq_range' (h : ∀ i < t.length, t.hasCloses i = true) (start : Nat) :
    t.daysFrom start = List.range' start (t.length - start) := by
  unfold daysFrom
  rw [List.takeWhile_eq_self_iff]
  intro i hi
  rw [List.mem_range'_1] at hi
  exact h i (by omega)

end PriceTable

end StrategyTree
