import Mathlib.Tactic.ByContra
import StrategyTree.Calendar.Search

/-!
# What a search by halving finds

Over a list in which a property holds of the first elements and of no others, `searchFirst` finds
the number of elements with the property.

* `halve_spec`: what is known of the index at which halving ends.
* `searchFirst_le_length`: the search stays within the list.
* `lt_searchFirst_iff`: the indices below the result are those of the elements with the property.
-/

namespace StrategyTree

/-- Halving. If a property of indices holds up to some index only, the search ends at the last
index with the property, or at the first index if there is none. -/
theorem halve_spec {holds : Nat → Bool} (mono : ∀ i j, i ≤ j → holds j = true → holds i = true)
    (base size : Nat) (h : 0 < size) :
    (∀ i, halve holds base size < i → i < base + size → holds i = false) ∧
      (base < halve holds base size → holds (halve holds base size) = true) := by
  fun_induction halve holds base size with
  | case1 base size hsize half ih =>
    obtain ⟨above, found⟩ := ih (by omega)
    have bound := halve_lt holds (if holds (base + half) then base + half else base) (size - half)
      (by omega)
    simp only [dite_eq_ite] at above found
    by_cases hm : holds (base + half) = true
    · rw [if_pos hm] at above found bound ⊢
      refine ⟨fun i hi hlt => above i hi (by omega), fun _ => ?_⟩
      by_cases hend : halve holds (base + half) (size - half) = base + half
      · rw [hend]
        exact hm
      · exact found (by omega)
    · rw [if_neg hm] at above found bound ⊢
      refine ⟨fun i hi hlt => ?_, found⟩
      -- the part that was cut off lies at or after the middle
      by_cases hin : i < base + (size - half)
      · exact above i hi hin
      · rw [← Bool.not_eq_true]
        exact fun hi => hm (mono (base + half) i (by omega) hi)
  | case2 base size hsize =>
    refine ⟨fun i hi hlt => ?_, fun hlt => ?_⟩
    · omega
    · omega

variable {β : Type} {holds : β → Bool} {xs : List β}

theorem searchFirst_le_length (holds : β → Bool) (xs : List β) :
    searchFirst holds xs ≤ xs.length := by
  unfold searchFirst
  dsimp only
  by_cases hlen : 0 < xs.length
  · have stays := halve_lt (fun i => xs[i]?.any holds) 0 xs.length hlen
    split <;> omega
  · have none_left : xs.length = 0 := by omega
    rw [none_left, halve, List.eq_nil_of_length_eq_zero none_left]
    exact Nat.le_refl _

/-- Where the elements with a property come first, all before one of them have it too. -/
theorem any_getElem?_of_le (h : xs.Pairwise fun a b => holds b = true → holds a = true) {i j : Nat}
    (hij : i ≤ j) (hj : xs[j]?.any holds = true) : xs[i]?.any holds = true := by
  rw [Option.any_eq_true] at hj ⊢
  obtain ⟨b, hb, hj⟩ := hj
  obtain ⟨hlt, rfl⟩ := List.getElem?_eq_some_iff.1 hb
  refine ⟨xs[i], List.getElem?_eq_getElem (by omega), ?_⟩
  by_cases e : i = j
  · subst e
    exact hj
  · exact List.pairwise_iff_getElem.1 h i j (by omega) hlt (by omega) hj

/-- A search. If the elements with a property come first, the indices below the result of the
search are those of the elements with the property. -/
theorem lt_searchFirst_iff (h : xs.Pairwise fun a b => holds b = true → holds a = true) {i : Nat} :
    i < searchFirst holds xs ↔ xs[i]?.any holds = true := by
  have mono : ∀ i j : Nat, i ≤ j → xs[j]?.any holds = true → xs[i]?.any holds = true :=
    fun i j hij => any_getElem?_of_le h hij
  have after : ∀ i : Nat, halve (fun i => xs[i]?.any holds) 0 xs.length < i →
      xs[i]?.any holds = false := by
    intro i hi
    by_cases hlen : i < xs.length
    · exact (halve_spec mono 0 xs.length (by omega)).1 i hi (by omega)
    · rw [List.getElem?_eq_none (by omega)]
      rfl
  unfold searchFirst
  dsimp only
  split
  · rename_i hend
    constructor
    · intro hi
      exact mono _ _ (by omega) hend
    · intro hi
      by_contra hno
      rw [after i (by omega)] at hi
      cases hi
  · rename_i hend
    -- the search ends without the property at the first index only
    have start : halve (fun i => xs[i]?.any holds) 0 xs.length = 0 := by
      by_contra hne
      by_cases hlen : 0 < xs.length
      · exact hend ((halve_spec mono 0 xs.length hlen).2 (by omega))
      · have none_left : xs.length = 0 := by omega
        rw [none_left, halve] at hne
        exact hne rfl
    rw [start] at hend ⊢
    constructor
    · intro hi
      omega
    · intro hi
      exact absurd (mono 0 i (Nat.zero_le i) hi) hend

/-- The search finds a number if exactly the elements below it have the property. -/
theorem searchFirst_eq {n : Nat} (h : ∀ i, i < n ↔ xs[i]?.any holds = true)
    (hs : xs.Pairwise fun a b => holds b = true → holds a = true) : searchFirst holds xs = n := by
  have below : ∀ i, i < searchFirst holds xs ↔ i < n := fun i => by rw [lt_searchFirst_iff hs, h]
  have h₁ := below n
  have h₂ := below (searchFirst holds xs)
  omega

end StrategyTree
