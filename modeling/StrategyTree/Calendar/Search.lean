/-!
# Search by halving

`searchFirst` looks for the place in a list where a property that holds of its first elements stops
to hold. It halves the range in question and so looks at few elements; where the elements with the
property do not all come first, it still ends at a place between one with it and one without it.

* `halve_lt`: the search stays within the list.
-/

namespace StrategyTree

/-- Narrows a range of `size` indices from `base` on down to one index: the range goes on at its
middle if the property holds there, else it ends there. -/
def halve (holds : Nat → Bool) (base size : Nat) : Nat :=
  if 1 < size then
    let half := size / 2
    halve holds (if holds (base + half) then base + half else base) (size - half)
  else base
termination_by size

/-- The index from which on a property of the first elements of a list no longer holds. -/
def searchFirst {β : Type} (holds : β → Bool) (xs : List β) : Nat :=
  let at_ (i : Nat) : Bool := xs[i]?.any holds
  let i := halve at_ 0 xs.length
  if at_ i then i + 1 else i

theorem halve_lt (holds : Nat → Bool) (base size : Nat) (h : 0 < size) :
    base ≤ halve holds base size ∧ halve holds base size < base + size := by
  fun_induction halve holds base size with
  | case1 base size h₁ half ih =>
    have ih := ih (by omega)
    simp only [dite_eq_ite] at ih
    by_cases hm : holds (base + half) = true
    · rw [if_pos hm] at ih ⊢
      omega
    · rw [if_neg hm] at ih ⊢
      omega
  | case2 base size h₁ => omega

end StrategyTree
