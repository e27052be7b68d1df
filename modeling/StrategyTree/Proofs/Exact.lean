import Mathlib.Algebra.BigOperators.Group.Finset.Basic
import Mathlib.Algebra.Order.Field.Basic
import Mathlib.Tactic.NormNum
import StrategyTree.Proofs.Lookup
import StrategyTree.Scalar

/-!
# Exact arithmetic

The engine on the numbers of an ordered field, such as the rationals, on which no operation rounds.
A field has no square roots and no powers of its own, so these two are given from outside. Of the
statements below none depends on them.

* `Exact.scalar`: exact numbers as numbers of the engine.
* `SortedMap.sum_values_eq`: a sum over the values of a map as a sum over a list of keys.
* `SortedMap.sum_values_insert`, `SortedMap.sum_values_erase`, `SortedMap.sum_values_change`: how a
  change of a map changes it.
-/

namespace StrategyTree

/-- A square root and a power, of which nothing is asked. -/
class Roots (K : Type) where
  sqrt : K → K
  pow : K → K → K

namespace Exact

variable {K : Type} [Field K] [LinearOrder K] [Roots K]

/-- Exact numbers: every one is finite and can be the first of a series of peaks. -/
instance scalar : Scalar K where
  ofNat n := n
  tenToMinus n := (10 ^ n)⁻¹
  abs x := |x|
  sqrt := Roots.sqrt
  pow := Roots.pow
  isFinite _ := true
  opensPeak _ := true
  emptySum := 0
  rankLe x y := x ≤ y

@[simp] theorem zero_eq : (Scalar.zero : K) = 0 := Nat.cast_zero

theorem zero_lt_iff {x : K} : Scalar.zero < x ↔ 0 < x := by rw [zero_eq]

@[simp] theorem one_eq : (Scalar.one : K) = 1 := Nat.cast_one

@[simp] theorem hundred_eq : (Scalar.hundred : K) = 100 := by
  show ((100 : ℕ) : K) = 100
  norm_num

@[simp] theorem abs_eq (x : K) : Scalar.abs x = |x| := rfl

theorem atLeast_iff {x bound : K} : Scalar.atLeast x bound = true ↔ bound ≤ x := by
  unfold Scalar.atLeast
  rw [Bool.or_eq_true, decide_eq_true_iff, beq_iff_eq, le_iff_lt_or_eq, eq_comm]

theorem sum_eq (xs : List K) : Scalar.sum xs = xs.sum := by
  rw [List.sum_eq_foldl]
  rfl

end Exact

/-! ## Sums over maps -/

/-- The sum over the values of a map is the sum over any list that has its keys, if the other
members of the list contribute nothing. -/
theorem SortedMap.sum_values_eq {M ν : Type} [AddCommMonoid M] {m : SortedMap String ν}
    {f : ν → M} {g : String → M} {keys : List String} (hn : keys.Nodup)
    (hsub : ∀ x ∈ m.keys, x ∈ keys) (hg : ∀ x v, m.get? x = some v → f v = g x)
    (hzero : ∀ x ∈ keys, m.get? x = none → g x = 0) :
    (m.values.map f).sum = (keys.map g).sum := by
  have entries : m.values.map f = m.keys.map g := by
    unfold SortedMap.values SortedMap.keys
    rw [List.map_map, List.map_map]
    apply List.map_congr_left
    intro e he
    exact hg e.1 e.2 (SortedMap.get?_eq_some_iff.2 he)
  rw [entries, ← List.sum_toFinset g m.nodup_keys, ← List.sum_toFinset g hn]
  apply Finset.sum_subset
  · intro x hx
    rw [List.mem_toFinset] at hx ⊢
    exact hsub x hx
  · intro x hx hno
    rw [List.mem_toFinset] at hx hno
    exact hzero x hx (SortedMap.get?_eq_none_iff.2 hno)

namespace SortedMap

section Changes

variable {κ ν M : Type} [KeyOrder κ] [AddCommMonoid M] (f : ν → M)

/-- What a key contributes to the sum over the values of a map. -/
def part (m : SortedMap κ ν) (k : κ) : M := ((m.get? k).map f).getD 0

/-- Putting in a value changes the sum by that value, less the one that stood there. -/
theorem sum_values_insert (m : SortedMap κ ν) (k : κ) (v : ν) :
    ((m.insert k v).values.map f).sum + m.part f k = (m.values.map f).sum + f v := by
  have entries : ∀ es : List (κ × ν), (((insertEntry k v es).map Prod.snd).map f).sum +
      ((findEntry k es).map f).getD 0 = ((es.map Prod.snd).map f).sum + f v := by
    intro es
    induction es with
    | nil => simp [insertEntry, findEntry]
    | cons e es ih =>
      obtain ⟨l, w⟩ := e
      rw [insertEntry, findEntry]
      split
      · simp [add_comm]
      · split
        · rw [List.map_cons, List.map_cons, List.sum_cons, add_assoc, ih, List.map_cons,
            List.map_cons, List.sum_cons, add_assoc]
        · simp only [List.map_cons, List.sum_cons, Option.map_some, Option.getD_some]
          rw [add_right_comm, add_comm (f v), add_right_comm]
  exact entries m.entries

/-- Taking out a key changes the sum by the value that stood there. -/
theorem sum_values_erase (m : SortedMap κ ν) (k : κ) :
    ((m.erase k).values.map f).sum + m.part f k = (m.values.map f).sum := by
  have entries : ∀ es : List (κ × ν), (((eraseEntry k es).map Prod.snd).map f).sum +
      ((findEntry k es).map f).getD 0 = ((es.map Prod.snd).map f).sum := by
    intro es
    induction es with
    | nil => simp [eraseEntry, findEntry]
    | cons e es ih =>
      obtain ⟨l, w⟩ := e
      rw [eraseEntry, findEntry]
      split
      · simp
      · split
        · rw [List.map_cons, List.map_cons, List.sum_cons, add_assoc, ih, List.map_cons,
            List.map_cons, List.sum_cons]
        · simp only [List.map_cons, List.sum_cons, Option.map_some, Option.getD_some]
          rw [add_comm]
  exact entries m.entries

end Changes

/-- Changing the values of some keys changes the sum by as much as they change together. -/
theorem sum_values_change {M ν : Type} [AddCommGroup M] (f : ν → M) {m m' : SortedMap String ν}
    {keys : List String} (hn : keys.Nodup) (same : ∀ x ∉ keys, m'.part f x = m.part f x) :
    (m'.values.map f).sum =
      (m.values.map f).sum + (keys.map fun x => m'.part f x - m.part f x).sum := by
  -- both sums and that of the changes go over the same keys
  let all := (m.keys ++ m'.keys ++ keys).dedup
  have hall : all.Nodup := List.nodup_dedup _
  have spread : ∀ n : SortedMap String ν, (∀ x ∈ n.keys, x ∈ all) →
      (n.values.map f).sum = (all.map (n.part f)).sum := by
    intro n hsub
    refine sum_values_eq hall hsub (fun x v hx => ?_) fun x _ hx => ?_
    · rw [part, hx, Option.map_some, Option.getD_some]
    · rw [part, hx, Option.map_none, Option.getD_none]
  have changes : (keys.map fun x => m'.part f x - m.part f x).sum =
      (all.map fun x => m'.part f x - m.part f x).sum := by
    rw [← List.sum_toFinset _ hn, ← List.sum_toFinset _ hall]
    apply Finset.sum_subset
    · intro x hx
      simp only [List.mem_toFinset, all, List.mem_dedup, List.mem_append] at hx ⊢
      exact .inr hx
    · intro x _ hx
      rw [List.mem_toFinset] at hx
      rw [same x hx, sub_self]
  rw [changes, spread m (by simp +contextual [all]), spread m' (by simp +contextual [all]),
    ← List.sum_map_add]
  simp only [add_sub_cancel]

end SortedMap

end StrategyTree
