import Mathlib.Data.List.Forall2
import Mathlib.Data.List.Nodup
import StrategyTree.Keyed

/-!
# Lookups in sorted maps

What a lookup finds after many changes at once, and how the largest of a list of numbers is
compared with a bound.

* `SortedMap.get?_insertAll_of_mem`, `SortedMap.get?_insertAll_of_not_mem`: lookups after a list of
  entries with different keys was put in.
* `SortedMap.get?_insertAll_of_unique`: and after one in which a key may stand several times.
* `SortedMap.mem_keys_insertAll`: the keys after that.
* `SortedMap.mem_before_iff`: the entries before another one.
* `SortedMap.mapValues_insert`, `SortedMap.mapValues_erase`: changes of the images of a map.
* `SortedMap.map_get?_insertAll`: what two maps show of a key after many changes.
* `foldl_max_le_iff`: the largest of a list stays below a bound iff every member does.
-/

namespace StrategyTree

/-! ## The largest of a list -/

theorem foldl_max_le_iff {xs : List Nat} {m : Nat} :
    xs.foldl max 0 ≤ m ↔ ∀ x ∈ xs, x ≤ m := by
  have general : ∀ (xs : List Nat) (a : Nat), xs.foldl max a ≤ m ↔ a ≤ m ∧ ∀ x ∈ xs, x ≤ m := by
    intro xs
    induction xs with
    | nil => intro a; simp
    | cons x xs ih =>
      intro a
      rw [List.foldl_cons, ih, List.forall_mem_cons, Nat.max_le, and_assoc]
  rw [general]
  exact and_iff_right (Nat.zero_le m)

/-- Numbers that stay below the same bounds are equal. -/
theorem eq_of_le_iff {a b : Nat} (h : ∀ m, a ≤ m ↔ b ≤ m) : a = b :=
  Nat.le_antisymm ((h b).2 (Nat.le_refl b)) ((h a).1 (Nat.le_refl a))

/-! ## Maps -/

namespace SortedMap

variable {κ ν μ : Type} [KeyOrder κ]

theorem nodup_keys (m : SortedMap κ ν) : m.keys.Nodup := by
  rw [keys, List.Nodup, List.pairwise_map]
  exact m.ascending.imp KeyOrder.ne_of_lt

theorem mem_values {m : SortedMap κ ν} {v : ν} : v ∈ m.values ↔ ∃ k, m.get? k = some v := by
  rw [values, List.mem_map]
  constructor
  · rintro ⟨⟨k, v⟩, h, rfl⟩
    exact ⟨k, get?_eq_some_iff.2 h⟩
  · rintro ⟨k, h⟩
    exact ⟨(k, v), get?_eq_some_iff.1 h, rfl⟩

theorem mem_keys_of_get? {m : SortedMap κ ν} {k : κ} {v : ν} (h : m.get? k = some v) :
    k ∈ m.keys :=
  List.mem_map.2 ⟨(k, v), get?_eq_some_iff.1 h, rfl⟩

theorem get?_eq_none_iff {m : SortedMap κ ν} {k : κ} : m.get? k = none ↔ k ∉ m.keys := by
  rw [← contains_iff_mem_keys, contains]
  simp

/-- The entries of a map before one of them are those with smaller keys. -/
theorem mem_before_iff {m : SortedMap κ ν} {before after : List (κ × ν)} {k : κ} {v : ν}
    (h : m.entries = before ++ (k, v) :: after) {e : κ × ν} :
    e ∈ before ↔ e ∈ m.entries ∧ e.1 < k := by
  have ascending := m.ascending
  rw [h, List.pairwise_append, List.pairwise_cons] at ascending
  obtain ⟨-, ⟨later, -⟩, earlier⟩ := ascending
  rw [h]
  constructor
  · intro he
    exact ⟨List.mem_append_left _ he, earlier e he (k, v) List.mem_cons_self⟩
  · rintro ⟨he, hlt⟩
    rcases List.mem_append.1 he with he | he
    · exact he
    · rcases List.mem_cons.1 he with rfl | he
      · exact absurd hlt (KeyOrder.irrefl k)
      · exact absurd hlt (KeyOrder.not_lt_of_lt (later e he))

theorem contains_eq_false_iff {m : SortedMap κ ν} {k : κ} :
    m.contains k = false ↔ m.get? k = none := by
  rw [contains]
  simp

@[simp] theorem keys_mapValues (f : κ → ν → μ) (m : SortedMap κ ν) :
    (m.mapValues f).keys = m.keys := by
  simp [keys, mapValues]

theorem contains_mapValues (f : κ → ν → μ) (m : SortedMap κ ν) (k : κ) :
    (m.mapValues f).contains k = m.contains k := by
  rw [contains, contains, get?_mapValues]
  simp

/-- The keys of a map are determined by their members. -/
theorem keys_eq_of_mem_iff {m : SortedMap κ ν} {n : SortedMap κ μ}
    (h : ∀ k, k ∈ m.keys ↔ k ∈ n.keys) : m.keys = n.keys := by
  have units : (m.mapValues fun _ _ => ()) = n.mapValues fun _ _ => () := by
    apply ext_get?
    intro k
    rw [get?_mapValues, get?_mapValues]
    have hk := h k
    rw [← contains_iff_mem_keys, ← contains_iff_mem_keys, contains, contains] at hk
    cases hm : m.get? k <;> cases hn : n.get? k <;> simp_all
  rw [← keys_mapValues (fun _ _ => ()) m, units, keys_mapValues]

theorem mem_keys_insert {m : SortedMap κ ν} {k j : κ} {v : ν} :
    j ∈ (m.insert k v).keys ↔ j = k ∨ j ∈ m.keys := by
  by_cases h : k = j
  · subst h
    simp [← contains_iff_mem_keys, contains]
  · rw [← contains_iff_mem_keys, ← contains_iff_mem_keys, contains, contains,
      get?_insert_of_ne m v h]
    simp [Ne.symm h]

/-! ## Changes and images -/

theorem mapValues_mapValues {ξ : Type} (g : κ → μ → ξ) (f : κ → ν → μ) (m : SortedMap κ ν) :
    (m.mapValues f).mapValues g = m.mapValues fun k v => g k (f k v) := by
  apply ext_get?
  intro k
  simp [get?_mapValues, Function.comp_def]

theorem mapValues_insert (f : κ → ν → μ) (m : SortedMap κ ν) (k : κ) (v : ν) :
    (m.insert k v).mapValues f = (m.mapValues f).insert k (f k v) := by
  apply ext_get?
  intro j
  rw [get?_mapValues]
  by_cases h : k = j
  · subst h
    rw [get?_insert_self, get?_insert_self, Option.map_some]
  · rw [get?_insert_of_ne _ _ h, get?_insert_of_ne _ _ h, get?_mapValues]

theorem mapValues_erase (f : κ → ν → μ) (m : SortedMap κ ν) (k : κ) :
    (m.erase k).mapValues f = (m.mapValues f).erase k := by
  apply ext_get?
  intro j
  rw [get?_mapValues]
  by_cases h : k = j
  · subst h
    rw [get?_erase_self, get?_erase_self, Option.map_none]
  · rw [get?_erase_of_ne _ h, get?_erase_of_ne _ h, get?_mapValues]

/-! ## Many entries at once -/

theorem insertAll_cons (m : SortedMap κ ν) (e : κ × ν) (es : List (κ × ν)) :
    m.insertAll (e :: es) = (m.insert e.1 e.2).insertAll es := rfl

theorem get?_insertAll_of_not_mem {k : κ} :
    ∀ {es : List (κ × ν)} {m : SortedMap κ ν}, k ∉ es.map Prod.fst →
      (m.insertAll es).get? k = m.get? k := by
  intro es
  induction es with
  | nil => intro m _; rfl
  | cons e es ih =>
    intro m h
    rw [List.map_cons, List.mem_cons, not_or] at h
    rw [insertAll_cons, ih h.2, get?_insert_of_ne m e.2 (Ne.symm h.1)]

theorem get?_insertAll_of_mem {k : κ} {v : ν} :
    ∀ {es : List (κ × ν)} {m : SortedMap κ ν}, (es.map Prod.fst).Nodup → (k, v) ∈ es →
      (m.insertAll es).get? k = some v := by
  intro es
  induction es with
  | nil => intro m _ h; cases h
  | cons e es ih =>
    intro m hn h
    rw [List.map_cons, List.nodup_cons] at hn
    rw [insertAll_cons]
    rcases List.mem_cons.1 h with rfl | h
    · rw [get?_insertAll_of_not_mem hn.1, get?_insert_self]
    · exact ih hn.2 h

/-- Of several entries with one key the last one stays; if all have one value, it is that. -/
theorem get?_insertAll_of_unique {k : κ} {v : ν} :
    ∀ {es : List (κ × ν)} {m : SortedMap κ ν}, (∀ e ∈ es, e.1 = k → e.2 = v) →
      k ∈ es.map Prod.fst ∨ m.get? k = some v → (m.insertAll es).get? k = some v := by
  intro es
  induction es with
  | nil =>
    intro m _ h
    rcases h with h | h
    · cases h
    · exact h
  | cons e es ih =>
    intro m hv h
    rw [List.forall_mem_cons] at hv
    rw [List.map_cons, List.mem_cons] at h
    rw [insertAll_cons]
    apply ih hv.2
    by_cases hk : e.1 = k
    · right
      rw [hk, get?_insert_self, hv.1 hk]
    · rw [get?_insert_of_ne m e.2 hk]
      exact h.imp_left fun h => h.resolve_left (Ne.symm hk)

theorem mem_keys_insertAll {k : κ} :
    ∀ {es : List (κ × ν)} {m : SortedMap κ ν},
      k ∈ (m.insertAll es).keys ↔ k ∈ es.map Prod.fst ∨ k ∈ m.keys := by
  intro es
  induction es with
  | nil => intro m; simp [insertAll]
  | cons e es ih =>
    intro m
    rw [insertAll_cons, ih, mem_keys_insert, List.map_cons, List.mem_cons]
    tauto

/-- Maps that show the same of a key go on to do so after entries that show the same of it. -/
theorem map_get?_insertAll {f : ν → μ} {k : κ} {es₁ es₂ : List (κ × ν)}
    (h : List.Forall₂ (fun e₁ e₂ => e₁.1 = e₂.1 ∧ (e₁.1 = k → f e₁.2 = f e₂.2)) es₁ es₂) :
    ∀ {m₁ m₂ : SortedMap κ ν}, (m₁.get? k).map f = (m₂.get? k).map f →
      ((m₁.insertAll es₁).get? k).map f = ((m₂.insertAll es₂).get? k).map f := by
  induction h with
  | nil =>
    intro m₁ m₂ hm
    exact hm
  | @cons e₁ e₂ es₁ es₂ he _ ih =>
    intro m₁ m₂ hm
    rw [insertAll_cons, insertAll_cons]
    apply ih
    by_cases hk : e₁.1 = k
    · rw [← he.1, hk, get?_insert_self, get?_insert_self, Option.map_some, Option.map_some,
        he.2 hk]
    · rw [get?_insert_of_ne _ _ hk, get?_insert_of_ne _ _ (he.1 ▸ hk), hm]

theorem get?_ofList_of_mem {k : κ} {v : ν} {es : List (κ × ν)} (hn : (es.map Prod.fst).Nodup)
    (h : (k, v) ∈ es) : (ofList es).get? k = some v :=
  get?_insertAll_of_mem hn h

theorem get?_ofList_of_unique {k : κ} {v : ν} {es : List (κ × ν)}
    (hv : ∀ e ∈ es, e.1 = k → e.2 = v) (h : k ∈ es.map Prod.fst) : (ofList es).get? k = some v :=
  get?_insertAll_of_unique hv (.inl h)

theorem mem_keys_ofList {k : κ} {es : List (κ × ν)} :
    k ∈ (ofList es).keys ↔ k ∈ es.map Prod.fst := by
  rw [ofList, mem_keys_insertAll]
  simp [empty, keys]

end SortedMap

/-! ## Sets -/

namespace SortedSet

variable {κ : Type} [KeyOrder κ]

theorem contains_diff {s t : SortedSet κ} {k : κ} :
    (diff s t).contains k = true ↔ s.contains k = true ∧ t.contains k = false := by
  rw [SortedMap.contains_iff_mem_keys, SortedMap.contains_iff_mem_keys]
  simp [SortedMap.keys, diff]

theorem contains_empty (k : κ) : (SortedMap.empty : SortedSet κ).contains k = false := rfl

end SortedSet

end StrategyTree
