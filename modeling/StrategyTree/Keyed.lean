/-!
# Maps and sets in key order

Tickers, node ids and indicator keys are looked up, counted and listed in ascending order. A
`SortedMap` keeps its entries strictly ascending by key, so that a map has one representation only:

* `SortedMap.get?_insert`, `SortedMap.get?_erase_self`, `SortedMap.get?_erase_of_ne`: what a lookup
  finds after a change.
* `SortedMap.ext_get?`: two maps that agree on every lookup are equal.

A `SortedSet` is a map whose entries carry nothing.
-/

namespace StrategyTree

/-- A strict total order on keys. -/
class KeyOrder (κ : Type) extends LT κ where
  [decideLt : DecidableLT κ]
  irrefl : ∀ a : κ, ¬ a < a
  trans : ∀ {a b c : κ}, a < b → b < c → a < c
  eq_of_not_lt : ∀ {a b : κ}, ¬ a < b → ¬ b < a → a = b

attribute [reducible, instance] KeyOrder.decideLt

namespace KeyOrder

variable {κ : Type} [KeyOrder κ]

@[simp] theorem not_lt_self (a : κ) : ¬ a < a := irrefl a

theorem ne_of_lt {a b : κ} (h : a < b) : a ≠ b := fun e => irrefl b (e ▸ h)

theorem not_lt_of_lt {a b : κ} (h : a < b) : ¬ b < a := fun g => irrefl a (trans h g)

end KeyOrder

instance : KeyOrder String where
  irrefl := String.lt_irrefl
  trans := String.lt_trans
  eq_of_not_lt h g := String.le_antisymm (String.not_lt.1 g) (String.not_lt.1 h)

/-- A map from keys to values with its entries in strictly ascending key order. -/
structure SortedMap (κ ν : Type) [KeyOrder κ] where
  entries : List (κ × ν)
  ascending : entries.Pairwise fun a b => a.1 < b.1

namespace SortedMap

variable {κ ν μ : Type} [KeyOrder κ]

/-! ## Entry lists -/

/-- Puts a value at a key, in place of the value that stood there. -/
def insertEntry (k : κ) (v : ν) : List (κ × ν) → List (κ × ν)
  | [] => [(k, v)]
  | (l, w) :: rest =>
    if k < l then (k, v) :: (l, w) :: rest
    else if l < k then (l, w) :: insertEntry k v rest
    else (k, v) :: rest

/-- Takes a key out. -/
def eraseEntry (k : κ) : List (κ × ν) → List (κ × ν)
  | [] => []
  | (l, w) :: rest =>
    if k < l then (l, w) :: rest
    else if l < k then (l, w) :: eraseEntry k rest
    else rest

/-- The value at a key. -/
def findEntry (k : κ) : List (κ × ν) → Option ν
  | [] => none
  | (l, w) :: rest => if k < l then none else if l < k then findEntry k rest else some w

theorem mem_insertEntry {k : κ} {v : ν} {e : κ × ν} :
    ∀ {es : List (κ × ν)}, e ∈ insertEntry k v es → e = (k, v) ∨ e ∈ es
  | [], h => by simpa [insertEntry] using h
  | (l, w) :: rest, h => by
    unfold insertEntry at h
    split at h
    · simpa using h
    · split at h
      · rcases List.mem_cons.1 h with h | h
        · exact .inr (by simp [h])
        · exact (mem_insertEntry h).imp id (List.mem_cons_of_mem _)
      · exact (List.mem_cons.1 h).imp id (List.mem_cons_of_mem _)

theorem ascending_insertEntry (k : κ) (v : ν) :
    ∀ {es : List (κ × ν)}, es.Pairwise (fun a b => a.1 < b.1) →
      (insertEntry k v es).Pairwise fun a b => a.1 < b.1
  | [], _ => List.pairwise_singleton _ _
  | (l, w) :: rest, h => by
    obtain ⟨hl, hr⟩ := List.pairwise_cons.1 h
    unfold insertEntry
    split
    · rename_i hk
      refine List.pairwise_cons.2 ⟨fun e he => ?_, h⟩
      rcases List.mem_cons.1 he with rfl | he
      · exact hk
      · exact KeyOrder.trans hk (hl e he)
    · split
      · rename_i hk
        refine List.pairwise_cons.2 ⟨fun e he => ?_, ascending_insertEntry k v hr⟩
        rcases mem_insertEntry he with rfl | he
        · exact hk
        · exact hl e he
      · rename_i h₁ h₂
        obtain rfl := KeyOrder.eq_of_not_lt h₁ h₂
        exact List.pairwise_cons.2 ⟨hl, hr⟩

theorem mem_of_mem_eraseEntry {k : κ} {e : κ × ν} :
    ∀ {es : List (κ × ν)}, e ∈ eraseEntry k es → e ∈ es
  | [], h => h
  | (l, w) :: rest, h => by
    unfold eraseEntry at h
    split at h
    · exact h
    · split at h
      · exact (List.mem_cons.1 h).elim (fun e => by simp [e])
          fun h => List.mem_cons_of_mem _ (mem_of_mem_eraseEntry h)
      · exact List.mem_cons_of_mem _ h

theorem ascending_eraseEntry (k : κ) :
    ∀ {es : List (κ × ν)}, es.Pairwise (fun a b => a.1 < b.1) →
      (eraseEntry k es).Pairwise fun a b => a.1 < b.1
  | [], h => h
  | (l, w) :: rest, h => by
    obtain ⟨hl, hr⟩ := List.pairwise_cons.1 h
    unfold eraseEntry
    split
    · exact h
    · split
      · exact List.pairwise_cons.2
          ⟨fun e he => hl e (mem_of_mem_eraseEntry he), ascending_eraseEntry k hr⟩
      · exact hr

theorem findEntry_eq_none_of_lt {k : κ} :
    ∀ {es : List (κ × ν)}, (∀ e ∈ es, k < e.1) → findEntry k es = none
  | [], _ => rfl
  | (l, w) :: rest, h => by rw [findEntry, if_pos (h (l, w) (by simp))]

@[simp] theorem findEntry_cons_self (k : κ) (v : ν) (es : List (κ × ν)) :
    findEntry k ((k, v) :: es) = some v := by
  rw [findEntry, if_neg (KeyOrder.irrefl k), if_neg (KeyOrder.irrefl k)]

theorem findEntry_insertEntry_self (k : κ) (v : ν) :
    ∀ es : List (κ × ν), findEntry k (insertEntry k v es) = some v
  | [] => by simp [insertEntry]
  | (l, w) :: rest => by
    unfold insertEntry
    split
    · simp
    · split
      · rename_i h
        rw [findEntry, if_neg (KeyOrder.not_lt_of_lt h), if_pos h,
          findEntry_insertEntry_self k v rest]
      · simp

theorem findEntry_insertEntry_of_ne {k j : κ} (h : k ≠ j) (v : ν) :
    ∀ es : List (κ × ν), findEntry j (insertEntry k v es) = findEntry j es
  | [] => by
    show (if j < k then none else if k < j then none else some v) = none
    split
    · rfl
    · split
      · rfl
      · rename_i h₁ h₂
        exact absurd (KeyOrder.eq_of_not_lt h₂ h₁) h
  | (l, w) :: rest => by
    unfold insertEntry
    split
    · rename_i hk
      rw [findEntry]
      split
      · rename_i hj
        rw [findEntry, if_pos (KeyOrder.trans hj hk)]
      · split
        · rfl
        · rename_i h₁ h₂
          exact absurd (KeyOrder.eq_of_not_lt h₂ h₁) h
    · split
      · rw [findEntry, findEntry, findEntry_insertEntry_of_ne h v rest]
      · rename_i h₁ h₂
        obtain rfl := KeyOrder.eq_of_not_lt h₁ h₂
        rw [findEntry, findEntry]
        split
        · rfl
        · split
          · rfl
          · rename_i h₃ h₄
            exact absurd (KeyOrder.eq_of_not_lt h₄ h₃) h

theorem findEntry_eraseEntry_self (k : κ) :
    ∀ {es : List (κ × ν)}, es.Pairwise (fun a b => a.1 < b.1) →
      findEntry k (eraseEntry k es) = none
  | [], _ => rfl
  | (l, w) :: rest, h => by
    obtain ⟨hl, hr⟩ := List.pairwise_cons.1 h
    unfold eraseEntry
    split
    · rename_i hk
      rw [findEntry, if_pos hk]
    · split
      · rename_i hk
        rw [findEntry, if_neg (KeyOrder.not_lt_of_lt hk), if_pos hk,
          findEntry_eraseEntry_self k hr]
      · rename_i h₁ h₂
        obtain rfl := KeyOrder.eq_of_not_lt h₁ h₂
        exact findEntry_eq_none_of_lt hl

theorem findEntry_eraseEntry_of_ne {k j : κ} (h : k ≠ j) :
    ∀ {es : List (κ × ν)}, es.Pairwise (fun a b => a.1 < b.1) →
      findEntry j (eraseEntry k es) = findEntry j es
  | [], _ => rfl
  | (l, w) :: rest, hs => by
    obtain ⟨hl, hr⟩ := List.pairwise_cons.1 hs
    unfold eraseEntry
    split
    · rfl
    · split
      · rw [findEntry, findEntry, findEntry_eraseEntry_of_ne h hr]
      · rename_i h₁ h₂
        obtain rfl := KeyOrder.eq_of_not_lt h₁ h₂
        rw [findEntry]
        split
        · rename_i hj
          exact findEntry_eq_none_of_lt fun e he => KeyOrder.trans hj (hl e he)
        · split
          · rfl
          · rename_i h₃ h₄
            exact absurd (KeyOrder.eq_of_not_lt h₄ h₃) h

/-! ## Maps -/

/-- The map without entries. -/
def empty : SortedMap κ ν := ⟨[], List.Pairwise.nil⟩

instance : EmptyCollection (SortedMap κ ν) := ⟨empty⟩

/-- Puts a value at a key, in place of the value that stood there. -/
def insert (m : SortedMap κ ν) (k : κ) (v : ν) : SortedMap κ ν :=
  ⟨insertEntry k v m.entries, ascending_insertEntry k v m.ascending⟩

/-- Takes a key out. -/
def erase (m : SortedMap κ ν) (k : κ) : SortedMap κ ν :=
  ⟨eraseEntry k m.entries, ascending_eraseEntry k m.ascending⟩

/-- The value at a key. -/
def get? (m : SortedMap κ ν) (k : κ) : Option ν := findEntry k m.entries

/-- Whether a key has a value. -/
def contains (m : SortedMap κ ν) (k : κ) : Bool := (m.get? k).isSome

/-- The keys, ascending. -/
def keys (m : SortedMap κ ν) : List κ := m.entries.map Prod.fst

/-- The values in ascending key order. -/
def values (m : SortedMap κ ν) : List ν := m.entries.map Prod.snd

/-- The number of entries. -/
def size (m : SortedMap κ ν) : Nat := m.entries.length

/-- Applies a function to every value, which may depend on its key. -/
def mapValues (f : κ → ν → μ) (m : SortedMap κ ν) : SortedMap κ μ where
  entries := m.entries.map fun e => (e.1, f e.1 e.2)
  ascending := by simpa [List.pairwise_map] using m.ascending

/-- Puts in a list of entries one after the other, so that a later one wins. -/
def insertAll (m : SortedMap κ ν) (es : List (κ × ν)) : SortedMap κ ν :=
  es.foldl (fun m e => m.insert e.1 e.2) m

/-- The map of a list of entries, of which a later one wins. -/
def ofList (es : List (κ × ν)) : SortedMap κ ν := empty.insertAll es

/-! ## What a lookup finds -/

@[simp] theorem get?_empty (k : κ) : (empty : SortedMap κ ν).get? k = none := rfl

@[simp] theorem get?_insert_self (m : SortedMap κ ν) (k : κ) (v : ν) :
    (m.insert k v).get? k = some v :=
  findEntry_insertEntry_self k v m.entries

theorem get?_insert_of_ne (m : SortedMap κ ν) {k j : κ} (v : ν) (h : k ≠ j) :
    (m.insert k v).get? j = m.get? j :=
  findEntry_insertEntry_of_ne h v m.entries

theorem get?_insert [DecidableEq κ] (m : SortedMap κ ν) (k j : κ) (v : ν) :
    (m.insert k v).get? j = if k = j then some v else m.get? j := by
  split
  · rename_i h
    subst h
    exact get?_insert_self m k v
  · rename_i h
    exact get?_insert_of_ne m v h

@[simp] theorem get?_erase_self (m : SortedMap κ ν) (k : κ) : (m.erase k).get? k = none :=
  findEntry_eraseEntry_self k m.ascending

theorem get?_erase_of_ne (m : SortedMap κ ν) {k j : κ} (h : k ≠ j) :
    (m.erase k).get? j = m.get? j :=
  findEntry_eraseEntry_of_ne h m.ascending

theorem findEntry_mapEntries (f : κ → ν → μ) (k : κ) :
    ∀ es : List (κ × ν),
      findEntry k (es.map fun e => (e.1, f e.1 e.2)) = (findEntry k es).map (f k)
  | [] => rfl
  | (l, w) :: rest => by
    rw [List.map_cons, findEntry, findEntry, findEntry_mapEntries f k rest]
    split
    · rfl
    · split
      · rfl
      · rename_i h₁ h₂
        obtain rfl := KeyOrder.eq_of_not_lt h₁ h₂
        rfl

theorem get?_mapValues (f : κ → ν → μ) (m : SortedMap κ ν) (k : κ) :
    (m.mapValues f).get? k = (m.get? k).map (f k) :=
  findEntry_mapEntries f k m.entries

theorem get?_eq_some_iff {m : SortedMap κ ν} {k : κ} {v : ν} :
    m.get? k = some v ↔ (k, v) ∈ m.entries := by
  obtain ⟨es, h⟩ := m
  simp only [get?]
  induction es with
  | nil => simp [findEntry]
  | cons e rest ih =>
    obtain ⟨l, w⟩ := e
    obtain ⟨hl, hr⟩ := List.pairwise_cons.1 h
    rw [findEntry, List.mem_cons, Prod.mk.injEq]
    split
    · rename_i hk
      refine ⟨fun e => absurd e (by simp), fun e => ?_⟩
      rcases e with ⟨e, -⟩ | e
      · exact absurd e (KeyOrder.ne_of_lt hk)
      · exact absurd (hl _ e) (KeyOrder.not_lt_of_lt hk)
    · split
      · rename_i hk
        rw [ih hr]
        exact ⟨.inr, fun e => e.resolve_left fun e => KeyOrder.ne_of_lt hk e.1.symm⟩
      · rename_i h₁ h₂
        obtain rfl := KeyOrder.eq_of_not_lt h₁ h₂
        rw [Option.some.injEq]
        refine ⟨fun e => .inl ⟨rfl, e.symm⟩, fun e => ?_⟩
        rcases e with ⟨-, e⟩ | e
        · exact e.symm
        · exact absurd (hl _ e) (KeyOrder.irrefl k)

theorem contains_iff_mem_keys {m : SortedMap κ ν} {k : κ} : m.contains k = true ↔ k ∈ m.keys := by
  rw [contains, Option.isSome_iff_exists, keys, List.mem_map]
  constructor
  · rintro ⟨v, h⟩
    exact ⟨(k, v), get?_eq_some_iff.1 h, rfl⟩
  · rintro ⟨⟨l, v⟩, h, rfl⟩
    exact ⟨v, get?_eq_some_iff.2 h⟩

theorem entries_ext {es fs : List (κ × ν)} (he : es.Pairwise fun a b => a.1 < b.1)
    (hf : fs.Pairwise fun a b => a.1 < b.1) (h : ∀ k, findEntry k es = findEntry k fs) :
    es = fs := by
  induction es generalizing fs with
  | nil =>
    cases fs with
    | nil => rfl
    | cons f rest => simpa [findEntry] using h f.1
  | cons e rest ih =>
    obtain ⟨l, w⟩ := e
    cases fs with
    | nil => simpa [findEntry] using h l
    | cons f rest' =>
      obtain ⟨l', w'⟩ := f
      obtain ⟨hl, hr⟩ := List.pairwise_cons.1 he
      obtain ⟨hl', hr'⟩ := List.pairwise_cons.1 hf
      have key : l = l' := by
        refine KeyOrder.eq_of_not_lt (fun hlt => ?_) (fun hlt => ?_)
        · simpa [findEntry, hlt] using h l
        · simpa [findEntry, hlt] using h l'
      subst key
      have val : w = w' := by simpa using h l
      subst val
      congr 1
      refine ih hr hr' fun k => ?_
      have hk := h k
      rw [findEntry, findEntry] at hk
      split at hk
      · rename_i hlt
        rw [findEntry_eq_none_of_lt fun e he => KeyOrder.trans hlt (hl e he),
          findEntry_eq_none_of_lt fun e he => KeyOrder.trans hlt (hl' e he)]
      · split at hk
        · exact hk
        · rename_i h₁ h₂
          obtain rfl := KeyOrder.eq_of_not_lt h₁ h₂
          rw [findEntry_eq_none_of_lt hl, findEntry_eq_none_of_lt hl']

/-- Maps that agree on every lookup are equal. -/
theorem ext_get? {m n : SortedMap κ ν} (h : ∀ k, m.get? k = n.get? k) : m = n := by
  obtain ⟨es, he⟩ := m
  obtain ⟨fs, hf⟩ := n
  obtain rfl := entries_ext he hf h
  rfl

end SortedMap

/-! ## Sets -/

/-- A set of keys in ascending order. -/
abbrev SortedSet (κ : Type) [KeyOrder κ] := SortedMap κ Unit

namespace SortedSet

variable {κ : Type} [KeyOrder κ]

/-- Adds a key. -/
def add (s : SortedSet κ) (k : κ) : SortedSet κ := s.insert k ()

/-- The members, ascending. -/
def toList (s : SortedSet κ) : List κ := s.keys

/-- The set of the members of a list. -/
def ofList (ks : List κ) : SortedSet κ := ks.foldl add SortedMap.empty

/-- The members of one set that are not in another. -/
def diff (s t : SortedSet κ) : SortedSet κ where
  entries := s.entries.filter fun e => !t.contains e.1
  ascending := s.ascending.filter _

theorem contains_add (s : SortedSet κ) (k j : κ) :
    (s.add k).contains j = true ↔ k = j ∨ s.contains j = true := by
  rw [add, SortedMap.contains, SortedMap.contains]
  by_cases h : k = j
  · subst h
    simp
  · simp [SortedMap.get?_insert_of_ne s () h, h]

theorem mem_toList {s : SortedSet κ} {k : κ} : k ∈ s.toList ↔ s.contains k = true :=
  SortedMap.contains_iff_mem_keys.symm

end SortedSet

end StrategyTree
