import Mathlib.Data.List.Nodup
import Mathlib.Data.List.Pairwise
import StrategyTree.Tree.Basic

/-!
# The walk through a tree

`Node.walk` lists the nodes of a tree, each before the nodes below it, with the number of nodes
above that rank their children. What a tree holds, reads and ranks are lists over its walk.

* `Node.walk_eq`: a node, then the walks of its children.
* `Node.DistinctIds.find_of_mem`: in a tree with distinct ids, every node is found by its id.
* `Node.DistinctIds.parent_mem_walk`: in a tree with distinct ids, whatever has a child strictly
  below a node is in the walk of that node.
-/

namespace StrategyTree

namespace Node

variable {α : Type}

/-! ## Walks -/

/-- The ranking a node consults, if it ranks its children. -/
def ranking? : Node α → Option Ranking
  | split _ _ rule _ => rule.ranking?
  | asset .. | unknown .. | choice .. => none

/-- The depth of the children of a node at a depth. -/
def childDepth (depth : Nat) (n : Node α) : Nat :=
  match n.ranking? with
  | some _ => depth + 1
  | none => depth

mutual

/-- The nodes of a tree at a depth, each before the nodes below it, with their depths. -/
def walk (depth : Nat) : Node α → List (Nat × Node α)
  | asset id weight ticker => [(depth, asset id weight ticker)]
  | unknown id weight => [(depth, unknown id weight)]
  | choice id weight conditions yes no =>
    (depth, choice id weight conditions yes no) :: (walk depth yes ++ walk depth no)
  | split id weight rule children =>
    (depth, split id weight rule children) ::
      walkAll (childDepth depth (split id weight rule children)) children

/-- The nodes of a list of trees at a depth. -/
def walkAll (depth : Nat) : List (Node α) → List (Nat × Node α)
  | [] => []
  | c :: cs => walk depth c ++ walkAll depth cs

end

/-- The nodes of a tree, each before the nodes below it. -/
def nodes (n : Node α) : List (Node α) := (n.walk 0).map Prod.snd

/-- The ids in a tree. -/
def ids (n : Node α) : List String := n.nodes.map id

/-- The ids in a tree are pairwise distinct. -/
def DistinctIds (n : Node α) : Prop := n.ids.Nodup

instance (n : Node α) : Decidable n.DistinctIds := inferInstanceAs (Decidable n.ids.Nodup)

theorem walkAll_eq_flatMap (depth : Nat) (cs : List (Node α)) :
    walkAll depth cs = cs.flatMap (walk depth) := by
  induction cs with
  | nil => rfl
  | cons c cs ih => rw [walkAll, ih, List.flatMap_cons]

/-- A node comes first in its walk, then the walks of its children follow. -/
theorem walk_eq (depth : Nat) (n : Node α) :
    n.walk depth = (depth, n) :: n.children.flatMap (walk (n.childDepth depth)) := by
  cases n with
  | asset id weight ticker => rfl
  | unknown id weight => rfl
  | choice id weight conditions yes no =>
    rw [walk]
    simp [children, childDepth, ranking?]
  | split id weight rule cs =>
    rw [walk, walkAll_eq_flatMap]
    rfl

/-- What holds of every node once it holds of a node whenever it holds of all its children. -/
theorem induction_on_children {P : Node α → Prop} (h : ∀ n, (∀ c ∈ n.children, P c) → P n)
    (n : Node α) : P n := by
  induction n using induction with
  | asset id weight ticker => exact h _ (by simp [children])
  | unknown id weight => exact h _ (by simp [children])
  | choice id weight conditions yes no hy hn =>
    refine h _ fun c hc => ?_
    simp only [children, List.mem_cons, List.not_mem_nil, or_false] at hc
    rcases hc with rfl | rfl
    · exact hy
    · exact hn
  | split id weight rule cs ih => exact h _ ih

/-- The nodes of a walk do not depend on its depth. -/
theorem map_snd_walk (n : Node α) : ∀ depth, (n.walk depth).map Prod.snd = n.nodes := by
  induction n using induction_on_children with
  | h n ih =>
    have step : ∀ d, (n.walk d).map Prod.snd = n :: n.children.flatMap nodes := by
      intro d
      rw [walk_eq, List.map_cons, List.map_flatMap]
      congr 1
      exact List.flatMap_congr fun c hc => ih c hc _
    intro depth
    rw [step, nodes, step]

theorem nodes_eq (n : Node α) : n.nodes = n :: n.children.flatMap nodes := by
  rw [nodes, walk_eq, List.map_cons, List.map_flatMap]
  congr 1
  exact List.flatMap_congr fun c _ => map_snd_walk c _

theorem ids_eq (n : Node α) : n.ids = n.id :: n.children.flatMap ids := by
  rw [ids, nodes_eq, List.map_cons, List.map_flatMap]
  rfl

theorem self_mem_walk (depth : Nat) (n : Node α) : (depth, n) ∈ n.walk depth := by
  rw [walk_eq]
  exact List.mem_cons_self

theorem mem_nodes_of_mem_walk {depth d : Nat} {m n : Node α} (h : (d, m) ∈ n.walk depth) :
    m ∈ n.nodes := by
  rw [← map_snd_walk n depth]
  exact List.mem_map_of_mem h

theorem exists_mem_walk {m n : Node α} (h : m ∈ n.nodes) (depth : Nat) :
    ∃ d, (d, m) ∈ n.walk depth := by
  rw [← map_snd_walk n depth] at h
  obtain ⟨⟨d, m'⟩, h, e⟩ := List.mem_map.1 h
  exact ⟨d, e ▸ h⟩

theorem id_mem_ids {m n : Node α} (h : m ∈ n.nodes) : m.id ∈ n.ids := List.mem_map_of_mem h

/-- The walk of a node in a walk is part of it. -/
theorem walk_subset {m n : Node α} :
    ∀ {depth d : Nat}, (d, m) ∈ n.walk depth → m.walk d ⊆ n.walk depth := by
  induction n using induction_on_children with
  | h n ih =>
    intro depth d h
    rw [walk_eq] at h
    rcases List.mem_cons.1 h with h | h
    · cases h
      exact fun _ h => h
    · obtain ⟨c, hc, h⟩ := List.mem_flatMap.1 h
      intro p hp
      rw [walk_eq]
      exact List.mem_cons_of_mem _ (List.mem_flatMap.2 ⟨c, hc, ih c hc h hp⟩)

/-- The children of a node in a walk are in it, at the depth of its children. -/
theorem child_mem_walk {c m n : Node α} {depth d : Nat} (h : (d, m) ∈ n.walk depth)
    (hc : c ∈ m.children) : (m.childDepth d, c) ∈ n.walk depth := by
  refine walk_subset h ?_
  rw [walk_eq d m]
  exact List.mem_cons_of_mem _ (List.mem_flatMap.2 ⟨c, hc, self_mem_walk _ c⟩)

theorem le_childDepth (d : Nat) (n : Node α) : d ≤ n.childDepth d := by
  unfold childDepth
  split <;> omega

theorem childDepth_of_ranking {n : Node α} {ranking : Ranking} (h : n.ranking? = some ranking)
    (d : Nat) : n.childDepth d = d + 1 := by
  rw [childDepth, h]

/-- Depths grow along a walk. -/
theorem depth_le_of_mem_walk {m n : Node α} :
    ∀ {depth d : Nat}, (d, m) ∈ n.walk depth → depth ≤ d := by
  induction n using induction_on_children with
  | h n ih =>
    intro depth d h
    rw [walk_eq] at h
    rcases List.mem_cons.1 h with h | h
    · cases h
      exact Nat.le_refl depth
    · obtain ⟨c, hc, h⟩ := List.mem_flatMap.1 h
      exact Nat.le_trans (le_childDepth depth n) (ih c hc h)

/-! ## Search -/

theorem findAmong_eq_findSome? (key : String) (cs : List (Node α)) :
    findAmong key cs = cs.findSome? (find key) := by
  induction cs with
  | nil => rfl
  | cons c cs ih =>
    rw [findAmong, List.findSome?_cons, ih]
    cases find key c <;> rfl

theorem find_eq (key : String) (n : Node α) :
    n.find key = if n.id = key then some n else n.children.findSome? (find key) := by
  cases n with
  | asset id weight ticker => rfl
  | unknown id weight => rfl
  | choice id weight conditions yes no =>
    rw [find, children, List.findSome?_cons, List.findSome?_cons, List.findSome?_nil]
    cases find key yes <;> cases find key no <;> rfl
  | split id weight rule cs =>
    rw [find, findAmong_eq_findSome?]
    rfl

theorem findSome?_congr {β γ : Type} {f g : β → Option γ} {bs : List β}
    (h : ∀ b ∈ bs, f b = g b) : bs.findSome? f = bs.findSome? g := by
  induction bs with
  | nil => rfl
  | cons b bs ih =>
    rw [List.findSome?_cons, List.findSome?_cons, h b (by simp),
      ih fun b hb => h b (List.mem_cons_of_mem _ hb)]

/-- Search goes through the nodes in order. -/
theorem find_eq_find? (key : String) (n : Node α) :
    n.find key = n.nodes.find? fun m => m.id == key := by
  induction n using induction_on_children with
  | h n ih =>
    rw [find_eq, nodes_eq, List.find?_cons]
    by_cases hk : n.id = key
    · simp [hk]
    · rw [if_neg hk, List.find?_flatMap]
      simp only [beq_eq_false_iff_ne.2 hk]
      exact findSome?_congr fun c hc => ih c hc

theorem mem_nodes_of_find {key : String} {m n : Node α} (h : n.find key = some m) :
    m ∈ n.nodes := by
  rw [find_eq_find?] at h
  exact List.mem_of_find?_eq_some h

theorem find_isSome_iff {key : String} {n : Node α} :
    (n.find key).isSome = true ↔ key ∈ n.ids := by
  rw [find_eq_find?, List.find?_isSome, ids, List.mem_map]
  simp

/-! ## Below a node -/

/-- The ids strictly below a node. -/
def idsBelow (n : Node α) : List String := n.children.flatMap ids

theorem mem_ids_iff {key : String} {n : Node α} : key ∈ n.ids ↔ key = n.id ∨ key ∈ n.idsBelow := by
  rw [ids_eq, List.mem_cons, idsBelow]

/-- The nodes of a node in a tree are nodes of the tree. -/
theorem nodes_subset {m n : Node α} (h : m ∈ n.nodes) : m.nodes ⊆ n.nodes := by
  obtain ⟨d, hd⟩ := exists_mem_walk h 0
  intro o ho
  obtain ⟨e, he⟩ := exists_mem_walk ho d
  exact mem_nodes_of_mem_walk (walk_subset hd he)

theorem ids_subset {m n : Node α} (h : m ∈ n.nodes) : m.ids ⊆ n.ids :=
  List.map_subset id (nodes_subset h)

theorem self_mem_nodes (n : Node α) : n ∈ n.nodes := mem_nodes_of_mem_walk (self_mem_walk 0 n)

theorem child_mem_nodes {c n : Node α} (hc : c ∈ n.children) : c ∈ n.nodes :=
  mem_nodes_of_mem_walk (child_mem_walk (self_mem_walk 0 n) hc)

/-- A child of a node in a tree stands strictly below the root. -/
theorem exists_child_of_parent {o m c : Node α} (ho : o ∈ m.nodes) (hc : c ∈ o.children) :
    ∃ b ∈ m.children, c ∈ b.nodes := by
  rw [nodes_eq] at ho
  rcases List.mem_cons.1 ho with rfl | ho
  · exact ⟨c, hc, self_mem_nodes c⟩
  · obtain ⟨b, hb, ho⟩ := List.mem_flatMap.1 ho
    exact ⟨b, hb, nodes_subset ho (child_mem_nodes hc)⟩

/-- What holds of every node once it holds of a node whenever it holds of all nodes strictly below
it. -/
theorem induction_below {P : Node α → Prop}
    (h : ∀ n, (∀ c ∈ n.children, ∀ m ∈ c.nodes, P m) → P n) (n : Node α) : P n := by
  have all : ∀ m ∈ n.nodes, P m := by
    induction n using induction_on_children with
    | h n ih =>
      rw [nodes_eq, List.forall_mem_cons]
      refine ⟨h n ih, fun m hm => ?_⟩
      obtain ⟨c, hc, hm⟩ := List.mem_flatMap.1 hm
      exact ih c hc m hm
  exact all n (self_mem_nodes n)

/-! ## Trees with distinct ids -/

namespace DistinctIds

variable {n : Node α}

theorem id_not_mem_ids (hn : n.DistinctIds) {c : Node α} (hc : c ∈ n.children) : n.id ∉ c.ids := by
  rw [DistinctIds, ids_eq, List.nodup_cons] at hn
  exact fun h => hn.1 (List.mem_flatMap.2 ⟨c, hc, h⟩)

theorem child (hn : n.DistinctIds) {c : Node α} (hc : c ∈ n.children) : c.DistinctIds := by
  rw [DistinctIds, ids_eq, List.nodup_cons, List.nodup_flatMap] at hn
  exact hn.2.1 c hc

theorem of_mem (hn : n.DistinctIds) {m : Node α} (hm : m ∈ n.nodes) : m.DistinctIds := by
  induction n using induction_on_children with
  | h n ih =>
    rw [nodes_eq] at hm
    rcases List.mem_cons.1 hm with rfl | hm
    · exact hn
    · obtain ⟨c, hc, hm⟩ := List.mem_flatMap.1 hm
      exact ih c hc (hn.child hc) hm

/-- Children that share an id are one child. -/
theorem child_unique (hn : n.DistinctIds) {c d : Node α} (hc : c ∈ n.children)
    (hd : d ∈ n.children) {key : String} (h : key ∈ c.ids) (g : key ∈ d.ids) : c = d := by
  rw [DistinctIds, ids_eq, List.nodup_cons, List.nodup_flatMap] at hn
  by_contra hne
  have : Std.Symm (Function.onFun List.Disjoint (ids : Node α → List String)) :=
    ⟨fun _ _ h _ hx hy => h hy hx⟩
  exact hn.2.2.forall hc hd hne h g

/-- A node in the tree is the one found by its id. -/
theorem find_of_mem (hn : n.DistinctIds) {m : Node α} (hm : m ∈ n.nodes) :
    n.find m.id = some m := by
  obtain ⟨o, ho⟩ := Option.isSome_iff_exists.1 (find_isSome_iff.2 (id_mem_ids hm))
  rw [ho]
  exact congrArg some (List.inj_on_of_nodup_map hn (mem_nodes_of_find ho) hm (find_eq_some ho))

/-- A node whose id stands strictly below another node stands there itself. -/
theorem exists_child_of_id (hn : n.DistinctIds) {m c : Node α} (hm : m ∈ n.nodes)
    (hc : c ∈ n.nodes) (h : c.id ∈ m.idsBelow) : ∃ b ∈ m.children, c ∈ b.nodes := by
  obtain ⟨b, hb, hid⟩ := List.mem_flatMap.1 h
  obtain ⟨c', hc', e⟩ := List.mem_map.1 hid
  have within := nodes_subset hm (nodes_subset (child_mem_nodes hb) hc')
  obtain rfl := List.inj_on_of_nodup_map hn within hc e
  exact ⟨b, hb, hc'⟩

/-- No node has the root's id strictly below it. -/
theorem id_not_mem_idsBelow (hn : n.DistinctIds) {m : Node α} (hm : m ∈ n.nodes) :
    n.id ∉ m.idsBelow := by
  rw [nodes_eq] at hm
  intro h
  rcases List.mem_cons.1 hm with rfl | hm
  · rw [DistinctIds, ids_eq, List.nodup_cons] at hn
    exact hn.1 h
  · obtain ⟨c, hc, hm⟩ := List.mem_flatMap.1 hm
    exact hn.id_not_mem_ids hc (ids_subset hm (mem_ids_iff.2 (.inr h)))

/-- Whatever has a child strictly below a node is in the walk of that node. -/
theorem parent_mem_walk (hn : n.DistinctIds) {m o c : Node α} {depth d e : Nat}
    (hm : (d, m) ∈ n.walk depth) (ho : (e, o) ∈ n.walk depth) (hc : c ∈ o.children)
    (h : c.id ∈ m.idsBelow) : (e, o) ∈ m.walk d := by
  induction n using induction_on_children generalizing depth with
  | h n ih =>
    have hw := walk_eq depth n
    rw [hw] at hm
    rcases List.mem_cons.1 hm with hm | hm
    · cases hm
      exact ho
    obtain ⟨c₁, hc₁, hm⟩ := List.mem_flatMap.1 hm
    have hm' := mem_nodes_of_mem_walk hm
    have in₁ : c.id ∈ c₁.ids := ids_subset hm' (mem_ids_iff.2 (.inr h))
    rw [hw] at ho
    rcases List.mem_cons.1 ho with ho | ho
    · -- the root has no child strictly below one of its descendants
      cases ho
      obtain rfl := hn.child_unique hc hc₁ (mem_ids_iff.2 (.inl rfl)) in₁
      exact absurd h ((hn.child hc).id_not_mem_idsBelow hm')
    · obtain ⟨c₂, hc₂, ho⟩ := List.mem_flatMap.1 ho
      have in₂ : c.id ∈ c₂.ids :=
        ids_subset (mem_nodes_of_mem_walk (child_mem_walk ho hc)) (mem_ids_iff.2 (.inl rfl))
      obtain rfl := hn.child_unique hc₁ hc₂ in₁ in₂
      exact ih c₁ hc₁ (hn.child hc₁) hm ho

end DistinctIds

end Node

end StrategyTree
