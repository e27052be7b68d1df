import StrategyTree.Proofs.Requirements.Summary

/-!
# Putting a subtree into a group

A `Frame` is a node with a gap for one of its children; frames one within the other lead from the
root of a tree to a position in it. `Grouped` relates a tree to the tree in which the subtree at one
position has been put into a group of its own. Where the node above the position passes weights on
evenly, such a group does not show: the tree requires the same, holds the same tickers, and finds
the same nodes, or nodes that are related themselves.

* `Grouped.ofTree_eq`: requirements.
* `Grouped.tickers_eq`: tickers.
* `Grouped.find`: search.
-/

namespace StrategyTree

/-- Whether a rule gives all children the same part, whatever their weights and statistics. -/
def Rule.sharesEvenly : Rule → Bool
  | .root | .group _ | .equal => true
  | .specified | .inverseVolatility _ | .filter .. => false

namespace Node

variable {α : Type}

/-! ## Frames -/

/-- A node with a gap in place of one child: between two stretches of children of a split, or in
place of either side of a choice. -/
inductive Frame (α : Type) where
  | among (id : String) (weight : Option Fraction) (rule : Rule) (before after : List (Node α))
  | yes (id : String) (weight : Option Fraction) (conditions : Conditions α) (no : Node α)
  | no (id : String) (weight : Option Fraction) (conditions : Conditions α) (yes : Node α)

namespace Frame

/-- The node with its gap filled. -/
def fill : Frame α → Node α → Node α
  | among id weight rule before after, c => split id weight rule (before ++ c :: after)
  | yes id weight conditions n, c => choice id weight conditions c n
  | no id weight conditions y, c => choice id weight conditions y c

/-- The id of the node. -/
def id : Frame α → String
  | among id .. | yes id .. | no id .. => id

/-- The children before the gap. -/
def left : Frame α → List (Node α)
  | among _ _ _ before _ => before
  | yes .. => []
  | no _ _ _ y => [y]

/-- The children after the gap. -/
def right : Frame α → List (Node α)
  | among _ _ _ _ after => after
  | yes _ _ _ n => [n]
  | no .. => []

/-- Whether what fills the gap gets a part that depends neither on its weight nor on its
statistic. -/
def passesOn : Frame α → Bool
  | among _ _ rule _ _ => rule.sharesEvenly
  | yes .. | no .. => true

@[simp] theorem id_fill (f : Frame α) (c : Node α) : (f.fill c).id = f.id := by
  cases f <;> rfl

@[simp] theorem children_fill (f : Frame α) (c : Node α) :
    (f.fill c).children = f.left ++ c :: f.right := by
  cases f <;> rfl

@[simp] theorem ownTickers_fill (f : Frame α) (c : Node α) : (f.fill c).ownTickers = [] := by
  cases f <;> rfl

theorem childDepth_fill (f : Frame α) (c c' : Node α) (depth : Nat) :
    (f.fill c).childDepth depth = (f.fill c').childDepth depth := by
  cases f <;> rfl

end Frame

/-- A node put into a group of its own. -/
def inGroup (key : String) (name : Option String) (n : Node α) : Node α :=
  split key none (.group name) [n]

/-- The second tree is the first one with a group of an id put around the subtree at one
position, below a node that passes on evenly what reaches it. -/
inductive Grouped (key : String) : Node α → Node α → Prop
  | here (f : Frame α) (h : f.passesOn = true) (name : Option String) (c : Node α) :
    Grouped key (f.fill c) (f.fill (c.inGroup key name))
  | within (f : Frame α) {c c' : Node α} (h : Grouped key c c') : Grouped key (f.fill c) (f.fill c')

namespace Grouped

variable {key : String} {n m : Node α}

theorem id_eq (h : Grouped key n m) : n.id = m.id := by
  cases h with
  | here f hf name c => rw [f.id_fill, f.id_fill]
  | within f h => rw [f.id_fill, f.id_fill]

/-! ## Tickers -/

theorem held_eq (h : Grouped key n m) : n.held = m.held := by
  induction h with
  | here f hf name c =>
    have same : (c.inGroup key name).held = c.held := by
      rw [Node.held_eq (c.inGroup key name)]
      exact List.append_nil c.held
    rw [Node.held_eq (f.fill c), Node.held_eq (f.fill _)]
    simp only [f.ownTickers_fill, f.children_fill, List.flatMap_append, List.flatMap_cons, same]
  | within f h ih =>
    rw [Node.held_eq (f.fill _), Node.held_eq (f.fill _)]
    simp only [f.ownTickers_fill, f.children_fill, List.flatMap_append, List.flatMap_cons, ih]

theorem tickers_eq (h : Grouped key n m) : n.tickers = m.tickers := by
  apply SortedSet.ext_contains
  intro x
  rw [mem_held_iff_tickers, mem_held_iff_tickers, h.held_eq]

/-! ## Search -/

/-- Search in a tree with a group. Under an id other than that of the group, both trees find the
same node, or nodes of which the second has the group within it. -/
theorem find (h : Grouped key n m) {k : String} (hk : k ≠ key) :
    n.find k = m.find k ∨
      ∃ a b, n.find k = some a ∧ m.find k = some b ∧ Grouped key a b := by
  induction h with
  | here f hf name c =>
    have same : (c.inGroup key name).find k = c.find k := by
      have other : (c.inGroup key name).id ≠ k := hk.symm
      rw [find_eq k (c.inGroup key name), if_neg other, inGroup, children, List.findSome?_cons]
      cases c.find k <;> rfl
    rw [find_eq k (f.fill c), find_eq k (f.fill _), f.id_fill, f.id_fill]
    by_cases hid : f.id = k
    · rw [if_pos hid, if_pos hid]
      exact .inr ⟨_, _, rfl, rfl, .here f hf name c⟩
    · rw [if_neg hid, if_neg hid]
      simp only [f.children_fill, List.findSome?_append, List.findSome?_cons, same, true_or]
  | @within f c c' h ih =>
    rw [find_eq k (f.fill c), find_eq k (f.fill c'), f.id_fill, f.id_fill]
    by_cases hid : f.id = k
    · rw [if_pos hid, if_pos hid]
      exact .inr ⟨_, _, rfl, rfl, .within f h⟩
    · rw [if_neg hid, if_neg hid]
      simp only [f.children_fill, List.findSome?_append, List.findSome?_cons]
      cases f.left.findSome? (Node.find k) with
      | some a => exact .inl rfl
      | none =>
        rcases ih with e | ⟨a, b, ha, hb, hab⟩
        · rw [e]
          exact .inl rfl
        · rw [ha, hb]
          exact .inr ⟨a, b, rfl, rfl, hab⟩

/-- The ids other than that of the group are the same. -/
theorem mem_ids_iff (h : Grouped key n m) {k : String} (hk : k ≠ key) : k ∈ n.ids ↔ k ∈ m.ids := by
  rw [← find_isSome_iff, ← find_isSome_iff]
  rcases h.find hk with e | ⟨a, b, ha, hb, -⟩
  · rw [e]
  · rw [ha, hb, Option.isSome_some, Option.isSome_some]

end Grouped

end Node

/-! ## Requirements -/

namespace Requirements

variable {α : Type}

/-- What a node asks of its children does not depend on a child of the same id, nor on any child if
the node shares evenly. -/
theorem enter_fill {f : Node.Frame α} {c c' : Node α} (h : f.passesOn = true ∨ c.id = c'.id)
    (depth : Nat) (r : Requirements) : enter r (depth, f.fill c) = enter r (depth, f.fill c') := by
  cases f with
  | among id weight rule before after =>
    simp only [enter, Node.Frame.fill, List.map_append, List.map_cons]
    rcases h with h | h
    · cases rule with
      | root | group _ | equal => rfl
      | specified | inverseVolatility _ | filter _ _ _ => cases h
    · rw [h]
  | yes id weight conditions n => rfl
  | no id weight conditions y => rfl

/-- Nodes that differ in one child require the same where the child does. -/
theorem visit_fill {f : Node.Frame α} {c c' : Node α} (hf : f.passesOn = true ∨ c.id = c'.id)
    (h : ∀ depth r, visit depth r c = visit depth r c') (depth : Nat) (r : Requirements) :
    visit depth r (f.fill c) = visit depth r (f.fill c') := by
  rw [visit_eq, visit_eq, enter_fill hf, f.childDepth_fill c c']
  simp only [f.children_fill, List.foldlM_append, List.foldlM_cons, h]

theorem visit_inGroup (key : String) (name : Option String) (n : Node α) (depth : Nat)
    (r : Requirements) : visit depth r (n.inGroup key name) = visit depth r n := by
  change (visit depth r n >>= fun r => visitAll depth r []) = visit depth r n
  cases visit depth r n <;> rfl

end Requirements

namespace Node.Grouped

variable {α : Type} {key : String} {n m : Node α}

theorem visit_eq (h : Grouped key n m) :
    ∀ depth r, Requirements.visit depth r n = Requirements.visit depth r m := by
  induction h with
  | here f hf name c =>
    exact Requirements.visit_fill (.inl hf) fun depth r =>
      (Requirements.visit_inGroup key name c depth r).symm
  | within f h ih => exact Requirements.visit_fill (.inr h.id_eq) ih

/-- What a tree with a group requires. It is refused as the tree without the group is, or
requires the same. -/
theorem ofTree_eq (h : Grouped key n m) : Requirements.ofTree n = Requirements.ofTree m :=
  h.visit_eq 0 {}

end Node.Grouped

end StrategyTree
