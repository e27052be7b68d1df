import StrategyTree.Indicator
import StrategyTree.ReturnStatistic

/-!
# Strategy trees

A strategy is a tree that routes the whole of a portfolio down to tickers. A node is one of

* an *asset*, which holds what reaches it in its ticker;
* a *split*, which shares what reaches it among its children by a `Rule`;
* a *choice*, which passes it on to one of two nodes, as its conditions say;
* an *unknown* node, of a kind this library does not know, which holds nothing.

Every node has an id and may carry a weight, which counts where its parent shares by weights.

* `Node.induction`: what holds of every node once it holds of a node whenever of its children.
* `Node.find_eq_some`: a node found by its id has that id.
-/

namespace StrategyTree

/-! ## Parts of a node -/

/-- A weight, as a quotient of natural numbers. -/
structure Fraction where
  numerator : Nat
  denominator : Nat
  deriving DecidableEq, Repr

/-- The value of a fraction. -/
def Fraction.ratio {α : Type} [Scalar α] (f : Fraction) : α :=
  Scalar.ofNat f.numerator / Scalar.ofNat f.denominator

/-- How a filter ranks: a statistic of each child's simulated returns over a window. -/
structure Ranking where
  statistic : ReturnStatistic
  window : Nat
  deriving DecidableEq, Repr

/-- Which end of a ranking a filter keeps. -/
inductive Selection where
  | top
  | bottom
  deriving DecidableEq, Repr

/-- How a split shares what reaches it among its children. A root and a group pass all of it to
every child; the others share it evenly, by the children's own weights, in inverse proportion to the
deviation of their simulated returns, or evenly among the first or last children of a ranking. -/
inductive Rule where
  | root
  | group (name : Option String)
  | equal
  | specified
  | inverseVolatility (window : Nat)
  | filter (ranking : Ranking) (select : Selection) (count : Nat)
  deriving DecidableEq, Repr

/-- The ranking a rule consults, if it consults one. -/
def Rule.ranking? : Rule → Option Ranking
  | .inverseVolatility window => some ⟨.standardDeviationReturn, window⟩
  | .filter ranking _ _ => some ranking
  | _ => none

/-- The kind of a node that shares by a rule, as documents call it. -/
def Rule.kind : Rule → String
  | .root => "root"
  | .group _ => "group"
  | .equal => "weight-cash-equal"
  | .specified => "weight-cash-specified"
  | .inverseVolatility _ => "weight-inverse-volatility"
  | .filter .. => "filter"

/-- How the two sides of a condition are compared; `equal` is for sides that differ by next to
nothing. -/
inductive Comparator where
  | greater
  | less
  | equal
  deriving DecidableEq, Repr

/-- How many of a choice's conditions must hold. -/
inductive Quantifier where
  | all
  | any
  deriving DecidableEq, Repr

/-- The right side of a condition. -/
inductive Operand (α : Type) where
  | fixed (value : α)
  | indicator (key : Indicator.Key)
  deriving Repr

/-- A comparison of an indicator with a number or another indicator. -/
structure Condition (α : Type) where
  lhs : Indicator.Key
  comparator : Comparator
  rhs : Operand α
  deriving Repr

/-- The indicators a condition reads, left side first. -/
def Condition.keys {α : Type} (c : Condition α) : List Indicator.Key :=
  match c.rhs with
  | .fixed _ => [c.lhs]
  | .indicator key => [c.lhs, key]

/-- The conditions of a choice. -/
structure Conditions (α : Type) where
  mode : Quantifier
  items : List (Condition α)
  deriving Repr

/-! ## Nodes -/

/-- A strategy tree. An asset holds a ticker and an unknown node nothing; a choice passes everything
to `yes` if its conditions hold, otherwise to `no`; a split shares among its children. -/
inductive Node (α : Type) where
  | asset (id : String) (weight : Option Fraction) (ticker : String)
  | unknown (id : String) (weight : Option Fraction)
  | choice (id : String) (weight : Option Fraction) (conditions : Conditions α)
      (yes no : Node α)
  | split (id : String) (weight : Option Fraction) (rule : Rule) (children : List (Node α))
  deriving Repr

namespace Node

variable {α : Type}

/-- What holds of every node once it holds of a node whenever it holds of its children. -/
theorem induction {P : Node α → Prop}
    (asset : ∀ id weight ticker, P (asset id weight ticker))
    (unknown : ∀ id weight, P (unknown id weight))
    (choice : ∀ id weight conditions yes no, P yes → P no → P (choice id weight conditions yes no))
    (split : ∀ id weight rule children, (∀ c ∈ children, P c) → P (split id weight rule children))
    (n : Node α) : P n :=
  @Node.rec α P (fun cs => ∀ c ∈ cs, P c) asset unknown
    (fun id weight conditions yes no hy hn => choice id weight conditions yes no hy hn)
    (fun id weight rule children h => split id weight rule children h)
    (fun _ h => absurd h List.not_mem_nil)
    (fun _ _ hc hcs c h => (List.mem_cons.1 h).elim (fun e => e ▸ hc) (hcs c)) n

/-- The id of a node. -/
def id : Node α → String
  | asset id .. | unknown id _ | choice id .. | split id .. => id

/-- The weight a node carries. -/
def weight : Node α → Option Fraction
  | asset _ weight _ | unknown _ weight | choice _ weight .. | split _ weight .. => weight

/-- The nodes right below a node, in order; of a choice, `yes` before `no`. -/
def children : Node α → List (Node α)
  | asset .. | unknown .. => []
  | choice _ _ _ yes no => [yes, no]
  | split _ _ _ children => children

/-- The kind of a node, as documents call it. -/
def kind : Node α → String
  | asset .. => "asset"
  | unknown .. => "unknown"
  | choice .. => "if-then-else"
  | split _ _ rule _ => rule.kind

/-- Whether a node ranks its children by a statistic. -/
def ranks : Node α → Bool
  | split _ _ rule _ => rule.ranking?.isSome
  | _ => false

/-! ## Search -/

mutual

/-- The first node with an id, a node before the nodes below it. -/
def find (key : String) : Node α → Option (Node α)
  | asset id weight ticker => if id = key then some (asset id weight ticker) else none
  | unknown id weight => if id = key then some (unknown id weight) else none
  | choice id weight conditions yes no =>
    if id = key then some (choice id weight conditions yes no)
    else (find key yes).or (find key no)
  | split id weight rule children =>
    if id = key then some (split id weight rule children) else findAmong key children

/-- The first node with an id in a list of trees. -/
def findAmong (key : String) : List (Node α) → Option (Node α)
  | [] => none
  | c :: cs => (find key c).or (findAmong key cs)

end

theorem findAmong_eq_some {key : String} {m : Node α} :
    ∀ {cs : List (Node α)}, findAmong key cs = some m → ∃ c ∈ cs, find key c = some m
  | [], h => by simp [findAmong] at h
  | c :: cs, h => by
    rw [findAmong, Option.or_eq_some_iff] at h
    rcases h with h | ⟨_, h⟩
    · exact ⟨c, by simp, h⟩
    · obtain ⟨d, hd, h⟩ := findAmong_eq_some h
      exact ⟨d, List.mem_cons_of_mem _ hd, h⟩

/-- A node found by its id has that id. -/
theorem find_eq_some {key : String} {n m : Node α} (h : find key n = some m) : m.id = key := by
  induction n using induction with
  | asset id weight ticker =>
    rw [find, Option.ite_none_right_eq_some, Option.some.injEq] at h
    rw [← h.2]
    exact h.1
  | unknown id weight =>
    rw [find, Option.ite_none_right_eq_some, Option.some.injEq] at h
    rw [← h.2]
    exact h.1
  | choice id weight conditions yes no hy hn =>
    rw [find] at h
    split at h
    · rename_i e
      rw [← Option.some.inj h]
      exact e
    · rw [Option.or_eq_some_iff] at h
      rcases h with h | ⟨_, h⟩
      · exact hy h
      · exact hn h
  | split id weight rule children ih =>
    rw [find] at h
    split at h
    · rename_i e
      rw [← Option.some.inj h]
      exact e
    · obtain ⟨c, hc, h⟩ := findAmong_eq_some h
      exact ih c hc h

/-! ## Tickers -/

mutual

/-- Adds the tickers held in a tree to a set. -/
def addTickers (s : SortedSet String) : Node α → SortedSet String
  | asset _ _ ticker => s.add ticker
  | unknown .. => s
  | choice _ _ _ yes no => addTickers (addTickers s yes) no
  | split _ _ _ children => addTickersOf s children

/-- Adds the tickers held in a list of trees to a set. -/
def addTickersOf (s : SortedSet String) : List (Node α) → SortedSet String
  | [] => s
  | c :: cs => addTickersOf (addTickers s c) cs

end

/-- The tickers held in a tree. -/
def tickers (n : Node α) : SortedSet String := addTickers SortedMap.empty n

end Node

end StrategyTree
