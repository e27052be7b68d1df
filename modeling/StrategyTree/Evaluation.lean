import StrategyTree.IndicatorTable
import StrategyTree.Settings
import StrategyTree.StatisticTable
import StrategyTree.Tree.Basic

/-!
# Evaluation of a strategy on a day

Evaluation routes a weight down a tree and ends in an `Allocation`: for each ticker the percentage
of the portfolio to hold. The walk carries a state, the indicator readings taken so far and the
weight that each ticker has received; a ticker that is reached on several ways receives their sum.

* `Rule.shares`: which children a split visits, in which order, and with which weights.
* `evaluateNode`: the weights that a node routes to tickers.
* `evaluate`: the allocation of a whole strategy on a day.
-/

namespace StrategyTree

open Scalar

variable {α : Type} [Scalar α]

/-- For each ticker the percentage of the portfolio to hold; `none` is nothing at all. -/
abbrev Allocation (α : Type) := SortedMap String (Option α)

/-- What a node's own weight means where it stands: nothing, or which part of the parent's weight
the node takes. -/
inductive Weighting where
  | equal
  | specified
  deriving DecidableEq, Repr

/-- The weight a node takes of what its parent passes to it. Where weights count, a node without
one takes nothing. -/
def Weighting.take (mode : Weighting) (own : Option Fraction) (passed : α) : Option α :=
  match mode with
  | .equal => some passed
  | .specified => own.map fun f => f.ratio * passed

/-- Whether two numbers stand in the relation of a comparator. Numbers closer than `10⁻⁹` count as
equal. -/
def Comparator.test (c : Comparator) (x y : α) : Bool :=
  match c with
  | .greater => y < x
  | .less => x < y
  | .equal => abs (x - y) < tenToMinus 9

/-! ## How splits share -/

/-- A share of a split: the child it goes to, whether the child's own weight counts, and the
weight. -/
structure Share (β α : Type) where
  child : β
  mode : Weighting
  weight : α

/-- Shares of one and the same weight. -/
def evenly {β : Type} (children : List β) (mode : Weighting) (weight : α) : List (Share β α) :=
  children.map fun c => ⟨c, mode, weight⟩

/-- The volatility that counts for a child: its own, or the floor where that is not a positive
number. -/
def effectiveVolatility (floor volatility : α) : α :=
  if zero < volatility ∧ isFinite volatility then volatility else floor

/-- Children in ascending order of their values; children of one value stay in place. -/
def rankAscending {β : Type} (children : List (α × β)) : List (α × β) :=
  children.mergeSort fun a b => rankLe a.1 b.1

/-- The end of a ranking that a filter keeps. -/
def Selection.keep {β : Type} (s : Selection) (count : Nat) (ranked : List β) : List β :=
  match s with
  | .bottom => ranked.take count
  | .top => ranked.drop (ranked.length - count)

/-- The shares of a split, in the order in which its children are visited. The children's statistics
are read by `statistic`; the first that cannot be read decides. -/
def Rule.shares {β : Type} (rule : Rule) (floor : α) (statistic : β → Except Error α)
    (children : List β) (weight : α) : Except Error (List (Share β α)) :=
  match rule with
  | .root | .group _ => .ok (evenly children .equal weight)
  | .equal => .ok (evenly children .equal (weight / ofNat (max children.length 1)))
  | .specified => .ok (evenly children .specified weight)
  | .inverseVolatility _ => do
    let inverses := (← children.mapM statistic).map fun v => one / effectiveVolatility floor v
    let total := sum inverses
    return List.zipWith (fun c inverse => ⟨c, .equal, inverse / total * weight⟩) children inverses
  | .filter _ select count => do
    let ranked := rankAscending ((← children.mapM statistic).zip children)
    let kept := (select.keep (min count ranked.length) ranked).map Prod.snd
    if kept.isEmpty then return []
    else return evenly kept .equal (weight / ofNat kept.length)

/-! ## The walk -/

/-- What an evaluation consults; `tradeable` are the tickers that an allocation covers. -/
structure Evaluator (α : Type) where
  tradeable : SortedSet String
  indicators : IndicatorTable α
  statistics : StatisticTable α
  settings : Settings α

/-- What an evaluation has gathered: the indicator readings taken, and the weight received by each
ticker. -/
structure Evaluation (α : Type) where
  readings : SortedMap Indicator.Key α := SortedMap.empty
  received : SortedMap String α := SortedMap.empty

/-- A subtree ready to be visited: its id, and what visiting it with a weight gathers. -/
structure Visitor (α : Type) where
  id : String
  visit : Weighting → α → Evaluation α → Except Error (Evaluation α)

namespace Evaluator

variable (e : Evaluator α) (index : Nat)

/-- Takes an indicator reading, or recalls one taken before. -/
def reading (key : Indicator.Key) (s : Evaluation α) : Except Error (α × Evaluation α) :=
  match s.readings.get? key with
  | some x => .ok (x, s)
  | none => do
    let x ← e.indicators.value key index
    return (x, { s with readings := s.readings.insert key x })

/-- Whether a condition holds. -/
def holds (c : Condition α) (s : Evaluation α) : Except Error (Bool × Evaluation α) := do
  let (x, s) ← e.reading index c.lhs s
  match c.rhs with
  | .fixed y => return (c.comparator.test x y, s)
  | .indicator key =>
    let (y, s) ← e.reading index key s
    return (c.comparator.test x y, s)

/-- Whether as many of a list of conditions hold as a quantifier asks for; conditions are read only
until that is decided. -/
def decided (mode : Quantifier) : List (Condition α) → Evaluation α →
    Except Error (Bool × Evaluation α)
  | [], s => .ok (mode == .all, s)
  | c :: cs, s => do
    let (b, s) ← e.holds index c s
    match mode, b with
    | .all, true | .any, false => decided mode cs s
    | _, _ => return (b, s)

/-- Adds to what a ticker has received. -/
def receive (ticker : String) (weight : α) (s : Evaluation α) : Evaluation α :=
  { s with
    received := s.received.insert ticker ((s.received.get? ticker).getD zero + weight) }

/-- Visits the children of a split by their shares. -/
def visitShares (shares : List (Share (Visitor α) α)) (s : Evaluation α) :
    Except Error (Evaluation α) :=
  shares.foldlM (fun s share => share.child.visit share.mode share.weight s) s

/-- Goes on with the weight a node takes, if it takes any. -/
def withWeight (own : Option Fraction) (mode : Weighting) (passed : α) (s : Evaluation α)
    (go : α → Except Error (Evaluation α)) : Except Error (Evaluation α) :=
  match mode.take own passed with
  | some weight => go weight
  | none => .ok s

mutual

/-- Visits a node with a weight passed to it. -/
def visit : Node α → Weighting → α → Evaluation α → Except Error (Evaluation α)
  | .asset _ own ticker => fun mode passed s =>
    withWeight own mode passed s fun weight => .ok (receive ticker weight s)
  | .unknown _ _ => fun _ _ s => .ok s
  | .choice _ own conditions yes no => fun mode passed s =>
    withWeight own mode passed s fun weight => do
      let (passes, s) ← e.decided index conditions.mode conditions.items s
      if passes then visit yes .equal weight s else visit no .equal weight s
  | .split _ own rule children => fun mode passed s =>
    withWeight own mode passed s fun weight => do
      let shares ← rule.shares e.settings.volatilityFloor
        (fun v => e.statistics.value v.id index) (visitors children) weight
      visitShares shares s

/-- The subtrees of a list, ready to be visited. -/
def visitors : List (Node α) → List (Visitor α)
  | [] => []
  | c :: cs => ⟨c.id, visit c⟩ :: visitors cs

end

/-- The weights that a node routes to tickers. -/
def evaluateNode (node : Node α) (mode : Weighting) (weight : α) :
    Except Error (Allocation α) := do
  let s ← e.visit index node mode weight {}
  return s.received.mapValues fun _ w => some w

/-- The allocation of a strategy: what it routes to tickers, and `none` for every other ticker it
may trade. -/
def evaluate (tree : Node α) : Except Error (Allocation α) := do
  let reached ← e.evaluateNode index tree .equal hundred
  return (e.tradeable.mapValues fun _ _ => none).insertAll reached.entries

end Evaluator

end StrategyTree
