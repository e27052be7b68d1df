import StrategyTree.Document.Basic
import StrategyTree.Tree.Basic

/-!
# Trees read from documents

A node is written as an object. Its `type` says which kind of node it is and thereby which other
members count; members of other names are passed over, also when they are repeated, while a member
that counts may stand there only once. A `type` that is not known makes an unknown node.

The smaller records (weights, rankings, conditions, indicators) are objects too, or arrays of their
parts in order.

* `Node.ofDocument`: a node read from any document that is sound.
* `Node.read`: a strategy read from a whole document, within the limit of nesting.
-/

namespace StrategyTree

namespace Document

/-! ## Records -/

/-- The values of all members of a name. -/
def valuesOf (name : String) (members : List (String × Document)) : List Document :=
  members.filterMap fun m => if m.1 = name then some m.2 else none

/-- The value of a member that must stand there, once. -/
def required (name : String) (members : List (String × Document)) : Option Document :=
  match valuesOf name members with
  | [d] => some d
  | _ => none

/-- The value of a member that may stand there, once. -/
def optional (name : String) (members : List (String × Document)) : Option (Option Document) :=
  match valuesOf name members with
  | [] => some none
  | [d] => some (some d)
  | _ => none

/-- The parts of a record with the given names: the members of an object, or the items of an array
of as many. -/
def parts (names : List String) : Document → Option (List Document)
  | object members => do
    let members ← namedMembers members
    names.mapM fun name => required name members
  | array items => if items.length = names.length then some items else none
  | _ => none

/-- The word of a choice between words: a string, or an object with that word as its one member
and nothing in it. -/
def word : Document → Option String
  | string s => s
  | object [(name, null)] => name
  | object [(name, object [])] => name
  | _ => none

end Document

open Document

/-- The bound of window lengths and counts. -/
def countLimit : Nat := Nat.pow 2 64

/-- The bound of the parts of a fraction. -/
def fractionLimit : Nat := Nat.pow 2 32

/-- Reads a weight. -/
def Fraction.ofDocument (d : Document) : Option Fraction := do
  match ← d.parts ["numerator", "denominator"] with
  | [n, m] => return ⟨← n.toNat? fractionLimit, ← m.toNat? fractionLimit⟩
  | _ => none

/-- Reads the name of a statistic. -/
def ReturnStatistic.ofDocument (d : Document) : Option ReturnStatistic := do
  (ReturnStatistic.ofName (← d.toText?)).toOption

/-- Reads the name of an indicator function. -/
def Indicator.Function.ofDocument (d : Document) : Option Indicator.Function := do
  (Indicator.Function.ofName (← d.toText?)).toOption

/-- Reads a ranking. -/
def Ranking.ofDocument (d : Document) : Option Ranking := do
  match ← d.parts ["function", "window"] with
  | [f, w] => return ⟨← ReturnStatistic.ofDocument f, ← w.toNat? countLimit⟩
  | _ => none

/-- Reads an indicator. -/
def Indicator.Key.ofDocument (d : Document) : Option Indicator.Key := do
  match ← d.parts ["ticker", "function", "window"] with
  | [t, f, w] => return ⟨← t.toText?, ← Indicator.Function.ofDocument f, ← w.toNat? countLimit⟩
  | _ => none

/-- Reads which end of a ranking is kept. -/
def Selection.ofDocument (d : Document) : Option Selection := do
  match ← d.word with
  | "top" => return .top
  | "bottom" => return .bottom
  | _ => none

/-- Reads a comparator. -/
def Comparator.ofDocument (d : Document) : Option Comparator := do
  match ← d.word with
  | "gt" => return .greater
  | "lt" => return .less
  | "eq" => return .equal
  | _ => none

/-- Reads how many conditions must hold. -/
def Quantifier.ofDocument (d : Document) : Option Quantifier := do
  match ← d.word with
  | "all-of" => return .all
  | "any-of" => return .any
  | _ => none

/-- Reads the right side of a condition: a number stands for itself, anything else for an
indicator. -/
def Operand.ofDocument : Document → Option (Operand Float)
  | .number n => n.toFloat?.map .fixed
  | d => (Indicator.Key.ofDocument d).map .indicator

/-- Reads a condition. -/
def Condition.ofDocument (d : Document) : Option (Condition Float) := do
  match ← d.parts ["lhs", "comparator", "rhs"] with
  | [l, c, r] =>
    return ⟨← Indicator.Key.ofDocument l, ← Comparator.ofDocument c, ← Operand.ofDocument r⟩
  | _ => none

/-- Reads the conditions of a choice. -/
def Conditions.ofDocument (d : Document) : Option (Conditions Float) := do
  match ← d.parts ["mode", "items"] with
  | [m, .array items] =>
    return ⟨← Quantifier.ofDocument m, ← items.mapM Condition.ofDocument⟩
  | _ => none

/-! ## Nodes -/

/-- The kinds of nodes that documents tell apart. -/
inductive Kind where
  | root
  | group
  | equal
  | specified
  | inverseVolatility
  | filter
  | choice
  | asset
  | unknown
  deriving DecidableEq, Repr

namespace Kind

/-- The known kinds, in the order of their numbers. -/
def all : List Kind :=
  [root, group, equal, specified, inverseVolatility, filter, choice, asset]

/-- The word for a kind. -/
def name : Kind → String
  | root => "root"
  | group => "group"
  | equal => "weight-cash-equal"
  | specified => "weight-cash-specified"
  | inverseVolatility => "weight-inverse-volatility"
  | filter => "filter"
  | choice => "if-then-else"
  | asset => "asset"
  | unknown => "unknown"

/-- The kind a word stands for. -/
def ofName (s : String) : Kind := (all.find? fun k => k.name == s).getD unknown

/-- Reads a kind: a word, or the number of a kind. -/
def ofDocument : Document → Option Kind
  | .string s => s.map ofName
  | .number n => (n.toNat? countLimit).map fun i => all.getD i unknown
  | _ => none

end Kind

/-- A member of an object that may be a node: its value as a document, as a node, and as a list of
nodes, where it is one. -/
structure NodeMember where
  name : String
  value : Document
  node : Option (Node Float)
  nodes : Option (List (Node Float))

namespace NodeMember

/-- The member of a name that must stand there, once. -/
def required (name : String) (members : List NodeMember) : Option NodeMember :=
  match members.filter fun m => m.name == name with
  | [m] => some m
  | _ => none

/-- The member of a name that may stand there, once. -/
def optional (name : String) (members : List NodeMember) : Option (Option NodeMember) :=
  match members.filter fun m => m.name == name with
  | [] => some none
  | [m] => some (some m)
  | _ => none

/-- The value of a member that may be missing or `null`. -/
def nullable {β : Type} (read : Document → Option β) (name : String) (members : List NodeMember) :
    Option (Option β) := do
  match ← optional name members with
  | none => return none
  | some m =>
    match m.value with
    | .null => return none
    | d => return some (← read d)

end NodeMember

open NodeMember in
/-- The node of an object with the given members. -/
def Node.ofMembers (ms : List NodeMember) : Option (Node Float) := do
  let id ← (← required "id" ms).value.toText?
  let weight ← nullable Fraction.ofDocument "weight" ms
  let kind ← Kind.ofDocument (← required "type" ms).value
  let children (rule : Rule) : Option (Node Float) := do
    return .split id weight rule (← (← required "children" ms).nodes)
  match kind with
  | .root => children .root
  | .group => do children (.group (← nullable Document.toText? "name" ms))
  | .equal => children .equal
  | .specified => children .specified
  | .inverseVolatility => do
    children (.inverseVolatility (← (← required "window" ms).value.toNat? countLimit))
  | .filter => do
    let ranking ← Ranking.ofDocument (← required "sort" ms).value
    let select ← Selection.ofDocument (← required "select" ms).value
    let count ← (← required "count" ms).value.toNat? countLimit
    children (.filter ranking select count)
  | .choice => do
    let conditions ← Conditions.ofDocument (← required "conditions" ms).value
    let yes ← (← required "then" ms).node
    let no ← (← required "else" ms).node
    return .choice id weight conditions yes no
  | .asset => do
    let ticker ← (← required "ticker" ms).value.toText?
    return .asset id weight ticker
  | .unknown => return .unknown id weight

mutual

/-- The node of a document. -/
def Node.ofDocument : Document → Option (Node Float)
  | .object members => do Node.ofMembers (← NodeMember.ofObject members)
  | _ => none

/-- The nodes of a document that is an array of nodes. -/
def Node.listOfDocument : Document → Option (List (Node Float))
  | .array items => Node.listOfItems items
  | _ => none

/-- The nodes of a list of documents. -/
def Node.listOfItems : List Document → Option (List (Node Float))
  | [] => some []
  | d :: ds => do
    let n ← Node.ofDocument d
    let ns ← Node.listOfItems ds
    return n :: ns

/-- The members of an object, each read as a node and as a list of nodes. -/
def NodeMember.ofObject : List (Option String × Document) → Option (List NodeMember)
  | [] => some []
  | (name, d) :: ms => do
    let name ← name
    let rest ← NodeMember.ofObject ms
    return ⟨name, d, Node.ofDocument d, Node.listOfDocument d⟩ :: rest

end

/-! ## Whole documents -/

/-- How deep arrays and objects may be nested in a document. -/
def nestingLimit : Nat := 127

/-- Whether a member of the outermost node can be read. What belongs to its id and weight is read
on the spot; everything else must be sound and nested no deeper than is left. -/
def Node.memberIsReadable (level : Nat) (m : Option String × Document) : Bool :=
  m.1 == some "id" || m.1 == some "weight" || (m.2.isSound && m.2.depth + level ≤ nestingLimit)

/-- Reads a strategy that stands in a document within `level` arrays and objects. -/
def Node.readWithin (level : Nat) : Document → Option (Node Float)
  | .object members =>
    if members.all (Node.memberIsReadable (level + 1)) then Node.ofDocument (.object members)
    else none
  | _ => none

/-- Reads a strategy that makes up a whole document. -/
def Node.read (d : Document) : Option (Node Float) := Node.readWithin 0 d

end StrategyTree
