import StrategyTree.Document.Writer
import StrategyTree.Tree.Basic

/-!
# Trees written as documents

The members of a node come in a fixed order: its id, its weight if it has one, its kind under
`type`, and then what its kind needs. `Node.toDocument` is a tree as a document; `Document.compact`
makes its text.
-/

namespace StrategyTree

open Document

/-- A weight as a document. -/
def Fraction.toDocument (f : Fraction) : Document :=
  record [("numerator", nat f.numerator), ("denominator", nat f.denominator)]

/-- A ranking as a document. -/
def Ranking.toDocument (r : Ranking) : Document :=
  record [("function", text r.statistic.name), ("window", nat r.window)]

/-- An indicator as a document. -/
def Indicator.Key.toDocument (k : Indicator.Key) : Document :=
  record [("ticker", Document.text k.ticker), ("function", Document.text k.function.name),
    ("window", nat k.window)]

/-- The word for an end of a ranking. -/
def Selection.word : Selection → String
  | top => "top"
  | bottom => "bottom"

/-- The word for a comparator. -/
def Comparator.word : Comparator → String
  | greater => "gt"
  | less => "lt"
  | equal => "eq"

/-- The word for how many conditions must hold. -/
def Quantifier.word : Quantifier → String
  | all => "all-of"
  | any => "any-of"

/-- The right side of a condition as a document. -/
def Operand.toDocument : Operand Float → Document
  | fixed x => ofFloat x
  | indicator key => key.toDocument

/-- A condition as a document. -/
def Condition.toDocument (c : Condition Float) : Document :=
  record [("lhs", c.lhs.toDocument), ("comparator", text c.comparator.word),
    ("rhs", c.rhs.toDocument)]

/-- The conditions of a choice as a document. -/
def Conditions.toDocument (c : Conditions Float) : Document :=
  record [("mode", text c.mode.word), ("items", array (c.items.map Condition.toDocument))]

namespace Node

/-- The members that every node starts with. -/
def headMembers (id : String) (weight : Option Fraction) (kind : String) :
    List (String × Document) :=
  ("id", text id) :: (weight.map fun f => ("weight", f.toDocument)).toList ++ [("type", text kind)]

/-- The members that a rule needs before the children. -/
def ruleMembers : Rule → List (String × Document)
  | .group (some name) => [("name", text name)]
  | .inverseVolatility window => [("window", nat window)]
  | .filter ranking select count =>
    [("sort", ranking.toDocument), ("select", text select.word), ("count", nat count)]
  | _ => []

mutual

/-- A tree as a document. -/
def toDocument : Node Float → Document
  | asset id weight ticker => record (headMembers id weight "asset" ++ [("ticker", text ticker)])
  | unknown id weight => record (headMembers id weight "unknown")
  | choice id weight conditions yes no =>
    record (headMembers id weight "if-then-else" ++
      [("conditions", conditions.toDocument), ("then", toDocument yes), ("else", toDocument no)])
  | split id weight rule children =>
    record (headMembers id weight rule.kind ++ ruleMembers rule ++
      [("children", array (toDocuments children))])

/-- A list of trees as documents. -/
def toDocuments : List (Node Float) → List Document
  | [] => []
  | c :: cs => toDocument c :: toDocuments cs

end

end Node

end StrategyTree
