import StrategyTree.Document.Number

/-!
# Documents

A `Document` is a JSON text as a tree: objects keep the order of their members and repeated names,
and numbers keep how they were written. A string whose escapes do not all stand for characters has
no text; such a string, like a number beyond the doubles, may stand where nothing reads it.

* `Document.isSound`: every string has a text and every number a double.
* `Document.depth`: how deep arrays and objects are nested.
-/

namespace StrategyTree

/-- A JSON text as a tree. -/
inductive Document where
  | null
  | bool (value : Bool)
  | number (value : Number)
  | string (text : Option String)
  | array (items : List Document)
  | object (members : List (Option String × Document))
  deriving Repr

namespace Document

/-! ## What a document must satisfy where it is read -/

mutual

/-- Whether every string has a text and every number a double. -/
def isSound : Document → Bool
  | null => true
  | bool _ => true
  | number n => n.toFloat?.isSome
  | string s => s.isSome
  | array items => areSound items
  | object members => membersAreSound members

/-- Whether all documents of a list are sound. -/
def areSound : List Document → Bool
  | [] => true
  | d :: ds => d.isSound && areSound ds

/-- Whether all members of a list have a name and are sound. -/
def membersAreSound : List (Option String × Document) → Bool
  | [] => true
  | (name, d) :: ms => name.isSome && d.isSound && membersAreSound ms

end

mutual

/-- How many arrays and objects are nested in one another. -/
def depth : Document → Nat
  | array items => depthOfAll items + 1
  | object members => depthOfMembers members + 1
  | _ => 0

/-- The depth of the deepest document of a list. -/
def depthOfAll : List Document → Nat
  | [] => 0
  | d :: ds => max d.depth (depthOfAll ds)

/-- The depth of the deepest member of a list. -/
def depthOfMembers : List (Option String × Document) → Nat
  | [] => 0
  | (_, d) :: ms => max d.depth (depthOfMembers ms)

end

/-! ## Parts of a document -/

/-- The members of a list of members, if all have a name. -/
def namedMembers : List (Option String × Document) → Option (List (String × Document))
  | [] => some []
  | (name, d) :: ms => do return (← name, d) :: (← namedMembers ms)

/-- The text of a string. -/
def toText? : Document → Option String
  | string s => s
  | _ => none

/-- A whole number below a limit. -/
def toNat? (limit : Nat) : Document → Option Nat
  | number n => n.toNat? limit
  | _ => none

/-- A truth value. -/
def toBool? : Document → Option Bool
  | bool b => some b
  | _ => none

/-- A string document. -/
def text (s : String) : Document := string (some s)

/-- A whole number as a document. -/
def nat (n : Nat) : Document := number (.whole false n)

/-- An object with the given members. -/
def record (members : List (String × Document)) : Document :=
  object (members.map fun m => (some m.1, m.2))

end Document

end StrategyTree
