import StrategyTree.Error
import StrategyTree.Settings
import StrategyTree.Keyed
import StrategyTree.Text.Blank
import StrategyTree.Text.LowerCase
import StrategyTree.Text.Numeral

/-!
# Configurations

A configuration is a text of lines. A line in brackets begins a section; any other line gives a key
a value, after an equals sign or a colon, or names a key that has none. What follows a semicolon or
a number sign is a comment. Names of sections and keys are kept in lower case; lines before the
first section belong to the section `default`. A later value of a key replaces an earlier one.

* `Configuration.read`: a configuration read from a text.
* `Configuration.settings`: the engine settings of a configuration, within their ranges.
-/

namespace StrategyTree

open Text

/-- The keys of each section, and the value of each key that has one. -/
structure Configuration where
  sections : SortedMap String (SortedMap String (Option String))

/-- Why a text is no configuration: a line begins a section and does not end it, or has a value and
no key. -/
inductive ConfigurationFault where
  | unclosedSection (line : Nat)
  | emptyKey (line column : Nat)
  deriving DecidableEq, Repr

/-- The text shown for a fault. -/
def ConfigurationFault.message : ConfigurationFault → String
  | unclosedSection line =>
    s!"line {line}: Found opening bracket for section name but no closing bracket"
  | emptyKey line column => s!"line {line}:{column}: Key cannot be empty"

namespace Configuration

/-! ## Lines -/

/-- The lines of a text. -/
def linesOf : List Char → List (List Char)
  | [] => [[]]
  | c :: rest =>
    match c, linesOf rest with
    | '\n', lines => [] :: lines
    | c, line :: lines => (c :: line) :: lines
    | c, [] => [[c]]

/-- Whether a character begins a comment. -/
def isComment (c : Char) : Bool := c == ';' || c == '#'

/-- Whether a character stands between a key and its value. -/
def isDelimiter (c : Char) : Bool := c == '=' || c == ':'

/-- What a line says. -/
inductive Line where
  | nothing
  | begins (name : String)
  | entry (key : String) (value : Option String)

/-- A name as it is kept. -/
def nameOf (s : List Char) : String := String.ofList (lower (trim s))

/-- The characters before the last closing bracket. -/
def beforeLastBracket (s : List Char) : Option (List Char) :=
  if s.contains ']' then some ((s.reverse.dropWhile (· != ']')).drop 1).reverse else none

/-- Reads the line of a number. -/
def readLine (number : Nat) (s : List Char) : Except ConfigurationFault Line :=
  match trim ((trim s).takeWhile fun c => !isComment c) with
  | [] => .ok .nothing
  | '[' :: rest =>
    match beforeLastBracket rest with
    | some name => .ok (.begins (nameOf name))
    | none => .error (.unclosedSection number)
  | line =>
    let key := line.takeWhile fun c => !isDelimiter c
    match line.drop key.length with
    | [] => .ok (.entry (nameOf key) none)
    | _ :: value =>
      if (trim key).isEmpty then .error (.emptyKey number (String.ofList key).utf8ByteSize)
      else .ok (.entry (nameOf key) (some (String.ofList (trim value))))

/-- Takes in the lines of a text, the first of which has the given number, within a section. -/
def readLines (c : Configuration) (within : String) (number : Nat) :
    List (List Char) → Except ConfigurationFault Configuration
  | [] => .ok c
  | line :: rest => do
    match ← readLine number line with
    | .nothing => readLines c within (number + 1) rest
    | .begins name => readLines c name (number + 1) rest
    | .entry key value =>
      let keys := (c.sections.get? within).getD SortedMap.empty
      readLines ⟨c.sections.insert within (keys.insert key value)⟩ within (number + 1) rest

/-- Reads a configuration. -/
def read (s : String) : Except ConfigurationFault Configuration :=
  readLines ⟨SortedMap.empty⟩ "default" 1 (linesOf s.toList)

/-! ## Values -/

/-- The value of a key. -/
def string? (c : Configuration) (part key : String) : Option String := do
  let keys ← c.sections.get? (String.ofList (lower part.toList))
  (← keys.get? (String.ofList (lower key.toList)))

/-- The value of a key that must have one. -/
def required (c : Configuration) (part key : String) : Except Error String :=
  match c.string? part key with
  | some s => .ok s
  | none => .error (.configMissing part key)

/-- The count that is a key's value, or a default where there is no value or it is no count. -/
def count (c : Configuration) (part key : String) (default : Nat) : Nat :=
  ((c.string? part key).bind fun s => readCount (Nat.pow 2 64) s.toList).getD default

/-- The number that is a key's value, or a default where there is no value or it is no number. -/
def real (c : Configuration) (part key : String) (default : Float) : Float :=
  ((c.string? part key).bind fun s => (readFloat s.toList).toOption).getD default

/-! ## Engine settings -/

/-- Refuses settings outside their ranges: the floor must be positive, some nesting allowed, and the
risk-free rate a fraction below one. -/
def validate (s : Settings Float) : Except Error Unit := do
  if s.volatilityFloor ≤ 0.0 || !s.volatilityFloor.isFinite then
    throw (.configInvalid "engine" "inverse_volatility_floor"
      "inverse_volatility_floor must be positive")
  if s.nestingLimit = 0 then
    throw (.configInvalid "engine" "max_pre_calc_depth" "max_pre_calc_depth must be at least 1")
  if !(0.0 ≤ s.riskFreeRate && s.riskFreeRate < 1.0) then
    throw (.configInvalid "engine" "risk_free_rate" "risk_free_rate must be between 0 and 1")

/-- The engine settings of a configuration. -/
def settings (c : Configuration) : Except Error (Settings Float) := do
  let default : Settings Float := Settings.default
  let s : Settings Float :=
    { volatilityFloor := c.real "engine" "inverse_volatility_floor" default.volatilityFloor
      nestingLimit := c.count "engine" "max_pre_calc_depth" default.nestingLimit
      riskFreeRate := c.real "engine" "risk_free_rate" default.riskFreeRate }
  validate s
  return s

end Configuration

end StrategyTree
