/-!
# What can go wrong

Every failure of the library is a value of `Error`, one constructor per cause. Its wording and the
exit status of a program that stops on it are functions of the cause.

* `Error.message`: the one-line text shown to a user.
* `Error.exitCode`: the exit status, by kind of cause.
-/

namespace StrategyTree

/-- The causes of failure. -/
inductive Error where
  | priceData (reason : String)
  | configUnreadable (file reason : String)
  | configMissing (part key : String)
  | configInvalid (part key reason : String)
  | zeroWindow (function : String)
  | tooFewValues (function : String) (available needed : Nat)
  | unknownFunction (name : String)
  | invalidWeight (node reason : String)
  | invalidNode (node reason : String)
  | insufficientData (reason : String)
  | nestingTooDeep (node : String) (depth limit : Nat)
  | tickerNotLoaded (ticker : String)
  | unknownIndicator (key : String)
  | unknownStatistic (node : String)
  | notYetAvailable (key : String) (index first : Nat)
  | nodeNotFound (node : String)
  | cancelled (index : Nat)
  | malformedDocument
  | fileAccess (reason : String)
  | outOfRange (index length : Nat)
  deriving DecidableEq, Repr

namespace Error

/-- The text shown for an error. -/
def message : Error → String
  | priceData reason => s!"data source error: {reason}"
  | configUnreadable file reason => s!"config parse error in {file}: {reason}"
  | configMissing part key => s!"missing config key [{part}] {key}"
  | configInvalid part key reason => s!"invalid config value [{part}] {key}: {reason}"
  | zeroWindow function => s!"{function}: window must be > 0"
  | tooFewValues function available needed =>
    s!"{function}: not enough data (have {available}, need {needed})"
  | unknownFunction name => s!"unknown function: {name}"
  | invalidWeight node reason => s!"invalid weight on node {node}: {reason}"
  | invalidNode node reason => s!"invalid node {node}: {reason}"
  | insufficientData reason => s!"insufficient data: {reason}"
  | nestingTooDeep node depth limit =>
    s!"pre-calc nesting too deep at node {node}: depth {depth}, max {limit}"
  | tickerNotLoaded ticker => s!"ticker {ticker} was never registered for loading"
  | unknownIndicator key => s!"unknown indicator {key}"
  | unknownStatistic node => s!"no pre-calc for node {node}"
  | notYetAvailable key index first =>
    s!"{key} has no value at index {index} (first valid index {first})"
  | nodeNotFound node => s!"node {node} not found in strategy tree"
  | cancelled index => s!"backtest cancelled at index {index}"
  | malformedDocument => "malformed document"
  | fileAccess reason => reason
  | outOfRange index length => s!"index {index} out of range for length {length}"

/-- The exit status of a program that stops on an error: `1` for files, `2` for configuration, `3`
for price data, `4` for a strategy that makes no sense, `5` for data that do not suffice, `6` for
everything that a strategy checked beforehand does not meet, `101` where a list ends before the
place that is read in it. -/
def exitCode : Error → Nat
  | fileAccess _ => 1
  | configUnreadable .. | configMissing .. | configInvalid .. => 2
  | priceData _ => 3
  | malformedDocument | zeroWindow _ | unknownFunction _ | invalidWeight .. | invalidNode ..
  | nestingTooDeep .. => 4
  | tooFewValues .. | insufficientData _ => 5
  | tickerNotLoaded _ | unknownIndicator _ | unknownStatistic _ | notYetAvailable ..
  | nodeNotFound _ | cancelled _ => 6
  | outOfRange .. => 101

end Error

end StrategyTree
