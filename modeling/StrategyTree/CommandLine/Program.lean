import StrategyTree.CommandLine.Arguments
import StrategyTree.Configuration
import StrategyTree.Csv.Folder
import StrategyTree.Report

/-!
# The program

What each command does, over any `Host` that reads and writes files and shows lines. The program
itself only orders these steps; it returns its exit status.

* `Program.run`: carries out a command.
-/

namespace StrategyTree

/-- What the program needs of its surroundings: files and folders by path, with the reason where one
cannot be read or written, standard output, lines on standard error, and the day it is. -/
structure Host (m : Type → Type) where
  readText : String → m (Except String String)
  priceFile : String → m Csv.PriceFile
  namesIn : String → m (Except String (List String))
  writeText : String → String → m (Except String Unit)
  out : String → m Unit
  note : String → m Unit
  today : m Date

namespace Program

open Text

/-! ## Texts -/

/-- A percentage with two places. -/
def percent (x : Float) : String := fixed 2 x ++ "%"

/-- The lines that sum up a backtest. -/
def summary (b : Backtest Float) : List String :=
  ["",
    "Backtest " ++ DateText.render b.dateFrom ++ " to " ++ DateText.render b.dateTo,
    "  Starting balance:  " ++ fixed 2 b.startingBalance,
    "  Ending balance:    " ++ fixed 2 b.endingBalance,
    "  Cumulative return: " ++ percent b.performance.cumulativeReturn,
    "  Annualized return: " ++ percent b.performance.annualizedReturn,
    "  Std deviation:     " ++ percent b.performance.standardDeviation,
    "  Max drawdown:      " ++ percent b.performance.maxDrawdown,
    "  Sharpe:            " ++ fixed 3 b.performance.sharpe,
    "  Calmar:            " ++ fixed 3 b.performance.calmar,
    "  Trades:            " ++ toString b.trades]

/-- The members of a set, with commas between them. -/
def listing (s : SortedSet String) : String := ", ".intercalate s.toList

/-- The line for the statistic of a node. -/
def statisticLine (s : NodeStatistic) : String :=
  "  " ++ s.node ++ " " ++ s.ranking.statistic.name ++ "(" ++ toString s.ranking.window ++
    ") depth " ++ toString s.depth

/-- The lines that say what a strategy requires. -/
def requirementLines (r : Requirements) : List String :=
  ["",
    "Assets:           " ++ listing r.tickers,
    "Tradeable:        " ++ listing r.tradeable,
    "Lookback:         " ++ listing r.lookback,
    "",
    s!"Indicators ({r.indicators.size}):"] ++
  r.indicators.toList.map (fun k => "  " ++ k.text) ++
  ["",
    s!"Pre-calcs ({r.statistics.length}):"] ++
  r.statistics.map statisticLine ++
  ["",
    "Windows: indicator " ++ toString r.indicatorWindow ++ ", pre-calc " ++
      toString r.statisticWindow ++ ", nesting " ++ toString r.nesting ++ ", lookback " ++
      toString r.requiredLookback ++ " days",
    "",
    "Request is valid."]

/-! ## Steps -/

variable {m : Type → Type} [Monad m] (host : Host m)

/-- Writes lines to standard error. -/
def notes : List String → m Unit
  | [] => pure ()
  | line :: rest => do
    host.note line
    notes rest

/-- Carries on with a result, or reports an error and returns its exit status. -/
def orFail {β : Type} (result : Except Error β) (go : β → m Nat) : m Nat :=
  match result with
  | .ok x => go x
  | .error e => do
    host.note ("error: " ++ e.message)
    return e.exitCode

/-- Reads a configuration file. -/
def configurationAt (path : String) : m (Except Error Configuration) := do
  let failed (reason : String) : Error :=
    .configUnreadable path ("couldn't read " ++ path ++ ": " ++ reason)
  match ← host.readText path with
  | .error reason => return .error (failed reason)
  | .ok s => return (Configuration.read s).mapError fun fault => failed fault.message

/-- Reads a request file. -/
def requestAt (path : String) : m (Except Error (Request Float)) := do
  match ← host.readText path with
  | .error reason => return .error (.fileAccess reason)
  | .ok s => return Request.readValid s

/-- The price files of a list of tickers. -/
def priceFiles (folder : String) : List String → m (SortedMap String Csv.PriceFile)
  | [] => return SortedMap.empty
  | ticker :: rest => do
    let file ← host.priceFile (Csv.joinPath folder (Csv.fileName ticker))
    let files ← priceFiles folder rest
    return files.insert ticker file

/-- The price source of a folder, for the tickers of a strategy. -/
def sourceAt (folder : String) (tree : Node Float) : m (PriceSource Float) := do
  let tickers := match Requirements.ofTree tree with
    | .ok r => r.tickers.toList
    | .error _ => []
  let files ← priceFiles host folder tickers
  let found (ticker : String) : Csv.PriceFile := (files.get? ticker).getD .missing
  return (Csv.Folder.mk folder found (.ok [])).source

/-- Writes a report: to standard output without a path or under the path `-`, else into a file. -/
def writeReport (b : Backtest Float) (output : Option String) : m Nat := do
  let path := output.getD "-"
  if path = "-" then
    host.out b.fileContent
    return 0
  else
    let written ← host.writeText path b.fileContent
    orFail host (written.mapError Error.fileAccess) fun _ => do
      host.note ("Report written to " ++ path)
      return 0

/-! ## Commands -/

/-- Runs a backtest and writes its report. -/
def backtest (config request : String) (output : Option String) : m Nat := do
  orFail host (← configurationAt host config) fun configuration => do
    host.note ("Loading config from " ++ config)
    orFail host configuration.settings fun settings =>
      orFail host (configuration.required "data" "csv_dir") fun folder => do
        host.note ("Loading request from " ++ request)
        orFail host (← requestAt host request) fun r => do
          let source ← sourceAt host folder r.tree
          let result := Backtest.runOn source r settings (← host.today) fun _ => false
          orFail host result fun b => do
            notes host (summary b)
            writeReport host b output

/-- Says what the strategy of a request requires. -/
def validate (request : String) : m Nat := do
  host.note ("Validating request: " ++ request)
  orFail host (← requestAt host request) fun r =>
    orFail host (Requirements.ofTree r.tree) fun requirements => do
      notes host (requirementLines requirements)
      return 0

/-- Lists the tickers for which there are prices. -/
def listSymbols (config : String) : m Nat := do
  orFail host (← configurationAt host config) fun configuration =>
    orFail host (configuration.required "data" "csv_dir") fun path => do
      let folder : Csv.Folder := ⟨path, fun _ => .missing, ← host.namesIn path⟩
      orFail host folder.symbols fun symbols => do
        match symbols with
        | [] => host.note "No symbols found"
        | _ =>
          host.out (String.join (symbols.map fun s => s ++ "\n"))
          host.note (toString symbols.length ++ " symbols found")
        return 0

/-- Carries out a command and returns the exit status. -/
def run : Command → m Nat
  | .backtest config request output => backtest host config request output
  | .validate request => validate host request
  | .listSymbols config => listSymbols host config

end Program

end StrategyTree
