import StrategyTree.Csv.Records
import StrategyTree.PriceSource
import StrategyTree.Text.Numeral

/-!
# Folders of price files

Prices are kept in a folder with a file for each ticker, named after it. The first record of a file
names the columns; dates are in the first column, closes in the column named `close`, or in the
fifth one if none is named so.

`PriceFile.closes` reads a file: its closes come in the order of their dates, one for each date, the
first in the file. `Folder.source` makes a price source of a folder.
-/

namespace StrategyTree.Csv

open Text

/-- What is found under the name of a price file. -/
inductive PriceFile where
  | missing
  | unreadable (reason : String)
  | text (content : String)
  deriving DecidableEq, Repr

/-- A folder of price files: its path, the file of each ticker, and the names of all files in it or
why there are none. -/
structure Folder where
  path : String
  file : String → PriceFile
  names : Except String (List String)

/-- A path within a folder; an absolute path stays as it is. -/
def joinPath (folder path : String) : String :=
  if path.startsWith "/" || folder.isEmpty then path
  else if folder.endsWith "/" then folder ++ path
  else folder ++ "/" ++ path

/-- The name of the file of a ticker. -/
def fileName (ticker : String) : String := ticker ++ ".csv"

/-- The ticker of a file of a name, if it is a price file. -/
def tickerOf (name : String) : Option String :=
  if name.endsWith ".csv" then some (String.ofList (name.toList.take (name.length - 4))) else none

/-! ## Closes of a file -/

/-- Whether a column is named as the one of the closes. -/
def isCloseName (name : String) : Bool := (trim name.toList).map Char.toLower == "close".toList

/-- The column of the closes. -/
def closeColumn (header : List String) : Nat := (header.findIdx? isCloseName).getD 4

/-- Reads the close of a record. -/
def closeOf (column : Nat) (fields : List String) : Except Error (Close Float) := do
  let date ← match fields.head? with
    | none => throw (.priceData "missing date column")
    | some s =>
      match DateText.read false (trim s.toList) with
      | .ok d => pure d
      | .error fault => throw (.priceData ("invalid date format: " ++ fault.message))
  let price ← match fields[column]? with
    | none => throw (.priceData "missing close column")
    | some s =>
      match readFloat (trim s.toList) with
      | .ok x => pure x
      | .error fault => throw (.priceData ("invalid close value: " ++ fault.message))
  return ⟨date, price⟩

/-- Refuses a record that has not as many fields as the header; records are numbered from the
header's 0 on. -/
def checkWidth (width number : Nat) (r : Record) : Except Error Unit :=
  if r.fields.length = width then .ok ()
  else .error (.priceData
    ("CSV parse error: CSV error: record " ++ toString number ++ " (line: " ++ toString r.line ++
      ", byte: " ++ toString r.byte ++ "): found record with " ++ toString r.fields.length ++
      " fields, but the previous record has " ++ toString width ++ " fields"))

/-- Reads the closes of records, the first of which has the given number. -/
def closesOf (width column number : Nat) : List Record → Except Error (List (Close Float))
  | [] => .ok []
  | r :: rest => do
    checkWidth width number r
    let c ← closeOf column r.fields
    let cs ← closesOf width column (number + 1) rest
    return c :: cs

/-- Closes in the order of their dates; those of one date stay in place. -/
def byDate (closes : List (Close Float)) : List (Close Float) :=
  closes.mergeSort fun a b => decide (a.date ≤ b.date)

/-- A list of closes without those that have the date of the one before them. -/
def dropRepeats : List (Close Float) → List (Close Float)
  | [] => []
  | c :: cs => c :: dropRepeats.after c.date cs
where
  /-- The closes after one of a date. -/
  after (date : Date) : List (Close Float) → List (Close Float)
    | [] => []
    | c :: cs => if c.date = date then after date cs else c :: after c.date cs

/-- Reads the closes of a file's text. -/
def closesOfText (content : String) : Except Error (List (Close Float)) := do
  match records content.toList with
  | [] => return []
  | header :: rows =>
    let closes ← closesOf header.fields.length (closeColumn header.fields) 1 rows
    return dropRepeats (byDate closes)

/-! ## The source -/

namespace Folder

/-- The closes of a ticker, or nothing without a file. -/
def closes (f : Folder) (ticker : String) : Except Error (Option (List (Close Float))) :=
  match f.file ticker with
  | .missing => .ok none
  | .unreadable reason =>
    .error (.priceData
      ("failed to read " ++ joinPath f.path (fileName ticker) ++ ": " ++ reason))
  | .text content => (closesOfText content).map some

/-- The tickers with a file, in order. -/
def symbols (f : Folder) : Except Error (List String) :=
  match f.names with
  | .error reason => .error (.priceData ("failed to read directory " ++ f.path ++ ": " ++ reason))
  | .ok names => .ok ((names.filterMap tickerOf).mergeSort fun a b => decide (a ≤ b))

/-- The extent of closes that are in the order of their dates. -/
def spanOfSorted (closes : List (Close Float)) : Option Span := do
  return ⟨(← closes.head?).date, (← closes.getLast?).date, closes.length⟩

/-- A folder as a source of prices. -/
def source (f : Folder) : PriceSource Float where
  closes ticker first last := do
    return PriceSource.within first last ((← f.closes ticker).getD [])
  calendar ticker first last := do
    match ← f.closes ticker with
    | some cs => return (PriceSource.within first last cs).map Close.date
    | none => throw (.priceData ("no data file for calendar ticker " ++ ticker))
  span ticker := do
    return (← f.closes ticker) >>= spanOfSorted
  symbols := f.symbols

end Folder

end StrategyTree.Csv
