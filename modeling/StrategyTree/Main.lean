import Std.Time
import StrategyTree.CommandLine.Program

/-!
# The executable

Connects the program to the file system, the standard streams and the clock.
-/

namespace StrategyTree.Executable

/-! ## Failed file operations -/

/-- The operating system's number for the cause of a failure, and its words for it. -/
def causeOf : IO.Error → UInt32 × String
  | .alreadyExists _ code text | .noFileOrDirectory _ code text | .interrupted _ code text
  | .invalidArgument _ code text | .permissionDenied _ code text
  | .resourceExhausted _ code text | .inappropriateType _ code text | .noSuchThing _ code text
  | .otherError code text | .resourceBusy code text | .resourceVanished code text
  | .unsupportedOperation code text | .hardwareFault code text
  | .unsatisfiedConstraints code text | .illegalOperation code text | .protocolError code text
  | .timeExpired code text => (code, text)
  | .unexpectedEof => (0, "unexpected end of file")
  | .userError text => (0, text)

/-- The text shown for a failed file operation. -/
def reasonOf (e : IO.Error) : String :=
  let (code, text) := causeOf e
  text ++ " (os error " ++ toString code ++ ")"

/-- The result of an action, or the reason for its failure. -/
def attempt {β : Type} (action : IO β) : IO (Except String β) := do
  match ← action.toBaseIO with
  | .ok x => return .ok x
  | .error e => return .error (reasonOf e)

/-! ## Files -/

/-- The text that bytes encode. -/
def textOf (bytes : ByteArray) : Except String String :=
  match String.fromUTF8? bytes with
  | some s => .ok s
  | none => .error "stream did not contain valid UTF-8"

/-- The text of a file. -/
def readText (path : String) : IO (Except String String) := do
  return (← attempt (IO.FS.withFile path .read fun h => h.readBinToEnd)) >>= textOf

/-- The price file under a path. -/
def priceFile (path : String) : IO Csv.PriceFile := do
  match ← readText path with
  | .ok s => return .text s
  | .error reason =>
    let there ← (IO.FS.DirEntry.root ⟨path, ""⟩).pathExists
    return if there then .unreadable reason else .missing

/-- The names in a folder. -/
def namesIn (folder : String) : IO (Except String (List String)) := do
  let entries ← attempt (IO.FS.DirEntry.root ⟨folder, ""⟩).readDir
  return entries.map fun es => es.toList.map fun e => e.fileName

/-! ## The program's surroundings -/

/-- The day it is, by the local clock. -/
def today : IO Date := do
  let now ← Std.Time.PlainDate.now
  match Date.ofDay? now.toEpochDay.val with
  | some d => return d
  | none => throw (IO.userError "the clock is beyond the calendar")

/-- The machine the program runs on. -/
def machine : Host IO where
  readText := readText
  priceFile := priceFile
  namesIn := namesIn
  writeText path content := attempt (IO.FS.writeFile path content)
  out text := do
    (← IO.getStdout).putStr text
    (← IO.getStdout).flush
  note line := IO.eprintln line
  today := today

/-- Carries out the command that the arguments ask for, and returns the exit status. -/
def run (args : List String) : IO UInt32 := do
  match Command.ofArguments args with
  | .ok command => return (← Program.run machine command).toUInt32
  | .error usage =>
    match usage with
    | .help => IO.print Usage.text
    | .misuse => IO.eprint Usage.text
    return usage.exitCode.toUInt32

end StrategyTree.Executable

/-- Runs the program. -/
def main (args : List String) : IO UInt32 := StrategyTree.Executable.run args
