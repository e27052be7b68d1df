/-!
# Command line arguments

The program has three commands, each with options that take a path. An option is written `--name
value`, `--name=value`, `-n value`, `-nvalue` or `-n=value`; a value that follows as an argument of
its own may not look like an option. Arguments are taken one after the other, so that a request for
help counts only if nothing before it is wrong.

* `Command.ofArguments`: the command that a list of arguments asks for.
-/

namespace StrategyTree

/-- What the program is asked to do: run a backtest and write its report, to standard output unless
a path is given; say what the strategy of a request requires; list the tickers for which there are
prices. -/
inductive Command where
  | backtest (config request : String) (output : Option String)
  | validate (request : String)
  | listSymbols (config : String)
  deriving DecidableEq, Repr

/-- Why there is no command to carry out. -/
inductive Usage where
  | help
  | misuse
  deriving DecidableEq, Repr

/-- The exit status for arguments that are no command. -/
def Usage.exitCode : Usage → Nat
  | help => 0
  | misuse => 2

/-- How to use the program. -/
def Usage.text : String :=
  "Usage:\n" ++
  "  backtest --config PATH --request PATH [--output PATH]\n" ++
  "  validate --request PATH\n" ++
  "  list-symbols --config PATH\n"

namespace Arguments

/-- An option: its letter after a single dash and its name after two. -/
structure Choice where
  letter : Char
  name : String
  deriving DecidableEq, Repr

/-- The values given, by the names of their options. -/
abbrev Given := List (String × String)

/-- Takes in the value of an option, which must not be empty and not have been given before. -/
def give (given : Given) (name value : String) : Except Usage Given :=
  if value.isEmpty || (given.lookup name).isSome then .error .misuse
  else .ok ((name, value) :: given)

/-- What a single argument is. `complete` is an option with its value, `open_` one whose value is
the next argument, `stop` the end of the options. -/
inductive Shape where
  | help
  | complete (name value : String)
  | open_ (name : String)
  | stop
  | other

/-- The shape of an argument that begins with two dashes, given without them. -/
def longShape (choices : List Choice) (body : List Char) : Shape :=
  let name := String.ofList (body.takeWhile (· != '='))
  let value := (body.dropWhile (· != '=')).drop 1
  if !body.contains '=' then
    if name = "help" then .help
    else if choices.any fun o => o.name == name then .open_ name
    else .other
  else if choices.any fun o => o.name == name then .complete name (String.ofList value)
  else .other

/-- The shape of an argument that begins with one dash, given without it. -/
def shortShape (choices : List Choice) (letter : Char) (rest : List Char) : Shape :=
  if letter = 'h' then .help
  else
    match choices.find? fun o => o.letter == letter, rest with
    | none, _ => .other
    | some o, [] => .open_ o.name
    | some o, '=' :: value => .complete o.name (String.ofList value)
    | some o, value => .complete o.name (String.ofList value)

/-- The shape of an argument. -/
def shape (choices : List Choice) (argument : String) : Shape :=
  match argument.toList with
  | ['-', '-'] => .stop
  | '-' :: '-' :: body => longShape choices body
  | '-' :: letter :: rest => shortShape choices letter rest
  | _ => .other

/-- Whether an argument looks like an option, and so is no value. -/
def looksLikeOption (argument : String) : Bool := argument.startsWith "-" && argument != "-"

/-- Takes in the options of a command. -/
def options (choices : List Choice) (given : Given) : List String → Except Usage Given
  | [] => .ok given
  | argument :: rest =>
    match shape choices argument with
    | .help => .error .help
    | .other => .error .misuse
    | .stop => if rest.isEmpty then .ok given else .error .misuse
    | .complete name value => do options choices (← give given name value) rest
    | .open_ name =>
      match rest with
      | [] => .error .misuse
      | value :: rest =>
        if looksLikeOption value then .error .misuse
        else do options choices (← give given name value) rest

/-- The value of an option that must be given. -/
def required (given : Given) (name : String) : Except Usage String :=
  match given.lookup name with
  | some value => .ok value
  | none => .error .misuse

/-- The option that names the configuration. -/
def config : Choice := ⟨'c', "config"⟩

/-- The option that names the request. -/
def request : Choice := ⟨'r', "request"⟩

/-- The option that names the report. -/
def output : Choice := ⟨'o', "output"⟩

/-- The names of the commands, the request for help among them. -/
def commandNames : List String := ["backtest", "validate", "list-symbols", "help"]

end Arguments

open Arguments in
/-- The command that a list of arguments asks for. -/
def Command.ofArguments : List String → Except Usage Command
  | "backtest" :: rest => do
    let given ← options [config, request, output] [] rest
    return .backtest (← required given "config") (← required given "request")
      (given.lookup "output")
  | "validate" :: rest => do
    return .validate (← required (← options [request] [] rest) "request")
  | "list-symbols" :: rest => do
    return .listSymbols (← required (← options [config] [] rest) "config")
  | ["help"] => .error .help
  | ["help", name] => .error (if commandNames.contains name then .help else .misuse)
  | first :: _ =>
    match shape [] first with
    | .help => .error .help
    | _ => .error .misuse
  | [] => .error .misuse

end StrategyTree
