import SyntaxWalk.Lint

/-!
# Arguments

`check` takes the tree to look at and options. An option's value follows it or is joined to it by an
equals sign, and does not start with a dash when it follows; every option but `--lint` is given at
most once. Only the log level may also stand before the command. After `--` everything is a path.
-/

namespace SyntaxWalk.CommandLine

inductive Format where
  | text
  | json
  deriving DecidableEq, Inhabited

def Format.ofName? (name : String) : Option Format :=
  if name = "text" then some .text else if name = "json" then some .json else none

def logLevels : List String := ["trace", "debug", "info", "warn", "error"]

structure CheckArguments where
  ast : String
  source : Option String := none
  config : Option String := none
  lints : List Lint := []
  format : Format := .text
  deriving DecidableEq

inductive Request where
  | version
  | help
  | check (arguments : CheckArguments)
  deriving DecidableEq

inductive UsageError where
  | noCommand
  | unknownCommand (name : String)
  | unexpected (argument : String)
  | missingTree
  | missingValue (option : String)
  | wrongValue (option value : String)
  | repeated (option : String)
  deriving DecidableEq

def UsageError.text : UsageError → String
  | .noCommand => "a command is required"
  | .unknownCommand name => "unrecognized command '" ++ name ++ "'"
  | .unexpected argument => "unexpected argument '" ++ argument ++ "'"
  | .missingTree => "the path of a tree is required"
  | .missingValue option => "a value is required for '" ++ option ++ "'"
  | .wrongValue option value => "invalid value '" ++ value ++ "' for '" ++ option ++ "'"
  | .repeated option => "the argument '" ++ option ++ "' cannot be used multiple times"

inductive Token where
  | terminator
  | long (name : String) (value : Option String)
  | short (letter : Char)
  | plain (text : String)

def Token.ofArgument (argument : String) : Token :=
  match argument.toList with
  | ['-', '-'] => .terminator
  | '-' :: '-' :: rest =>
    let name := String.ofList (rest.takeWhile (· ≠ '='))
    match rest.dropWhile (· ≠ '=') with
    | _ :: value => .long name (some (String.ofList value))
    | [] => .long name none
  | '-' :: letter :: _ => .short letter
  | _ => .plain argument

/-- A value given on its own, which must not look like an option. -/
def separateValue (option : String) : List String → Except UsageError (String × List String)
  | [] => .error (.missingValue option)
  | argument :: rest =>
    match Token.ofArgument argument with
    | .plain value => .ok (value, rest)
    | _ => .error (.missingValue option)

def valueOf (option : String) (joined : Option String) (rest : List String) :
    Except UsageError (String × List String) :=
  match joined with
  | some value => .ok (value, rest)
  | none => separateValue option rest

def checkedLevel (value : String) : Except UsageError Unit :=
  if logLevels.contains value then .ok () else .error (.wrongValue "--log-level" value)

def checkedPath (option value : String) : Except UsageError String :=
  if value.isEmpty then .error (.wrongValue option value) else .ok value

structure Draft where
  ast : Option String := none
  source : Option String := none
  config : Option String := none
  lints : List Lint := []
  format : Option Format := none
  levelGiven : Bool := false

namespace Draft

def finish (d : Draft) : Except UsageError Request :=
  match d.ast with
  | none => .error .missingTree
  | some ast => .ok (.check ⟨ast, d.source, d.config, d.lints, d.format.getD .text⟩)

def addPath (d : Draft) (path : String) : Except UsageError Draft :=
  match d.ast with
  | some _ => .error (.unexpected path)
  | none => do return { d with ast := ← checkedPath "<AST>" path }

def addOption (d : Draft) (name value : String) : Except UsageError Draft := do
  if name = "source" then
    if d.source.isSome then throw (.repeated "--source")
    return { d with source := ← checkedPath "--source" value }
  else if name = "config" then
    if d.config.isSome then throw (.repeated "--config")
    return { d with config := ← checkedPath "--config" value }
  else if name = "lint" then
    match Lint.ofName? value with
    | some lint => return { d with lints := d.lints ++ [lint] }
    | none => throw (.wrongValue "--lint" value)
  else if name = "format" then
    if d.format.isSome then throw (.repeated "--format")
    match Format.ofName? value with
    | some format => return { d with format := some format }
    | none => throw (.wrongValue "--format" value)
  else
    if d.levelGiven then throw (.repeated "--log-level")
    checkedLevel value
    return { d with levelGiven := true }

end Draft

def checkOptions : List String := ["source", "config", "lint", "format", "log-level"]

def readCheck : Nat → Draft → List String → Except UsageError Request
  | 0, d, _ => d.finish
  | _, d, [] => d.finish
  | fuel + 1, d, argument :: rest =>
    match Token.ofArgument argument with
    | .terminator => do (← rest.foldlM Draft.addPath d).finish
    | .plain path => do readCheck fuel (← d.addPath path) rest
    | .short letter => if letter = 'h' then .ok .help else .error (.unexpected argument)
    | .long name joined =>
      if name = "help" ∧ joined = none then .ok .help
      else if checkOptions.contains name then do
        let (value, rest) ← valueOf ("--" ++ name) joined rest
        readCheck fuel (← d.addOption name value) rest
      else .error (.unexpected argument)

def readHelp : List String → Except UsageError Request
  | [] | ["check"] | ["help"] => .ok .help
  | argument :: _ => .error (.unknownCommand argument)

def readRoot : Nat → Bool → List String → Except UsageError Request
  | 0, _, _ => .error .noCommand
  | _, _, [] => .error .noCommand
  | fuel + 1, levelGiven, argument :: rest =>
    match Token.ofArgument argument with
    | .terminator => .error .noCommand
    | .plain name =>
      if name = "check" then readCheck rest.length {} rest
      else if name = "help" then readHelp rest
      else .error (.unknownCommand name)
    | .short letter =>
      if letter = 'V' then .ok .version
      else if letter = 'h' then .ok .help
      else .error (.unexpected argument)
    | .long name joined =>
      if name = "version" ∧ joined = none then .ok .version
      else if name = "help" ∧ joined = none then .ok .help
      else if name = "log-level" then
        if levelGiven then .error (.repeated "--log-level")
        else do
          let (value, rest) ← valueOf "--log-level" joined rest
          checkedLevel value
          readRoot fuel true rest
      else .error (.unexpected argument)

def readArguments (arguments : List String) : Except UsageError Request :=
  readRoot arguments.length false arguments

end SyntaxWalk.CommandLine
