import SyntaxWalk.CommandLine.Arguments
import SyntaxWalk.Config
import SyntaxWalk.Diagnostic.Excerpt
import SyntaxWalk.Node.Json

/-!
# The command line

`check` reads the configuration, the tree and the source, in this order, runs the lints, and reports
the warnings. It ends with 0 when the run succeeds, with 1 when the run fails, and with 2 when there
was nothing to run on. A report that shows the greatest column stops it.
-/

namespace SyntaxWalk.CommandLine

structure Exit where
  code : UInt8
  stdout : String := ""
  stderr : String := ""
  deriving DecidableEq

/-- A program that is stopped by a sum that is not a word, after it has printed something. -/
def Exit.stopped (stdout : String) : Exit := ⟨101, stdout, "attempt to add with overflow\n"⟩

inductive CheckError where
  | config (e : ConfigError)
  | unreadable (path : String) (e : FileError)
  | invalidTree (path : String) (e : ParseError)
  | failed (e : PassError) (hasSource : Bool)
  | unfinished

structure Job where
  tree : Node
  options : Options
  lints : List Lint
  hasSource : Bool

structure Report where
  warnings : List Warning
  source : Option String

def parseErrorText : ParseError → String
  | .text .malformed => "malformed JSON"
  | .text .unfinished => "unexpected end of JSON"
  | .shape e => e.message

namespace CheckError

def code : CheckError → UInt8
  | .failed .. => 1
  | _ => 2

def text? : CheckError → Option String
  | .config e => some ("error: " ++ e.text ++ "\n")
  | .unreadable path e => some ("error: failed to read " ++ path ++ ": " ++ e.text ++ "\n")
  | .invalidTree path e =>
    some ("error: invalid AST in " ++ path ++ ": " ++ parseErrorText e ++ "\n")
  | .failed e true => e.render?
  | .failed e false => e.text?.map fun text => "error: " ++ text ++ "\n"
  | .unfinished => some "error: the walk did not finish\n"

def exit (e : CheckError) : Exit :=
  match e.text? with
  | some text => ⟨e.code, "", text⟩
  | none => .stopped ""

end CheckError

/-- Separators, and steps to the place itself, at the end of a reversed path. -/
def trimEnd : List Char → List Char
  | '/' :: rest => trimEnd rest
  | '.' :: '/' :: rest => trimEnd rest
  | path => path

def directoryOf (path : String) : String :=
  let above := trimEnd ((trimEnd path.toList.reverse).dropWhile (· ≠ '/'))
  if above ≠ [] then String.ofList above.reverse
  else if path.toList.head? = some '/' ∧ trimEnd path.toList.reverse ≠ [] then "/"
  else "."

def selectLints (asked : List Lint) (c : Config) : List Lint :=
  if asked ≠ [] then asked
  else if c.lints.enabled ≠ [] then c.lints.enabled.filterMap Lint.ofName?
  else Lint.all

section

variable {m : Type → Type} [Monad m]

def loadConfig (files : Files m) (a : CheckArguments) : m (Except CheckError Config) := do
  match a.config with
  | some path => return (← Config.load files path).mapError .config
  | none =>
    return ((← Config.discover files (directoryOf a.ast)).map (·.getD {})).mapError .config

def readFile (files : Files m) (path : String) : m (Except CheckError String) := do
  return (← files.read path).mapError (.unreadable path)

def loadTree (files : Files m) (path : String) : m (Except CheckError Node) := do
  match ← readFile files path with
  | .error e => return .error e
  | .ok text => return (parseTree text).mapError (.invalidTree path)

/-- Source and filename of the run; without a source the tree's own path names the file. -/
def loadSource (files : Files m) (a : CheckArguments) :
    m (Except CheckError (String × String)) := do
  match a.source with
  | some path => return (← readFile files path).map fun source => (source, path)
  | none => return .ok ("", a.ast)

def prepare (files : Files m) (a : CheckArguments) : m (Except CheckError Job) := do
  match ← loadConfig files a with
  | .error e => return .error e
  | .ok config =>
    match ← loadTree files a.ast with
    | .error e => return .error e
    | .ok tree =>
      match ← loadSource files a with
      | .error e => return .error e
      | .ok (source, filename) =>
        return .ok ⟨tree, ⟨source, filename, config.visitorKeys⟩, selectLints a.lints config,
          a.source.isSome⟩

end

/-- Lints walk no deeper than the tree, so its size is fuel enough. -/
def Job.run (j : Job) : Except CheckError Report :=
  match runPasses j.tree.count j.tree j.options (j.lints.map Lint.handlers) {} () with
  | none => .error .unfinished
  | some pooled =>
    match pooled.tree with
    | .error e => .error (.failed e j.hasSource)
    | .ok _ => .ok ⟨pooled.results.warnings, if j.hasSource then some j.options.source else none⟩

def warningText? (source : Option String) (w : Warning) : Option String :=
  match source with
  | some source => some (w.render source)
  | none => w.text?.map (· ++ "\n")

def joinMade : List (Option String) → String
  | some text :: rest => text ++ joinMade rest
  | _ => ""

def countText (n : Nat) : String :=
  String.ofList (Decimal.digitsOf n) ++ (if n = 1 then " warning\n" else " warnings\n")

def warningsJson (warnings : List Warning) : Json :=
  .object ⟨[("warnings", .array (warnings.map Warning.toJson))]⟩

def Report.exit (r : Report) : Format → Exit
  | .text =>
    let texts := r.warnings.map (warningText? r.source)
    if texts.all Option.isSome then ⟨0, joinMade texts, countText r.warnings.length⟩
    else .stopped (joinMade texts)
  | .json => ⟨0, (warningsJson r.warnings).pretty ++ "\n", ""⟩

def exitOf (format : Format) : Except CheckError Report → Exit
  | .ok r => r.exit format
  | .error e => e.exit

def versionText : String := "treepass 0.1.0\n"

def usageText : String :=
  "Usage: treepass [--log-level LEVEL] check [--source PATH] [--config PATH] [--lint NAME]... " ++
    "[--format FORMAT] AST\n"

def execute {m : Type → Type} [Monad m] (files : Files m) (arguments : List String) : m Exit := do
  match readArguments arguments with
  | .error e => return ⟨2, "", "error: " ++ e.text ++ "\n\n" ++ usageText⟩
  | .ok .version => return ⟨0, versionText, ""⟩
  | .ok .help => return ⟨0, usageText, ""⟩
  | .ok (.check a) =>
    match ← prepare files a with
    | .error e => return e.exit
    | .ok job => return exitOf a.format job.run

theorem selectLints_ne_nil {asked : List Lint} {c : Config} (h : c.validate = .ok c) :
    selectLints asked c ≠ [] := by
  have hknown := (Config.validate_ok h).2
  unfold selectLints
  split
  · assumption
  · split
    · rename_i _ hne
      obtain ⟨name, rest, hcons⟩ := List.exists_cons_of_ne_nil hne
      have hname := hknown name (by simp [hcons])
      obtain ⟨lint, hlint⟩ := Option.isSome_iff_exists.1 hname
      simp [hcons, hlint]
    · simp [Lint.all]

end SyntaxWalk.CommandLine
