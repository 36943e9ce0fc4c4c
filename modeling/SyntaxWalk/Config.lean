import SyntaxWalk.Files
import SyntaxWalk.Lint
import SyntaxWalk.Toml.Reader

/-!
# Configuration

A configuration text says how unknown kinds are walked, which kinds are leaves, which fields of a
kind are walked, and which lints run. Nothing it does not know is accepted; its first fault in the
order of the text is reported, and the names of lints are checked when all else was read.
-/

namespace SyntaxWalk

open Toml (Value)

structure WalkConfig where
  fallback : Fallback := .error
  leaves : List String := []
  keys : NameMap (List String) := .empty
  deriving DecidableEq

structure LintConfig where
  enabled : List String := []
  deriving DecidableEq

structure Config where
  walk : WalkConfig := {}
  lints : LintConfig := {}
  deriving DecidableEq

/-- What is wrong with a text: its grammar, its shape, or the shape of its fallback. -/
inductive ConfigFault where
  | grammar
  | shape (e : DecodeError)
  | fallback
  deriving DecidableEq

inductive ConfigError where
  | unreadable (path : String) (e : FileError)
  | invalid (path : Option String) (fault : ConfigFault)
  | unknownLint (name : String)
  deriving DecidableEq

namespace ConfigFault

def text : ConfigFault → String
  | .grammar => "not valid TOML"
  | .shape e => e.message
  | .fallback => "fallback must be a string"

def wrongType {α : Type} (v : Value) (expected : String) : Except ConfigFault α :=
  .error (.shape (.wrongType v.found expected))

def unknownField {α : Type} (name : String) (known : List String) : Except ConfigFault α :=
  .error (.shape (.unknownField name known))

end ConfigFault

open ConfigFault (wrongType unknownField)

namespace Config

def invalidHeading : Option String → String
  | some path => "invalid config in " ++ path ++ ": "
  | none => "invalid config: "

def decodeString : Value → Except ConfigFault String
  | .string s => .ok s
  | v => wrongType v "a string"

def decodeStrings : Value → Except ConfigFault (List String)
  | .array items => items.mapM decodeString
  | v => wrongType v "a sequence"

def isEmptyValue : Value → Bool
  | .array items => items.isEmpty
  | .table entries => entries.isEmpty
  | _ => false

def decodeFallbackName (name : String) : Except ConfigFault Fallback :=
  (Fallback.ofName name).mapError .shape

/-- A name, or a table that has the name as its only key and nothing under it. The name is read
before what is under it. -/
def decodeFallback : Value → Except ConfigFault Fallback
  | .string name => decodeFallbackName name
  | .table [(name, v)] => do
    let fallback ← decodeFallbackName name
    if isEmptyValue v then .ok fallback else .error .fallback
  | _ => .error .fallback

def decodeKeys : Value → Except ConfigFault (NameMap (List String))
  | .table entries =>
    entries.foldlM (fun keys (kind, v) => do return keys.insert kind (← decodeStrings v)) .empty
  | .dateTime d => do
    return NameMap.empty.insert Toml.dateTimeKey (← decodeStrings (.string d.text))
  | v => wrongType v "a map"

def walkFields : List String := ["fallback", "leaves", "keys"]

def decodeWalkField (w : WalkConfig) : String × Value → Except ConfigFault WalkConfig
  | (name, v) => do
    if name = "fallback" then return { w with fallback := ← decodeFallback v }
    else if name = "leaves" then return { w with leaves := ← decodeStrings v }
    else if name = "keys" then return { w with keys := ← decodeKeys v }
    else unknownField name walkFields

/-- A table, or an array that gives the fields in their order and is not read past them. -/
def decodeWalk : Value → Except ConfigFault WalkConfig
  | .table entries => entries.foldlM decodeWalkField {}
  | .array items => (walkFields.zip items).foldlM decodeWalkField {}
  | .dateTime _ => unknownField Toml.dateTimeKey walkFields
  | v => wrongType v "struct WalkConfig"

def lintFields : List String := ["enabled"]

def decodeLintField (l : LintConfig) : String × Value → Except ConfigFault LintConfig
  | (name, v) => do
    if name = "enabled" then return { l with enabled := ← decodeStrings v }
    else unknownField name lintFields

def decodeLints : Value → Except ConfigFault LintConfig
  | .table entries => entries.foldlM decodeLintField {}
  | .array items => (lintFields.zip items).foldlM decodeLintField {}
  | .dateTime _ => unknownField Toml.dateTimeKey lintFields
  | v => wrongType v "struct LintConfig"

def decodeField (c : Config) : String × Value → Except ConfigFault Config
  | (name, v) => do
    if name = "walk" then return { c with walk := ← decodeWalk v }
    else if name = "lints" then return { c with lints := ← decodeLints v }
    else unknownField name ["walk", "lints"]

def read (text : String) : Except ConfigFault Config :=
  match Toml.read? text with
  | none => .error .grammar
  | some entries => entries.foldlM decodeField {}

def validate (c : Config) : Except ConfigError Config :=
  match c.lints.enabled.find? fun name => (Lint.ofName? name).isNone with
  | some name => .error (.unknownLint name)
  | none => .ok c

def parse (text : String) (path : Option String) : Except ConfigError Config := do
  ((read text).mapError (ConfigError.invalid path)) >>= validate

variable {m : Type → Type} [Monad m]

def load (files : Files m) (path : String) : m (Except ConfigError Config) := do
  match ← files.read path with
  | .error e => return .error (.unreadable path e)
  | .ok text => return parse text (some path)

def fileName : String := "treepass.toml"

def pathIn (directory name : String) : String :=
  if directory.toList.getLast? = some '/' then directory ++ name else directory ++ "/" ++ name

def discover (files : Files m) (directory : String) : m (Except ConfigError (Option Config)) := do
  let path := pathIn directory fileName
  if ← files.isFile path then return (← load files path).map some else return .ok none

/-- The table of a configuration: ESTree, then its leaves, then its keys on top. -/
def visitorKeys (c : Config) : VisitorKeys :=
  let keys := VisitorKeys.estree.withFallback c.walk.fallback
  let keys := c.walk.leaves.foldl VisitorKeys.registerLeaf keys
  keys.registerAll c.walk.keys

theorem validate_ok {c d : Config} (h : c.validate = .ok d) :
    d = c ∧ ∀ name ∈ c.lints.enabled, (Lint.ofName? name).isSome := by
  unfold validate at h
  split at h
  · cases h
  · rename_i hnone
    refine ⟨(Except.ok.inj h).symm, fun name hmem => ?_⟩
    have := List.find?_eq_none.1 hnone name hmem
    simpa [Option.isSome_iff_ne_none] using this

end Config

def ConfigError.text : ConfigError → String
  | .unreadable path e => "failed to read " ++ path ++ ": " ++ e.text
  | .invalid path fault => Config.invalidHeading path ++ fault.text
  | .unknownLint name =>
    "unknown lint '" ++ name ++ "' (known: " ++ ", ".intercalate (Lint.all.map Lint.name) ++ ")"

end SyntaxWalk
