import SyntaxWalk.Walk
import SyntaxWalk.Location.Json

/-!
# Diagnostics

Warnings, which a run collects, and the errors that end it: a syntax error raised by a handler,
which carries its source text, and a node whose children are not known.
-/

namespace SyntaxWalk

structure Warning where
  loc : Option Loc
  filename : String
  description : String
  deriving DecidableEq

structure SyntaxError where
  loc : Option Loc
  description : String
  source : String
  filename : String
  deriving DecidableEq

abbrev PassError := WalkError SyntaxError

def Word.add? (a b : UInt64) : Option UInt64 :=
  if a.toNat + b.toNat < UInt64.size then some (a + b) else none

def wordText (n : UInt64) : String := String.ofList (Decimal.digitsOf n.toNat)

/-- Line and column as people count them, both from one. The program stops where the column after
that of the position is not a word; here and in all that is made from it, that is `none`. -/
def Position.shown? (p : Position) : Option String :=
  (Word.add? p.column 1).map fun column => wordText p.line ++ ":" ++ wordText column

def placeText? (filename : String) : Option Loc → Option String
  | some loc => loc.start.shown?.map fun place => filename ++ ":" ++ place ++ ": "
  | none => some (filename ++ ": ")

def Warning.text? (w : Warning) : Option String :=
  (placeText? w.filename w.loc).map (· ++ "warning: " ++ w.description)

def Warning.toJson (w : Warning) : Json :=
  .object ⟨[("loc", locJson w.loc), ("filename", .string w.filename),
    ("description", .string w.description)]⟩

def SyntaxError.text? (e : SyntaxError) : Option String :=
  (placeText? e.filename e.loc).map (· ++ e.description)

def unknownKindText (kind : String) : String := "unknown node type '" ++ kind ++ "'"

namespace PassError

def text? : PassError → Option String
  | .failed e => e.text?
  | .unknownKind node => some (unknownKindText node.kind)

def syntaxError? : PassError → Option SyntaxError
  | .failed e => some e
  | .unknownKind _ => none

end PassError

end SyntaxWalk
