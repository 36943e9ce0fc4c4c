import SyntaxWalk.Node
import SyntaxWalk.Location.Json
import SyntaxWalk.Json.Reader
import SyntaxWalk.Json.Printer

/-!
# Trees in JSON

An ESTree object carries the kind as `type`, the location as `loc`, and the fields beside them. A
member is classified by its shape: an object with a string `type` is a node, an array of such
objects and nulls a list, anything else a plain value. The first fault is reported: the kind before
the location before the fields in the order of the object.
-/

namespace SyntaxWalk

def isNodeObject (members : NameMap Json) : Bool :=
  match members.get? "type" with
  | some (.string _) => true
  | _ => false

def isNodeOrHole : Json → Bool
  | .null => true
  | .object members => isNodeObject members
  | _ => false

namespace Node

def readKind : Option Json → Except DecodeError String
  | some (.string kind) => .ok kind
  | some _ => .error .kindNotString
  | none => .error (.missingField "type")

def readLoc : Option Json → Except DecodeError (Option Loc)
  | none | some .null => .ok none
  | some v => (Loc.ofJson v).map some

def isReserved (name : String) : Bool := name = "type" || name = "loc"

def assemble (members : NameMap Json) (fields : Except DecodeError (List (String × Field Node))) :
    Except DecodeError Node := do
  let kind ← readKind (members.get? "type")
  let loc ← readLoc (members.get? "loc")
  return ⟨kind, loc, ⟨← fields⟩⟩

mutual

def ofJson : Json → Except DecodeError Node
  | .object ⟨entries⟩ => assemble ⟨entries⟩ (fieldsOfJson entries)
  | _ => .error .notANode

def fieldsOfJson : List (String × Json) → Except DecodeError (List (String × Field Node))
  | [] => .ok []
  | (name, v) :: rest =>
    if isReserved name then fieldsOfJson rest
    else do
      let field ← fieldOfJson v
      return (name, field) :: (← fieldsOfJson rest)

def fieldOfJson : Json → Except DecodeError (Field Node)
  | .object ⟨entries⟩ =>
    if isNodeObject ⟨entries⟩ then (assemble ⟨entries⟩ (fieldsOfJson entries)).map .node
    else .ok (.value (.object ⟨entries⟩))
  | .array items =>
    if items.all isNodeOrHole then (itemsOfJson items).map .list else .ok (.value (.array items))
  | v => .ok (.value v)

def itemsOfJson : List Json → Except DecodeError (List (Option Node))
  | [] => .ok []
  | .object ⟨entries⟩ :: rest => do
    let n ← assemble ⟨entries⟩ (fieldsOfJson entries)
    return some n :: (← itemsOfJson rest)
  | _ :: rest => do return none :: (← itemsOfJson rest)

end

def locEntry : Option Json → List (String × Json)
  | some loc => [("loc", loc)]
  | none => []

mutual

def document : Node → Json
  | ⟨kind, loc, ⟨fields⟩⟩ =>
    .object ⟨("type", .string kind) :: locEntry (loc.map Loc.document) ++ documentFields fields⟩

def documentFields : List (String × Field Node) → List (String × Json)
  | [] => []
  | (name, field) :: rest => (name, documentField field) :: documentFields rest

def documentField : Field Node → Json
  | .node n => n.document
  | .list items => .array (documentItems items)
  | .value v => v

def documentItems : List (Option Node) → List Json
  | [] => []
  | none :: rest => .null :: documentItems rest
  | some n :: rest => n.document :: documentItems rest

end

def text (n : Node) : String := n.document.compact

mutual

/-- The tree as a JSON value. A field named `type` or `loc` hides the node's own. -/
def toJson : Node → Json
  | ⟨kind, loc, ⟨fields⟩⟩ =>
    Json.ofEntries (("type", .string kind) :: locEntry (loc.map Loc.toJson) ++ fieldsToJson fields)

def fieldsToJson : List (String × Field Node) → List (String × Json)
  | [] => []
  | (name, field) :: rest => (name, fieldToJson field) :: fieldsToJson rest

def fieldToJson : Field Node → Json
  | .node n => n.toJson
  | .list items => .array (itemsToJson items)
  | .value v => v

def itemsToJson : List (Option Node) → List Json
  | [] => []
  | none :: rest => .null :: itemsToJson rest
  | some n :: rest => n.toJson :: itemsToJson rest

end

theorem ofJson_notANode {v : Json} (h : ∀ members, v ≠ .object members) :
    ofJson v = .error .notANode := by
  cases v with
  | object members => exact absurd rfl (h members)
  | _ => rfl

theorem fieldOfJson_object (members : NameMap Json) (h : isNodeObject members) :
    fieldOfJson (.object members) = (ofJson (.object members)).map .node := by
  obtain ⟨entries⟩ := members
  simp [fieldOfJson, ofJson, h]

end Node

namespace Field

def ofJson (v : Json) : Except DecodeError (Field Node) := Node.fieldOfJson v

def document (f : Field Node) : Json := Node.documentField f

end Field

inductive ParseError where
  | text (e : JsonNumber.ReadError)
  | shape (e : DecodeError)
  deriving DecidableEq

def parseTree (source : String) : Except ParseError Node := do
  (Node.ofJson (← (Json.read source).mapError .text)).mapError .shape

def nestingLimit : Nat := 127

/-- Reads a text with limited nesting; what follows the value is looked at after its shape. -/
def parseGuarded {α : Type} (decode : Json → Except DecodeError α) (source : String) :
    Except ParseError α := do
  let (v, rest) ← (Json.readStart (some nestingLimit) source).mapError .text
  let a ← (decode v).mapError .shape
  (Json.readEnd rest).mapError .text
  return a

/-- Reads a text with limited nesting, all of it before the shape is looked at. -/
def parseGuardedWhole {α : Type} (decode : Json → Except DecodeError α) (source : String) :
    Except ParseError α := do
  (decode (← (Json.read source (some nestingLimit)).mapError .text)).mapError .shape

end SyntaxWalk
