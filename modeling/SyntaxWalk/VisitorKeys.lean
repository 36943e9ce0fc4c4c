import SyntaxWalk.Node
import SyntaxWalk.Json.Decode

/-!
# Visitor keys

Which fields of a node are walked, by its kind. For a kind that is not in the table the fallback
decides: the walk fails there, or takes the fields that hold nodes in the order of their names.
-/

namespace SyntaxWalk

inductive Fallback where
  | error
  | fields
  deriving DecidableEq, Inhabited

namespace Fallback

def known : List String := ["error", "fields"]

def ofName (name : String) : Except DecodeError Fallback :=
  if name = "error" then .ok .error
  else if name = "fields" then .ok .fields
  else .error (.unknownVariant name known)

def name : Fallback → String
  | .error => "error"
  | .fields => "fields"

def ofJson : Json → Except DecodeError Fallback
  | .string name => ofName name
  | .object ⟨[(name, v)]⟩ => do
    let fallback ← ofName name
    match v with
    | .null => return fallback
    | v => throw (.wrongType v.found "unit")
  | .object _ => .error .notASingleKey
  | v => .error (.wrongType v.found "string or map")

end Fallback

structure VisitorKeys where
  table : NameMap (List String) := .empty
  fallback : Fallback := .error

namespace VisitorKeys

def empty : VisitorKeys := {}

def withFallback (keys : VisitorKeys) (fallback : Fallback) : VisitorKeys := { keys with fallback }

def register (keys : VisitorKeys) (kind : String) (fields : List String) : VisitorKeys :=
  { keys with table := keys.table.insert kind fields }

def registerLeaf (keys : VisitorKeys) (kind : String) : VisitorKeys := keys.register kind []

def registerAll (keys : VisitorKeys) (table : NameMap (List String)) : VisitorKeys :=
  { keys with table := keys.table.overlay table }

def contains (keys : VisitorKeys) (kind : String) : Bool := keys.table.contains kind

def nodeFields (n : Node) : List String :=
  (n.fields.entries.filter fun (_, field) => field.holdsNodes).map Prod.fst

/-- The fields of a node to walk, in order; none where the walk has to fail. -/
def childKeys? (keys : VisitorKeys) (n : Node) : Option (List String) :=
  match keys.table.get? n.kind with
  | some fields => some fields
  | none =>
    match keys.fallback with
    | .error => none
    | .fields => some (nodeFields n)

theorem childKeys?_register (keys : VisitorKeys) (n : Node) (fields : List String) :
    (keys.register n.kind fields).childKeys? n = some fields := by
  simp [childKeys?, register, NameMap.get?_insert]

theorem childKeys?_eq_none {keys : VisitorKeys} {n : Node} :
    keys.childKeys? n = none ↔ keys.table.get? n.kind = none ∧ keys.fallback = .error := by
  unfold childKeys?
  cases keys.table.get? n.kind <;> cases keys.fallback <;> simp

end VisitorKeys

end SyntaxWalk
