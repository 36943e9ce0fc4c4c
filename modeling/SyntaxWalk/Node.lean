import SyntaxWalk.Location
import SyntaxWalk.Json.Value

/-!
# Syntax trees

A node has a kind, perhaps a location, and named fields. A field holds one node, a list of nodes
and holes, or a plain value. Which fields are walked is not the node's business.
-/

namespace SyntaxWalk

inductive Field (α : Type) where
  | node (n : α)
  | list (items : List (Option α))
  | value (v : Json)
  deriving Inhabited

structure Node where
  kind : String
  loc : Option Loc := none
  fields : NameMap (Field Node) := .empty
  deriving Inhabited

structure NodeInfo where
  kind : String
  loc : Option Loc
  deriving DecidableEq

/-- How a node was reached: the parent without the field being walked, and the place in it. -/
structure Parent where
  node : Node
  key : String
  index : Option Nat := none

namespace Field

variable {α : Type}

def holdsNodes : Field α → Bool
  | .value _ => false
  | _ => true

def node? : Field α → Option α
  | .node n => some n
  | _ => none

def value? : Field α → Option Json
  | .value v => some v
  | _ => none

def nodes : Field α → List α
  | .node n => [n]
  | .list items => items.filterMap id
  | .value _ => []

end Field

namespace Node

def new (kind : String) : Node := { kind }

def info (n : Node) : NodeInfo := ⟨n.kind, n.loc⟩

def withLoc (n : Node) (loc : Loc) : Node := { n with loc := some loc }

def setField (n : Node) (key : String) (field : Field Node) : Node :=
  { n with fields := n.fields.insert key field }

def withChild (n : Node) (key : String) (child : Node) : Node := n.setField key (.node child)

def withChildren (n : Node) (key : String) (children : List Node) : Node :=
  n.setField key (.list (children.map some))

def withValue (n : Node) (key : String) (v : Json) : Node := n.setField key (.value v)

def eraseField (n : Node) (key : String) : Node := { n with fields := n.fields.erase key }

def replaceField (n : Node) (key : String) (field : Field Node) : Node :=
  { n with fields := n.fields.replace key field }

def field? (n : Node) (key : String) : Option (Field Node) := n.fields.get? key

def child? (n : Node) (key : String) : Option Node := (n.field? key).bind Field.node?

def children (n : Node) (key : String) : List Node := ((n.field? key).map Field.nodes).getD []

def value? (n : Node) (key : String) : Option Json := (n.field? key).bind Field.value?

def string? (n : Node) (key : String) : Option String := (n.value? key).bind Json.string?

/-- Edits the single node under a key; a key without one leaves the node as it is. -/
def mapChild (n : Node) (key : String) (f : Node → Node) : Node :=
  match n.child? key with
  | some child => n.replaceField key (.node (f child))
  | none => n

def withKind (n : Node) (kind : String) : Node := { n with kind }

mutual

/-- The number of nodes of a tree, along every field that holds nodes. -/
def count : Node → Nat
  | ⟨_, _, ⟨fields⟩⟩ => 1 + countFields fields

def countFields : List (String × Field Node) → Nat
  | [] => 0
  | (_, field) :: rest => countField field + countFields rest

def countField : Field Node → Nat
  | .node n => n.count
  | .list items => countItems items
  | .value _ => 0

def countItems : List (Option Node) → Nat
  | [] => 0
  | none :: rest => countItems rest
  | some n :: rest => n.count + countItems rest

end

mutual

def height : Node → Nat
  | ⟨_, _, ⟨fields⟩⟩ => 1 + heightFields fields

def heightFields : List (String × Field Node) → Nat
  | [] => 0
  | (_, field) :: rest => max (heightField field) (heightFields rest)

def heightField : Field Node → Nat
  | .node n => n.height
  | .list items => heightItems items
  | .value _ => 0

def heightItems : List (Option Node) → Nat
  | [] => 0
  | none :: rest => heightItems rest
  | some n :: rest => max n.height (heightItems rest)

end

mutual

def same : Node → Node → Bool
  | ⟨kind, loc, ⟨fields⟩⟩, ⟨kind', loc', ⟨fields'⟩⟩ =>
    kind == kind' && loc == loc' && sameFields fields fields'
termination_by structural n _ => n

def sameFields : List (String × Field Node) → List (String × Field Node) → Bool
  | [], [] => true
  | (key, field) :: rest, (key', field') :: rest' =>
    key == key' && sameField field field' && sameFields rest rest'
  | _, _ => false

def sameField : Field Node → Field Node → Bool
  | .node n, .node n' => n.same n'
  | .list items, .list items' => sameItems items items'
  | .value v, .value v' => v == v'
  | _, _ => false

def sameItems : List (Option Node) → List (Option Node) → Bool
  | [], [] => true
  | none :: rest, none :: rest' => sameItems rest rest'
  | some n :: rest, some n' :: rest' => n.same n' && sameItems rest rest'
  | _, _ => false

end

instance : BEq Node := ⟨same⟩

theorem count_pos (n : Node) : 0 < n.count := by
  obtain ⟨kind, loc, fields⟩ := n
  simp only [count]
  omega

theorem count_le_countItems {n : Node} {items : List (Option Node)} (h : some n ∈ items) :
    n.count ≤ countItems items := by
  induction items with
  | nil => cases h
  | cons item rest ih =>
    rcases List.mem_cons.1 h with rfl | h
    · simp [countItems]
    · have := ih h
      cases item <;> simp only [countItems] <;> omega

theorem count_le_countField {n : Node} {field : Field Node} (h : n ∈ field.nodes) :
    n.count ≤ countField field := by
  cases field with
  | node m => simp only [Field.nodes, List.mem_singleton] at h; simp [countField, h]
  | list items =>
    simp only [Field.nodes, List.mem_filterMap, id] at h
    obtain ⟨item, hmem, rfl⟩ := h
    exact count_le_countItems hmem
  | value v => cases h

theorem countField_le_countFields {key : String} {field : Field Node}
    {fields : List (String × Field Node)} (h : NameMap.find key fields = some field) :
    countField field ≤ countFields fields := by
  induction fields with
  | nil => cases h
  | cons entry rest ih =>
    obtain ⟨name, other⟩ := entry
    simp only [NameMap.find] at h
    simp only [countFields]
    split at h
    · cases h; omega
    · have := ih h; omega

theorem count_lt_of_mem_children {n child : Node} {key : String} (h : child ∈ n.children key) :
    child.count < n.count := by
  obtain ⟨kind, loc, ⟨fields⟩⟩ := n
  simp only [children, field?, NameMap.get?] at h
  cases hf : NameMap.find key fields with
  | none => simp [hf] at h
  | some field =>
    have hfields := countField_le_countFields hf
    have hfield : child.count ≤ countField field := count_le_countField (by simpa [hf] using h)
    simp only [count]
    omega

theorem count_lt_of_child? {n child : Node} {key : String} (h : n.child? key = some child) :
    child.count < n.count := by
  have hmem : child ∈ n.children key := by
    simp only [child?, children] at h ⊢
    cases hf : n.field? key with
    | none => simp [hf] at h
    | some field => cases field <;> simp_all [Field.node?, Field.nodes]
  exact count_lt_of_mem_children hmem

theorem replaceField_names (n : Node) (key : String) (field : Field Node) :
    (n.replaceField key field).fields.names = n.fields.names := NameMap.names_replace ..

theorem field?_replaceField (n : Node) (key other : String) (field : Field Node) :
    (n.replaceField key field).field? other =
      if other = key then (n.field? key).map fun _ => field else n.field? other :=
  NameMap.get?_replace ..

theorem field?_eraseField (n : Node) (key other : String) :
    (n.eraseField key).field? other = if other = key then none else n.field? other :=
  NameMap.get?_erase ..

theorem eraseField_names (n : Node) (key : String) :
    (n.eraseField key).fields.names = n.fields.names.filter (· ≠ key) := NameMap.names_erase ..

theorem child?_withChild (n child : Node) (key : String) :
    (n.withChild key child).child? key = some child := by
  simp [withChild, setField, child?, field?, NameMap.get?_insert, Field.node?]

end Node

end SyntaxWalk
