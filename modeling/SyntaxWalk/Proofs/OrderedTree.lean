import SyntaxWalk.VisitorKeys

/-!
# Ordered trees

A tree is ordered when every node in it holds its fields in increasing order of their names, as
`insert` leaves them. Such a node has each field once, and writing a field keeps it so. A `Tree` has
the proof of that with it from where it is put together. A table that lists no field twice gives
none twice for such a node (`VisitorKeys.Distinct.childKeys?`).
-/

namespace SyntaxWalk

namespace NameMap

variable {α : Type} {name : String} {value : α} {entries : List (String × α)}

theorem mem_of_find (h : find name entries = some value) : (name, value) ∈ entries := by
  induction entries with
  | nil => cases h
  | cons entry rest ih =>
    obtain ⟨other, v⟩ := entry
    rw [find] at h
    split at h
    · rename_i heq
      cases h
      rw [heq]
      exact List.mem_cons_self
    · exact List.mem_cons_of_mem _ (ih h)

theorem find_eq_none : find name entries = none ↔ name ∉ entries.map Prod.fst := by
  induction entries with
  | nil => simp [find]
  | cons entry rest ih =>
    obtain ⟨other, v⟩ := entry
    rw [find]
    by_cases h : other = name
    · simp [h]
    · simp [h, ih, Ne.symm h]

theorem mem_overwrite {entry : String × α} (h : entry ∈ overwrite name value entries) :
    entry ∈ entries ∨ entry = (name, value) := by
  induction entries with
  | nil => cases h
  | cons first rest ih =>
    obtain ⟨other, v⟩ := first
    rw [overwrite] at h
    split at h
    · rename_i heq
      rcases List.mem_cons.1 h with rfl | hrest
      · exact .inr (by rw [heq])
      · exact .inl (List.mem_cons_of_mem _ hrest)
    · rcases List.mem_cons.1 h with rfl | hrest
      · exact .inl List.mem_cons_self
      · exact (ih hrest).imp (List.mem_cons_of_mem _) id

theorem mem_put {entry : String × α} (h : entry ∈ put name value entries) :
    entry ∈ entries ∨ entry = (name, value) := by
  fun_induction put name value entries with
  | case1 => exact .inr (List.mem_singleton.1 h)
  | case2 => exact (List.mem_cons.1 h).elim .inr fun hrest => .inl (List.mem_cons_of_mem _ hrest)
  | case3 => exact (List.mem_cons.1 h).symm
  | case4 other v rest hne hlt ih =>
    rcases List.mem_cons.1 h with rfl | hrest
    · exact .inl List.mem_cons_self
    · exact (ih hrest).imp (List.mem_cons_of_mem _) id

theorem Sorted.nodup {m : NameMap α} (h : m.Sorted) : m.names.Nodup := by
  apply h.imp
  intro a b hlt heq
  rw [heq] at hlt
  exact String.lt_irrefl b hlt

end NameMap

namespace Node

inductive Ordered : Node → Prop
  | mk {n : Node} (names : n.fields.Sorted)
      (children : ∀ entry ∈ n.fields.entries, ∀ child ∈ entry.2.nodes, child.Ordered) : n.Ordered

namespace Ordered

variable {n : Node} {key : String} {field : Field Node}

theorem names (h : n.Ordered) : n.fields.Sorted := by
  cases h
  assumption

theorem children (h : n.Ordered) :
    ∀ entry ∈ n.fields.entries, ∀ child ∈ entry.2.nodes, child.Ordered := by
  cases h
  assumption

theorem of_field? (h : n.Ordered) (hfield : n.field? key = some field) :
    ∀ child ∈ field.nodes, child.Ordered :=
  h.children (key, field) (NameMap.mem_of_find hfield)

theorem replaceField (h : n.Ordered) (hfield : ∀ child ∈ field.nodes, child.Ordered) :
    (n.replaceField key field).Ordered := by
  constructor
  · have hnames := h.names
    rwa [NameMap.Sorted, ← n.replaceField_names key field] at hnames
  · intro entry hentry child hchild
    rcases NameMap.mem_overwrite hentry with hold | rfl
    · exact h.children entry hold child hchild
    · exact hfield child hchild

theorem new (kind : String) : (Node.new kind).Ordered :=
  ⟨List.Pairwise.nil, fun _ hentry => by cases hentry⟩

theorem setField (h : n.Ordered) (hfield : ∀ child ∈ field.nodes, child.Ordered) :
    (n.setField key field).Ordered := by
  refine ⟨NameMap.sorted_insert h.names key field, fun entry hentry child hchild => ?_⟩
  rcases NameMap.mem_put hentry with hold | rfl
  · exact h.children entry hold child hchild
  · exact hfield child hchild

theorem withChild (h : n.Ordered) {child : Node} (hchild : child.Ordered) :
    (n.withChild key child).Ordered := by
  apply h.setField
  intro other hother
  rw [List.mem_singleton.1 hother]
  exact hchild

theorem withItems (h : n.Ordered) {items : List (Option Node)}
    (hitems : ∀ child, some child ∈ items → child.Ordered) :
    (n.setField key (.list items)).Ordered := by
  apply h.setField
  intro child hchild
  obtain ⟨item, hitem, hsome⟩ := List.mem_filterMap.1 hchild
  cases hsome
  exact hitems child hitem

end Ordered

end Node

/-- A tree that carries the proof of its order, as it is built or read. -/
structure Tree where
  root : Node
  ordered : root.Ordered

namespace Tree

def leaf (kind : String) : Tree := ⟨.new kind, .new kind⟩

def withChild (t : Tree) (key : String) (child : Tree) : Tree :=
  ⟨t.root.withChild key child.root, t.ordered.withChild child.ordered⟩

def withItems (t : Tree) (key : String) (items : List (Option Tree)) : Tree where
  root := t.root.setField key (.list (items.map (Option.map root)))
  ordered := t.ordered.withItems fun child hchild => by
    obtain ⟨item, -, hitem⟩ := List.mem_map.1 hchild
    obtain ⟨below, -, rfl⟩ := Option.map_eq_some_iff.1 hitem
    exact below.ordered

end Tree

def VisitorKeys.Distinct (keys : VisitorKeys) : Prop :=
  ∀ kind names, keys.table.get? kind = some names → names.Nodup

theorem VisitorKeys.Distinct.register {keys : VisitorKeys} (h : keys.Distinct)
    {fields : List String} (hfields : fields.Nodup) (kind : String) :
    (keys.register kind fields).Distinct := by
  intro name names hnames
  rw [VisitorKeys.register, NameMap.get?_insert] at hnames
  split at hnames
  · cases hnames
    exact hfields
  · exact h name names hnames

theorem VisitorKeys.Distinct.childKeys? {keys : VisitorKeys} (h : keys.Distinct) {n : Node}
    (hn : n.Ordered) {names : List String} (hnames : keys.childKeys? n = some names) :
    names.Nodup := by
  unfold VisitorKeys.childKeys? at hnames
  cases htable : keys.table.get? n.kind with
  | some listed =>
    rw [htable] at hnames
    cases hnames
    exact h n.kind _ htable
  | none =>
    rw [htable] at hnames
    cases hfallback : keys.fallback with
    | error =>
      rw [hfallback] at hnames
      cases hnames
    | fields =>
      rw [hfallback] at hnames
      cases hnames
      exact hn.names.nodup.sublist (List.filter_sublist.map _)

end SyntaxWalk
