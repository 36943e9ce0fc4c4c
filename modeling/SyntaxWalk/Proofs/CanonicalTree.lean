import SyntaxWalk.Proofs.OrderedJson

/-!
# Canonical trees

Reading decides by the shape of a value whether it is a node, a list or plain. A tree is canonical
when none of its plain values has the shape of a node or a list and none of its fields has one of
the two names that a node keeps for itself. Every tree that is read from JSON is canonical
(`Node.canonical_of_ofJson`), and one that is read from an ordered value is arranged, down to the
members of its plain values (`Node.arranged_of_ofJson`). An `ArrangedTree` has the proof of that
with it.
-/

namespace SyntaxWalk

theorem Json.induct {P : Json → Prop} (null : P .null) (bool : ∀ b, P (.bool b))
    (number : ∀ n, P (.number n)) (string : ∀ s, P (.string s))
    (array : ∀ items, (∀ v ∈ items, P v) → P (.array items))
    (object : ∀ members, (∀ entry ∈ members.entries, P entry.2) → P (.object members)) :
    ∀ v, P v
  | .null => null
  | .bool b => bool b
  | .number n => number n
  | .string s => string s
  | .array items => array items fun v _ => induct null bool number string array object v
  | .object ⟨entries⟩ => object ⟨entries⟩ fun entry hentry =>
    have : sizeOf entry.2 < sizeOf entries := by
      have hlt := List.sizeOf_lt_of_mem hentry
      obtain ⟨name, v⟩ := entry
      simp only [Prod.mk.sizeOf_spec] at hlt ⊢
      omega
    induct null bool number string array object entry.2

namespace Json

def NodeLike (v : Json) : Prop :=
  ∃ members kind, v = .object members ∧ members.get? "type" = some (.string kind)

def NodeShaped (v : Json) : Prop :=
  v.NodeLike ∨ ∃ items, v = .array items ∧ ∀ item ∈ items, item = .null ∨ item.NodeLike

theorem nodeLike_object_iff {members : NameMap Json} :
    (object members).NodeLike ↔ isNodeObject members := by
  unfold isNodeObject
  constructor
  · rintro ⟨members', kind, h, hkind⟩
    cases h
    rw [hkind]
  · intro h
    split at h
    · rename_i kind hkind
      exact ⟨members, kind, rfl, hkind⟩
    · cases h

theorem isNodeOrHole_iff {v : Json} : isNodeOrHole v ↔ v = .null ∨ v.NodeLike := by
  cases v with
  | null => simp [isNodeOrHole]
  | object members => simp [isNodeOrHole, nodeLike_object_iff]
  | _ => simp [isNodeOrHole, NodeLike]

theorem nodeShaped_array_iff {items : List Json} :
    (array items).NodeShaped ↔ items.all isNodeOrHole := by
  simp only [NodeShaped, NodeLike, List.all_eq_true, isNodeOrHole_iff]
  simp

theorem nodeShaped_object_iff {members : NameMap Json} :
    (object members).NodeShaped ↔ isNodeObject members := by
  rw [← nodeLike_object_iff]
  simp [NodeShaped]

end Json

namespace Node

inductive Everywhere (P : Node → Prop) : Node → Prop
  | mk {n : Node} (here : P n)
      (below : ∀ entry ∈ n.fields.entries, ∀ child ∈ entry.2.nodes, Everywhere P child) :
      Everywhere P n

/-- The fields are in the order of their names, and so are the members of their plain values. -/
def Arranged (n : Node) : Prop :=
  n.Everywhere fun m => m.fields.Sorted ∧
    ∀ entry ∈ m.fields.entries, ∀ v, entry.2 = .value v → v.Ordered

def Canonical (n : Node) : Prop :=
  n.Everywhere fun m => ∀ entry ∈ m.fields.entries,
    entry.1 ≠ "type" ∧ entry.1 ≠ "loc" ∧ ∀ v, entry.2 = .value v → ¬ v.NodeShaped

theorem Arranged.ordered {n : Node} (h : n.Arranged) : n.Ordered := by
  induction h with
  | mk here below ih => exact ⟨here.1, ih⟩

section Read

variable {entries : List (String × Json)} {fields : List (String × Field Node)}

theorem assemble_eq_ok {members : NameMap Json}
    {fields : Except DecodeError (List (String × Field Node))} {n : Node}
    (h : assemble members fields = .ok n) : fields = .ok n.fields.entries := by
  obtain ⟨kind, -, hloc⟩ := of_bind_eq_ok h
  obtain ⟨loc, -, hfields⟩ := of_bind_eq_ok hloc
  obtain ⟨entries, hentries, hn⟩ := of_bind_eq_ok hfields
  cases hn
  exact hentries

theorem fieldsOfJson_names {entries : List (String × Json)} {fields : List (String × Field Node)}
    (h : fieldsOfJson entries = .ok fields) :
    (fields.map Prod.fst).Sublist (entries.map Prod.fst) := by
  induction entries generalizing fields with
  | nil =>
    cases h
    exact List.Sublist.refl []
  | cons entry rest ih =>
    obtain ⟨name, v⟩ := entry
    rw [fieldsOfJson] at h
    split at h
    · exact (ih h).cons name
    · obtain ⟨field, -, hrest⟩ := of_bind_eq_ok h
      obtain ⟨others, hothers, hfields⟩ := of_bind_eq_ok hrest
      cases hfields
      exact (ih hothers).cons_cons name

theorem mem_of_fieldsOfJson (h : fieldsOfJson entries = .ok fields) {name : String}
    {field : Field Node} (hmem : (name, field) ∈ fields) :
    ¬ isReserved name ∧ ∃ v, (name, v) ∈ entries ∧ fieldOfJson v = .ok field := by
  induction entries generalizing fields with
  | nil =>
    cases h
    cases hmem
  | cons entry rest ih =>
    obtain ⟨other, v⟩ := entry
    rw [fieldsOfJson] at h
    split at h
    · obtain ⟨hname, w, hw, hread⟩ := ih h hmem
      exact ⟨hname, w, List.mem_cons_of_mem _ hw, hread⟩
    · rename_i hother
      obtain ⟨first, hfirst, hmore⟩ := of_bind_eq_ok h
      obtain ⟨others, hothers, hfields⟩ := of_bind_eq_ok hmore
      cases hfields
      rcases List.mem_cons.1 hmem with heq | hmem
      · cases heq
        exact ⟨hother, v, List.mem_cons_self, hfirst⟩
      · obtain ⟨hname, w, hw, hread⟩ := ih hothers hmem
        exact ⟨hname, w, List.mem_cons_of_mem _ hw, hread⟩

theorem mem_of_itemsOfJson {items : List Json} {nodes : List (Option Node)}
    (h : itemsOfJson items = .ok nodes) {n : Node} (hmem : some n ∈ nodes) :
    ∃ v ∈ items, ofJson v = .ok n := by
  induction items generalizing nodes with
  | nil =>
    cases h
    cases hmem
  | cons v rest ih =>
    have hrest : ∀ {others}, itemsOfJson rest = .ok others → some n ∈ others →
        ∃ w ∈ v :: rest, ofJson w = .ok n := fun hothers hmem => by
      obtain ⟨w, hw, hread⟩ := ih hothers hmem
      exact ⟨w, List.mem_cons_of_mem _ hw, hread⟩
    cases v with
    | object members =>
      obtain ⟨first, hfirst, hmore⟩ := of_bind_eq_ok h
      obtain ⟨others, hothers, hnodes⟩ := of_bind_eq_ok hmore
      cases hnodes
      rcases List.mem_cons.1 hmem with heq | hmem
      · cases heq
        exact ⟨.object members, List.mem_cons_self, hfirst⟩
      · exact hrest hothers hmem
    | _ =>
      obtain ⟨others, hothers, hnodes⟩ := of_bind_eq_ok h
      cases hnodes
      rcases List.mem_cons.1 hmem with heq | hmem
      · cases heq
      · exact hrest hothers hmem

theorem value_of_fieldOfJson {v w : Json} (h : fieldOfJson v = .ok (.value w)) :
    w = v ∧ ¬ v.NodeShaped := by
  cases v with
  | array items =>
    rw [fieldOfJson] at h
    split at h
    · obtain ⟨nodes, -, heq⟩ := of_map_eq_ok h
      cases heq
    · rename_i hall
      cases h
      exact ⟨rfl, fun hshape => hall (Json.nodeShaped_array_iff.1 hshape)⟩
  | object members =>
    by_cases hobject : isNodeObject members
    · rw [fieldOfJson_object members hobject] at h
      obtain ⟨n, -, heq⟩ := of_map_eq_ok h
      cases heq
    · rw [fieldOfJson, if_neg hobject] at h
      cases h
      exact ⟨rfl, fun hshape => hobject (Json.nodeShaped_object_iff.1 hshape)⟩
  | _ =>
    cases h
    exact ⟨rfl, by simp [Json.NodeShaped, Json.NodeLike]⟩

/-- What is read of a value, as a node or as a field, has the property in all its nodes. -/
structure ReadsEverywhere (P : Node → Prop) (v : Json) : Prop where
  node : ∀ {n}, ofJson v = .ok n → n.Everywhere P
  nodes : ∀ {field}, fieldOfJson v = .ok field → ∀ child ∈ field.nodes, child.Everywhere P

section Everywhere

variable {P : Node → Prop}

theorem readsEverywhere_of_value {v : Json} (hv : ofJson v = .error .notANode)
    (hfield : fieldOfJson v = .ok (.value v)) : ReadsEverywhere P v where
  node h := by
    rw [hv] at h
    cases h
  nodes h := by
    rw [hfield] at h
    cases h
    intro child hchild
    cases hchild

theorem readsEverywhere_array {items : List Json} (ih : ∀ v ∈ items, ReadsEverywhere P v) :
    ReadsEverywhere P (.array items) := by
  by_cases hall : items.all isNodeOrHole
  · have hlist : fieldOfJson (.array items) = (itemsOfJson items).map .list := if_pos hall
    refine ⟨fun h => (by cases h), fun h child hchild => ?_⟩
    rw [hlist] at h
    obtain ⟨nodes, hnodes, rfl⟩ := of_map_eq_ok h
    obtain ⟨item, hitem, rfl⟩ := List.mem_filterMap.1 hchild
    obtain ⟨v, hv, hread⟩ := mem_of_itemsOfJson hnodes hitem
    exact (ih v hv).node hread
  · exact readsEverywhere_of_value rfl (if_neg hall)

theorem readsEverywhere_object {members : NameMap Json}
    (hP : ∀ {n}, ofJson (.object members) = .ok n → P n)
    (ih : ∀ entry ∈ members.entries, ReadsEverywhere P entry.2) :
    ReadsEverywhere P (.object members) := by
  obtain ⟨entries⟩ := members
  have hnode : ∀ {n}, ofJson (.object ⟨entries⟩) = .ok n → n.Everywhere P := by
    intro n h
    refine ⟨hP h, fun entry hentry => ?_⟩
    obtain ⟨-, v, hv, hread⟩ := mem_of_fieldsOfJson (assemble_eq_ok h) hentry
    exact (ih _ hv).nodes hread
  refine ⟨hnode, fun h child hchild => ?_⟩
  by_cases hobject : isNodeObject ⟨entries⟩
  · rw [fieldOfJson_object ⟨entries⟩ hobject] at h
    obtain ⟨n, hn, rfl⟩ := of_map_eq_ok h
    rw [List.mem_singleton.1 hchild]
    exact hnode hn
  · rw [fieldOfJson, if_neg hobject] at h
    cases h
    cases hchild

/-- What holds of each node that is read from an object holds of the nodes below it too, if the
objects that it holds for have only such values in them. -/
theorem readsEverywhere {Q : Json → Prop} (hQ : Json.Inherited Q)
    (hP : ∀ {members n}, Q (.object members) → ofJson (.object members) = .ok n → P n) {v : Json}
    (hv : Q v) : ReadsEverywhere P v := by
  induction v using Json.induct with
  | null => exact readsEverywhere_of_value rfl rfl
  | bool b => exact readsEverywhere_of_value rfl rfl
  | number n => exact readsEverywhere_of_value rfl rfl
  | string s => exact readsEverywhere_of_value rfl rfl
  | array items ih => exact readsEverywhere_array fun w hw => ih w hw (hQ.item hv w hw)
  | object members ih =>
    exact readsEverywhere_object (hP hv) fun entry hentry =>
      ih entry hentry (hQ.member hv entry hentry)

end Everywhere

theorem canonical_of_ofJson {v : Json} {n : Node} (h : ofJson v = .ok n) : n.Canonical := by
  refine (readsEverywhere (Q := fun _ => True) ⟨fun _ _ _ => trivial, fun _ _ _ => trivial⟩
    (fun {members n} _ h entry hentry => ?_) trivial).node h
  obtain ⟨entries⟩ := members
  obtain ⟨hname, v, -, hread⟩ := mem_of_fieldsOfJson (assemble_eq_ok h) hentry
  have hnames : entry.1 ≠ "type" ∧ entry.1 ≠ "loc" := by simpa [isReserved] using hname
  refine ⟨hnames.1, hnames.2, fun w hw => ?_⟩
  rw [hw] at hread
  obtain ⟨rfl, hplain⟩ := value_of_fieldOfJson hread
  exact hplain

theorem arranged_of_ofJson {v : Json} (hv : v.Ordered) {n : Node} (h : ofJson v = .ok n) :
    n.Arranged := by
  refine (readsEverywhere Json.ordered_inherited (fun {members n} hmembers h => ?_) hv).node h
  obtain ⟨entries⟩ := members
  cases hmembers with
  | object names values =>
    have hfields := assemble_eq_ok h
    refine ⟨names.sublist (fieldsOfJson_names hfields), fun entry hentry w hw => ?_⟩
    obtain ⟨-, v, hv, hread⟩ := mem_of_fieldsOfJson hfields hentry
    rw [hw] at hread
    obtain ⟨rfl, -⟩ := value_of_fieldOfJson hread
    exact values _ hv

end Read

namespace Arranged

variable {n : Node} {key : String} {field : Field Node}

theorem new (kind : String) : (Node.new kind).Arranged :=
  ⟨⟨List.Pairwise.nil, fun _ hentry => by cases hentry⟩, fun _ hentry => by cases hentry⟩

theorem withLoc (h : n.Arranged) (loc : Loc) : (n.withLoc loc).Arranged := by
  cases h with
  | mk here below => exact ⟨here, below⟩

theorem setField (h : n.Arranged) (hnodes : ∀ child ∈ field.nodes, child.Arranged)
    (hvalue : ∀ v, field = .value v → v.Ordered) : (n.setField key field).Arranged := by
  cases h with
  | mk here below =>
    refine ⟨⟨NameMap.sorted_insert here.1 key field, fun entry hentry => ?_⟩,
      fun entry hentry => ?_⟩
    · rcases NameMap.mem_put hentry with hold | rfl
      · exact here.2 entry hold
      · exact hvalue
    · rcases NameMap.mem_put hentry with hold | rfl
      · exact below entry hold
      · exact hnodes

end Arranged

end Node

theorem arranged_of_parseTree {source : String} {n : Node} (h : parseTree source = .ok n) :
    n.Arranged := by
  obtain ⟨v, hread, hshape⟩ := of_bind_eq_ok h
  have hv : v.Ordered := Json.ordered_of_read (of_mapError_eq_ok hread)
  exact Node.arranged_of_ofJson hv (of_mapError_eq_ok hshape)

/-- A tree that carries the proof of its arrangement, as it is built or read. -/
structure ArrangedTree extends Tree where
  arranged : root.Arranged
  ordered := arranged.ordered

namespace ArrangedTree

def leaf (kind : String) : ArrangedTree where
  root := .new kind
  arranged := .new kind

def withLoc (t : ArrangedTree) (loc : Loc) : ArrangedTree where
  root := t.root.withLoc loc
  arranged := t.arranged.withLoc loc

def withValue (t : ArrangedTree) (key : String) (v : OrderedJson) : ArrangedTree where
  root := t.root.withValue key v.value
  arranged := t.arranged.setField (fun child hchild => by cases hchild) fun w hw => by
    cases hw
    exact v.ordered

def withChild (t : ArrangedTree) (key : String) (child : ArrangedTree) : ArrangedTree where
  root := t.root.withChild key child.root
  arranged := t.arranged.setField (fun other hother => by
    rw [List.mem_singleton.1 hother]
    exact child.arranged) fun w hw => by cases hw

def withItems (t : ArrangedTree) (key : String) (items : List (Option ArrangedTree)) :
    ArrangedTree where
  root := t.root.setField key (.list (items.map (Option.map fun t => t.root)))
  arranged := t.arranged.setField (fun child hchild => by
    obtain ⟨item, hitem, hsome⟩ := List.mem_filterMap.1 hchild
    obtain ⟨given, -, rfl⟩ := List.mem_map.1 hitem
    obtain ⟨below, -, rfl⟩ := Option.map_eq_some_iff.1 hsome
    exact below.arranged) fun w hw => by cases hw

def parse (source : String) : Except ParseError ArrangedTree :=
  match h : parseTree source with
  | .ok n => .ok { root := n, arranged := arranged_of_parseTree h }
  | .error e => .error e

theorem parse_root (source : String) : (parse source).map (fun t => t.root) = parseTree source := by
  unfold parse
  split <;> rename_i h <;> exact h.symm

end ArrangedTree

end SyntaxWalk
