import SyntaxWalk.Proofs.CanonicalTree
import SyntaxWalk.Proofs.OrderedEntries

/-!
# Reading back

A location is read back from its JSON as it was, and so is a tree, field by field, if it is
canonical. Exactly the canonical trees come back, and they are those that can be read at all
(`ofJson_toJson_iff_canonical`).
-/

namespace SyntaxWalk

section Positions

theorem readCount_nat (x : UInt64) : Json.readCount (.nat x.toNat) = .ok x := by
  have hneg : ¬ (x.toNat : Int) < 0 := by omega
  rw [Json.nat, Json.readCount, if_neg hneg, Int.toNat_natCast]
  exact congrArg Except.ok UInt64.ofNat_toNat

theorem Position.ofJson_toJson (p : Position) : Position.ofJson p.toJson = .ok p := by
  obtain ⟨line, column, offset⟩ := p
  cases offset with
  | none =>
    have hvalue : Position.toJson ⟨line, column, none⟩ =
        .object ⟨[("column", .nat column.toNat), ("line", .nat line.toNat)]⟩ := rfl
    rw [hvalue]
    simp only [Position.ofJson, List.foldlM, Draft.read, readCount_nat]
    rfl
  | some offset =>
    have hvalue : Position.toJson ⟨line, column, some offset⟩ =
        .object ⟨[("column", .nat column.toNat), ("line", .nat line.toNat),
          ("offset", .nat offset.toNat)]⟩ := rfl
    have hoffset : readOffset (.nat offset.toNat) = .ok (some offset) :=
      congrArg (Except.map some) (readCount_nat offset)
    rw [hvalue]
    simp only [Position.ofJson, List.foldlM, Draft.read, readCount_nat, hoffset]
    rfl

theorem Position.toJson_ordered (p : Position) : p.toJson.Ordered := by
  refine .ofEntries fun entry hentry => ?_
  rcases List.mem_cons.1 hentry with rfl | hentry
  · exact .number _
  · rcases List.mem_cons.1 hentry with rfl | hentry
    · exact .number _
    · cases hoffset : p.offset with
      | none =>
        rw [hoffset] at hentry
        cases hentry
      | some offset =>
        rw [hoffset] at hentry
        rw [List.mem_singleton.1 hentry]
        exact .number _

theorem Loc.toJson_ordered (l : Loc) : l.toJson.Ordered := by
  refine .ofEntries fun entry hentry => ?_
  rcases List.mem_cons.1 hentry with rfl | hentry
  · exact l.start.toJson_ordered
  · rw [List.mem_singleton.1 hentry]
    exact l.stop.toJson_ordered

theorem Loc.ofJson_toJson (l : Loc) : Loc.ofJson l.toJson = .ok l := by
  have hvalue : l.toJson = .object ⟨[("end", l.stop.toJson), ("start", l.start.toJson)]⟩ := rfl
  rw [hvalue]
  simp only [Loc.ofJson, List.foldlM, Draft.read, Position.ofJson_toJson]
  rfl

end Positions

namespace Node

section Write

def members (n : Node) : List (String × Json) :=
  ("type", .string n.kind) :: locEntry (n.loc.map Loc.toJson) ++ fieldsToJson n.fields.entries

theorem toJson_eq (n : Node) : n.toJson = .object (.ofList n.members) := by
  obtain ⟨kind, loc, ⟨fields⟩⟩ := n
  rfl

theorem fieldsToJson_names (fields : List (String × Field Node)) :
    (fieldsToJson fields).map Prod.fst = fields.map Prod.fst := by
  induction fields with
  | nil => rfl
  | cons entry rest ih => rw [fieldsToJson, List.map_cons, ih, List.map_cons]

theorem mem_fieldsToJson {fields : List (String × Field Node)} {entry : String × Json}
    (h : entry ∈ fieldsToJson fields) :
    ∃ field, (entry.1, field) ∈ fields ∧ entry.2 = fieldToJson field := by
  induction fields with
  | nil => cases h
  | cons first rest ih =>
    rcases List.mem_cons.1 h with rfl | h
    · exact ⟨first.2, List.mem_cons_self, rfl⟩
    · obtain ⟨field, hmem, hvalue⟩ := ih h
      exact ⟨field, List.mem_cons_of_mem _ hmem, hvalue⟩

theorem mem_itemsToJson {items : List (Option Node)} {v : Json} (h : v ∈ itemsToJson items) :
    v = .null ∨ ∃ n, some n ∈ items ∧ v = n.toJson := by
  induction items with
  | nil => cases h
  | cons first rest ih =>
    have hrest : v ∈ itemsToJson rest → v = .null ∨ ∃ n, some n ∈ first :: rest ∧ v = n.toJson :=
      fun h => (ih h).imp_right fun ⟨n, hn, hv⟩ => ⟨n, List.mem_cons_of_mem _ hn, hv⟩
    cases first with
    | none => exact (List.mem_cons.1 h).elim .inl hrest
    | some n =>
      rcases List.mem_cons.1 h with rfl | h
      · exact .inr ⟨n, List.mem_cons_self, rfl⟩
      · exact hrest h

theorem fieldToJson_ordered {field : Field Node}
    (hnodes : ∀ child ∈ field.nodes, child.toJson.Ordered)
    (hvalue : ∀ v, field = .value v → v.Ordered) : (fieldToJson field).Ordered := by
  cases field with
  | node n => exact hnodes n (List.mem_singleton_self n)
  | list items =>
    refine .array fun v hv => ?_
    rcases mem_itemsToJson hv with rfl | ⟨n, hn, rfl⟩
    · exact .null
    · exact hnodes n (List.mem_filterMap.2 ⟨some n, hn, rfl⟩)
  | value v => exact hvalue v rfl

theorem locEntry_ordered {loc : Option Loc} {entry : String × Json}
    (h : entry ∈ locEntry (loc.map Loc.toJson)) : entry.2.Ordered := by
  cases loc with
  | none => cases h
  | some loc =>
    rw [List.mem_singleton.1 h]
    exact loc.toJson_ordered

theorem toJson_ordered {n : Node} (h : n.Arranged) : n.toJson.Ordered := by
  induction h with
  | @mk n here below ih =>
    rw [toJson_eq]
    refine .ofEntries fun entry hentry => ?_
    rcases List.mem_append.1 hentry with hhead | hfield
    · rcases List.mem_cons.1 hhead with rfl | hloc
      · exact .string n.kind
      · exact locEntry_ordered hloc
    · obtain ⟨field, hmem, hvalue⟩ := mem_fieldsToJson hfield
      rw [hvalue]
      exact fieldToJson_ordered (ih _ hmem) (here.2 _ hmem)

end Write

section RoundTrip

theorem assemble_of {members : NameMap Json} {kind : String} {loc : Option Loc}
    (hkind : members.get? "type" = some (.string kind))
    (hloc : readLoc (members.get? "loc") = .ok loc) (fields : List (String × Field Node)) :
    assemble members (.ok fields) = .ok ⟨kind, loc, ⟨fields⟩⟩ := by
  rw [assemble, hkind, hloc]
  rfl

variable {n : Node}

theorem members_type (h : "type" ∉ n.fields.names) :
    (NameMap.ofList n.members).get? "type" = some (.string n.kind) := by
  have hfields : "type" ∉ (fieldsToJson n.fields.entries).map Prod.fst := by
    rwa [fieldsToJson_names]
  have hrest : "type" ∉ (locEntry (n.loc.map Loc.toJson) ++
      fieldsToJson n.fields.entries).map Prod.fst := by
    rw [List.map_append, List.mem_append, not_or]
    refine ⟨?_, hfields⟩
    cases n.loc <;> simp [locEntry]
  exact NameMap.get?_ofList [] hrest

theorem readLoc_members (h : "loc" ∉ n.fields.names) :
    readLoc ((NameMap.ofList n.members).get? "loc") = .ok n.loc := by
  have hfields : "loc" ∉ (fieldsToJson n.fields.entries).map Prod.fst := by
    rwa [fieldsToJson_names]
  unfold members
  cases hloc : n.loc with
  | none =>
    rw [NameMap.get?_ofList_eq_none (by simpa [locEntry] using hfields)]
    rfl
  | some loc =>
    have hget : (NameMap.ofList (("type", .string n.kind) ::
        locEntry ((some loc).map Loc.toJson) ++ fieldsToJson n.fields.entries)).get? "loc" =
        some loc.toJson := NameMap.get?_ofList [("type", .string n.kind)] hfields
    have hread : readLoc (some loc.toJson) = (Loc.ofJson loc.toJson).map some := rfl
    rw [hget, hread, Loc.ofJson_toJson]
    rfl

theorem fieldsOfJson_restrict (entries : List (String × Json)) :
    fieldsOfJson (NameMap.restrict (fun name => !isReserved name) entries) =
      fieldsOfJson entries := by
  induction entries with
  | nil => rfl
  | cons entry rest ih =>
    obtain ⟨name, v⟩ := entry
    rw [NameMap.restrict_cons, fieldsOfJson]
    by_cases hname : isReserved name
    · simpa [hname] using ih
    · simp [hname, fieldsOfJson, ih]

theorem fieldsOfJson_members (hfields : n.fields.Sorted)
    (htype : "type" ∉ n.fields.names) (hloc : "loc" ∉ n.fields.names) :
    fieldsOfJson (NameMap.ofList n.members).entries =
      fieldsOfJson (fieldsToJson n.fields.entries) := by
  have hkeep : ∀ entry ∈ fieldsToJson n.fields.entries, !isReserved entry.1 := by
    intro entry hentry
    have hname : entry.1 ∈ n.fields.names := by
      have hmem := List.mem_map_of_mem (f := Prod.fst) hentry
      rwa [fieldsToJson_names] at hmem
    have hne : entry.1 ≠ "type" ∧ entry.1 ≠ "loc" :=
      ⟨fun heq => htype (heq ▸ hname), fun heq => hloc (heq ▸ hname)⟩
    simp [isReserved, hne]
  have hrest : NameMap.restrict (fun name => !isReserved name) n.members =
      fieldsToJson n.fields.entries := by
    have hhead : NameMap.restrict (fun name => !isReserved name)
        (("type", .string n.kind) :: locEntry (n.loc.map Loc.toJson)) = [] := by
      cases n.loc <;> rfl
    rw [members, NameMap.restrict, List.filter_append, List.filter_eq_self.2 hkeep]
    exact congrArg (· ++ _) hhead
  have hsorted : (⟨NameMap.restrict (fun name => !isReserved name) n.members⟩ :
      NameMap Json).Sorted := by
    rwa [hrest, NameMap.Sorted, NameMap.names, fieldsToJson_names]
  rw [← fieldsOfJson_restrict, NameMap.restrict_ofList _ hsorted, hrest]

/-- A tree that is read back as itself, and as a node where it stands in a field. -/
structure ReadsBack (n : Node) : Prop where
  object : ∃ members, n.toJson = .object members ∧ isNodeObject members
  read : ofJson n.toJson = .ok n

theorem itemsOfJson_itemsToJson {items : List (Option Node)}
    (h : ∀ n, some n ∈ items → n.ReadsBack) :
    (itemsToJson items).all isNodeOrHole ∧ itemsOfJson (itemsToJson items) = .ok items := by
  induction items with
  | nil => exact ⟨rfl, rfl⟩
  | cons item rest ih =>
    obtain ⟨hall, hread⟩ := ih fun n hn => h n (List.mem_cons_of_mem _ hn)
    cases item with
    | none =>
      refine ⟨hall, ?_⟩
      rw [itemsToJson, itemsOfJson, hread]
      · rfl
      · simp
    | some n =>
      obtain ⟨⟨members, hobject, hshape⟩, hn⟩ := h n List.mem_cons_self
      rw [hobject] at hn
      have hcons : itemsToJson (some n :: rest) = .object members :: itemsToJson rest := by
        rw [itemsToJson, hobject]
      have hitems : itemsOfJson (.object members :: itemsToJson rest) = do
          let n ← ofJson (.object members)
          return some n :: (← itemsOfJson (itemsToJson rest)) := rfl
      rw [hcons]
      refine ⟨by simpa [isNodeOrHole, hshape] using hall, ?_⟩
      rw [hitems, hn, hread]
      rfl

theorem fieldOfJson_fieldToJson {field : Field Node} (hnodes : ∀ n ∈ field.nodes, n.ReadsBack)
    (hvalue : ∀ v, field = .value v → ¬ v.NodeShaped) :
    fieldOfJson (fieldToJson field) = .ok field := by
  cases field with
  | node n =>
    obtain ⟨⟨members, hobject, hshape⟩, hn⟩ := hnodes n (List.mem_singleton_self n)
    rw [hobject] at hn
    rw [fieldToJson, hobject, fieldOfJson_object members hshape, hn]
    rfl
  | list items =>
    obtain ⟨hall, hread⟩ := itemsOfJson_itemsToJson fun n hn =>
      hnodes n (List.mem_filterMap.2 ⟨some n, hn, rfl⟩)
    rw [fieldToJson, fieldOfJson, if_pos hall, hread]
    rfl
  | value v =>
    have hplain := hvalue v rfl
    cases v with
    | array items => exact if_neg fun hall => hplain (Json.nodeShaped_array_iff.2 hall)
    | object members => exact if_neg fun hobject => hplain (Json.nodeShaped_object_iff.2 hobject)
    | _ => rfl

theorem fieldsOfJson_fieldsToJson {fields : List (String × Field Node)}
    (hnames : ∀ entry ∈ fields, ¬ isReserved entry.1)
    (hfields : ∀ entry ∈ fields, fieldOfJson (fieldToJson entry.2) = .ok entry.2) :
    fieldsOfJson (fieldsToJson fields) = .ok fields := by
  induction fields with
  | nil => rfl
  | cons entry rest ih =>
    obtain ⟨name, field⟩ := entry
    obtain ⟨hname, hnames⟩ := List.forall_mem_cons.1 hnames
    obtain ⟨hfield, hfields⟩ := List.forall_mem_cons.1 hfields
    rw [fieldsToJson, fieldsOfJson, if_neg hname, hfield, ih hnames hfields]
    rfl

theorem readsBack (hn : n.Ordered) (hc : n.Canonical) : n.ReadsBack := by
  induction hc with
  | @mk n here below ih =>
    have hread : ∀ entry ∈ n.fields.entries, ∀ child ∈ entry.2.nodes, child.ReadsBack :=
      fun entry hentry child hchild =>
        ih entry hentry child hchild (hn.children entry hentry child hchild)
    have hnone : ∀ name, (∀ entry ∈ n.fields.entries, entry.1 ≠ name) → name ∉ n.fields.names := by
      intro name hne hmem
      obtain ⟨entry, hentry, hname⟩ := List.mem_map.1 hmem
      exact hne entry hentry hname
    have htype := hnone "type" fun entry hentry => (here entry hentry).1
    have hloc := hnone "loc" fun entry hentry => (here entry hentry).2.1
    have hfields : fieldsOfJson (fieldsToJson n.fields.entries) = .ok n.fields.entries := by
      refine fieldsOfJson_fieldsToJson (fun entry hentry => ?_) fun entry hentry => ?_
      · obtain ⟨ht, hl, -⟩ := here entry hentry
        simp [isReserved, ht, hl]
      · exact fieldOfJson_fieldToJson (hread entry hentry) (here entry hentry).2.2
    refine ⟨⟨_, n.toJson_eq, ?_⟩, ?_⟩
    · rw [isNodeObject, members_type htype]
    · rw [toJson_eq]
      have hassemble : ofJson (.object (.ofList n.members)) =
          assemble (.ofList n.members) (fieldsOfJson (NameMap.ofList n.members).entries) := rfl
      rw [hassemble, fieldsOfJson_members hn.names htype hloc, hfields,
        assemble_of (members_type htype) (readLoc_members hloc)]
      cases n
      rfl

end RoundTrip

/-- A tree comes back from its JSON just when it is canonical, and just the canonical trees are read
from any JSON. So what comes back of a tree, canonical or not, comes back as it is from then on. -/
theorem ofJson_toJson_iff_canonical (tree : ArrangedTree) :
    (ofJson tree.root.toJson = .ok tree.root ↔ tree.root.Canonical) ∧
      (tree.root.Canonical ↔ ∃ v, ofJson v = .ok tree.root) ∧
      ∀ m, ofJson tree.root.toJson = .ok m → ofJson m.toJson = .ok m := by
  have hback : tree.root.Canonical → ofJson tree.root.toJson = .ok tree.root :=
    fun hc => (readsBack tree.ordered hc).read
  refine ⟨⟨canonical_of_ofJson, hback⟩, ⟨fun hc => ⟨_, hback hc⟩, ?_⟩, fun m hm => ?_⟩
  · rintro ⟨v, hv⟩
    exact canonical_of_ofJson hv
  · have harranged : m.Arranged := arranged_of_ofJson (toJson_ordered tree.arranged) hm
    exact (readsBack harranged.ordered (canonical_of_ofJson hm)).read

def taggedLiteral : ArrangedTree :=
  ((ArrangedTree.leaf "Literal").withValue "extra" (.array [])).withValue "meta"
    (.ofEntries [("type", .string "Identifier")])

theorem taggedLiteral_reads_otherwise :
    ¬ taggedLiteral.root.Canonical ∧
      ∃ m, ofJson taggedLiteral.root.toJson = .ok m ∧ m.children "extra" = [] ∧
        (m.child? "meta").map Node.kind = some "Identifier" ∧ ofJson m.toJson = .ok m := by
  obtain ⟨hsame, -, hstable⟩ := ofJson_toJson_iff_canonical taggedLiteral
  obtain ⟨m, hm, hextra, hmeta⟩ : ∃ m, ofJson taggedLiteral.root.toJson = .ok m ∧
      m.children "extra" = [] ∧ (m.child? "meta").map Node.kind = some "Identifier" :=
    ⟨_, rfl, rfl, rfl⟩
  refine ⟨fun hc => ?_, m, hm, hextra, hmeta, hstable m hm⟩
  have hback := hsame.2 hc
  rw [hm] at hback
  cases hback
  cases hmeta

end Node

end SyntaxWalk
