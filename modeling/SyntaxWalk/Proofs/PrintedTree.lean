import SyntaxWalk.Proofs.PrintedJson
import SyntaxWalk.Proofs.TreeRoundTrip

/-!
# Printed trees read back

The text of a canonical tree without doubles is read as that tree, however deep it nests. A reader
with a limit reads it as that tree up to the limit and refuses it beyond (`Node.parse_text`).
-/

namespace SyntaxWalk

open Json (inOrder inOrderItems inOrderMembers)

section Places

theorem Position.document_inOrder (p : Position) : p.document.inOrder = p.toJson := by
  obtain ⟨line, column, _ | offset⟩ := p <;> rfl

theorem Loc.document_inOrder (l : Loc) : l.document.inOrder = l.toJson := by
  have hstep : l.document.inOrder =
      Json.ofEntries [("start", l.start.document.inOrder), ("end", l.stop.document.inOrder)] := rfl
  rw [hstep, l.start.document_inOrder, l.stop.document_inOrder]
  rfl

theorem Json.Integral.count (x : UInt64) : (Json.nat x.toNat).Integral := by
  have hlt := x.toNat_lt
  exact .number (by omega)

theorem Position.document_integral (p : Position) : p.document.Integral := by
  refine .object fun entry hentry => ?_
  rcases List.mem_cons.1 hentry with rfl | hentry
  · exact .count p.line
  · rcases List.mem_cons.1 hentry with rfl | hentry
    · exact .count p.column
    · cases hoffset : p.offset with
      | none =>
        rw [hoffset] at hentry
        cases hentry
      | some offset =>
        rw [hoffset] at hentry
        rw [List.mem_singleton.1 hentry]
        exact .count offset

theorem Loc.document_integral (l : Loc) : l.document.Integral := by
  refine .object fun entry hentry => ?_
  rcases List.mem_cons.1 hentry with rfl | hentry
  · exact l.start.document_integral
  · rw [List.mem_singleton.1 hentry]
    exact l.stop.document_integral

end Places

theorem Json.inOrderMembers_append (entries more : List (String × Json)) :
    inOrderMembers (entries ++ more) = inOrderMembers entries ++ inOrderMembers more := by
  induction entries with
  | nil => rfl
  | cons entry rest ih =>
    obtain ⟨name, v⟩ := entry
    rw [List.cons_append, inOrderMembers, ih, inOrderMembers, List.cons_append]

namespace Node

section Document

theorem document_eq (n : Node) :
    n.document = .object ⟨("type", .string n.kind) :: locEntry (n.loc.map Loc.document) ++
      documentFields n.fields.entries⟩ := by
  obtain ⟨kind, loc, ⟨fields⟩⟩ := n
  rfl

theorem locEntry_inOrder (loc : Option Loc) :
    inOrderMembers (locEntry (loc.map Loc.document)) = locEntry (loc.map Loc.toJson) := by
  cases loc with
  | none => rfl
  | some loc =>
    have hstep : inOrderMembers (locEntry ((some loc).map Loc.document)) =
        [("loc", loc.document.inOrder)] := rfl
    rw [hstep, loc.document_inOrder]
    rfl

theorem documentItems_inOrder {items : List (Option Node)}
    (h : ∀ n, some n ∈ items → n.document.inOrder = n.toJson) :
    inOrderItems (documentItems items) = itemsToJson items := by
  induction items with
  | nil => rfl
  | cons item rest ih =>
    have hrest := ih fun n hn => h n (List.mem_cons_of_mem _ hn)
    cases item with
    | none => rw [documentItems, inOrderItems, hrest, itemsToJson, Json.inOrder] <;> simp
    | some n => rw [documentItems, inOrderItems, hrest, itemsToJson, h n List.mem_cons_self]

theorem documentField_inOrder {field : Field Node}
    (hnodes : ∀ n ∈ field.nodes, n.document.inOrder = n.toJson)
    (hvalue : ∀ v, field = .value v → v.Ordered) :
    (documentField field).inOrder = fieldToJson field := by
  cases field with
  | node n => exact hnodes n (List.mem_singleton_self n)
  | list items =>
    have hitems := documentItems_inOrder fun n hn =>
      hnodes n (List.mem_filterMap.2 ⟨some n, hn, rfl⟩)
    rw [documentField, inOrder, hitems, fieldToJson]
  | value v => exact (hvalue v rfl).inOrder_eq

theorem documentFields_inOrder {fields : List (String × Field Node)}
    (h : ∀ entry ∈ fields, (documentField entry.2).inOrder = fieldToJson entry.2) :
    inOrderMembers (documentFields fields) = fieldsToJson fields := by
  induction fields with
  | nil => rfl
  | cons entry rest ih =>
    obtain ⟨name, field⟩ := entry
    obtain ⟨hfield, hrest⟩ := List.forall_mem_cons.1 h
    have hfield : (documentField field).inOrder = fieldToJson field := hfield
    rw [documentFields, inOrderMembers, hfield, ih hrest, fieldsToJson]

theorem document_inOrder {n : Node} (h : n.Arranged) : n.document.inOrder = n.toJson := by
  induction h with
  | @mk n here below ih =>
    have hfields := documentFields_inOrder fun entry hentry =>
      documentField_inOrder (ih entry hentry) (here.2 entry hentry)
    rw [document_eq, inOrder, Json.inOrderMembers_append, hfields, inOrderMembers,
      locEntry_inOrder, toJson_eq]
    rfl

def Integral (n : Node) : Prop :=
  n.Everywhere fun m => ∀ entry ∈ m.fields.entries, ∀ v, entry.2 = .value v → v.Integral

theorem documentItems_integral {items : List (Option Node)}
    (h : ∀ n, some n ∈ items → n.document.Integral) : ∀ v ∈ documentItems items, v.Integral := by
  induction items with
  | nil =>
    intro v hv
    cases hv
  | cons item rest ih =>
    have hrest := ih fun n hn => h n (List.mem_cons_of_mem _ hn)
    cases item with
    | none => exact List.forall_mem_cons.2 ⟨.null, hrest⟩
    | some n => exact List.forall_mem_cons.2 ⟨h n List.mem_cons_self, hrest⟩

theorem documentField_integral {field : Field Node}
    (hnodes : ∀ n ∈ field.nodes, n.document.Integral)
    (hvalue : ∀ v, field = .value v → v.Integral) : (documentField field).Integral := by
  cases field with
  | node n => exact hnodes n (List.mem_singleton_self n)
  | list items =>
    exact .array (documentItems_integral fun n hn =>
      hnodes n (List.mem_filterMap.2 ⟨some n, hn, rfl⟩))
  | value v => exact hvalue v rfl

theorem documentFields_integral {fields : List (String × Field Node)}
    (h : ∀ entry ∈ fields, (documentField entry.2).Integral) :
    ∀ entry ∈ documentFields fields, entry.2.Integral := by
  induction fields with
  | nil =>
    intro entry hentry
    cases hentry
  | cons entry rest ih =>
    obtain ⟨hfield, hrest⟩ := List.forall_mem_cons.1 h
    exact List.forall_mem_cons.2 ⟨hfield, ih hrest⟩

theorem document_integral {n : Node} (h : n.Integral) : n.document.Integral := by
  induction h with
  | @mk n here below ih =>
    have hfields := documentFields_integral fun entry hentry =>
      documentField_integral (ih entry hentry) (here entry hentry)
    rw [document_eq]
    refine .object fun entry hentry => ?_
    rcases List.mem_append.1 hentry with hhead | hfield
    · rcases List.mem_cons.1 hhead with rfl | hloc
      · exact .string n.kind
      · cases hn : n.loc with
        | none =>
          rw [hn] at hloc
          cases hloc
        | some loc =>
          rw [hn] at hloc
          rw [List.mem_singleton.1 hloc]
          exact loc.document_integral
    · exact hfields entry hfield

end Document

section Parse

variable {n : Node}

theorem readStart_text (horder : n.Arranged) (hintegral : n.Integral) (depth : Option Nat) :
    Json.readStart depth n.text = Json.within depth n.document.nesting n.toJson [] := by
  have hread := Json.readValue_write (document_integral hintegral) depth
    (Json.readFuel (n.document.write [])) [] (fun c hc => by cases hc) (Nat.le_add_right ..)
  rw [document_inOrder horder] at hread
  rwa [Json.readStart, text, Json.compact, String.toList_ofList]

/-- The text of a canonical tree without doubles is read as that tree. The guarded reader refuses it
if it nests deeper than the limit, and does so only then. -/
theorem parse_text (tree : ArrangedTree) (hcanonical : tree.root.Canonical)
    (hintegral : tree.root.Integral) :
    parseTree tree.root.text = .ok tree.root ∧
      parseGuarded Node.ofJson tree.root.text =
        if tree.root.document.nesting ≤ nestingLimit then .ok tree.root
        else .error (.text .malformed) := by
  have hread := (readsBack tree.ordered hcanonical).read
  constructor
  · have hstart := readStart_text tree.arranged hintegral none
    rw [parseTree, Json.read, hstart]
    show (Node.ofJson tree.root.toJson).mapError ParseError.shape = .ok tree.root
    rw [hread]
    rfl
  · have hstart := readStart_text tree.arranged hintegral (some nestingLimit)
    rw [parseGuarded, hstart, Json.within, Json.allows]
    by_cases hdepth : tree.root.document.nesting ≤ nestingLimit
    · simp only [hdepth, decide_true, if_true]
      show ((Node.ofJson tree.root.toJson).mapError ParseError.shape >>= fun a => _) =
        .ok tree.root
      rw [hread]
      rfl
    · simp only [hdepth, decide_false]
      rfl

def extremes : OrderedJson :=
  .array [.int (-0x8000000000000000), .int 0xffffffffffffffff, .ofEntries [("\t", .null)]]

def escapedLeaf : ArrangedTree :=
  (((ArrangedTree.leaf "\"\\\u0001\u00e9").withLoc
    ⟨⟨1, 0, some 0xffffffffffffffff⟩, ⟨1, 2, none⟩⟩).withItems "elements"
      [none, some (.leaf "")]).withValue "\"\n" extremes

def wrapped : Nat → ArrangedTree
  | 0 => escapedLeaf
  | k + 1 => (ArrangedTree.leaf "Block").withChild "body" (wrapped k)

theorem wrapped_everywhere {P : Node → Prop} (hleaf : P escapedLeaf.root) (hempty : P (Node.new ""))
    (hwrap : ∀ child, P ((Node.new "Block").withChild "body" child)) (k : Nat) :
    (wrapped k).root.Everywhere P := by
  induction k with
  | zero =>
    refine ⟨hleaf, fun entry hentry child hchild => ?_⟩
    rcases List.mem_cons.1 hentry with rfl | hentry
    · cases hchild
    · rw [List.mem_singleton.1 hentry] at hchild
      rw [List.mem_singleton.1 hchild]
      exact ⟨hempty, fun entry hentry => by cases hentry⟩
  | succ k ih =>
    refine ⟨hwrap _, fun entry hentry child hchild => ?_⟩
    rw [List.mem_singleton.1 hentry] at hchild
    rwa [List.mem_singleton.1 hchild]

theorem escapedLeaf_value {entry : String × Field Node} {v : Json}
    (h : entry ∈ escapedLeaf.root.fields.entries) (hv : entry.2 = .value v) :
    v = extremes.value := by
  rcases List.mem_cons.1 h with rfl | h
  · cases hv
    rfl
  · rw [List.mem_singleton.1 h] at hv
    cases hv

theorem extremes_integral : extremes.value.Integral := by
  refine .array fun v hv => ?_
  rcases List.mem_cons.1 hv with rfl | hv
  · exact .number (by decide)
  · rcases List.mem_cons.1 hv with rfl | hv
    · exact .number (by decide)
    · rw [List.mem_singleton.1 hv]
      refine .object fun entry hentry => ?_
      rw [List.mem_singleton.1 hentry]
      exact .null

theorem wrapped_canonical (k : Nat) : (wrapped k).root.Canonical := by
  have hplain : ¬ extremes.value.NodeShaped := fun h => by
    have hall := Json.nodeShaped_array_iff.1 h
    exact absurd hall (by decide)
  have hname : ∀ name ∈ ["\"\n", "elements", "body"], name ≠ "type" ∧ name ≠ "loc" := by decide
  apply wrapped_everywhere
  · intro entry hentry
    have hmem : entry.1 ∈ ["\"\n", "elements"] := List.mem_map_of_mem hentry
    obtain ⟨htype, hloc⟩ := hname entry.1 (List.mem_append_left ["body"] hmem)
    refine ⟨htype, hloc, fun v hv => ?_⟩
    rwa [escapedLeaf_value hentry hv]
  · exact fun entry hentry => by cases hentry
  · intro child entry hentry
    rw [List.mem_singleton.1 hentry]
    obtain ⟨htype, hloc⟩ := hname "body" (by simp)
    exact ⟨htype, hloc, fun v hv => by cases hv⟩

theorem wrapped_integral (k : Nat) : (wrapped k).root.Integral := by
  apply wrapped_everywhere
  · intro entry hentry v hv
    rw [escapedLeaf_value hentry hv]
    exact extremes_integral
  · exact fun entry hentry => by cases hentry
  · intro child entry hentry v hv
    rw [List.mem_singleton.1 hentry] at hv
    cases hv

theorem wrapped_nesting (k : Nat) : (wrapped k).root.document.nesting = k + 3 := by
  induction k with
  | zero => rfl
  | succ k ih =>
    have hstep : (wrapped (k + 1)).root.document.nesting =
        1 + max 0 (max (wrapped k).root.document.nesting 0) := rfl
    rw [hstep, ih]
    omega

theorem wrapped_parse_text :
    parseTree (wrapped 125).root.text = .ok (wrapped 125).root ∧
      parseGuarded Node.ofJson (wrapped 124).root.text = .ok (wrapped 124).root ∧
        parseGuarded Node.ofJson (wrapped 125).root.text = .error (.text .malformed) := by
  obtain ⟨-, hmost⟩ := parse_text (wrapped 124) (wrapped_canonical 124) (wrapped_integral 124)
  obtain ⟨hdeep, hover⟩ := parse_text (wrapped 125) (wrapped_canonical 125) (wrapped_integral 125)
  rw [wrapped_nesting] at hmost hover
  exact ⟨hdeep, hmost, hover⟩

end Parse

end Node

end SyntaxWalk
