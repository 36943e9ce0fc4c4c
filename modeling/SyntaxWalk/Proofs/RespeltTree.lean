import SyntaxWalk.Proofs.RespeltLocations
import SyntaxWalk.Proofs.TreeRoundTrip

/-!
# Reading and writing respells

Reading a tree and writing it again loses nothing but the spelling of the locations of its nodes
(`Node.toJson_of_ofJson`). A null location is dropped and any other is respelt, in the root and in
every node that is read below it. All other members stay as they are, and so does a plain value with
all that is in it.
-/

namespace SyntaxWalk

namespace Json

instance : DecidablePred NodeShaped
  | .array _ => decidable_of_iff _ nodeShaped_array_iff.symm
  | .object _ => decidable_of_iff _ nodeShaped_object_iff.symm
  | .null | .bool _ | .number _ | .string _ => .isFalse (by simp [NodeShaped, NodeLike])

mutual

/-- The value with the locations of its nodes respelt, and all else as it is. -/
def respelt : Json → Json
  | .object ⟨entries⟩ =>
    if NodeShaped (.object ⟨entries⟩) then .object ⟨respeltMembers entries⟩ else .object ⟨entries⟩
  | .array items => if NodeShaped (.array items) then .array (respeltItems items) else .array items
  | v => v

def respeltMembers : List (String × Json) → List (String × Json)
  | [] => []
  | (name, v) :: rest =>
    if name = "loc" then ((respellLoc? v).map ("loc", ·)).toList ++ respeltMembers rest
    else (name, v.respelt) :: respeltMembers rest

def respeltItems : List Json → List Json
  | [] => []
  | v :: rest => v.respelt :: respeltItems rest

end

end Json

namespace Node

open Json (respelt respeltMembers respeltItems respellLoc?)

section Members

variable {name : String} {entries : List (String × Json)}

theorem respeltMembers_names (entries : List (String × Json)) :
    ((respeltMembers entries).map Prod.fst).Sublist (entries.map Prod.fst) := by
  induction entries with
  | nil => exact List.Sublist.refl []
  | cons entry rest ih =>
    obtain ⟨name, v⟩ := entry
    rw [respeltMembers]
    split
    · rename_i hname
      subst hname
      cases respellLoc? v with
      | none => exact ih.cons "loc"
      | some loc => exact ih.cons_cons "loc"
    · exact ih.cons_cons name

theorem find_respeltMembers (hname : name ≠ "loc") (entries : List (String × Json)) :
    NameMap.find name (respeltMembers entries) = (NameMap.find name entries).map respelt := by
  induction entries with
  | nil => rfl
  | cons entry rest ih =>
    obtain ⟨other, v⟩ := entry
    rw [respeltMembers, NameMap.find]
    by_cases hother : other = "loc"
    · rw [if_pos hother, if_neg (fun heq : other = name => hname (heq ▸ hother)), ← ih]
      cases respellLoc? v with
      | none => rfl
      | some loc => exact if_neg hname.symm
    · rw [if_neg hother, NameMap.find, ih]
      split <;> rfl

theorem find_loc_respeltMembers (h : (entries.map Prod.fst).Nodup) :
    NameMap.find "loc" (respeltMembers entries) =
      (NameMap.find "loc" entries).bind respellLoc? := by
  induction entries with
  | nil => rfl
  | cons entry rest ih =>
    obtain ⟨other, v⟩ := entry
    obtain ⟨hother, hrest⟩ := List.nodup_cons.1 h
    rw [respeltMembers, NameMap.find]
    by_cases hloc : other = "loc"
    · subst hloc
      have hnone : NameMap.find "loc" (respeltMembers rest) = none := by
        rw [ih hrest, NameMap.find_eq_none.2 hother]
        rfl
      rw [if_pos rfl, if_pos rfl, Option.bind_some]
      cases respellLoc? v with
      | none => exact hnone
      | some loc => exact if_pos rfl
    · rw [if_neg hloc, if_neg hloc, NameMap.find, if_neg hloc, ih hrest]

end Members

structure ReadsRespelt (v : Json) : Prop where
  node : ∀ {n}, ofJson v = .ok n → n.toJson = v.respelt
  field : ∀ {field}, fieldOfJson v = .ok field → fieldToJson field = v.respelt

section Parts

variable {entries : List (String × Json)} {fields : List (String × Field Node)}

theorem find_fieldsToJson (hentries : ∀ entry ∈ entries, ReadsRespelt entry.2)
    (h : fieldsOfJson entries = .ok fields) {name : String} (hname : ¬ isReserved name) :
    NameMap.find name (fieldsToJson fields) = (NameMap.find name entries).map respelt := by
  induction entries generalizing fields with
  | nil =>
    cases h
    rfl
  | cons entry rest ih =>
    obtain ⟨other, v⟩ := entry
    obtain ⟨hv, hrest⟩ := List.forall_mem_cons.1 hentries
    rw [fieldsOfJson] at h
    rw [NameMap.find]
    split at h
    · rename_i hother
      rw [if_neg (fun heq : other = name => hname (heq ▸ hother))]
      exact ih hrest h
    · obtain ⟨field, hfield, hmore⟩ := of_bind_eq_ok h
      obtain ⟨others, hothers, hfields⟩ := of_bind_eq_ok hmore
      cases hfields
      rw [fieldsToJson, NameMap.find, ih hrest hothers, hv.field hfield]
      split <;> rfl

theorem itemsToJson_of_itemsOfJson {items : List Json} (hitems : ∀ v ∈ items, ReadsRespelt v)
    (hall : items.all isNodeOrHole) {nodes : List (Option Node)}
    (h : itemsOfJson items = .ok nodes) : itemsToJson nodes = respeltItems items := by
  induction items generalizing nodes with
  | nil =>
    cases h
    rfl
  | cons v rest ih =>
    obtain ⟨hv, hrest⟩ := List.forall_mem_cons.1 hitems
    simp only [List.all_cons, Bool.and_eq_true] at hall
    cases v with
    | object members =>
      obtain ⟨n, hn, hmore⟩ := of_bind_eq_ok h
      obtain ⟨others, hothers, hnodes⟩ := of_bind_eq_ok hmore
      cases hnodes
      rw [itemsToJson, respeltItems, ih hrest hall.2 hothers, hv.node hn]
    | null =>
      obtain ⟨others, hothers, hnodes⟩ := of_bind_eq_ok h
      cases hnodes
      rw [itemsToJson, respeltItems, ih hrest hall.2 hothers]
      rfl
    | _ => cases hall.1

theorem locJson_of_readLoc {x : Option Json} (hordered : ∀ v ∈ x, v.Ordered)
    (hfits : ∀ v ∈ x, v.Fits) {loc : Option Loc} (h : readLoc x = .ok loc) :
    x.bind respellLoc? = loc.map Loc.toJson := by
  unfold readLoc at h
  split at h
  · cases h
    rfl
  · cases h
    rfl
  · rename_i v hnull
    obtain ⟨l, hl, rfl⟩ := of_map_eq_ok h
    have hrespell : respellLoc? v = some (Json.respellLoc v) := by
      cases v with
      | null => exact absurd rfl hnull
      | _ => rfl
    rw [Option.bind_some, hrespell, Option.map_some,
      Loc.toJson_eq_respell (hordered v rfl) (hfits v rfl) hl]

theorem of_assemble_eq_ok {members : NameMap Json}
    {fields : Except DecodeError (List (String × Field Node))} {n : Node}
    (h : assemble members fields = .ok n) :
    members.get? "type" = some (.string n.kind) ∧ readLoc (members.get? "loc") = .ok n.loc := by
  obtain ⟨kind, hkind, h⟩ := of_bind_eq_ok h
  obtain ⟨loc, hloc, h⟩ := of_bind_eq_ok h
  obtain ⟨fields, -, h⟩ := of_bind_eq_ok h
  cases h
  refine ⟨?_, hloc⟩
  unfold readKind at hkind
  split at hkind
  · rename_i htype
    cases hkind
    exact htype
  · cases hkind
  · cases hkind

theorem members_nodup {n : Node} (hsorted : n.fields.Sorted) (htype : "type" ∉ n.fields.names)
    (hloc : "loc" ∉ n.fields.names) : (n.members.map Prod.fst).Nodup := by
  have hfields := hsorted.nodup
  rw [NameMap.names] at htype hloc hfields
  cases hl : n.loc <;>
    simp [members, hl, locEntry, fieldsToJson_names, htype, hloc, hfields]

theorem find_members {n : Node} (hloc : "loc" ∉ n.fields.names) (name : String) :
    NameMap.find name n.members =
      if name = "type" then some (.string n.kind)
      else if name = "loc" then n.loc.map Loc.toJson
      else NameMap.find name (fieldsToJson n.fields.entries) := by
  have hnone : NameMap.find "loc" (fieldsToJson n.fields.entries) = none := by
    rwa [NameMap.find_eq_none, fieldsToJson_names]
  by_cases htypename : name = "type"
  · rw [if_pos htypename]
    exact if_pos htypename.symm
  · have hrest : NameMap.find name n.members = NameMap.find name
        (locEntry (n.loc.map Loc.toJson) ++ fieldsToJson n.fields.entries) :=
      if_neg (Ne.symm htypename)
    rw [if_neg htypename, hrest]
    by_cases hname : name = "loc"
    · subst hname
      cases n.loc with
      | none => exact hnone
      | some loc => rfl
    · rw [if_neg hname]
      cases n.loc with
      | none => rfl
      | some loc => exact if_neg (Ne.symm hname)

theorem toJson_of_object {members : NameMap Json} (hordered : (Json.object members).Ordered)
    (hfits : (Json.object members).Fits)
    (hmembers : ∀ entry ∈ members.entries, ReadsRespelt entry.2) {n : Node}
    (h : ofJson (.object members) = .ok n) :
    n.toJson = .object ⟨respeltMembers members.entries⟩ := by
  obtain ⟨hkind, hloc⟩ := of_assemble_eq_ok h
  have hfields := assemble_eq_ok h
  have hsorted : members.Sorted := by
    cases hordered
    assumption
  have hplain : ∀ name ∈ n.fields.names, ¬ isReserved name := by
    intro name hname
    obtain ⟨⟨_, field⟩, hfield, rfl⟩ := List.mem_map.1 hname
    exact (mem_of_fieldsOfJson hfields hfield).1
  have htype : "type" ∉ n.fields.names := fun hname => hplain _ hname rfl
  have hnoloc : "loc" ∉ n.fields.names := fun hname => hplain _ hname rfl
  have hnodup := members_nodup (hsorted.sublist (fieldsOfJson_names hfields)) htype hnoloc
  have hrespelt : (⟨respeltMembers members.entries⟩ : NameMap Json).Sorted :=
    hsorted.sublist (respeltMembers_names members.entries)
  have hlocs : (members.get? "loc").bind respellLoc? = n.loc.map Loc.toJson :=
    locJson_of_readLoc (fun v hv => Json.ordered_inherited.get? hordered hv)
      (fun v hv => Json.fits_inherited.get? hfits hv) hloc
  rw [toJson_eq]
  refine congrArg Json.object (NameMap.Sorted.ext (NameMap.sorted_ofList _) hrespelt fun name => ?_)
  rw [NameMap.get?_ofList_of_nodup hnodup, find_members hnoloc]
  split
  · rename_i hname
    rw [hname, NameMap.get?, find_respeltMembers (by decide)]
    exact (congrArg (Option.map respelt) hkind).symm
  · split
    · rename_i hname
      rw [hname, NameMap.get?, find_loc_respeltMembers hsorted.nodup]
      exact hlocs.symm
    · rename_i htypename hname
      have hreserved : ¬ isReserved name := by simp [isReserved, htypename, hname]
      rw [NameMap.get?, find_respeltMembers hname, find_fieldsToJson hmembers hfields hreserved]

theorem readsRespelt_of_value {v : Json} (hv : ofJson v = .error .notANode)
    (hfield : fieldOfJson v = .ok (.value v)) (hrespelt : v.respelt = v) : ReadsRespelt v where
  node h := by
    rw [hv] at h
    cases h
  field h := by
    rw [hfield] at h
    cases h
    exact hrespelt.symm

theorem readsRespelt_array {items : List Json} (ih : ∀ v ∈ items, ReadsRespelt v) :
    ReadsRespelt (.array items) := by
  by_cases hall : items.all isNodeOrHole
  · have hlist : fieldOfJson (.array items) = (itemsOfJson items).map .list := if_pos hall
    refine ⟨fun h => (by cases h), fun h => ?_⟩
    rw [hlist] at h
    obtain ⟨nodes, hnodes, rfl⟩ := of_map_eq_ok h
    rw [respelt, if_pos (Json.nodeShaped_array_iff.2 hall), fieldToJson,
      itemsToJson_of_itemsOfJson ih hall hnodes]
  · exact readsRespelt_of_value rfl (if_neg hall)
      (if_neg fun hshape => hall (Json.nodeShaped_array_iff.1 hshape))

theorem readsRespelt_object {members : NameMap Json} (hordered : (Json.object members).Ordered)
    (hfits : (Json.object members).Fits)
    (ih : ∀ entry ∈ members.entries, ReadsRespelt entry.2) : ReadsRespelt (.object members) := by
  have hnode : ∀ {n}, ofJson (.object members) = .ok n →
      n.toJson = .object ⟨respeltMembers members.entries⟩ := toJson_of_object hordered hfits ih
  obtain ⟨entries⟩ := members
  by_cases hobject : isNodeObject ⟨entries⟩
  · have hrespelt : respelt (.object ⟨entries⟩) = .object ⟨respeltMembers entries⟩ :=
      if_pos (Json.nodeShaped_object_iff.2 hobject)
    refine ⟨fun h => (hnode h).trans hrespelt.symm, fun h => ?_⟩
    rw [fieldOfJson_object ⟨entries⟩ hobject] at h
    obtain ⟨n, hn, rfl⟩ := of_map_eq_ok h
    exact (hnode hn).trans hrespelt.symm
  · have hrespelt : respelt (.object ⟨entries⟩) = .object ⟨entries⟩ :=
      if_neg fun hshape => hobject (Json.nodeShaped_object_iff.1 hshape)
    refine ⟨fun h => ?_, fun h => ?_⟩
    · refine absurd ?_ hobject
      rw [isNodeObject, (of_assemble_eq_ok h).1]
    · rw [fieldOfJson, if_neg hobject] at h
      cases h
      exact hrespelt.symm

theorem readsRespelt {v : Json} (hv : v.Ordered) (hfits : v.Fits) : ReadsRespelt v := by
  induction hv with
  | null => exact readsRespelt_of_value rfl rfl rfl
  | bool b => exact readsRespelt_of_value rfl rfl rfl
  | number n => exact readsRespelt_of_value rfl rfl rfl
  | string s => exact readsRespelt_of_value rfl rfl rfl
  | array hitems ih =>
    cases hfits with
    | array hfit => exact readsRespelt_array fun v hv => ih v hv (hfit v hv)
  | object names values ih =>
    refine readsRespelt_object (.object names values) hfits fun entry hentry => ?_
    cases hfits with
    | object hfit => exact ih entry hentry (hfit entry hentry)

/-- A tree that was read and is written again is the value it was read from, but for the spelling
of the locations of its nodes. -/
theorem toJson_of_ofJson (v : FittingJson) {n : Node} (h : ofJson v.value = .ok n) :
    n.toJson = v.value.respelt := (readsRespelt v.ordered v.fits).node h

end Parts

/-- Every text that is a tree is read as a value whose respelling the tree is written as. -/
theorem toJson_of_parseTree {source : String} {n : Node} (h : parseTree source = .ok n) :
    ∃ v, Json.read source = .ok v ∧ n.toJson = v.respelt := by
  obtain ⟨v, hread, hshape⟩ := of_bind_eq_ok h
  have hv := of_mapError_eq_ok hread
  exact ⟨v, hv, (readsRespelt (Json.ordered_of_read hv) (Json.fits_of_read hv)).node
    (of_mapError_eq_ok hshape)⟩

def spelt : FittingJson where
  toOrderedJson := .ofEntries [("type", .string "Program"),
    ("loc", .array [.array [.int 1, .int 0, .null], .array [.int 2, .int 3, .int 9]]),
    ("body", .array [.null, .ofEntries [("type", .string "Identifier"), ("loc", .null),
      ("extra", .ofEntries [("loc", .null)])]]),
    ("test", .ofEntries [("type", .string "Literal"), ("loc", .ofEntries [
      ("start", .ofEntries [("line", .int 1), ("column", .int 4), ("index", .int 4)]),
      ("end", .ofEntries [("line", .int 1), ("column", .int 5), ("offset", .null)]),
      ("source", .string "a.js")])]),
    ("tokens", .array [.int 7, .ofEntries [("type", .string "Token"), ("loc", .null)]])]
  fits := by
    repeat' first
      | exact .null
      | exact .number ⟨by decide, by decide⟩
      | exact .string _
      | refine .array ?_
      | refine .ofEntries ?_
      | exact List.forall_mem_nil _
      | refine List.forall_mem_cons.2 ⟨?_, ?_⟩

def respeltOnce : Json :=
  .ofEntries [("type", .string "Program"),
    ("loc", .ofEntries [("start", .ofEntries [("line", .int 1), ("column", .int 0)]),
      ("end", .ofEntries [("line", .int 2), ("column", .int 3), ("offset", .int 9)])]),
    ("body", .array [.null, .ofEntries [("type", .string "Identifier"),
      ("extra", .ofEntries [("loc", .null)])]]),
    ("test", .ofEntries [("type", .string "Literal"), ("loc", .ofEntries [
      ("start", .ofEntries [("line", .int 1), ("column", .int 4), ("offset", .int 4)]),
      ("end", .ofEntries [("line", .int 1), ("column", .int 5)])])]),
    ("tokens", .array [.int 7, .ofEntries [("type", .string "Token"), ("loc", .null)]])]

theorem spelt_reads : ∃ n, ofJson spelt.value = .ok n := ⟨_, rfl⟩

theorem spelt_toJson : ∃ n, ofJson spelt.value = .ok n ∧ n.toJson = respeltOnce := by
  obtain ⟨n, hn⟩ := spelt_reads
  exact ⟨n, hn, toJson_of_ofJson spelt hn⟩

end Node

end SyntaxWalk
