import SyntaxWalk.Config
import SyntaxWalk.Proofs.OrderedEntries

/-!
# Where the fields of a kind come from

A configuration lays its keys over its leaves and those over the ESTree table, so for each kind the
first of the three that lists it decides, and the fallback where none does.
-/

namespace SyntaxWalk

namespace VisitorKeys

theorem estreeEntries_nodup : (estreeEntries.map Prod.fst).Nodup := by decide +kernel

theorem estree_get? (kind : String) :
    estree.table.get? kind = NameMap.find kind estreeEntries :=
  NameMap.get?_ofList_of_nodup estreeEntries_nodup

section Leaves

variable (keys : VisitorKeys) (leaves : List String)

theorem registerLeaves_fallback : (leaves.foldl registerLeaf keys).fallback = keys.fallback := by
  induction leaves generalizing keys with
  | nil => rfl
  | cons leaf rest ih => exact ih _

theorem registerLeaves_get? (kind : String) :
    (leaves.foldl registerLeaf keys).table.get? kind =
      if kind ∈ leaves then some [] else keys.table.get? kind := by
  induction leaves generalizing keys with
  | nil => rfl
  | cons leaf rest ih =>
    rw [List.foldl_cons, ih, registerLeaf, register, NameMap.get?_insert]
    by_cases hrest : kind ∈ rest
    · rw [if_pos hrest, if_pos (List.mem_cons_of_mem leaf hrest)]
    · by_cases hleaf : kind = leaf
      · rw [if_neg hrest, if_pos hleaf, if_pos (hleaf ▸ List.mem_cons_self)]
      · rw [if_neg hrest, if_neg hleaf, if_neg (by simp [hleaf, hrest])]

end Leaves

section NodeFields

variable {n : Node}

theorem nodeFields_ordered (h : n.fields.Sorted) : (nodeFields n).Pairwise (· < ·) :=
  h.sublist (List.filter_sublist.map Prod.fst)

theorem mem_nodeFields (h : n.fields.Sorted) {name : String} :
    name ∈ nodeFields n ↔
      (∃ child, n.field? name = some (.node child)) ∨
        ∃ items, n.field? name = some (.list items) := by
  have hmem (field : Field Node) : (name, field) ∈ n.fields.entries ↔ n.field? name = some field :=
    ⟨NameMap.find_of_mem h.nodup, NameMap.mem_of_find⟩
  simp only [nodeFields, List.mem_map, List.mem_filter, Prod.exists]
  constructor
  · rintro ⟨name, field, ⟨hentry, hholds⟩, rfl⟩
    rw [hmem] at hentry
    cases field with
    | node child => exact .inl ⟨child, hentry⟩
    | list items => exact .inr ⟨items, hentry⟩
    | value v => cases hholds
  · rintro (⟨child, hfield⟩ | ⟨items, hfield⟩)
    · exact ⟨name, _, ⟨(hmem _).mpr hfield, rfl⟩, rfl⟩
    · exact ⟨name, _, ⟨(hmem _).mpr hfield, rfl⟩, rfl⟩

end NodeFields

end VisitorKeys

namespace Config

open VisitorKeys (estreeEntries)

theorem visitorKeys_fallback (c : Config) : c.visitorKeys.fallback = c.walk.fallback :=
  VisitorKeys.registerLeaves_fallback _ _

theorem visitorKeys_get? (c : Config) (kind : String) :
    c.visitorKeys.table.get? kind =
      (c.walk.keys.get? kind).or
        (if kind ∈ c.walk.leaves then some [] else NameMap.find kind estreeEntries) := by
  rw [visitorKeys, VisitorKeys.registerAll, NameMap.get?_overlay, VisitorKeys.registerLeaves_get?,
    ← VisitorKeys.estree_get?]
  rfl

theorem visitorKeys_unlisted {c : Config} {n : Node} (hkeys : c.walk.keys.get? n.kind = none)
    (hleaves : n.kind ∉ c.walk.leaves) (hestree : n.kind ∉ estreeEntries.map Prod.fst) :
    c.visitorKeys.childKeys? n =
      match c.walk.fallback with
      | .error => none
      | .fields => some (VisitorKeys.nodeFields n) := by
  rw [VisitorKeys.childKeys?, visitorKeys_get?, hkeys, if_neg hleaves,
    NameMap.find_eq_none.mpr hestree, visitorKeys_fallback]
  rfl

/-- The walk keys come first, then the leaves, then ESTree, and the fallback is for the rest. -/
theorem visitorKeys_precedence (c : Config) (n : Node) (hn : n.fields.Sorted) :
    (∀ fields, c.walk.keys.get? n.kind = some fields →
      c.visitorKeys.childKeys? n = some fields) ∧
    (c.walk.keys.get? n.kind = none → n.kind ∈ c.walk.leaves →
      c.visitorKeys.childKeys? n = some []) ∧
    (c.walk.keys.get? n.kind = none → n.kind ∉ c.walk.leaves →
      (∀ fields, (n.kind, fields) ∈ estreeEntries → c.visitorKeys.childKeys? n = some fields) ∧
      (n.kind ∉ estreeEntries.map Prod.fst →
        (c.walk.fallback = .error → c.visitorKeys.childKeys? n = none ∧
          ∀ {σ ε : Type} (walk : Descent σ ε) (s : σ), walkChildren c.visitorKeys walk n s =
            some ⟨n, s, .error (.unknownKind ⟨n.kind, n.loc⟩)⟩) ∧
        (c.walk.fallback = .fields → ∃ names, c.visitorKeys.childKeys? n = some names ∧
          names.Pairwise (· < ·) ∧
          ∀ name, name ∈ names ↔
            (∃ child, n.field? name = some (.node child)) ∨
              ∃ items, n.field? name = some (.list items)))) ∧
    ∀ leaves, (∀ kind, kind ∈ leaves ↔ kind ∈ c.walk.leaves) →
      ({ c with walk := { c.walk with leaves } } : Config).visitorKeys.childKeys? n =
        c.visitorKeys.childKeys? n := by
  have listed {fields : List String} (h : c.visitorKeys.table.get? n.kind = some fields) :
      c.visitorKeys.childKeys? n = some fields := by
    rw [VisitorKeys.childKeys?, h]
  refine ⟨fun fields hkeys => listed ?_, fun hkeys hleaves => listed ?_, fun hkeys hleaves =>
    ⟨fun fields hestree => listed ?_, fun hestree => ⟨fun herror => ?_, fun hfields => ?_⟩⟩,
    fun leaves hsame => ?_⟩
  · rw [visitorKeys_get?, hkeys]
    rfl
  · rw [visitorKeys_get?, hkeys, if_pos hleaves]
    rfl
  · rw [visitorKeys_get?, hkeys, if_neg hleaves,
      NameMap.find_of_mem VisitorKeys.estreeEntries_nodup hestree]
    rfl
  · have hnone : c.visitorKeys.childKeys? n = none := by
      rw [visitorKeys_unlisted hkeys hleaves hestree, herror]
    exact ⟨hnone, fun walk s => walkChildren_unknown hnone walk s⟩
  · refine ⟨_, ?_, VisitorKeys.nodeFields_ordered hn, fun name => VisitorKeys.mem_nodeFields hn⟩
    rw [visitorKeys_unlisted hkeys hleaves hestree, hfields]
  · rw [VisitorKeys.childKeys?, VisitorKeys.childKeys?, visitorKeys_get?, visitorKeys_get?,
      visitorKeys_fallback, visitorKeys_fallback]
    simp only [hsame]

end Config

def jsxConfig : Config where
  walk := ⟨.fields, ["JSXText", "Literal", "JSXText"], NameMap.empty.insert "Literal" ["regex"]⟩

def jsxElement : Node :=
  (((Node.new "JSXElement").withChild "openingElement" (Node.new "JSXOpeningElement")).withChildren
    "children" [Node.new "JSXText"]).withValue "selfClosing" (.bool false)

theorem jsxElement_sorted : jsxElement.fields.Sorted := by
  have hempty : (NameMap.empty : NameMap (Field Node)).Sorted := .nil
  exact NameMap.sorted_insert (NameMap.sorted_insert (NameMap.sorted_insert hempty _ _) _ _) _ _

theorem jsxElement_walked :
    jsxElement.fields.Sorted ∧
    (∃ names, jsxConfig.visitorKeys.childKeys? jsxElement = some names ∧ "children" ∈ names ∧
      "selfClosing" ∉ names) ∧
    jsxConfig.visitorKeys.childKeys? (Node.new "Literal") = some ["regex"] := by
  obtain ⟨-, -, hunlisted, -⟩ :=
    Config.visitorKeys_precedence jsxConfig jsxElement jsxElement_sorted
  obtain ⟨-, hfallback⟩ := hunlisted rfl (by decide)
  obtain ⟨-, hfields⟩ := hfallback (by decide +kernel)
  obtain ⟨names, hnames, -, hmem⟩ := hfields rfl
  obtain ⟨hliteral, -⟩ := Config.visitorKeys_precedence jsxConfig (Node.new "Literal") .nil
  refine ⟨jsxElement_sorted, ⟨names, hnames, ?_, ?_⟩, hliteral ["regex"] rfl⟩
  · rw [hmem]
    exact .inr ⟨_, rfl⟩
  · rw [hmem]
    rintro (⟨child, h⟩ | ⟨items, h⟩)
    · cases h
    · cases h

end SyntaxWalk
