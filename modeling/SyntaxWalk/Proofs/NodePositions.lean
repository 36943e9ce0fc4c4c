import Mathlib.Data.List.Lex
import SyntaxWalk.Proofs.CanonicalTree
import SyntaxWalk.Proofs.Places

/-!
# Node positions

The node positions of a value are its root and, below a node, the members that are nodes and the
items of those that are lists of nodes and holes (`Json.NodeAt`). `Json.nodePositions` lists them in
depth-first order (`Json.nodePositions_pairwise`).
-/

namespace SyntaxWalk

def Step.Earlier (a b : Step) : Prop :=
  a.key < b.key ∨ a.key = b.key ∧ ∃ i j, a.index = some i ∧ b.index = some j ∧ i < j

/-- Depth-first order: a place comes before those below it. -/
def Place.Earlier : Place → Place → Prop := List.Lex Step.Earlier

instance : Std.Asymm Step.Earlier where
  asymm := by
    rintro a b (hab | ⟨hab, i, j, hi, hj, hij⟩) (hba | ⟨hba, j', i', hj', hi', hji⟩)
    · exact String.lt_asymm hab hba
    · exact String.lt_irrefl _ (hba ▸ hab)
    · exact String.lt_irrefl _ (hab ▸ hba)
    · rw [hi, Option.some.injEq] at hi'
      rw [hj, Option.some.injEq] at hj'
      omega

theorem Place.Earlier.asymm {a b : Place} (h : a.Earlier b) : ¬ b.Earlier a :=
  (List.Lex.asymm Step.Earlier).asymm a b h

namespace Json

theorem nodeLike_object {members : NameMap Json} :
    (object members).NodeLike ↔ ∃ kind, members.get? "type" = some (.string kind) := by
  simp [NodeLike]

/-- One step down from a node: to a member that is a node, or to one of the nodes of a list. -/
inductive NodeStep (members : NameMap Json) : Step → NameMap Json → Prop
  | member {name : String} {child : NameMap Json} (mem : (name, .object child) ∈ members.entries)
      (notType : name ≠ "type") (notLoc : name ≠ "loc") (node : (object child).NodeLike) :
      NodeStep members ⟨name, none⟩ child
  | item {name : String} {items : List Json} {index : Nat} {child : NameMap Json}
      (mem : (name, .array items) ∈ members.entries) (notType : name ≠ "type")
      (notLoc : name ≠ "loc") (list : ∀ item ∈ items, item = .null ∨ item.NodeLike)
      (here : items[index]? = some (.object child)) :
      NodeStep members ⟨name, some index⟩ child

inductive NodeAt : NameMap Json → Place → NameMap Json → Prop
  | root {members : NameMap Json} : NodeAt members [] members
  | inside {members child m : NameMap Json} {step : Step} {place : Place}
      (first : NodeStep members step child) (rest : NodeAt child place m) :
      NodeAt members (step :: place) m

section Steps

def itemStep? (name : String) : Json × Nat → Option (Step × NameMap Json)
  | (.object child, index) => some (⟨name, some index⟩, child)
  | _ => none

def stepsInto (name : String) : Json → List (Step × NameMap Json)
  | .object child => if isNodeObject child then [(⟨name, none⟩, child)] else []
  | .array items => if items.all isNodeOrHole then items.zipIdx.filterMap (itemStep? name) else []
  | _ => []

def nodeSteps (entries : List (String × Json)) : List (Step × NameMap Json) :=
  entries.flatMap fun (name, v) => if Node.isReserved name then [] else stepsInto name v

variable {name : String} {step : Step} {child : NameMap Json}

theorem itemStep?_eq_some {item : Json × Nat} :
    itemStep? name item = some (step, child) ↔
      item.1 = .object child ∧ step = ⟨name, some item.2⟩ := by
  obtain ⟨v, index⟩ := item
  cases v <;> simp [itemStep?, and_comm, eq_comm]

theorem mem_stepsInto {v : Json} :
    (step, child) ∈ stepsInto name v ↔
      (v = .object child ∧ v.NodeLike ∧ step = ⟨name, none⟩) ∨
      ∃ items index, v = .array items ∧ (∀ item ∈ items, item = .null ∨ item.NodeLike) ∧
        items[index]? = some (.object child) ∧ step = ⟨name, some index⟩ := by
  cases v with
  | object members =>
    simp only [stepsInto, nodeLike_object_iff, object.injEq, reduceCtorEq, false_and,
      exists_false, or_false]
    split
    · rename_i hnode
      simp only [List.mem_singleton, Prod.mk.injEq, hnode, true_and]
      rw [and_comm, eq_comm]
    · rename_i hnode
      simp [hnode]
  | array items =>
    simp only [stepsInto, reduceCtorEq, false_and, false_or, array.injEq, ← isNodeOrHole_iff,
      ← List.all_eq_true]
    split
    · rename_i hall
      simp only [List.mem_filterMap, itemStep?_eq_some, Prod.exists,
        List.mem_zipIdx_iff_getElem?]
      constructor
      · rintro ⟨item, index, hitem, rfl, rfl⟩
        exact ⟨items, index, rfl, hall, hitem, rfl⟩
      · rintro ⟨_, index, rfl, -, hitem, rfl⟩
        exact ⟨.object child, index, hitem, rfl, rfl⟩
    · rename_i hall
      simp only [List.not_mem_nil, false_iff]
      rintro ⟨_, index, rfl, hall', -⟩
      exact hall hall'
  | _ => simp [stepsInto]

theorem mem_nodeSteps {members : NameMap Json} :
    (step, child) ∈ nodeSteps members.entries ↔ NodeStep members step child := by
  simp only [nodeSteps, List.mem_flatMap, Prod.exists]
  constructor
  · rintro ⟨name, v, hmem, hstep⟩
    split at hstep
    · cases hstep
    · rename_i hname
      simp only [Node.isReserved, Bool.or_eq_true, decide_eq_true_eq, not_or] at hname
      rcases mem_stepsInto.1 hstep with ⟨rfl, hnode, rfl⟩ | ⟨items, index, rfl, hlist, hitem, rfl⟩
      · exact .member hmem hname.1 hname.2 hnode
      · exact .item hmem hname.1 hname.2 hlist hitem
  · intro h
    cases h with
    | @member name _ hmem htype hloc hnode =>
      refine ⟨name, _, hmem, ?_⟩
      simp only [Node.isReserved, htype, hloc, decide_false, Bool.or_self, Bool.false_eq_true,
        if_false]
      exact mem_stepsInto.2 (.inl ⟨rfl, hnode, rfl⟩)
    | @item name items index _ hmem htype hloc hlist hitem =>
      refine ⟨name, _, hmem, ?_⟩
      simp only [Node.isReserved, htype, hloc, decide_false, Bool.or_self, Bool.false_eq_true,
        if_false]
      exact mem_stepsInto.2 (.inr ⟨items, index, rfl, hlist, hitem, rfl⟩)

theorem key_of_mem_stepsInto {v : Json} (h : (step, child) ∈ stepsInto name v) :
    step.key = name := by
  rcases mem_stepsInto.1 h with ⟨-, -, rfl⟩ | ⟨items, index, -, -, -, rfl⟩ <;> rfl

theorem stepsInto_pairwise (name : String) (v : Json) :
    (stepsInto name v).Pairwise fun a b => a.1.Earlier b.1 := by
  cases v with
  | object members =>
    rw [stepsInto]
    split
    · exact List.pairwise_singleton ..
    · exact List.Pairwise.nil
  | array items =>
    rw [stepsInto]
    split
    · have hindex : items.zipIdx.Pairwise fun a b => a.2 < b.2 := by
        have hrange : (items.zipIdx.map Prod.snd).Pairwise (· < ·) := by
          rw [List.zipIdx_map_snd]
          exact List.pairwise_lt_range' 1
        exact List.pairwise_map.1 hrange
      apply List.pairwise_filterMap.2
      refine hindex.imp fun {a b} hlt => ?_
      rintro ⟨step, child⟩ ha ⟨step', child'⟩ hb
      obtain ⟨-, rfl⟩ := itemStep?_eq_some.1 ha
      obtain ⟨-, rfl⟩ := itemStep?_eq_some.1 hb
      exact .inr ⟨rfl, a.2, b.2, rfl, rfl, hlt⟩
    · exact List.Pairwise.nil
  | _ => exact List.Pairwise.nil

theorem nodeSteps_pairwise {members : NameMap Json} (h : members.Sorted) :
    (nodeSteps members.entries).Pairwise fun a b => a.1.Earlier b.1 := by
  apply List.pairwise_flatMap.2
  constructor
  · rintro ⟨name, v⟩ -
    dsimp only
    split
    · exact List.Pairwise.nil
    · exact stepsInto_pairwise name v
  · refine (List.pairwise_map.1 h).imp fun {first second} hlt => ?_
    rintro ⟨a, _⟩ ha ⟨b, _⟩ hb
    have hkey : ∀ {entry : String × Json} {s : Step} {m : NameMap Json},
        (s, m) ∈ (if Node.isReserved entry.1 then [] else stepsInto entry.1 entry.2) →
          s.key = entry.1 := by
      intro entry s m hmem
      split at hmem
      · cases hmem
      · exact key_of_mem_stepsInto hmem
    left
    rw [hkey ha, hkey hb]
    exact hlt

theorem sizeOf_lt_of_nodeStep {members : NameMap Json} (h : NodeStep members step child) :
    sizeOf child < sizeOf members := by
  obtain ⟨entries⟩ := members
  cases h with
  | member mem _ _ _ =>
    have hentry := List.sizeOf_lt_of_mem mem
    simp only [Prod.mk.sizeOf_spec, object.sizeOf_spec, NameMap.mk.sizeOf_spec] at hentry ⊢
    omega
  | item mem _ _ _ here =>
    have hentry := List.sizeOf_lt_of_mem mem
    have hitem := List.sizeOf_lt_of_mem (List.mem_of_getElem? here)
    simp only [Prod.mk.sizeOf_spec, array.sizeOf_spec, object.sizeOf_spec,
      NameMap.mk.sizeOf_spec] at hentry hitem ⊢
    omega

theorem NodeStep.ordered {members : NameMap Json} (h : NodeStep members step child)
    (hmembers : (object members).Ordered) : (object child).Ordered := by
  cases hmembers with
  | object _ values =>
    cases h with
    | member mem _ _ _ => exact values _ mem
    | item mem _ _ _ here =>
      cases values _ mem with
      | array hitems => exact hitems _ (List.mem_of_getElem? here)

theorem NodeStep.nodeLike {members : NameMap Json} (h : NodeStep members step child) :
    (object child).NodeLike := by
  cases h with
  | member _ _ _ node => exact node
  | item _ _ _ list here =>
    rcases list _ (List.mem_of_getElem? here) with hnull | hnode
    · cases hnull
    · exact hnode

end Steps

def nodePositions (members : NameMap Json) : List (Place × NameMap Json) :=
  ([], members) :: (nodeSteps members.entries).attach.flatMap fun ⟨(step, child), _⟩ =>
    (nodePositions child).map fun (place, m) => (step :: place, m)
termination_by sizeOf members
decreasing_by exact sizeOf_lt_of_nodeStep (mem_nodeSteps.1 ‹_›)

theorem nodePositions_eq (members : NameMap Json) :
    nodePositions members =
      ([], members) :: (nodeSteps members.entries).flatMap fun (step, child) =>
        (nodePositions child).map fun (place, m) => (step :: place, m) := by
  rw [nodePositions, List.flatMap_subtype fun _ _ => rfl, List.unattach_attach]

theorem mem_nodePositions {members m : NameMap Json} {place : Place} :
    (place, m) ∈ nodePositions members ↔ NodeAt members place m := by
  constructor
  · intro h
    induction place generalizing members with
    | nil =>
      rw [nodePositions_eq] at h
      obtain rfl : m = members := by simpa using h
      exact .root
    | cons step place ih =>
      rw [nodePositions_eq] at h
      obtain ⟨child, hstep, hrest⟩ : ∃ child,
          (step, child) ∈ nodeSteps members.entries ∧ (place, m) ∈ nodePositions child := by
        simpa [and_assoc] using h
      exact .inside (mem_nodeSteps.1 hstep) (ih hrest)
  · intro h
    induction h with
    | root =>
      rw [nodePositions_eq]
      exact List.mem_cons_self
    | @inside members child m step place first rest ih =>
      rw [nodePositions_eq]
      apply List.mem_cons_of_mem
      exact List.mem_flatMap.2 ⟨(step, child), mem_nodeSteps.2 first,
        List.mem_map.2 ⟨(place, m), ih, rfl⟩⟩

theorem nodePositions_pairwise (members : NameMap Json) (h : (object members).Ordered) :
    (nodePositions members).Pairwise fun a b => a.1.Earlier b.1 := by
  rw [nodePositions_eq]
  refine List.pairwise_cons.2 ⟨?_, List.pairwise_flatMap.2 ⟨?_, ?_⟩⟩
  · rintro ⟨place, m⟩ hmem
    simp only [List.mem_flatMap, List.mem_map, Prod.mk.injEq, Prod.exists] at hmem
    obtain ⟨step, child, -, place', m', -, rfl, -⟩ := hmem
    exact .nil
  · rintro ⟨step, child⟩ hstep
    have hfirst := mem_nodeSteps.1 hstep
    have hlt := sizeOf_lt_of_nodeStep hfirst
    exact List.pairwise_map.2
      ((nodePositions_pairwise child (hfirst.ordered h)).imp fun hearlier => .cons hearlier)
  · cases h with
    | object names _ =>
      refine (nodeSteps_pairwise names).imp fun {a b} hearlier => ?_
      rintro ⟨place, m⟩ ha ⟨place', m'⟩ hb
      simp only [List.mem_map, Prod.mk.injEq, Prod.exists] at ha hb
      obtain ⟨_, _, -, rfl, -⟩ := ha
      obtain ⟨_, _, -, rfl, -⟩ := hb
      exact .rel hearlier
termination_by sizeOf members

end Json

end SyntaxWalk
