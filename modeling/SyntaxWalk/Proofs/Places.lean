import SyntaxWalk.Proofs.OrderedTree

/-!
# Places in a tree

A place says how to get to a node: from the root by steps, each a field and, in a list, an index.
`Leads` says which places a table of keys leads to. Two places that part at some node stand in the
order of the two steps there: the order of the fields in the table, and in a list that of the items
(`Apart`). With a place before all those below it this is the order of a depth-first walk
(`Precedes`).
-/

namespace SyntaxWalk

structure Step where
  key : String
  index : Option Nat := none
  deriving DecidableEq

abbrev Place := List Step

def Node.at? (n : Node) (step : Step) : Option Node :=
  match n.field? step.key, step.index with
  | some (.node m), none => some m
  | some (.list items), some index => items[index]?.join
  | _, _ => none

def itemSteps (key : String) : Nat → List (Option Node) → List (Step × Node)
  | _, [] => []
  | index, none :: rest => itemSteps key (index + 1) rest
  | index, some n :: rest => (⟨key, some index⟩, n) :: itemSteps key (index + 1) rest

def Field.steps (key : String) : Field Node → List (Step × Node)
  | .node n => [(⟨key, none⟩, n)]
  | .list items => itemSteps key 0 items
  | .value _ => []

def Node.stepsUnder (n : Node) (key : String) : List (Step × Node) :=
  ((n.field? key).map (Field.steps key)).getD []

def Node.steps (n : Node) (names : List String) : List (Step × Node) :=
  names.flatMap n.stepsUnder

theorem itemSteps_nodes (key : String) (first : Nat) (items : List (Option Node)) :
    (itemSteps key first items).map Prod.snd = items.filterMap id := by
  induction items generalizing first with
  | nil => rfl
  | cons item rest ih =>
    cases item with
    | none => exact ih (first + 1)
    | some n => exact congrArg (n :: ·) (ih (first + 1))

theorem Node.stepsUnder_nodes (n : Node) (key : String) :
    (n.stepsUnder key).map Prod.snd = n.children key := by
  unfold stepsUnder children
  rcases n.field? key with _ | m | items | v
  · rfl
  · rfl
  · exact itemSteps_nodes key 0 items
  · rfl

/-- `a` comes first: by the order of the fields, and in one field by that of the items. -/
def Step.Before (names : List String) (a b : Step) : Prop :=
  names.idxOf a.key < names.idxOf b.key ∨
    a.key = b.key ∧ ∃ i j, a.index = some i ∧ b.index = some j ∧ i < j

theorem Step.Before.ne {names : List String} {a b : Step} (h : Step.Before names a b) : a ≠ b := by
  rintro rfl
  rcases h with h | ⟨-, i, j, hi, hj, hlt⟩
  · exact Nat.lt_irrefl _ h
  · rw [hi] at hj
    cases hj
    exact Nat.lt_irrefl _ hlt

section Steps

variable {key : String} {step : Step} {m : Node}

theorem mem_itemSteps {first : Nat} {items : List (Option Node)} :
    (step, m) ∈ itemSteps key first items ↔
      ∃ i, step = ⟨key, some (first + i)⟩ ∧ items[i]? = some (some m) := by
  induction items generalizing first with
  | nil => simp [itemSteps]
  | cons item rest ih =>
    have hrest : (step, m) ∈ itemSteps key (first + 1) rest ↔
        ∃ i, step = ⟨key, some (first + (i + 1))⟩ ∧ (item :: rest)[i + 1]? = some (some m) := by
      rw [ih]
      simp only [List.getElem?_cons_succ, Nat.add_assoc, Nat.add_comm 1]
    constructor
    · intro h
      cases item with
      | none =>
        obtain ⟨i, hstep, hi⟩ := hrest.1 h
        exact ⟨i + 1, hstep, hi⟩
      | some n =>
        rcases List.mem_cons.1 h with heq | h
        · cases heq
          exact ⟨0, rfl, rfl⟩
        · obtain ⟨i, hstep, hi⟩ := hrest.1 h
          exact ⟨i + 1, hstep, hi⟩
    · rintro ⟨i, hstep, hi⟩
      cases i with
      | zero =>
        cases hi
        exact List.mem_cons.2 (.inl (by rw [hstep]; rfl))
      | succ i =>
        have htail := hrest.2 ⟨i, hstep, hi⟩
        cases item with
        | none => exact htail
        | some n => exact List.mem_cons_of_mem _ htail

theorem mem_stepsUnder {n : Node} :
    (step, m) ∈ n.stepsUnder key ↔ step.key = key ∧ n.at? step = some m := by
  obtain ⟨name, index⟩ := step
  unfold Node.stepsUnder Node.at?
  constructor
  · intro h
    cases hfield : n.field? key with
    | none => simp [hfield] at h
    | some field =>
      rw [hfield] at h
      cases field with
      | node n' =>
        cases List.mem_singleton.1 h
        exact ⟨rfl, by simp [hfield]⟩
      | list items =>
        obtain ⟨i, hstep, hi⟩ := mem_itemSteps.1 h
        cases hstep
        exact ⟨rfl, by simp [hfield, hi]⟩
      | value v => cases h
  · rintro ⟨rfl, hat⟩
    cases hfield : n.field? name with
    | none => simp [hfield] at hat
    | some field =>
      rw [hfield] at hat
      cases field with
      | node n' =>
        cases index with
        | none =>
          cases hat
          exact List.mem_singleton_self _
        | some i => cases hat
      | list items =>
        cases index with
        | none => cases hat
        | some i => exact mem_itemSteps.2 ⟨i, by simp, Option.join_eq_some_iff.1 hat⟩
      | value v => cases index <;> cases hat

theorem Node.mem_steps {n : Node} {names : List String} :
    (step, m) ∈ n.steps names ↔ step.key ∈ names ∧ n.at? step = some m := by
  simp only [steps, List.mem_flatMap, mem_stepsUnder]
  constructor
  · rintro ⟨key, hkey, rfl, hat⟩
    exact ⟨hkey, hat⟩
  · rintro ⟨hkey, hat⟩
    exact ⟨step.key, hkey, rfl, hat⟩

theorem Node.mem_children_of_at? {n : Node} (h : n.at? step = some m) : m ∈ n.children step.key := by
  rw [← n.stepsUnder_nodes]
  exact List.mem_map.2 ⟨(step, m), mem_stepsUnder.2 ⟨rfl, h⟩, rfl⟩

theorem itemSteps_pairwise (names : List String) (first : Nat) (items : List (Option Node)) :
    (itemSteps key first items).Pairwise fun a b => Step.Before names a.1 b.1 := by
  induction items generalizing first with
  | nil => exact List.Pairwise.nil
  | cons item rest ih =>
    cases item with
    | none => exact ih (first + 1)
    | some n =>
      refine List.Pairwise.cons (fun b hb => ?_) (ih (first + 1))
      obtain ⟨i, hi, -⟩ := mem_itemSteps.1 hb
      exact .inr ⟨by rw [hi], first, first + 1 + i, rfl, by rw [hi], by omega⟩

theorem Node.steps_pairwise (n : Node) {names : List String} (hnames : names.Nodup) :
    (n.steps names).Pairwise fun a b => Step.Before names a.1 b.1 := by
  refine List.pairwise_flatMap.2 ⟨fun key _ => ?_, List.pairwise_iff_getElem.2 ?_⟩
  · unfold stepsUnder
    rcases n.field? key with _ | field | items | v
    · exact List.Pairwise.nil
    · exact List.pairwise_singleton ..
    · exact itemSteps_pairwise names 0 items
    · exact List.Pairwise.nil
  · intro i j hi hj hij a ha b hb
    have hkeyA := (mem_stepsUnder.1 ha).1
    have hkeyB := (mem_stepsUnder.1 hb).1
    left
    rw [hkeyA, hkeyB, hnames.idxOf_getElem, hnames.idxOf_getElem]
    exact hij

end Steps

theorem Node.Ordered.at? {n m : Node} {step : Step} (h : n.Ordered) (hat : n.at? step = some m) :
    m.Ordered := by
  unfold Node.at? at hat
  split at hat
  · rename_i field hfield _
    cases hat
    exact h.of_field? hfield _ (List.mem_singleton_self _)
  · rename_i items index hfield _
    refine h.of_field? hfield _ (List.mem_filterMap.2 ⟨some m, ?_, rfl⟩)
    exact List.mem_of_getElem? (Option.join_eq_some_iff.1 hat)
  · cases hat

theorem strictly_below_of_step {above q : Place} {step : Step} (h : above ++ [step] <+: q) :
    above <+: q ∧ above ≠ q := by
  refine ⟨(List.prefix_append _ _).trans h, fun heq => ?_⟩
  have hlength := h.length_le
  simp only [heq, List.length_append, List.length_singleton] at hlength
  omega

/-- The places that the table leads to from the root of a tree, with the nodes there. -/
inductive Leads (keys : VisitorKeys) (tree : Node) : Place → Node → Prop
  | root : Leads keys tree [] tree
  | step {place : Place} {n m : Node} {names : List String} {step : Step}
      (above : Leads keys tree place n) (known : keys.childKeys? n = some names)
      (listed : step.key ∈ names) (below : n.at? step = some m) :
      Leads keys tree (place ++ [step]) m

variable {keys : VisitorKeys} {tree : Node}

theorem Leads.ordered (htree : tree.Ordered) {place : Place} {n : Node}
    (h : Leads keys tree place n) : n.Ordered := by
  induction h with
  | root => exact htree
  | step above known listed below ih => exact ih.at? below

/-- The places part at some node, and `a` goes down by the earlier of the two steps there. -/
def Apart (keys : VisitorKeys) (tree : Node) (a b : Place) : Prop :=
  ∃ above n names step step', Leads keys tree above n ∧ keys.childKeys? n = some names ∧
    Step.Before names step step' ∧ above ++ [step] <+: a ∧ above ++ [step'] <+: b

/-- Depth-first order: a place comes before those below it, and places that part come in the order
of the steps at which they do. -/
def Precedes (keys : VisitorKeys) (tree : Node) (a b : Place) : Prop :=
  (a <+: b ∧ a ≠ b) ∨ Apart keys tree a b

namespace Apart

variable {a a' b b' c : Place}

theorem mono (h : Apart keys tree a b) (ha : a <+: a') (hb : b <+: b') :
    Apart keys tree a' b' := by
  obtain ⟨above, n, names, step, step', hn, hnames, hbefore, hstep, hstep'⟩ := h
  exact ⟨above, n, names, step, step', hn, hnames, hbefore, hstep.trans ha, hstep'.trans hb⟩

theorem not_below (h : Apart keys tree a b) (ha : a <+: c) (hb : b <+: c) : False := by
  obtain ⟨above, n, names, step, step', -, -, hbefore, hstep, hstep'⟩ := h
  have hsame := (List.prefix_of_prefix_length_le (hstep.trans ha) (hstep'.trans hb)
    (by simp)).eq_of_length (by simp)
  exact hbefore.ne (by simpa using hsame)

end Apart

theorem Precedes.ne {a b : Place} (h : Precedes keys tree a b) : a ≠ b := by
  rcases h with ⟨-, hne⟩ | hapart
  · exact hne
  · rintro rfl
    exact hapart.not_below List.prefix_rfl List.prefix_rfl

end SyntaxWalk
