import SyntaxWalk.Proofs.Visits
import Mathlib.Data.List.Forall2

/-!
# Slots

A slot is a place in a node that holds a node or a hole. Whatever a visitor does to the nodes it is
given, the walk of the children of a node fills the slots of the listed fields anew and touches
nothing else, also when it fails on its way (`walkChildren_refills`). A visitor that leaves its nodes
as they are therefore leaves the whole tree as it was.
-/

namespace SyntaxWalk

/-- The same slots, with nodes in them that are related to the ones before. -/
inductive Field.Refilled (P : Node → Node → Prop) : Field Node → Field Node → Prop
  | node {n m : Node} (h : P n m) : Refilled P (.node n) (.node m)
  | list {items items' : List (Option Node)} (h : List.Forall₂ (Option.Rel P) items items') :
      Refilled P (.list items) (.list items')
  | value (v : Json) : Refilled P (.value v) (.value v)

structure EntryRefilled (P : Node → Node → Prop) (names : List String)
    (a b : String × Field Node) : Prop where
  name : a.1 = b.1
  field : a.2.Refilled P b.2
  unlisted : a.1 ∉ names → a.2 = b.2

structure Node.Refilled (P : Node → Node → Prop) (names : List String) (n m : Node) : Prop where
  kind : m.kind = n.kind
  loc : m.loc = n.loc
  entries : List.Forall₂ (EntryRefilled P names) n.fields.entries m.fields.entries

/-- What a node keeps when the fields with these names were walked. -/
structure Node.KeepsSlots (listed : List String) (n m : Node) : Prop where
  kind : m.kind = n.kind
  loc : m.loc = n.loc
  names : m.fields.names = n.fields.names
  unlisted : ∀ key, key ∉ listed → m.field? key = n.field? key
  value : ∀ key v, n.field? key = some (.value v) → m.field? key = some (.value v)
  node : ∀ key child, n.field? key = some (.node child) →
    ∃ child', m.field? key = some (.node child')
  list : ∀ key items, n.field? key = some (.list items) →
    ∃ items', m.field? key = some (.list items') ∧
      items'.map Option.isSome = items.map Option.isSome

theorem forall₂_trans {α : Type} {R : α → α → Prop} (h : ∀ a b c, R a b → R b c → R a c)
    {l₁ l₂ l₃ : List α} (h₁ : List.Forall₂ R l₁ l₂) (h₂ : List.Forall₂ R l₂ l₃) :
    List.Forall₂ R l₁ l₃ := by
  induction h₁ generalizing l₃ with
  | nil => exact h₂
  | cons hab _ ih =>
    cases h₂ with
    | cons hbc hrest => exact .cons (h _ _ _ hab hbc) (ih hrest)

section Refilled

variable {P : Node → Node → Prop} {names : List String}

theorem optionRel_refl (hrefl : ∀ n, P n n) (item : Option Node) : Option.Rel P item item := by
  cases item with
  | none => exact .none
  | some n => exact .some (hrefl n)

theorem items_refl (hrefl : ∀ n, P n n) (items : List (Option Node)) :
    List.Forall₂ (Option.Rel P) items items :=
  List.forall₂_same.2 fun item _ => optionRel_refl hrefl item

theorem Field.Refilled.refl (hrefl : ∀ n, P n n) (field : Field Node) : field.Refilled P field := by
  cases field with
  | node n => exact .node (hrefl n)
  | list items => exact .list (items_refl hrefl items)
  | value v => exact .value v

theorem Field.Refilled.trans (htrans : ∀ a b c, P a b → P b c → P a c) {f g h : Field Node}
    (hfg : f.Refilled P g) (hgh : g.Refilled P h) : f.Refilled P h := by
  cases hfg with
  | node h₁ =>
    cases hgh with
    | node h₂ => exact .node (htrans _ _ _ h₁ h₂)
  | list h₁ =>
    cases hgh with
    | list h₂ =>
      refine .list (forall₂_trans (fun a b c hab hbc => ?_) h₁ h₂)
      cases hab with
      | none => exact hbc
      | some hab =>
        cases hbc with
        | some hbc => exact .some (htrans _ _ _ hab hbc)
  | value v => exact hgh

theorem Field.Refilled.eq_of_eq {f g : Field Node} (h : f.Refilled Eq g) : f = g := by
  cases h with
  | node h => rw [h]
  | list h =>
    have hsame := List.Forall₂.imp (S := Eq) (fun a b hab => ?_) h
    · rw [List.forall₂_eq_eq_eq] at hsame
      rw [hsame]
    · cases hab with
      | none => rfl
      | some hab => rw [hab]
  | value v => rfl

theorem holes_eq {items items' : List (Option Node)}
    (h : List.Forall₂ (Option.Rel P) items items') :
    items'.map Option.isSome = items.map Option.isSome := by
  induction h with
  | nil => rfl
  | cons hitem _ ih =>
    rw [List.map_cons, List.map_cons, ih]
    cases hitem <;> rfl

namespace Node.Refilled

theorem refl (hrefl : ∀ n, P n n) (n : Node) : n.Refilled P names n :=
  ⟨rfl, rfl, List.forall₂_same.2 fun entry _ => ⟨rfl, .refl hrefl entry.2, fun _ => rfl⟩⟩

theorem trans (htrans : ∀ a b c, P a b → P b c → P a c) {n m k : Node}
    (h₁ : n.Refilled P names m) (h₂ : m.Refilled P names k) : n.Refilled P names k := by
  refine ⟨h₂.kind.trans h₁.kind, h₂.loc.trans h₁.loc,
    forall₂_trans (fun a b c hab hbc => ?_) h₁.entries h₂.entries⟩
  refine ⟨hab.name.trans hbc.name, hab.field.trans htrans hbc.field, fun hunlisted => ?_⟩
  exact (hab.unlisted hunlisted).trans (hbc.unlisted (hab.name ▸ hunlisted))

theorem overwrite (hrefl : ∀ n, P n n) {key : String} (hkey : key ∈ names)
    {field field' : Field Node} {entries : List (String × Field Node)}
    (hfind : NameMap.find key entries = some field) (h : field.Refilled P field') :
    List.Forall₂ (EntryRefilled P names) entries (NameMap.overwrite key field' entries) := by
  induction entries with
  | nil => exact .nil
  | cons entry rest ih =>
    obtain ⟨name, other⟩ := entry
    rw [NameMap.find] at hfind
    rw [NameMap.overwrite]
    split at hfind
    · rename_i heq
      cases hfind
      rw [if_pos heq]
      refine .cons ⟨rfl, h, fun hunlisted => absurd (heq ▸ hkey) hunlisted⟩ ?_
      exact List.forall₂_same.2 fun entry _ => ⟨rfl, .refl hrefl entry.2, fun _ => rfl⟩
    · rename_i hne
      rw [if_neg hne]
      exact .cons ⟨rfl, .refl hrefl other, fun _ => rfl⟩ (ih hfind)

theorem replaceField (hrefl : ∀ n, P n n) {n : Node} {key : String} (hkey : key ∈ names)
    {field field' : Field Node} (hfield : n.field? key = some field)
    (h : field.Refilled P field') : n.Refilled P names (n.replaceField key field') :=
  ⟨rfl, rfl, overwrite hrefl hkey hfield h⟩

theorem find {key : String} {field : Field Node} {entries entries' : List (String × Field Node)}
    (h : List.Forall₂ (EntryRefilled P names) entries entries')
    (hfind : NameMap.find key entries = some field) :
    ∃ field', NameMap.find key entries' = some field' ∧ field.Refilled P field' := by
  induction h with
  | nil => cases hfind
  | @cons a b rest rest' hab _ ih =>
    simp only [NameMap.find, ← hab.name] at hfind ⊢
    split at hfind
    · rename_i heq
      cases hfind
      exact ⟨b.2, if_pos heq, hab.field⟩
    · rename_i hne
      rw [if_neg hne]
      exact ih hfind

theorem names_eq {entries entries' : List (String × Field Node)}
    (h : List.Forall₂ (EntryRefilled P names) entries entries') :
    entries'.map Prod.fst = entries.map Prod.fst := by
  induction h with
  | nil => rfl
  | cons hab _ ih => rw [List.map_cons, List.map_cons, ih, hab.name]

theorem find_unlisted {key : String} (hkey : key ∉ names)
    {entries entries' : List (String × Field Node)}
    (h : List.Forall₂ (EntryRefilled P names) entries entries') :
    NameMap.find key entries' = NameMap.find key entries := by
  induction h with
  | nil => rfl
  | @cons a b rest rest' hab _ ih =>
    simp only [NameMap.find, ← hab.name]
    by_cases heq : a.1 = key
    · rw [if_pos heq, if_pos heq, hab.unlisted (heq ▸ hkey)]
    · rw [if_neg heq, if_neg heq, ih]

theorem keepsSlots {n m : Node} (h : n.Refilled P names m) : n.KeepsSlots names m where
  kind := h.kind
  loc := h.loc
  names := names_eq h.entries
  unlisted key hkey := find_unlisted hkey h.entries
  value key v hv := by
    obtain ⟨field', hfield', hrel⟩ := find h.entries hv
    cases hrel
    exact hfield'
  node key child hchild := by
    obtain ⟨field', hfield', hrel⟩ := find h.entries hchild
    cases hrel with
    | node _ => exact ⟨_, hfield'⟩
  list key items hitems := by
    obtain ⟨field', hfield', hrel⟩ := find h.entries hitems
    cases hrel with
    | list hitems => exact ⟨_, hfield', holes_eq hitems⟩

theorem eq_of_eq {n m : Node} (h : n.Refilled Eq names m) : m = n := by
  obtain ⟨kind, loc, ⟨entries⟩⟩ := n
  obtain ⟨kind', loc', ⟨entries'⟩⟩ := m
  obtain ⟨rfl, rfl, hentries⟩ := h
  have hsame : List.Forall₂ Eq entries entries' :=
    List.Forall₂.imp (fun a b hab => Prod.ext hab.name hab.field.eq_of_eq) hentries
  rw [List.forall₂_eq_eq_eq] at hsame
  rw [hsame]

end Node.Refilled

end Refilled

variable {σ ε α β τ τ' : Type}

def EndsIn (R : τ → Prop) (o : Option (Outcome τ σ ε α)) : Prop := ∀ x, o = some x → R x.subject

namespace EndsIn

variable {R : τ → Prop} {R' : τ' → Prop}

theorem now {t : τ} (h : R t) (s : σ) (verdict : Except (WalkError ε) α) :
    EndsIn R (some ⟨t, s, verdict⟩) := by
  intro x hx
  cases hx
  exact h

theorem mapSubject {o : Option (Outcome τ σ ε α)} (h : EndsIn R o) {f : τ → τ'}
    (hf : ∀ t, R t → R' (f t)) : EndsIn R' (o.map (Outcome.mapSubject f)) := by
  intro x hx
  obtain ⟨y, hy, rfl⟩ := Option.map_eq_some_iff.1 hx
  exact hf _ (h y hy)

theorem andThen {R' : τ → Prop} {o : Option (Outcome τ σ ε α)} (h : EndsIn R o)
    {next : τ → σ → α → Option (Outcome τ σ ε β)} (hstop : ∀ t, R t → R' t)
    (hnext : ∀ t s a, R t → EndsIn R' (next t s a)) :
    EndsIn R' (o.bind fun o => o.andThen next) := by
  rcases o with _ | ⟨t, s, e | a⟩
  · intro x hx
    cases hx
  · exact now (hstop t (h _ rfl)) s _
  · exact hnext t s a (h _ rfl)

theorem followed {ω : Type} {c : Recorded ω τ σ ε α} (h : EndsIn R c.outcome) {stop : τ → τ'}
    {next : τ → σ → α → Recorded ω τ' σ ε β} (hstop : ∀ t, R t → R' (stop t))
    (hnext : ∀ t s a, R t → EndsIn R' (next t s a).outcome) :
    EndsIn R' (c.followed stop next).outcome := by
  obtain ⟨events, outcome⟩ := c
  rcases outcome with _ | ⟨t, s, e | a⟩
  · intro x hx
    cases hx
  · exact now (hstop t (h _ rfl)) s _
  · exact hnext t s a (h _ rfl)

theorem followed_isSome {ω : Type} {c : Recorded ω τ σ ε α} {t : τ} (h : EndsIn (· = t) c.outcome)
    (hends : c.outcome.isSome) {stop : τ → τ'} {next : τ → σ → α → Recorded ω τ' σ ε β}
    (hnext : ∀ s a, (next t s a).outcome.isSome) : (c.followed stop next).outcome.isSome := by
  obtain ⟨events, outcome⟩ := c
  rcases outcome with _ | ⟨m, s, e | a⟩
  · cases hends
  · rfl
  · obtain rfl : m = t := h _ rfl
    exact hnext s a

end EndsIn

section Walk

variable {P : Node → Node → Prop} {walk : Descent σ ε}
  (hrefl : ∀ n, P n n) (hwalk : ∀ n parent s, EndsIn (P n) (walk n parent s))

include hrefl hwalk

theorem walkItems_refills (view : Node) (key : String) (index : Nat) (items : List (Option Node))
    (s : σ) :
    EndsIn (List.Forall₂ (Option.Rel P) items) (walkItems walk view key index items s) := by
  induction items generalizing index s with
  | nil => exact .now .nil s _
  | cons item rest ih =>
    cases item with
    | none => exact (ih (index + 1) s).mapSubject fun items' h => .cons .none h
    | some n =>
      have hn := hwalk n (some ⟨view, key, some index⟩) s
      rw [walkItems]
      generalize walk n (some ⟨view, key, some index⟩) s = o at hn ⊢
      rcases o with _ | ⟨m, s', e | a⟩
      · intro x hx
        cases hx
      · -- The rest of the list was not reached and is put back as it was.
        exact .now (.cons (.some (hn _ rfl)) (items_refl hrefl rest)) s' _
      · exact (ih (index + 1) s').mapSubject fun items' h => .cons (.some (hn _ rfl)) h

theorem walkField_refills (view : Node) (key : String) (field : Field Node) (s : σ) :
    EndsIn (field.Refilled P) (walkField walk view key field s) := by
  cases field with
  | node n => exact (hwalk n _ s).mapSubject fun m h => .node h
  | list items =>
    exact (walkItems_refills hrefl hwalk view key 0 items s).mapSubject fun items' h => .list h
  | value v => exact .now (.value v) s _

variable (htrans : ∀ a b c, P a b → P b c → P a c)

include htrans

theorem walkFields_refills {listed : List String} (names : List String)
    (hnames : ∀ key ∈ names, key ∈ listed) (n : Node) (s : σ) :
    EndsIn (n.Refilled P listed) (walkFields walk names n s) := by
  induction names generalizing n s with
  | nil => exact .now (.refl hrefl n) s _
  | cons key names ih =>
    have hkey := hnames key List.mem_cons_self
    have hrest := fun key' h => hnames key' (List.mem_cons_of_mem key h)
    rw [walkFields]
    cases hfield : n.field? key with
    | none => exact ih hrest n s
    | some field =>
      have hput := (walkField_refills hrefl hwalk (n.eraseField key) key field s).mapSubject
        (f := n.replaceField key) fun field' h => Node.Refilled.replaceField hrefl hkey hfield h
      have hwalked : EndsIn (n.Refilled P listed)
          (((walkField walk (n.eraseField key) key field s).map
            (Outcome.mapSubject (n.replaceField key))).bind fun o => o.andThen fun m s' _ =>
              walkFields walk names m s') :=
        hput.andThen (fun m h => h) fun m s' _ hm x hx => hm.trans htrans (ih hrest m s' x hx)
      rw [Option.bind_map] at hwalked
      exact hwalked

/-- The walk of the children of a node fills the slots of the listed fields anew, and no other
part of the node is touched. -/
theorem walkChildren_refills (keys : VisitorKeys) (n : Node) (s : σ) :
    EndsIn (n.Refilled P ((keys.childKeys? n).getD [])) (walkChildren keys walk n s) := by
  cases hnames : keys.childKeys? n with
  | none =>
    rw [walkChildren_unknown hnames]
    exact .now (.refl hrefl n) s _
  | some names =>
    rw [walkChildren, hnames]
    exact walkFields_refills hrefl hwalk htrans names (fun _ h => h) n s

end Walk

def Unwritten (walk : Descent σ ε) : Prop := ∀ n parent s, EndsIn (· = n) (walk n parent s)

/-- Leaves the nodes it is given as they are, if the walk it is given does. -/
structure Visitor.NeverWrites (v : Visitor σ ε) : Prop where
  enter : ∀ {walk}, Unwritten walk → ∀ n parent s, EndsIn (· = n) (v.enter walk n parent s)
  leave : ∀ {walk}, Unwritten walk → ∀ n parent s, EndsIn (· = n) (v.leave walk n parent s)

structure Visitor.Answers (v : Visitor σ ε) : Prop where
  enter : ∀ walk n parent s, (v.enter walk n parent s).isSome
  leave : ∀ walk n parent s, (v.leave walk n parent s).isSome

section Unwritten

variable {walk : Descent σ ε} (hwalk : Unwritten walk)

include hwalk

theorem walkChildren_unwritten (keys : VisitorKeys) (n : Node) (s : σ) :
    EndsIn (· = n) (walkChildren keys walk n s) := by
  intro o ho
  have hsame : ∀ n parent s, EndsIn (Eq n) (walk n parent s) :=
    fun n parent s x hx => (hwalk n parent s x hx).symm
  exact (walkChildren_refills (fun _ => rfl) hsame (fun _ _ _ => Eq.trans) keys n s o ho).eq_of_eq

end Unwritten

theorem walkNode_unwritten {v : Visitor σ ε} (hv : v.NeverWrites) (keys : VisitorKeys)
    (fuel : Nat) : Unwritten (walkNode v keys fuel) := by
  induction fuel with
  | zero =>
    intro n parent s x hx
    cases hx
  | succ fuel ih =>
    intro n parent s
    simp only [walkNode, visit, Option.bind_eq_bind, ← Option.bind_assoc]
    refine ((hv.enter ih n parent s).andThen (fun m h => h) fun m s control hm => ?_).andThen
      (fun m h => h) fun m s _ hm => ?_
    · subst hm
      cases control with
      | descend => exact walkChildren_unwritten ih keys m s
      | skip => exact .now (R := (· = m)) rfl s _
    · subst hm
      exact hv.leave ih m parent s

/-- That the walk of the later fields ends is known of the nodes that were in them at first, so it
is shown together with that these are there still. -/
theorem composes_ends (Ends : Node → Prop) :
    Composes True (Sole fun _ items t (c : σ → Recorded Empty _ σ ε Unit) =>
      (∀ s, EndsIn (· = t) (c s).outcome) ∧
        ((∀ item ∈ items, Ends item.2) → ∀ s, (c s).outcome.isSome)) where
  now t := ⟨fun s => .now (R := (· = t)) rfl s _, fun _ _ => rfl⟩
  mapSubject f h := by
    refine ⟨fun s => (h.1 s).mapSubject fun t ht => congrArg f ht, fun hends s => ?_⟩
    exact Option.isSome_map.trans (h.2 hends s)
  followed h hnext := by
    have hrest := hnext _ fun _ => rfl
    refine ⟨fun s => (h.1 s).followed (fun m hm => congrArg _ hm) fun m s' _ hm => ?_,
      fun hends s => (h.1 s).followed_isSome
        (h.2 (fun item hitem => hends item (List.mem_append_left _ hitem)) s) fun s' _ =>
          hrest.2 (fun item hitem => hends item (List.mem_append_right _ hitem)) s'⟩
    subst hm
    exact hrest.1 s'

theorem walkChildren_isSome {walk : Descent σ ε} (hsame : Unwritten walk) (keys : VisitorKeys)
    (n : Node)
    (hwalk : ∀ key, ∀ child ∈ n.children key, ∀ parent s, (walk child parent s).isSome) (s : σ) :
    (walkChildren keys walk n s).isSome := by
  unfold walkChildren
  cases keys.childKeys? n with
  | none => rfl
  | some names =>
    let silent : RecordedDescent Empty σ ε := walk.silent
    have hnodes : ∀ step m view,
        (∀ s, EndsIn (· = m) (silent m (some ⟨view, Step.key step, step.index⟩) s).outcome) ∧
          ((∀ item ∈ [(step, m)], ∀ parent s, (walk item.2 parent s).isSome) →
            ∀ s, (silent m (some ⟨view, step.key, step.index⟩) s).outcome.isSome) :=
      fun _ m _ => ⟨hsame m _, fun hends => hends _ (List.mem_singleton_self _) _⟩
    have hfields := (composes_ends fun m => ∀ parent s, (walk m parent s).isSome).fields_sole
      hnodes names (.unwritten trivial) n
    have hends := hfields.2 (fun item hitem =>
      hwalk _ _ (Node.mem_children_of_at? (Node.mem_steps.1 hitem).2)) s
    rw [recordFields_outcome] at hends
    exact hends

/-- The fuel a tree takes is its height, and its count is at least that. -/
theorem walkNode_isSome {v : Visitor σ ε} (hv : v.NeverWrites) (hends : v.Answers)
    (keys : VisitorKeys) (fuel : Nat) (n : Node) (hfuel : n.count ≤ fuel) (parent : Option Parent)
    (s : σ) : (walkNode v keys fuel n parent s).isSome := by
  induction fuel generalizing n parent s with
  | zero => exact absurd n.count_pos (by omega)
  | succ fuel ih =>
    have hsame := walkNode_unwritten hv keys fuel
    have hchildren : ∀ key, ∀ child ∈ n.children key, ∀ parent s,
        (walkNode v keys fuel child parent s).isSome := fun key child hchild =>
      ih child (by have := Node.count_lt_of_mem_children hchild; omega)
    obtain ⟨⟨n₁, s₁, verdict⟩, henter⟩ :=
      Option.isSome_iff_exists.1 (hends.enter (walkNode v keys fuel) n parent s)
    obtain rfl : n₁ = n := hv.enter hsame n parent s _ henter
    rw [walkNode, visit, henter]
    cases verdict with
    | error e => rfl
    | ok control =>
      cases control with
      | skip => exact hends.leave (walkNode v keys fuel) n₁ parent s₁
      | descend =>
        obtain ⟨⟨n₂, s₂, verdict₂⟩, hwalked⟩ :=
          Option.isSome_iff_exists.1 (walkChildren_isSome hsame keys n₁ hchildren s₁)
        simp only [Option.bind_eq_bind, Option.bind_some, Outcome.andThen_ok, hwalked]
        cases verdict₂ with
        | error e => rfl
        | ok a => exact hends.leave (walkNode v keys fuel) n₂ parent s₂

/-- Whatever the visitor does and however the walk ends, the slots are as they were, and nothing
outside of the listed slots is changed. If the visitor leaves its nodes alone, nothing is. -/
theorem walk_keepsSlots (v : Visitor σ ε) (keys : VisitorKeys) (fuel : Nat) :
    (∀ n s o, walkChildren keys (walkNode v keys fuel) n s = some o →
      n.KeepsSlots ((keys.childKeys? n).getD []) o.subject) ∧
    (v.NeverWrites → ∀ tree parent s,
      (∀ o, walkNode v keys fuel tree parent s = some o → o.subject = tree) ∧
      (v.Answers → tree.count ≤ fuel → ∃ o, walkNode v keys fuel tree parent s = some o)) := by
  refine ⟨fun n s o ho => ?_, fun hv tree parent s => ⟨?_, fun hends hfuel => ?_⟩⟩
  · have hrefills : n.Refilled (fun _ _ => True) ((keys.childKeys? n).getD []) o.subject :=
      walkChildren_refills (fun _ => trivial) (fun _ _ _ _ _ => trivial)
        (fun _ _ _ _ _ => trivial) keys n s o ho
    exact hrefills.keepsSlots
  · exact walkNode_unwritten hv keys fuel tree parent s
  · exact Option.isSome_iff_exists.1 (walkNode_isSome hv hends keys fuel tree hfuel parent s)

def quitting (write : Node → Node) : Visitor Nat String :=
  .plain
    (fun n _ s =>
      match s with
      | 0 => ⟨write n, 0, .error (.failed "enough")⟩
      | s + 1 => ⟨write n, s, .ok .descend⟩)
    fun n _ s => ⟨n, s, .ok ()⟩

theorem quitting_neverWrites : (quitting id).NeverWrites where
  enter _ n parent s := by
    cases s with
    | zero => exact .now (R := (· = n)) rfl 0 _
    | succ s => exact .now (R := (· = n)) rfl s _
  leave _ n parent s := .now (R := (· = n)) rfl s _

theorem quitting_answers (write : Node → Node) : (quitting write).Answers where
  enter _ _ _ _ := rfl
  leave _ _ _ _ := rfl

def sparse : Node :=
  ((Node.new "Program").withValue "sourceType" (.string "module")).setField "body"
    (.list [some (Node.new "Identifier"), none, some (Node.new "Super")])

def sparseKeys : VisitorKeys := .registerLeaf (.register .empty "Program" ["body"]) "Identifier"

theorem slots_of_sparse :
    (∃ o, walkChildren sparseKeys (walkNode (quitting (·.withKind "Identifier")) sparseKeys 2)
        sparse 1 = some o ∧
      o.verdict = .error (.failed "enough") ∧
      (o.subject.children "body").map Node.kind = ["Identifier", "Identifier"] ∧
      sparse.KeepsSlots ["body"] o.subject) ∧
    (quitting id).NeverWrites ∧ (quitting id).Answers ∧ sparse.count ≤ 3 ∧
    ∃ o, walkNode (quitting id) sparseKeys 3 sparse none 5 = some o ∧
      o.verdict = .error (.unknownKind ⟨"Super", none⟩) ∧ o.subject = sparse := by
  refine ⟨?_, quitting_neverWrites, quitting_answers id, by decide, ?_⟩
  · obtain ⟨o, ho, hverdict, hkinds⟩ : ∃ o, walkChildren sparseKeys
        (walkNode (quitting (·.withKind "Identifier")) sparseKeys 2) sparse 1 = some o ∧
        o.verdict = .error (.failed "enough") ∧
        (o.subject.children "body").map Node.kind = ["Identifier", "Identifier"] :=
      ⟨_, rfl, rfl, rfl⟩
    exact ⟨o, ho, hverdict, hkinds, (walk_keepsSlots _ sparseKeys 2).1 sparse 1 o ho⟩
  · have hkept := (walk_keepsSlots (quitting id) sparseKeys 3).2 quitting_neverWrites sparse none 5
    obtain ⟨o, ho⟩ := hkept.2 (quitting_answers id) (by decide)
    refine ⟨o, ho, ?_, hkept.1 o ho⟩
    cases ho
    rfl

end SyntaxWalk
