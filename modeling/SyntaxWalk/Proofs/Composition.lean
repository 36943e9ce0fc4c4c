import SyntaxWalk.Pass.Baseline
import Mathlib.Data.List.Forall2

/-!
# Composition by keys

What a set of handlers gives for a key of any sort, and what a list of sets composed on the baseline
gives for it. Merging is asked one key at a time (`definition?_merge`), so that the last set that
defines a key settles it whatever the sets define besides. Sets are compared by what they give for
each key (`Alike`).
-/

namespace SyntaxWalk

variable {υ : Type}

inductive Definition (υ : Type) where
  | handler (handler : Handler υ)
  | scopeHook (hook : ScopeHook υ)

namespace HandlerSet

def definition? (h : HandlerSet υ) : DispatchKey → Option (Definition υ)
  | .node kind phase => (h.handler? phase kind).map .handler
  | .around hook => (h.hooks hook).map .handler
  | .scopeEnter => h.scopeEnter.map .scopeHook
  | .scopeExit => h.scopeExit.map .scopeHook

def Alike (h g : HandlerSet υ) : Prop := ∀ key, h.definition? key = g.definition? key

/-- The set is in the list, defines the key, and no set after it does. -/
def LastDefines (sets : List (HandlerSet υ)) (key : DispatchKey) (h : HandlerSet υ) : Prop :=
  ∃ before after, sets = before ++ h :: after ∧ h.contains key ∧ ∀ g ∈ after, ¬ g.contains key

variable {key : DispatchKey}

theorem contains_eq (h : HandlerSet υ) (key : DispatchKey) :
    h.contains key = (h.definition? key).isSome := by
  cases key <;> simp [contains, definition?]

theorem not_contains_iff {h : HandlerSet υ} : ¬ h.contains key ↔ h.definition? key = none := by
  simp [contains_eq]

theorem definition?_merge (h upper : HandlerSet υ) (key : DispatchKey) :
    (h.merge upper).definition? key = (upper.definition? key).or (h.definition? key) := by
  cases key with
  | node kind phase => simp only [definition?, handler?_merge, Option.map_or]
  | around hook => simp only [definition?, merge, Option.map_or]
  | scopeEnter => simp only [definition?, merge, Option.map_or]
  | scopeExit => simp only [definition?, merge, Option.map_or]

theorem definition?_empty (key : DispatchKey) : (empty : HandlerSet υ).definition? key = none := by
  rcases key with ⟨kind, phase⟩ | hook | _ | _
  · cases phase <;> rfl
  all_goals rfl

theorem definition?_foldl_merge (sets : List (HandlerSet υ)) (base : HandlerSet υ)
    (key : DispatchKey) : (sets.foldl merge base).definition? key =
      (sets.reverse.findSome? fun h => h.definition? key).or (base.definition? key) := by
  induction sets generalizing base with
  | nil => rfl
  | cons h rest ih =>
    have hlast : ([h].findSome? fun h => h.definition? key) = h.definition? key := by
      cases hd : h.definition? key <;> simp [List.findSome?, hd]
    rw [List.foldl_cons, ih, definition?_merge, List.reverse_cons, List.findSome?_append, hlast,
      Option.or_assoc]

theorem findSome?_reverse_eq_some {sets : List (HandlerSet υ)} {d : Definition υ} :
    (sets.reverse.findSome? fun h => h.definition? key) = some d ↔
      ∃ h, LastDefines sets key h ∧ h.definition? key = some d := by
  rw [List.findSome?_eq_some_iff]
  constructor
  · rintro ⟨after, h, before, hsets, hd, hafter⟩
    refine ⟨h, ⟨before.reverse, after.reverse, ?_, by simp [contains_eq, hd], ?_⟩, hd⟩
    · simpa using congrArg List.reverse hsets
    · intro g hg
      exact not_contains_iff.2 (hafter g (List.mem_reverse.1 hg))
  · rintro ⟨h, ⟨before, after, rfl, -, hafter⟩, hd⟩
    refine ⟨after.reverse, h, before.reverse, by simp, hd, fun g hg => ?_⟩
    exact not_contains_iff.1 (hafter g (List.mem_reverse.1 hg))

theorem findSome?_reverse_eq_none {sets : List (HandlerSet υ)} :
    (sets.reverse.findSome? fun h => h.definition? key) = none ↔
      ∀ g ∈ sets, ¬ g.contains key := by
  simp [contains_eq]

theorem definition?_compose (sets : List (HandlerSet υ)) (key : DispatchKey) :
    (compose sets).definition? key =
      (sets.reverse.findSome? fun h => h.definition? key).or
        ((baseline : HandlerSet υ).definition? key) := definition?_foldl_merge sets baseline key

theorem findSome?_reverse_congr {sets others : List (HandlerSet υ)}
    (h : List.Forall₂ (fun g g' => g.definition? key = g'.definition? key) sets others) :
    (sets.reverse.findSome? fun h => h.definition? key) =
      others.reverse.findSome? fun h => h.definition? key := by
  induction h with
  | nil => rfl
  | cons hfirst _ ih =>
    simp only [List.reverse_cons, List.findSome?_append, ih, List.findSome?_cons, hfirst]

/-- The last set that defines a key gives what the composition has for it, and where no set does the
baseline. What the sets give for other keys has no part in it. Key by key, merging is associative,
the empty set is neutral, and a set merged again changes nothing. -/
theorem compose_lastWins (sets : List (HandlerSet υ)) (key : DispatchKey) :
    (∀ d, (compose sets).definition? key = some d ↔
      (∃ h, LastDefines sets key h ∧ h.definition? key = some d) ∨
        (∀ g ∈ sets, ¬ g.contains key) ∧ (baseline : HandlerSet υ).definition? key = some d) ∧
    ((compose sets).contains key ↔
      (∃ g ∈ sets, g.contains key) ∨ (baseline : HandlerSet υ).contains key) ∧
    (∀ others, List.Forall₂ (fun g g' => g.definition? key = g'.definition? key) sets others →
      (compose others).definition? key = (compose sets).definition? key) ∧
    (∀ h g k : HandlerSet υ, Alike ((h.merge g).merge k) (h.merge (g.merge k))) ∧
    (∀ h : HandlerSet υ, Alike (empty.merge h) h ∧ Alike (h.merge empty) h) ∧
    ∀ h g : HandlerSet υ, Alike ((h.merge g).merge g) (h.merge g) := by
  refine ⟨fun d => ?_, ?_, fun others hothers => ?_, fun h g k key => ?_,
    fun h => ⟨fun key => ?_, fun key => ?_⟩, fun h g key => ?_⟩
  · rw [definition?_compose, Option.or_eq_some_iff, findSome?_reverse_eq_some,
      findSome?_reverse_eq_none]
  · rw [contains_eq, definition?_compose, Option.isSome_or, Bool.or_eq_true, contains_eq baseline]
    simp [contains_eq]
  · rw [definition?_compose, definition?_compose, findSome?_reverse_congr hothers]
  · simp only [definition?_merge, Option.or_assoc]
  · rw [definition?_merge, definition?_empty, Option.or_none]
  · rw [definition?_merge, definition?_empty, Option.none_or]
  · rw [definition?_merge, definition?_merge, ← Option.or_assoc, Option.or_self]

def saying (description : String) : Handler Unit := fun n _ => do
  Script.addWarning n description
  return .keep n

def layered : List (HandlerSet Unit) :=
  [.withExit (.withEnter .empty programKind (saying "below")) "Identifier" (saying "named"),
    .withHook (.withEnter .empty programKind (saying "above")) .afterExit (saying "after"),
    .withExit .empty programKind (saying "last")]

def layeredAlone : List (HandlerSet Unit) :=
  [.withEnter .empty programKind (saying "below"), .withEnter .empty programKind (saying "above"),
    .empty]

theorem compose_layered :
    LastDefines layered (.node programKind .enter)
      (.withHook (.withEnter .empty programKind (saying "above")) .afterExit (saying "after")) ∧
    (compose layered).definition? (.node programKind .enter) = some (.handler (saying "above")) ∧
    (compose layered).definition? (.node functionExpressionKind .exit) =
      some (.handler Baseline.close) ∧
    ¬ (compose layered).contains .scopeEnter ∧
    List.Forall₂ (fun g g' => g.definition? (.node programKind .enter) =
      g'.definition? (.node programKind .enter)) layered layeredAlone ∧
    (compose layeredAlone).definition? (.node programKind .enter) =
      some (.handler (saying "above")) := by
  have hlast : LastDefines layered (.node programKind .enter)
      (.withHook (.withEnter .empty programKind (saying "above")) .afterExit (saying "after")) :=
    ⟨layered.take 1, layered.drop 2, rfl, rfl, by decide⟩
  have habove := ((compose_lastWins layered (.node programKind .enter)).1 _).2
    (.inl ⟨_, hlast, rfl⟩)
  have hbaseline := ((compose_lastWins layered (.node functionExpressionKind .exit)).1 _).2
    (.inr ⟨by decide, rfl⟩)
  have habsent := (compose_lastWins layered .scopeEnter).2.1.not.2 (by decide)
  have halike : List.Forall₂ (fun g g' => g.definition? (.node programKind .enter) =
      g'.definition? (.node programKind .enter)) layered layeredAlone :=
    .cons rfl (.cons rfl (.cons rfl .nil))
  refine ⟨hlast, habove, hbaseline, habsent, halike, ?_⟩
  rw [(compose_lastWins layered (.node programKind .enter)).2.2.1 layeredAlone halike, habove]

end HandlerSet

end SyntaxWalk
