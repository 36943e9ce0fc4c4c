import SyntaxWalk.Lint
import SyntaxWalk.Proofs.ScopeIsolation
import Mathlib.Data.List.Induction

/-!
# Which lint keeps which key

No two lints define the same dispatch key: every key has one lint that may define it, its keeper. The
set composed of a list of lints gives for each key what its keeper gives if it is in the list, on top
of the baseline, so that neither the order of the list nor its repeats matter
(`lookup_composed`). The descriptions that lints give their warnings tell them apart too
(`says_unique`).
-/

namespace SyntaxWalk

variable {υ : Type}

theorem HandlerSet.compose_append (sets : List (HandlerSet υ)) (set : HandlerSet υ) :
    compose (sets ++ [set]) = (compose sets).merge set := by
  rw [compose, List.foldl_append]
  rfl

theorem Pass.run_congr {p q : Pass υ} (hoptions : p.options = q.options)
    (hlookup : ∀ key, p.handlers.lookup key = q.handlers.lookup key)
    (henter : p.handlers.scopeEnter = q.handlers.scopeEnter)
    (hexit : p.handlers.scopeExit = q.handlers.scopeExit) : p.run = q.run := by
  have hhooks : p.handlers.hooks = q.handlers.hooks := funext fun hook => hlookup (.around hook)
  have hkinds : p.handlers.handler? = q.handlers.handler? :=
    funext fun phase => funext fun kind => hlookup (.node kind phase)
  have hdispatch : p.dispatch = q.dispatch := by
    unfold dispatch surroundings
    rw [hoptions, henter, hexit]
  have hvisitor : p.visitor = q.visitor := by
    unfold visitor dispatchSide
    rw [hdispatch, hhooks, hkinds]
  unfold run walk
  rw [hvisitor, hoptions]

namespace Lint

def Says : Lint → String → Prop
  | .noDebugger, description => description = "unexpected 'debugger' statement"
  | .noWith, description => description = "'with' statements are not allowed"
  | .shadowing, description => ∃ name, description = Shadowing.message name

namespace Shadowing

def nameIn (description : String) : String :=
  String.ofList ((description.toList.drop 1).take
    (description.toList.length - (message "").toList.length))

theorem nameIn_message (name : String) : nameIn (message name) = name := by
  have hlength : (message name).toList.length - (message "").toList.length =
      name.toList.length := by
    simp [message]
  rw [nameIn, hlength]
  simp [message]

end Shadowing

instance (lint : Lint) (description : String) : Decidable (lint.Says description) :=
  match lint with
  | .noDebugger => inferInstanceAs (Decidable (description = _))
  | .noWith => inferInstanceAs (Decidable (description = _))
  | .shadowing =>
    decidable_of_iff (description = Shadowing.message (Shadowing.nameIn description))
      ⟨fun h => ⟨_, h⟩, fun ⟨name, h⟩ => by rw [h, Shadowing.nameIn_message]⟩

theorem message_ne_debugger (name : String) :
    Shadowing.message name ≠ "unexpected 'debugger' statement" := by
  intro h
  have hhead := congrArg (fun s : String => s.toList.head?) h
  simp [Shadowing.message] at hhead

theorem message_ne_with (name : String) :
    Shadowing.message name ≠ "'with' statements are not allowed" := by
  intro h
  have hlast := congrArg (fun s : String => s.toList.getLast?) h
  simp [Shadowing.message, List.getLast?_cons, List.getLast?_append] at hlast

theorem says_unique {lint other : Lint} {description : String} (h : lint.Says description)
    (h' : other.Says description) : lint = other := by
  cases lint with
  | noDebugger =>
    cases other with
    | noDebugger => rfl
    | noWith => exact absurd (h.symm.trans h') (by decide)
    | shadowing =>
      obtain ⟨name, rfl⟩ := h'
      exact absurd h (message_ne_debugger name)
  | noWith =>
    cases other with
    | noDebugger => exact absurd (h.symm.trans h') (by decide)
    | noWith => rfl
    | shadowing =>
      obtain ⟨name, rfl⟩ := h'
      exact absurd h (message_ne_with name)
  | shadowing =>
    obtain ⟨name, rfl⟩ := h
    cases other with
    | noDebugger => exact absurd h' (message_ne_debugger name)
    | noWith => exact absurd h' (message_ne_with name)
    | shadowing => rfl

/-- The only lint that may define a key. -/
def keeper : DispatchKey → Lint
  | .node kind _ =>
    if kind = "DebuggerStatement" then .noDebugger
    else if kind = "WithStatement" then .noWith
    else .shadowing
  | .around _ | .scopeEnter | .scopeExit => .shadowing

theorem lookup_of_ne_keeper {lint : Lint} {key : DispatchKey} (h : lint ≠ keeper key) :
    (handlers lint : HandlerSet υ).lookup key = none := by
  have hne : ∀ other, keeper other = lint → key ≠ other := by
    rintro other hother rfl
    exact h hother.symm
  cases lint with
  | noDebugger =>
    rw [handlers, HandlerSet.lookup_withEnter, if_neg (hne _ rfl), HandlerSet.lookup_empty]
  | noWith =>
    rw [handlers, HandlerSet.lookup_withEnter, if_neg (hne _ rfl), HandlerSet.lookup_empty]
  | shadowing =>
    simp only [handlers, HandlerSet.lookup_withEnter, HandlerSet.lookup_withExit]
    rw [if_neg (hne _ rfl), if_neg (hne _ rfl), if_neg (hne _ rfl), if_neg (hne _ rfl),
      if_neg (hne _ rfl), if_neg (hne _ rfl), if_neg (hne _ rfl)]
    exact HandlerSet.lookup_empty key

theorem lookup_composed (lints : List Lint) (key : DispatchKey) :
    (HandlerSet.compose (lints.map handlers) : HandlerSet υ).lookup key =
      (if keeper key ∈ lints then (handlers (keeper key)).lookup key else none).or
        (HandlerSet.baseline.lookup key) := by
  induction lints using List.reverseRecOn with
  | nil => rfl
  | append_singleton lints lint ih =>
    rw [List.map_append, List.map_singleton, HandlerSet.compose_append, HandlerSet.lookup_merge, ih]
    by_cases hlint : lint = keeper key
    · subst hlint
      rw [if_pos (List.mem_append_right lints (List.mem_singleton_self _))]
      cases (handlers (keeper key) : HandlerSet υ).lookup key <;> simp
    · rw [lookup_of_ne_keeper hlint]
      simp [Ne.symm hlint]

theorem shadowing_handlers {good : Handler υ → Prop} (hdeclarator : good Shadowing.enterDeclarator)
    (hdeclaration : good Shadowing.enterDeclaration) (hfunction : good Shadowing.enterFunction)
    (hclose : good Baseline.close) : ∀ key handler,
      (handlers .shadowing : HandlerSet υ).lookup key = some handler → good handler := by
  have hhook : ∀ key handler,
      ((HandlerSet.empty : HandlerSet υ).withScopeEnter Shadowing.scopeHook).lookup key =
        some handler → good handler := HandlerSet.empty_handlers
  have hdeclarators := HandlerSet.added_handlers hhook
    (HandlerSet.lookup_withEnter _ "VariableDeclarator" _) hdeclarator
  have hdeclarations := HandlerSet.added_handlers (HandlerSet.added_handlers hdeclarators
    (HandlerSet.lookup_withEnter _ "FunctionDeclaration" _) hdeclaration)
    (HandlerSet.lookup_withExit _ "FunctionDeclaration" _) hclose
  have hexpressions := HandlerSet.added_handlers (HandlerSet.added_handlers hdeclarations
    (HandlerSet.lookup_withEnter _ functionExpressionKind _) hfunction)
    (HandlerSet.lookup_withExit _ functionExpressionKind _) hclose
  exact HandlerSet.added_handlers (HandlerSet.added_handlers hexpressions
    (HandlerSet.lookup_withEnter _ "ArrowFunctionExpression" _) hfunction)
    (HandlerSet.lookup_withExit _ "ArrowFunctionExpression" _) hclose

theorem composed_handlers {good : Handler υ → Prop}
    (hbase : ∀ key handler,
      (HandlerSet.baseline : HandlerSet υ).lookup key = some handler → good handler)
    (hlint : ∀ lint : Lint, ∀ key handler,
      (handlers lint : HandlerSet υ).lookup key = some handler → good handler)
    (lints : List Lint) : ∀ key handler,
      (HandlerSet.compose (lints.map handlers) : HandlerSet υ).lookup key = some handler →
        good handler := by
  refine HandlerSet.compose_handlers hbase fun set hset => ?_
  obtain ⟨lint, -, rfl⟩ := List.mem_map.1 hset
  exact hlint lint

theorem scopeEnter_composed (lints : List Lint) :
    (HandlerSet.compose (lints.map handlers) : HandlerSet υ).scopeEnter =
      if .shadowing ∈ lints then some Shadowing.scopeHook else none := by
  induction lints using List.reverseRecOn with
  | nil => rfl
  | append_singleton lints lint ih =>
    rw [List.map_append, List.map_singleton, HandlerSet.compose_append]
    have hmerge : ∀ h upper : HandlerSet υ, (h.merge upper).scopeEnter =
        upper.scopeEnter.or h.scopeEnter := fun _ _ => rfl
    rw [hmerge, ih]
    cases lint with
    | shadowing => simp [handlers, HandlerSet.withEnter, HandlerSet.withExit,
        HandlerSet.withScopeEnter]
    | noDebugger => simp [handlers, HandlerSet.withEnter, HandlerSet.empty]
    | noWith => simp [handlers, HandlerSet.withEnter, HandlerSet.empty]

theorem scopeExit_composed (lints : List Lint) :
    (HandlerSet.compose (lints.map handlers) : HandlerSet υ).scopeExit = none := by
  apply HandlerSet.compose_scopeExit
  intro set hset
  obtain ⟨lint, -, rfl⟩ := List.mem_map.1 hset
  cases lint <;> rfl

/-- A run depends on which lints are in the list, not on their order or repeats. -/
theorem run_of_mem_iff {lints lints' : List Lint} (h : ∀ lint, lint ∈ lints' ↔ lint ∈ lints)
    (options : Options) :
    (Pass.mk options (.compose (lints'.map handlers)) : Pass υ).run =
      (Pass.mk options (.compose (lints.map handlers))).run := by
  refine Pass.run_congr rfl (fun key => ?_) ?_ ?_
  · simp only [lookup_composed, h]
  · simp only [scopeEnter_composed, h]
  · rw [scopeExit_composed, scopeExit_composed]

end Lint

end SyntaxWalk
