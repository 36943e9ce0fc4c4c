import SyntaxWalk.Pass.Script

/-!
# Handler sets

A handler set gives handlers to dispatch keys: entry and exit of a kind, the four hooks around them,
and the opening and closing of a scope. Sets are laid over one another, the last one winning each
key by itself.
-/

namespace SyntaxWalk

inductive Phase where
  | enter
  | exit
  deriving DecidableEq, Inhabited

inductive Hook where
  | beforeEnter
  | afterEnter
  | beforeExit
  | afterExit
  deriving DecidableEq, Inhabited

def Hook.all : List Hook := [.beforeEnter, .afterEnter, .beforeExit, .afterExit]

def Hook.name : Hook → String
  | .beforeEnter => "BeforeEnter"
  | .afterEnter => "AfterEnter"
  | .beforeExit => "BeforeExit"
  | .afterExit => "AfterExit"

inductive DispatchKey where
  | node (kind : String) (phase : Phase)
  | around (hook : Hook)
  | scopeEnter
  | scopeExit
  deriving DecidableEq

def DispatchKey.text : DispatchKey → String
  | .node kind .enter => kind
  | .node kind .exit => kind ++ " (exit)"
  | .around hook => hook.name
  | .scopeEnter => "ScopeEnter"
  | .scopeExit => "ScopeExit"

def DispatchKey.rank : DispatchKey → Nat
  | .node _ _ => 0
  | .around .beforeEnter => 1
  | .around .afterEnter => 2
  | .around .beforeExit => 3
  | .around .afterExit => 4
  | .scopeEnter => 5
  | .scopeExit => 6

/-- By kind, the entry before the exit; after all kinds the hooks, and the scopes last. -/
def DispatchKey.le : DispatchKey → DispatchKey → Bool
  | .node kind phase, .node kind' phase' =>
    kind < kind' || (kind = kind' && (phase = .enter || phase' = .exit))
  | key, key' => key.rank ≤ key'.rank

structure HandlerSet (υ : Type) where
  onEnter : NameMap (Handler υ) := .empty
  onExit : NameMap (Handler υ) := .empty
  hooks : Hook → Option (Handler υ) := fun _ => none
  scopeEnter : Option (ScopeHook υ) := none
  scopeExit : Option (ScopeHook υ) := none

namespace HandlerSet

variable {υ : Type}

def empty : HandlerSet υ := {}

def withEnter (h : HandlerSet υ) (kind : String) (handler : Handler υ) : HandlerSet υ :=
  { h with onEnter := h.onEnter.insert kind handler }

def withExit (h : HandlerSet υ) (kind : String) (handler : Handler υ) : HandlerSet υ :=
  { h with onExit := h.onExit.insert kind handler }

def withHook (h : HandlerSet υ) (hook : Hook) (handler : Handler υ) : HandlerSet υ :=
  { h with hooks := fun other => if other = hook then some handler else h.hooks other }

def withScopeEnter (h : HandlerSet υ) (hook : ScopeHook υ) : HandlerSet υ :=
  { h with scopeEnter := some hook }

def withScopeExit (h : HandlerSet υ) (hook : ScopeHook υ) : HandlerSet υ :=
  { h with scopeExit := some hook }

def handler? (h : HandlerSet υ) : Phase → String → Option (Handler υ)
  | .enter, kind => h.onEnter.get? kind
  | .exit, kind => h.onExit.get? kind

def contains (h : HandlerSet υ) : DispatchKey → Bool
  | .node kind phase => (h.handler? phase kind).isSome
  | .around hook => (h.hooks hook).isSome
  | .scopeEnter => h.scopeEnter.isSome
  | .scopeExit => h.scopeExit.isSome

/-- The keys with a handler, one table after the other. -/
def tabled (h : HandlerSet υ) : List DispatchKey :=
  h.onEnter.names.map (.node · .enter) ++ (h.onExit.names.map (.node · .exit) ++
    ((Hook.all.filter fun hook => (h.hooks hook).isSome).map .around ++
      ((h.scopeEnter.toList.map fun _ => .scopeEnter) ++
        h.scopeExit.toList.map fun _ => .scopeExit)))

def keys (h : HandlerSet υ) : List DispatchKey := h.tabled.mergeSort DispatchKey.le

def size (h : HandlerSet υ) : Nat :=
  h.onEnter.size + h.onExit.size + (Hook.all.filter fun hook => (h.hooks hook).isSome).length +
    h.scopeEnter.isSome.toNat + h.scopeExit.isSome.toNat

def isEmpty (h : HandlerSet υ) : Bool := h.size = 0

/-- Lays `upper` on top: a key that it defines takes its handler. -/
def merge (h upper : HandlerSet υ) : HandlerSet υ where
  onEnter := h.onEnter.overlay upper.onEnter
  onExit := h.onExit.overlay upper.onExit
  hooks hook := (upper.hooks hook).or (h.hooks hook)
  scopeEnter := upper.scopeEnter.or h.scopeEnter
  scopeExit := upper.scopeExit.or h.scopeExit

def description (h : HandlerSet υ) : String :=
  "HandlerSet \x7b keys: [" ++
    ", ".intercalate (h.keys.map fun key => Text.quoted key.text) ++ "] \x7d"

theorem handler?_withEnter (h : HandlerSet υ) (kind other : String) (handler : Handler υ) :
    (h.withEnter kind handler).handler? .enter other =
      if other = kind then some handler else h.handler? .enter other := NameMap.get?_insert ..

theorem handler?_withExit (h : HandlerSet υ) (kind other : String) (handler : Handler υ) :
    (h.withExit kind handler).handler? .exit other =
      if other = kind then some handler else h.handler? .exit other := NameMap.get?_insert ..

theorem handler?_merge (h upper : HandlerSet υ) (phase : Phase) (kind : String) :
    (h.merge upper).handler? phase kind =
      (upper.handler? phase kind).or (h.handler? phase kind) := by
  cases phase <;> exact NameMap.get?_overlay ..

end HandlerSet

end SyntaxWalk
