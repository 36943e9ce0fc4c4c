import SyntaxWalk.VisitorKeys.ESTree
import SyntaxWalk.Diagnostic
import SyntaxWalk.Scope

/-!
# The engine

What a run keeps while it walks: the depth, the node being processed, a pending skip request, the
open scopes, the warnings so far, and a memory `υ` of the handlers' own.
-/

namespace SyntaxWalk

structure Options where
  source : String
  filename : String
  keys : VisitorKeys := .estree

structure Engine (υ : Type) where
  depth : Nat := 0
  current : Option NodeInfo := none
  skip : Bool := false
  scopes : Scope.Stack := {}
  warnings : List Warning := []
  memory : υ

/-- A hook on the scopes. It is shown the transition and may change the context of the scope that
is innermost after it; none leaves that context as it is. -/
abbrev ScopeHook (υ : Type) := Scope.Transition → υ → Option Context × υ

namespace Engine

variable {υ : Type}

def fresh (memory : υ) : Engine υ := { memory }

def warn (e : Engine υ) (w : Warning) : Engine υ := { e with warnings := e.warnings ++ [w] }

def callHook (hook : Option (ScopeHook υ)) (t : Scope.Transition) (e : Engine υ) : Engine υ :=
  match hook with
  | none => e
  | some hook =>
    let (context, memory) := hook t e.memory
    match context with
    | some context => { e with scopes := e.scopes.mapContext fun _ => context, memory }
    | none => { e with memory }

def pushScope (hook : Option (ScopeHook υ)) (node : NodeInfo) (e : Engine υ) : Engine υ :=
  let scopes := e.scopes.push node e.depth
  callHook hook (scopes.transition e.scopes) { e with scopes }

def popScope (hook : Option (ScopeHook υ)) (e : Engine υ) : Option Scope.Frame × Engine υ :=
  match e.scopes.pop? with
  | none => (none, e)
  | some (frame, scopes) =>
    (some frame, callHook hook (scopes.transition e.scopes) { e with scopes })

/-- Runs a walk on behalf of a handler. It starts with no skip pending; if it succeeds, the skip
that was pending before it and the node being processed are as they were. -/
def nested {τ : Type}
    (walk : Engine υ → Option (Outcome τ (Engine υ) SyntaxError Unit)) (e : Engine υ) :
    Option (Outcome τ (Engine υ) SyntaxError Unit) := do
  let o ← walk { e with skip := false }
  match o.verdict with
  | .ok () => some { o with state := { o.state with skip := e.skip, current := e.current } }
  | .error _ => some o

theorem popScope_empty (hook : Option (ScopeHook υ)) {e : Engine υ} (h : e.scopes.frames = []) :
    popScope hook e = (none, e) := by
  simp [popScope, Scope.Stack.pop?, h]

theorem callHook_skip (hook : Option (ScopeHook υ)) (t : Scope.Transition) (e : Engine υ) :
    (callHook hook t e).skip = e.skip := by
  cases hook with
  | none => rfl
  | some hook =>
    simp only [callHook]
    split <;> rfl

theorem pushScope_skip (hook : Option (ScopeHook υ)) (node : NodeInfo) (e : Engine υ) :
    (e.pushScope hook node).skip = e.skip := callHook_skip _ _ _

theorem popScope_skip (hook : Option (ScopeHook υ)) (e : Engine υ) :
    (e.popScope hook).2.skip = e.skip := by
  unfold popScope
  split
  · rfl
  · exact callHook_skip _ _ _

theorem warn_warnings (e : Engine υ) (w : Warning) : (e.warn w).warnings = e.warnings ++ [w] := rfl

end Engine

end SyntaxWalk
