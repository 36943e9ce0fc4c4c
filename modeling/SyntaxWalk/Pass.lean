import SyntaxWalk.Pass.Baseline

/-!
# Passes

A pass is a handler set at work on the walk. A visit counts one level of depth, runs the hook before
entry, the entry handler of the kind the node then has and the hook after entry, walks the children
unless one of them asked to skip, and runs the exit side in the same way. A handler that returns a
node puts it in place of the one visited.
-/

namespace SyntaxWalk

structure Pass (υ : Type) where
  options : Options
  handlers : HandlerSet υ

namespace Pass

variable {υ : Type}

abbrev Visited (υ α : Type) := Outcome Node (Engine υ) SyntaxError α

def surroundings (p : Pass υ) (walk : Descent (Engine υ) SyntaxError) : Surroundings υ :=
  ⟨p.options, p.handlers.scopeEnter, p.handlers.scopeExit, walk⟩

def settle (h : Handled) (e : Engine υ) : Visited υ Unit :=
  match h.verdict with
  | .error err => ⟨h.node, e, .error err⟩
  | .ok none => ⟨h.node, e, .ok ()⟩
  | .ok (some new) => ⟨new, { e with current := some new.info }, .ok ()⟩

def dispatch (p : Pass υ) (walk : Descent (Engine υ) SyntaxError) (handler : Option (Handler υ))
    (n : Node) (parent : Option Parent) (e : Engine υ) : Option (Visited υ Unit) :=
  match handler with
  | none => some ⟨n, e, .ok ()⟩
  | some handler =>
    ((handler n parent).run (p.surroundings walk) e).map fun (h, e) => settle h e

/-- Runs the three handlers of one side of a visit; the kind's own is looked up in between. -/
def dispatchSide (p : Pass υ) (walk : Descent (Engine υ) SyntaxError) (before : Hook)
    (phase : Phase) (after : Hook) (n : Node) (parent : Option Parent) (e : Engine υ) :
    Option (Visited υ Unit) := do
  let o ← p.dispatch walk (p.handlers.hooks before) n parent e
  let o ← o.andThen fun n e _ => p.dispatch walk (p.handlers.handler? phase n.kind) n parent e
  o.andThen fun n e _ => p.dispatch walk (p.handlers.hooks after) n parent e

def arrive (n : Node) (e : Engine υ) : Engine υ :=
  { e with depth := e.depth + 1, current := some n.info }

def takeSkip (n : Node) (e : Engine υ) : Visited υ Control :=
  ⟨n, { e with skip := false }, .ok (if e.skip then .skip else .descend)⟩

def depart (n : Node) (e : Engine υ) : Visited υ Unit :=
  ⟨n, { e with skip := false, depth := e.depth - 1 }, .ok ()⟩

def visitor (p : Pass υ) : Visitor (Engine υ) SyntaxError where
  enter walk n parent e := do
    let o ← p.dispatchSide walk .beforeEnter .enter .afterEnter n parent (arrive n e)
    o.andThen fun n e _ => some (takeSkip n e)
  leave walk n parent e := do
    let o ← p.dispatchSide walk .beforeExit .exit .afterExit n parent
      { e with current := some n.info }
    o.andThen fun n e _ => some (depart n e)

def walk (p : Pass υ) (fuel : Nat) : Descent (Engine υ) SyntaxError :=
  walkNode p.visitor p.options.keys fuel

structure Output where
  tree : Node
  warnings : List Warning

structure Finished (υ : Type) where
  result : Except PassError Output
  memory : υ

/-- Walks a tree from a fresh engine. A failed run keeps neither the tree nor its warnings. -/
def run (p : Pass υ) (fuel : Nat) (tree : Node) (memory : υ) : Option (Finished υ) :=
  (p.walk fuel tree none (.fresh memory)).map fun o =>
    ⟨o.verdict.map fun _ => ⟨o.subject, o.state.warnings⟩, o.state.memory⟩

/-- The warnings of several runs, each appended when its run succeeds. -/
structure Results where
  warnings : List Warning := []

structure Pooled (υ : Type) where
  tree : Except PassError Node
  results : Results
  memory : υ

def runInto (p : Pass υ) (fuel : Nat) (tree : Node) (results : Results) (memory : υ) :
    Option (Pooled υ) :=
  (p.run fuel tree memory).map fun finished =>
    match finished.result with
    | .ok output => ⟨.ok output.tree, ⟨results.warnings ++ output.warnings⟩, finished.memory⟩
    | .error e => ⟨.error e, results, finished.memory⟩

end Pass

def runPasses {υ : Type} (fuel : Nat) (tree : Node) (options : Options) (sets : List (HandlerSet υ))
    (results : Pass.Results) (memory : υ) : Option (Pass.Pooled υ) :=
  Pass.runInto ⟨options, .compose sets⟩ fuel tree results memory

end SyntaxWalk
