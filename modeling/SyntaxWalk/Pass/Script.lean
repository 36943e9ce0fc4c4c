import SyntaxWalk.Pass.Engine

/-!
# Scripts

What a handler does, as a tree of requests to the engine, each with the script that goes on from the
answer. A handler can look at all of the engine, but can change it only by what is offered here: it
cannot set the depth, forge a frame or take a warning back.
-/

namespace SyntaxWalk

inductive Script (υ : Type) (α : Type) where
  | done (a : α)
  | observe (next : Options → Engine υ → Script υ α)
  | setSkip (skip : Bool) (next : Script υ α)
  | warn (loc : Option Loc) (description : String) (next : Script υ α)
  | pushScope (node : NodeInfo) (next : Script υ α)
  | popScope (next : Option Scope.Frame → Script υ α)
  | editContext (edit : Context → Context) (next : Script υ α)
  | remember (memory : υ) (next : Script υ α)
  | traverse (n : Node) (parent : Option Parent)
      (next : Node → Except PassError Unit → Script υ α)
  | traverseChildren (n : Node) (next : Node → Except PassError Unit → Script υ α)

/-- What a handler returns: its node as it left it, and an error, a replacement or neither. -/
structure Handled where
  node : Node
  verdict : Except PassError (Option Node)

abbrev Handler (υ : Type) := Node → Option Parent → Script υ Handled

structure Surroundings (υ : Type) where
  options : Options
  scopeEnter : Option (ScopeHook υ)
  scopeExit : Option (ScopeHook υ)
  walk : Descent (Engine υ) SyntaxError

namespace Script

variable {υ α β : Type}

def bind (f : α → Script υ β) : Script υ α → Script υ β
  | .done a => f a
  | .observe next => .observe fun o e => (next o e).bind f
  | .setSkip skip next => .setSkip skip (next.bind f)
  | .warn loc description next => .warn loc description (next.bind f)
  | .pushScope node next => .pushScope node (next.bind f)
  | .popScope next => .popScope fun frame => (next frame).bind f
  | .editContext edit next => .editContext edit (next.bind f)
  | .remember memory next => .remember memory (next.bind f)
  | .traverse n parent next => .traverse n parent fun n r => (next n r).bind f
  | .traverseChildren n next => .traverseChildren n fun n r => (next n r).bind f

instance : Monad (Script υ) where
  pure := .done
  bind s f := s.bind f

/-- Carries out a script. It is none where a nested walk is. -/
def run (s : Surroundings υ) : Script υ α → Engine υ → Option (α × Engine υ)
  | .done a, e => some (a, e)
  | .observe next, e => (next s.options e).run s e
  | .setSkip skip next, e => next.run s { e with skip }
  | .warn loc description next, e =>
    next.run s (e.warn ⟨loc, s.options.filename, description⟩)
  | .pushScope node next, e => next.run s (e.pushScope s.scopeEnter node)
  | .popScope next, e =>
    let (frame, e) := e.popScope s.scopeExit
    (next frame).run s e
  | .editContext edit next, e => next.run s { e with scopes := e.scopes.mapContext edit }
  | .remember memory next, e => next.run s { e with memory }
  | .traverse n parent next, e => do
    let o ← e.nested (s.walk n parent)
    (next o.subject o.verdict).run s o.state
  | .traverseChildren n next, e => do
    let o ← e.nested (walkChildren s.options.keys s.walk n)
    (next o.subject o.verdict).run s o.state

def look : Script υ (Options × Engine υ) := .observe fun o e => .done (o, e)

def requestSkip : Script υ Unit := .setSkip true (.done ())

def addWarning (n : Node) (description : String) : Script υ Unit :=
  .warn n.loc description (.done ())

def openScope (n : Node) : Script υ Unit := .pushScope n.info (.done ())

def closeScope : Script υ (Option Scope.Frame) := .popScope .done

def modifyContext (edit : Context → Context) : Script υ Unit := .editContext edit (.done ())

def modifyMemory (f : υ → υ) : Script υ Unit :=
  .observe fun _ e => .remember (f e.memory) (.done ())

def context : Script υ (Option Context) := .observe fun _ e => .done e.scopes.context?

def syntaxError (n : Node) (description : String) : Script υ PassError :=
  .observe fun o _ => .done (.failed ⟨n.loc, description, o.source, o.filename⟩)

theorem done_bind (a : α) (f : α → Script υ β) : bind f (.done a) = f a := rfl

theorem run_bind (s : Surroundings υ) (p : Script υ α) (f : α → Script υ β) (e : Engine υ) :
    (p.bind f).run s e = (p.run s e).bind fun (a, e) => (f a).run s e := by
  induction p generalizing e with
  | done a => rfl
  | observe next ih => exact ih _ _ e
  | setSkip skip next ih => exact ih _
  | warn loc description next ih => exact ih _
  | pushScope node next ih => exact ih _
  | popScope next ih => exact ih _ _
  | editContext edit next ih => exact ih _
  | remember memory next ih => exact ih _
  | traverse n parent next ih =>
    simp only [bind, run]
    cases e.nested (s.walk n parent) with
    | none => rfl
    | some o => exact ih _ _ _
  | traverseChildren n next ih =>
    simp only [bind, run]
    cases e.nested (walkChildren s.options.keys s.walk n) with
    | none => rfl
    | some o => exact ih _ _ _

end Script

def Handled.keep (n : Node) : Handled := ⟨n, .ok none⟩

def Handled.replace (n new : Node) : Handled := ⟨n, .ok (some new)⟩

def Handled.fail (n : Node) (e : PassError) : Handled := ⟨n, .error e⟩

end SyntaxWalk
