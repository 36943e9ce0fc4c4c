import SyntaxWalk.Pass
import SyntaxWalk.Proofs.Recorded

/-!
# The journal of a run

What the engine does in a run, in order: every point at which it looks a handler up and calls it if
there is one, with the visits open there, and every nested walk that failed under a handler. The
journal is kept by a second run beside the first, which ends as the first does
(`recordWalk_outcome`).
-/

namespace SyntaxWalk

/-- The node and the engine with which the entry handler of a visit's kind was looked up. -/
structure Entry (υ : Type) where
  node : Node
  engine : Engine υ

/-- The open visits, innermost first. A visit shows its entry once the entry handler of its kind has
run and until the exit handler is called. -/
abbrev Path (υ : Type) := List (Option (Entry υ))

structure Moment (υ : Type) where
  key : DispatchKey
  node : Node
  parent : Option Parent
  engine : Engine υ
  path : Path υ

inductive Event (υ : Type) where
  | reached (m : Moment υ)
  | failed (before after : Engine υ)

def HandlerSet.lookup {υ : Type} (h : HandlerSet υ) : DispatchKey → Option (Handler υ)
  | .node kind phase => h.handler? phase kind
  | .around hook => h.hooks hook
  | .scopeEnter | .scopeExit => none

variable {υ α : Type}

abbrev RecordedVisit (υ : Type) := RecordedDescent (Event υ) (Engine υ) SyntaxError

def resume (e : Engine υ) (c : Recorded (Event υ) Node (Engine υ) SyntaxError Unit)
    (next : Node → Except PassError Unit → Engine υ → List (Event υ) × Option (α × Engine υ)) :
    List (Event υ) × Option (α × Engine υ) :=
  match c.outcome with
  | none => (c.events, none)
  | some ⟨n, after, .ok ()⟩ =>
    let rest := next n (.ok ()) { after with skip := e.skip, current := e.current }
    (c.events ++ rest.1, rest.2)
  | some ⟨n, after, .error err⟩ =>
    let rest := next n (.error err) after
    (c.events ++ .failed e after :: rest.1, rest.2)

def Script.record (s : Surroundings υ) (walk : RecordedVisit υ) :
    Script υ α → Engine υ → List (Event υ) × Option (α × Engine υ)
  | .done a, e => ([], some (a, e))
  | .observe next, e => (next s.options e).record s walk e
  | .setSkip skip next, e => next.record s walk { e with skip }
  | .warn loc description next, e =>
    next.record s walk (e.warn ⟨loc, s.options.filename, description⟩)
  | .pushScope node next, e => next.record s walk (e.pushScope s.scopeEnter node)
  | .popScope next, e =>
    (next (e.popScope s.scopeExit).1).record s walk (e.popScope s.scopeExit).2
  | .editContext edit next, e => next.record s walk { e with scopes := e.scopes.mapContext edit }
  | .remember memory next, e => next.record s walk { e with memory }
  | .traverse n parent next, e =>
    resume e (walk n parent { e with skip := false }) fun n r e => (next n r).record s walk e
  | .traverseChildren n next, e =>
    resume e (recordChildren s.options.keys walk n { e with skip := false }) fun n r e =>
      (next n r).record s walk e

abbrev RecordedDispatch (υ : Type) := Recorded (Event υ) Node (Engine υ) SyntaxError Unit

def settled (called : List (Event υ) × Option (Handled × Engine υ)) : RecordedDispatch υ :=
  ⟨called.1, called.2.map fun (h, e) => Pass.settle h e⟩

namespace Pass

def recordDispatch (p : Pass υ) (walk : RecordedVisit υ) (path : Path υ) (key : DispatchKey)
    (n : Node) (parent : Option Parent) (e : Engine υ) : RecordedDispatch υ :=
  match p.handlers.lookup key with
  | none => ⟨[.reached ⟨key, n, parent, e, path⟩], some ⟨n, e, .ok ()⟩⟩
  | some handler =>
    let called := settled ((handler n parent).record (p.surroundings walk.forget) walk e)
    ⟨.reached ⟨key, n, parent, e, path⟩ :: called.events, called.outcome⟩

def recordDescent (p : Pass υ) (walk : RecordedVisit υ) (n : Node) (e : Engine υ) :
    RecordedDispatch υ :=
  if e.skip then .now ⟨n, { e with skip := false }, .ok ()⟩
  else recordChildren p.options.keys walk n { e with skip := false }

/-- A visit with its six points in order. The walks that a handler starts are told by `walk` on
which path they do: those of the two handlers of the kind itself lie outside of what the visit
encloses. -/
def recordVisit (p : Pass υ) (walk : Path υ → RecordedVisit υ) (path : Path υ) : RecordedVisit υ :=
  fun n parent e =>
  let outside := none :: path
  (p.recordDispatch (walk outside) outside (.around .beforeEnter) n parent (arrive n e)).followed id
    fun n e _ =>
  let inside := some ⟨n, e⟩ :: path
  (p.recordDispatch (walk outside) outside (.node n.kind .enter) n parent e).followed id
    fun n e _ =>
  (p.recordDispatch (walk inside) inside (.around .afterEnter) n parent e).followed id fun n e _ =>
  (p.recordDescent (walk inside) n e).followed id fun n e _ =>
  (p.recordDispatch (walk inside) inside (.around .beforeExit) n parent
    { e with current := some n.info }).followed id fun n e _ =>
  (p.recordDispatch (walk outside) inside (.node n.kind .exit) n parent e).followed id fun n e _ =>
  (p.recordDispatch (walk outside) outside (.around .afterExit) n parent e).followed id fun n e _ =>
  .now (depart n e)

def recordWalk (p : Pass υ) : Nat → Path υ → RecordedVisit υ
  | 0, _ => fun _ _ _ => ⟨[], none⟩
  | fuel + 1, path => p.recordVisit (p.recordWalk fuel) path

def journal (p : Pass υ) (fuel : Nat) (tree : Node) (memory : υ) : List (Event υ) :=
  (p.recordWalk fuel [] tree none (.fresh memory)).events

end Pass

theorem resume_outcome (e : Engine υ) (c : Recorded (Event υ) Node (Engine υ) SyntaxError Unit)
    (next : Node → Except PassError Unit → Engine υ → List (Event υ) × Option (α × Engine υ))
    (walk : Engine υ → Option (Outcome Node (Engine υ) SyntaxError Unit))
    (h : c.outcome = walk { e with skip := false }) :
    (resume e c next).2 = (e.nested walk).bind fun o => (next o.subject o.verdict o.state).2 := by
  simp only [resume, Engine.nested, ← h]
  rcases c.outcome with _ | ⟨n, s, err | a⟩ <;> rfl

theorem Script.record_outcome (s : Surroundings υ) (walk : RecordedVisit υ)
    (hwalk : s.walk = walk.forget) (script : Script υ α) (e : Engine υ) :
    (script.record s walk e).2 = script.run s e := by
  induction script generalizing e with
  | done a => rfl
  | observe next ih => exact ih _ _ e
  | setSkip skip next ih => exact ih _
  | warn loc description next ih => exact ih _
  | pushScope node next ih => exact ih _
  | popScope next ih => exact ih _ _
  | editContext edit next ih => exact ih _
  | remember memory next ih => exact ih _
  | traverse n parent next ih =>
    simp only [record, run, hwalk]
    rw [resume_outcome e _ _ (walk.forget n parent) rfl]
    simp only [ih]
    rfl
  | traverseChildren n next ih =>
    simp only [record, run, hwalk]
    rw [resume_outcome e _ _ (walkChildren s.options.keys walk.forget n)
      (recordChildren_outcome _ _ _ _)]
    simp only [ih]
    rfl

namespace Pass

variable (p : Pass υ)

theorem recordDispatch_outcome (walk : RecordedVisit υ) (path : Path υ) (key : DispatchKey)
    (n : Node) (parent : Option Parent) (e : Engine υ) :
    (p.recordDispatch walk path key n parent e).outcome =
      p.dispatch walk.forget (p.handlers.lookup key) n parent e := by
  unfold recordDispatch dispatch
  cases p.handlers.lookup key with
  | none => rfl
  | some handler =>
    simp only [← Script.record_outcome (p.surroundings walk.forget) walk rfl]
    rfl

theorem recordDispatch_of_none {key : DispatchKey} (h : p.handlers.lookup key = none)
    (walk : RecordedVisit υ) (path : Path υ) (n : Node) (parent : Option Parent) (e : Engine υ) :
    p.recordDispatch walk path key n parent e =
      ⟨[.reached ⟨key, n, parent, e, path⟩], some ⟨n, e, .ok ()⟩⟩ := by
  simp only [recordDispatch, h]

theorem recordDispatch_of_some {key : DispatchKey} {handler : Handler υ}
    (h : p.handlers.lookup key = some handler) (walk : RecordedVisit υ) (path : Path υ) (n : Node)
    (parent : Option Parent) (e : Engine υ) :
    p.recordDispatch walk path key n parent e =
      let called := settled ((handler n parent).record (p.surroundings walk.forget) walk e)
      ⟨.reached ⟨key, n, parent, e, path⟩ :: called.events, called.outcome⟩ := by
  simp only [recordDispatch, h]

theorem recordDispatch_begins (walk : RecordedVisit υ) (path : Path υ) (key : DispatchKey)
    (n : Node) (parent : Option Parent) (e : Engine υ) :
    ∃ rest, (p.recordDispatch walk path key n parent e).events =
      .reached ⟨key, n, parent, e, path⟩ :: rest := by
  unfold recordDispatch
  split
  · exact ⟨[], rfl⟩
  · exact ⟨_, rfl⟩

theorem recordDescent_outcome (walk : RecordedVisit υ) (n : Node) (e : Engine υ) :
    (p.recordDescent walk n e).outcome =
      (takeSkip n e).andThen fun n s control =>
        match control with
        | .descend => walkChildren p.options.keys walk.forget n s
        | .skip => some ⟨n, s, .ok ()⟩ := by
  unfold recordDescent takeSkip
  rw [Outcome.andThen_ok]
  by_cases h : e.skip
  · simp only [h, if_true]
    rfl
  · simp only [h]
    exact recordChildren_outcome _ _ _ _

theorem recordVisit_outcome (walk : Path υ → RecordedVisit υ)
    (plain : Descent (Engine υ) SyntaxError) (hwalk : ∀ path, (walk path).forget = plain)
    (path : Path υ) (n : Node) (parent : Option Parent) (e : Engine υ) :
    (p.recordVisit walk path n parent e).outcome =
      visit p.visitor p.options.keys plain n parent e := by
  simp only [recordVisit, Recorded.followed_outcome, recordDispatch_outcome, hwalk,
    recordDescent_outcome, visit, visitor, dispatchSide, HandlerSet.lookup, Option.bind_eq_bind,
    ← Option.bind_assoc, Outcome.bind_andThen_assoc]
  rfl

theorem recordWalk_outcome (fuel : Nat) (path : Path υ) (n : Node) (parent : Option Parent)
    (e : Engine υ) : (p.recordWalk fuel path n parent e).outcome = p.walk fuel n parent e := by
  induction fuel generalizing path n parent e with
  | zero => rfl
  | succ fuel ih =>
    refine p.recordVisit_outcome _ (p.walk fuel) (fun path => ?_) path n parent e
    funext n parent e
    exact ih path n parent e

theorem recordWalk_forget (fuel : Nat) (path : Path υ) :
    (p.recordWalk fuel path).forget = p.walk fuel := by
  funext n parent e
  exact p.recordWalk_outcome fuel path n parent e

end Pass

end SyntaxWalk
