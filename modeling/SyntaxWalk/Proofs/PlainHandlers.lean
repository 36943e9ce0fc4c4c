import SyntaxWalk.Proofs.OpenScopes
import SyntaxWalk.Proofs.Slots

/-!
# Plain handlers

A handler is plain when it neither walks nor asks for a skip. Its script always comes to an end, in
the depth in which it began and without a request pending. A pass whose handlers are plain and leave
their node as it is, or fail, is a visitor that never writes and always answers.
-/

namespace SyntaxWalk

variable {υ α : Type}

/-- Neither walks nor asks for a skip, and ends with a good answer. -/
def Script.Plain (good : α → Prop) : Script υ α → Prop
  | .done a => good a
  | .observe next => ∀ options e, (next options e).Plain good
  | .setSkip skip next => skip = false ∧ next.Plain good
  | .warn _ _ next | .pushScope _ next | .editContext _ next | .remember _ next => next.Plain good
  | .popScope next => ∀ frame, (next frame).Plain good
  | .traverse _ _ _ | .traverseChildren _ _ => False

structure Engine.Steady (e e' : Engine υ) : Prop where
  depth : e'.depth = e.depth
  skip : e.skip = false → e'.skip = false

namespace Engine.Steady

variable {e e₁ e₂ : Engine υ}

theorem refl (e : Engine υ) : e.Steady e := ⟨rfl, fun h => h⟩

theorem trans (h₁ : e.Steady e₁) (h₂ : e₁.Steady e₂) : e.Steady e₂ :=
  ⟨h₂.depth.trans h₁.depth, fun h => h₂.skip (h₁.skip h)⟩

theorem pushScope (hook : Option (ScopeHook υ)) (node : NodeInfo) (e : Engine υ) :
    e.Steady (e.pushScope hook node) :=
  ⟨pushScope_depth hook node e, (e.pushScope_skip hook node).trans⟩

theorem popScope (hook : Option (ScopeHook υ)) (e : Engine υ) :
    e.Steady (e.popScope hook).2 :=
  ⟨popScope_depth hook e, (e.popScope_skip hook).trans⟩

end Engine.Steady

namespace Script

variable {good : α → Prop} {script : Script υ α}

theorem Plain.imp {good' : α → Prop} (h : script.Plain good) (himp : ∀ a, good a → good' a) :
    script.Plain good' := by
  induction script with
  | done a => exact himp a h
  | observe next ih => exact fun options e => ih options e (h options e)
  | setSkip skip next ih => exact ⟨h.1, ih h.2⟩
  | warn loc description next ih => exact ih h
  | pushScope node next ih => exact ih h
  | popScope next ih => exact fun frame => ih frame (h frame)
  | editContext edit next ih => exact ih h
  | remember memory next ih => exact ih h
  | traverse n parent next ih => exact h.elim
  | traverseChildren n next ih => exact h.elim

def Settles (good : α → Prop) (s : Surroundings υ) (script : Script υ α) (e e₁ : Engine υ) : Prop :=
  ∃ a e', script.run s e₁ = some (a, e') ∧ good a ∧ e.Steady e'

theorem Settles.since {s : Surroundings υ} {e e₁ : Engine υ} (h : script.Settles good s e₁ e₁)
    (he : e.Steady e₁) : script.Settles good s e e₁ := by
  obtain ⟨a, e', hrun, ha, hsteady⟩ := h
  exact ⟨a, e', hrun, ha, he.trans hsteady⟩

theorem run_plain (s : Surroundings υ) (h : script.Plain good) (e : Engine υ) :
    script.Settles good s e e := by
  induction script generalizing e with
  | done a => exact ⟨a, e, rfl, h, .refl e⟩
  | observe next ih => exact ih _ _ (h _ _) e
  | setSkip skip next ih =>
    have hnext : next.Settles good s e { e with skip } := (ih h.2 _).since ⟨rfl, fun _ => h.1⟩
    exact hnext
  | warn loc description next ih =>
    have hnext : next.Settles good s e (e.warn ⟨loc, s.options.filename, description⟩) :=
      (ih h _).since ⟨rfl, id⟩
    exact hnext
  | pushScope node next ih => exact (ih h _).since (.pushScope s.scopeEnter node e)
  | popScope next ih => exact (ih _ (h _) _).since (.popScope s.scopeExit e)
  | editContext edit next ih =>
    have hnext : next.Settles good s e { e with scopes := e.scopes.mapContext edit } :=
      (ih h _).since ⟨rfl, id⟩
    exact hnext
  | remember memory next ih =>
    have hnext : next.Settles good s e { e with memory } := (ih h _).since ⟨rfl, id⟩
    exact hnext
  | traverse n parent next ih => exact h.elim
  | traverseChildren n next ih => exact h.elim

theorem record_plain (s : Surroundings υ) (walk : RecordedVisit υ) (h : script.Plain good)
    (e : Engine υ) : script.record s walk e = ([], script.run s e) := by
  induction script generalizing e with
  | done a => rfl
  | observe next ih => exact ih _ _ (h _ _) e
  | setSkip skip next ih => exact ih h.2 _
  | warn loc description next ih => exact ih h _
  | pushScope node next ih => exact ih h _
  | popScope next ih => exact ih _ (h _) _
  | editContext edit next ih => exact ih h _
  | remember memory next ih => exact ih h _
  | traverse n parent next ih => exact h.elim
  | traverseChildren n next ih => exact h.elim

end Script

def Handled.Spares (n : Node) (h : Handled) : Prop := h.node = n ∧ ∀ new, h.verdict ≠ .ok (some new)

def Handler.Spares (h : Handler υ) : Prop := ∀ n parent, (h n parent).Plain (Handled.Spares n)

def HandlerSet.Spares (h : HandlerSet υ) : Prop :=
  ∀ key handler, h.lookup key = some handler → handler.Spares

theorem Pass.settle_spares {n : Node} {h : Handled} (hn : h.Spares n) (e : Engine υ) :
    ∃ verdict, Pass.settle h e = ⟨n, e, verdict⟩ := by
  obtain ⟨node, verdict⟩ := h
  obtain ⟨rfl, hkeep⟩ := hn
  rcases verdict with err | _ | new
  · exact ⟨_, rfl⟩
  · exact ⟨_, rfl⟩
  · exact absurd rfl (hkeep new)

namespace Pass

variable {p : Pass υ} (hp : p.handlers.Spares) (walk : Descent (Engine υ) SyntaxError)

include hp

theorem dispatch_spares (key : DispatchKey) (n : Node) (parent : Option Parent) (e : Engine υ) :
    ∃ e' verdict, p.dispatch walk (p.handlers.lookup key) n parent e = some ⟨n, e', verdict⟩ := by
  unfold dispatch
  cases hlookup : p.handlers.lookup key with
  | none => exact ⟨e, .ok (), rfl⟩
  | some handler =>
    obtain ⟨h, e', hrun, hh, -⟩ :=
      Script.run_plain (p.surroundings walk) (hp key handler hlookup n parent) e
    obtain ⟨verdict, hsettle⟩ := settle_spares hh e'
    exact ⟨e', verdict, by simp only [hrun, Option.map_some, hsettle]⟩

theorem dispatchSide_spares (before : Hook) (phase : Phase) (after : Hook) (n : Node)
    (parent : Option Parent) (e : Engine υ) :
    ∃ e' verdict, p.dispatchSide walk before phase after n parent e = some ⟨n, e', verdict⟩ := by
  obtain ⟨e₁, verdict₁, h₁⟩ := dispatch_spares hp walk (.around before) n parent e
  obtain ⟨e₂, verdict₂, h₂⟩ := dispatch_spares hp walk (.node n.kind phase) n parent e₁
  obtain ⟨e₃, verdict₃, h₃⟩ := dispatch_spares hp walk (.around after) n parent e₂
  simp only [HandlerSet.lookup] at h₁ h₂ h₃
  simp only [dispatchSide, h₁, Option.bind_eq_bind, Option.bind_some]
  cases verdict₁ with
  | error err => exact ⟨e₁, _, rfl⟩
  | ok a =>
    simp only [Outcome.andThen_ok, h₂, Option.bind_some]
    cases verdict₂ with
    | error err => exact ⟨e₂, _, rfl⟩
    | ok a =>
      simp only [Outcome.andThen_ok, h₃]
      exact ⟨e₃, _, rfl⟩

theorem enter_spares (n : Node) (parent : Option Parent) (e : Engine υ) :
    ∃ e' verdict, p.visitor.enter walk n parent e = some ⟨n, e', verdict⟩ := by
  obtain ⟨e', verdict, h⟩ :=
    dispatchSide_spares hp walk .beforeEnter .enter .afterEnter n parent (arrive n e)
  simp only [visitor, h, Option.bind_eq_bind, Option.bind_some]
  cases verdict with
  | error err => exact ⟨e', _, rfl⟩
  | ok a => exact ⟨_, _, rfl⟩

theorem leave_spares (n : Node) (parent : Option Parent) (e : Engine υ) :
    ∃ e' verdict, p.visitor.leave walk n parent e = some ⟨n, e', verdict⟩ := by
  obtain ⟨e', verdict, h⟩ := dispatchSide_spares hp walk .beforeExit .exit .afterExit n parent
    { e with current := some n.info }
  simp only [visitor, h, Option.bind_eq_bind, Option.bind_some]
  cases verdict with
  | error err => exact ⟨e', _, rfl⟩
  | ok a => exact ⟨_, _, rfl⟩

omit walk in
theorem visitor_neverWrites : p.visitor.NeverWrites where
  enter {walk} _ n parent e o ho := by
    obtain ⟨e', verdict, h⟩ := enter_spares hp walk n parent e
    rw [h] at ho
    cases ho
    rfl
  leave {walk} _ n parent e o ho := by
    obtain ⟨e', verdict, h⟩ := leave_spares hp walk n parent e
    rw [h] at ho
    cases ho
    rfl

omit walk in
theorem visitor_answers : p.visitor.Answers where
  enter walk n parent e := by
    obtain ⟨e', verdict, h⟩ := enter_spares hp walk n parent e
    rw [h]
    rfl
  leave walk n parent e := by
    obtain ⟨e', verdict, h⟩ := leave_spares hp walk n parent e
    rw [h]
    rfl

omit walk in
theorem run_spares (fuel : Nat) (tree : Node) (hfuel : tree.count ≤ fuel) (memory : υ) :
    ∃ e verdict, p.walk fuel tree none (.fresh memory) = some ⟨tree, e, verdict⟩ := by
  obtain ⟨⟨t, e, verdict⟩, ho⟩ := Option.isSome_iff_exists.1 (walkNode_isSome
    (visitor_neverWrites hp) (visitor_answers hp) p.options.keys fuel tree hfuel none
    (.fresh memory))
  obtain rfl : t = tree := walkNode_unwritten (visitor_neverWrites hp) p.options.keys fuel tree none
    (.fresh memory) _ ho
  exact ⟨e, verdict, ho⟩

end Pass

end SyntaxWalk
