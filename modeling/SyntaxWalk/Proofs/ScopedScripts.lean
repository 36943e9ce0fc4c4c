import SyntaxWalk.Proofs.PlainHandlers

/-!
# Scoped scripts

A scoped script looks at the engine only through its scopes, and changes nothing but the scopes and
the warnings. What it does is therefore settled by the scopes and the depth it finds: run from two
engines that agree in these, it gives the same answer, leaves the same scopes and adds the same
warnings (`Script.Scoped.run`). This takes scope hooks that do not use the handlers' memory.
-/

namespace SyntaxWalk

variable {υ α β : Type}

/-- Looks at nothing but the scopes and changes nothing but them and the warnings; every warning has
a description in `P`, and the answer is good. -/
def Script.Scoped (P : String → Prop) (good : α → Prop) : Script υ α → Prop
  | .done a => good a
  | .observe next => ∀ options e, (next options e).Scoped P good ∧
      ∀ e', e'.scopes = e.scopes → next options e' = next options e
  | .warn _ description next => P description ∧ next.Scoped P good
  | .pushScope _ next | .editContext _ next => next.Scoped P good
  | .popScope next => ∀ frame, (next frame).Scoped P good
  | .setSkip _ _ | .remember _ _ | .traverse _ _ _ | .traverseChildren _ _ => False

def ScopeHook.Blind (hook : ScopeHook υ) : Prop :=
  ∃ f : Scope.Transition → Option Context, ∀ t memory, hook t memory = (f t, memory)

structure Surroundings.Blind (s : Surroundings υ) : Prop where
  scopeEnter : ∀ hook, s.scopeEnter = some hook → hook.Blind
  scopeExit : ∀ hook, s.scopeExit = some hook → hook.Blind

namespace Engine

variable {hook : Option (ScopeHook υ)} (hblind : ∀ h, hook = some h → h.Blind)

include hblind

theorem callHook_blind (t : Scope.Transition) (scopes : Scope.Stack) :
    ∃ scopes', ∀ e : Engine υ, e.scopes = scopes →
      callHook hook t e = { e with scopes := scopes' } := by
  cases hook with
  | none =>
    refine ⟨scopes, fun e he => ?_⟩
    subst he
    rfl
  | some hook =>
    obtain ⟨f, hf⟩ := hblind hook rfl
    cases hcontext : f t with
    | none =>
      refine ⟨scopes, fun e he => ?_⟩
      subst he
      simp only [callHook, hf, hcontext]
    | some context =>
      refine ⟨scopes.mapContext fun _ => context, fun e he => ?_⟩
      subst he
      simp only [callHook, hf, hcontext]

theorem pushScope_blind (node : NodeInfo) (e : Engine υ) :
    ∃ scopes, ∀ e' : Engine υ, e'.scopes = e.scopes → e'.depth = e.depth →
      e'.pushScope hook node = { e' with scopes } := by
  let pushed := e.scopes.push node e.depth
  obtain ⟨scopes, hcall⟩ := callHook_blind hblind (pushed.transition e.scopes) pushed
  refine ⟨scopes, fun e' hscopes hdepth => ?_⟩
  simp only [pushScope, hscopes, hdepth]
  exact hcall _ rfl

theorem popScope_blind (e : Engine υ) :
    ∃ frame scopes, ∀ e' : Engine υ, e'.scopes = e.scopes →
      e'.popScope hook = (frame, { e' with scopes }) := by
  cases hpop : e.scopes.pop? with
  | none =>
    refine ⟨none, e.scopes, fun e' hscopes => ?_⟩
    rw [popScope, hscopes, hpop, ← hscopes]
  | some popped =>
    obtain ⟨frame, rest⟩ := popped
    obtain ⟨scopes, hcall⟩ := callHook_blind hblind (rest.transition e.scopes) rest
    refine ⟨some frame, scopes, fun e' hscopes => ?_⟩
    simp only [popScope, hscopes, hpop]
    rw [hcall _ rfl]

end Engine

namespace Script

variable {P : String → Prop} {good : α → Prop} {good' : β → Prop} {script : Script υ α}

theorem Scoped.bind {f : α → Script υ β} (h : script.Scoped P good)
    (hf : ∀ a, good a → (f a).Scoped P good') : (script.bind f).Scoped P good' := by
  induction script with
  | done a => exact hf a h
  | observe next ih =>
    refine fun options e => ⟨ih options e (h options e).1, fun e' hscopes => ?_⟩
    exact congrArg (Script.bind f) ((h options e).2 e' hscopes)
  | warn loc description next ih => exact ⟨h.1, ih h.2⟩
  | pushScope node next ih => exact ih h
  | popScope next ih => exact fun frame => ih frame (h frame)
  | editContext edit next ih => exact ih h
  | setSkip skip next ih => exact h.elim
  | remember memory next ih => exact h.elim
  | traverse n parent next ih => exact h.elim
  | traverseChildren n next ih => exact h.elim

theorem Scoped.plain (h : script.Scoped P good) : script.Plain good := by
  induction script with
  | done a => exact h
  | observe next ih => exact fun options e => ih options e (h options e).1
  | warn loc description next ih => exact ih h.2
  | pushScope node next ih => exact ih h
  | popScope next ih => exact fun frame => ih frame (h frame)
  | editContext edit next ih => exact ih h
  | setSkip skip next ih => exact h.elim
  | remember memory next ih => exact h.elim
  | traverse n parent next ih => exact h.elim
  | traverseChildren n next ih => exact h.elim

/-- The answer, the scopes and the added warnings are settled by the scopes and the depth that the
script finds, whatever the rest of the engine is. -/
theorem Scoped.run (h : script.Scoped P good) {s : Surroundings υ} (hs : s.Blind) (e : Engine υ) :
    ∃ a scopes added, good a ∧ (∀ w ∈ added, P w.description) ∧
      ∀ walk e', e'.scopes = e.scopes → e'.depth = e.depth →
        script.run { s with walk } e' =
          some (a, { e' with scopes, warnings := e'.warnings ++ added }) := by
  induction script generalizing e with
  | done a =>
    refine ⟨a, e.scopes, [], h, fun w hw => (by cases hw), fun walk e' hscopes hdepth => ?_⟩
    rw [Script.run, List.append_nil, ← hscopes]
  | observe next ih =>
    obtain ⟨a, scopes, added, ha, hadded, hrun⟩ := ih s.options e (h s.options e).1 e
    refine ⟨a, scopes, added, ha, hadded, fun walk e' hscopes hdepth => ?_⟩
    rw [Script.run, (h s.options e).2 e' hscopes]
    exact hrun walk e' hscopes hdepth
  | warn loc description next ih =>
    obtain ⟨a, scopes, added, ha, hadded, hrun⟩ := ih h.2 e
    let w : Warning := ⟨loc, s.options.filename, description⟩
    refine ⟨a, scopes, w :: added, ha, fun w' hw' => ?_, fun walk e' hscopes hdepth => ?_⟩
    · rcases List.mem_cons.1 hw' with rfl | hw'
      · exact h.1
      · exact hadded w' hw'
    · rw [Script.run, hrun walk (e'.warn w) hscopes hdepth, Engine.warn_warnings,
        List.append_assoc]
      rfl
  | pushScope node next ih =>
    obtain ⟨pushed, hpush⟩ := Engine.pushScope_blind hs.scopeEnter node e
    obtain ⟨a, scopes, added, ha, hadded, hrun⟩ := ih h { e with scopes := pushed }
    refine ⟨a, scopes, added, ha, hadded, fun walk e' hscopes hdepth => ?_⟩
    rw [Script.run, hpush e' hscopes hdepth]
    exact hrun walk { e' with scopes := pushed } rfl hdepth
  | popScope next ih =>
    obtain ⟨frame, popped, hpop⟩ := Engine.popScope_blind hs.scopeExit e
    obtain ⟨a, scopes, added, ha, hadded, hrun⟩ := ih frame (h frame) { e with scopes := popped }
    refine ⟨a, scopes, added, ha, hadded, fun walk e' hscopes hdepth => ?_⟩
    rw [Script.run, hpop e' hscopes]
    exact hrun walk { e' with scopes := popped } rfl hdepth
  | editContext edit next ih =>
    obtain ⟨a, scopes, added, ha, hadded, hrun⟩ :=
      ih h { e with scopes := e.scopes.mapContext edit }
    refine ⟨a, scopes, added, ha, hadded, fun walk e' hscopes hdepth => ?_⟩
    rw [Script.run, hscopes]
    exact hrun walk { e' with scopes := e.scopes.mapContext edit } rfl hdepth
  | setSkip skip next ih => exact h.elim
  | remember memory next ih => exact h.elim
  | traverse n parent next ih => exact h.elim
  | traverseChildren n next ih => exact h.elim

end Script

end SyntaxWalk
