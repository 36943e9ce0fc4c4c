import SyntaxWalk.Proofs.Invariant

/-!
# The conduct of handlers

What a handler keeps to, whatever the engine answers it: that it leaves the scopes alone, that it
passes on the errors of the walks it starts, and how the node it gives back is related to the one it
was given. Two rules say what an invariant needs of such handlers: one for handlers that pass errors
on (`record_passing`), one for handlers that may go on after a failed walk (`record_free`). Where
the invariant is about the depth only, the handlers may open and close scopes.
-/

namespace SyntaxWalk

namespace Script

variable {υ α : Type}

def ScopeFree : Script υ α → Prop
  | .done _ => True
  | .observe next => ∀ options e, (next options e).ScopeFree
  | .setSkip _ next | .warn _ _ next | .editContext _ next | .remember _ next => next.ScopeFree
  | .pushScope _ _ | .popScope _ => False
  | .traverse _ _ next | .traverseChildren _ next => ∀ n r, (next n r).ScopeFree

/-- Ends with the error, and walks no more before that. -/
def Raises (err : PassError) : Script υ Handled → Prop
  | .done h => h.verdict = .error err
  | .observe next => ∀ options e, (next options e).Raises err
  | .setSkip _ next | .warn _ _ next | .editContext _ next | .remember _ next => next.Raises err
  | .pushScope _ next => next.Raises err
  | .popScope next => ∀ frame, (next frame).Raises err
  | .traverse _ _ _ | .traverseChildren _ _ => False

def PassesOn : Script υ Handled → Prop
  | .done _ => True
  | .observe next => ∀ options e, (next options e).PassesOn
  | .setSkip _ next | .warn _ _ next | .editContext _ next | .remember _ next => next.PassesOn
  | .pushScope _ next => next.PassesOn
  | .popScope next => ∀ frame, (next frame).PassesOn
  | .traverse _ _ next | .traverseChildren _ next =>
    ∀ n, (next n (.ok ())).PassesOn ∧ ∀ err, (next n (.error err)).Raises err

/-- Gives back a node related to `n₀` where it succeeds, if the walks it starts leave related nodes
where they succeed. -/
def Respects (R : Node → Node → Prop) (n₀ : Node) : Script υ Handled → Prop
  | .done h => ∀ new, h.verdict = .ok new → R n₀ (new.getD h.node)
  | .observe next => ∀ options e, (next options e).Respects R n₀
  | .setSkip _ next | .warn _ _ next | .editContext _ next | .remember _ next => next.Respects R n₀
  | .pushScope _ next => next.Respects R n₀
  | .popScope next => ∀ frame, (next frame).Respects R n₀
  | .traverse n _ next | .traverseChildren n next =>
    ∀ m, R n m → (next m (.ok ())).Respects R n₀

theorem respects_of_forall {R : Node → Node → Prop} (h : ∀ n m, R n m) {n₀ : Node}
    {script : Script υ Handled} : script.Respects R n₀ := by
  induction script with
  | done handled => exact fun _ _ => h _ _
  | observe next ih => exact fun options e => ih options e
  | setSkip skip next ih => exact ih
  | warn loc description next ih => exact ih
  | pushScope node next ih => exact ih
  | popScope next ih => exact fun frame => ih frame
  | editContext edit next ih => exact ih
  | remember memory next ih => exact ih
  | traverse n parent next ih => exact fun m _ => ih m _
  | traverseChildren n next ih => exact fun m _ => ih m _

end Script

variable {υ : Type}

def Engine.Touches (e e' : Engine υ) : Prop :=
  e'.depth = e.depth ∧ ∃ edit, e'.scopes = e.scopes.mapContext edit

theorem Scope.Stack.mapContext_id (s : Scope.Stack) : s.mapContext id = s := by
  obtain ⟨frames⟩ := s
  cases frames <;> rfl

namespace Engine

theorem touches_of_eq {e e' : Engine υ} (hdepth : e'.depth = e.depth)
    (hscopes : e'.scopes = e.scopes) : e.Touches e' := by
  refine ⟨hdepth, id, ?_⟩
  rw [Scope.Stack.mapContext_id]
  exact hscopes

theorem callHook_touches (hook : Option (ScopeHook υ)) (t : Scope.Transition) (e : Engine υ) :
    e.Touches (callHook hook t e) := by
  cases hook with
  | none => exact touches_of_eq rfl rfl
  | some hook =>
    simp only [callHook]
    split
    · rename_i context _
      exact ⟨rfl, fun _ => context, rfl⟩
    · exact touches_of_eq rfl rfl

theorem pushScope_depth (hook : Option (ScopeHook υ)) (node : NodeInfo) (e : Engine υ) :
    (e.pushScope hook node).depth = e.depth := (callHook_touches _ _ _).1

theorem popScope_depth (hook : Option (ScopeHook υ)) (e : Engine υ) :
    (e.popScope hook).2.depth = e.depth := by
  obtain ⟨depth, current, skip, ⟨frames⟩, warnings, memory⟩ := e
  cases frames with
  | nil => rfl
  | cons frame rest => exact (callHook_touches _ _ _).1

end Engine

variable {Q : List (Event υ) → Event υ → Prop}
  {J J' : List (Event υ) → Node → Engine υ → Unit → Prop}
  {K K' : List (Event υ) → Engine υ → Prop} {past : List (Event υ)}

theorem resume_meets {e : Engine υ} {c : Recorded (Event υ) Node (Engine υ) SyntaxError Unit}
    {next : Node → Except PassError Unit → Engine υ → List (Event υ) × Option (Handled × Engine υ)}
    (hc : c.Meets Q J K past)
    (hok : ∀ n after, J (past ++ c.events) n after () →
      (settled (next n (.ok ()) { after with skip := e.skip, current := e.current })).Meets Q J' K'
        (past ++ c.events))
    (herr : ∀ n after err, K (past ++ c.events) after →
      Q (past ++ c.events) (.failed e after) ∧
        (settled (next n (.error err) after)).Meets Q J' K'
          (past ++ c.events ++ [.failed e after])) :
    (settled (resume e c next)).Meets Q J' K' past := by
  obtain ⟨events, outcome⟩ := c
  rcases outcome with _ | ⟨n, after, err | a⟩
  · exact ⟨hc.events, fun _ _ _ ho => (by cases ho), fun _ _ _ ho => (by cases ho)⟩
  · obtain ⟨hQ, hrest⟩ := herr n after err (hc.failure n after err rfl)
    have hcons : past ++ (events ++ Event.failed e after :: (next n (.error err) after).1) =
        past ++ events ++ [Event.failed e after] ++ (next n (.error err) after).1 := by simp
    refine ⟨Recorded.events_append hc.events ?_, fun n' s a ho => ?_, fun n' s e' ho => ?_⟩
    · exact Recorded.events_append (Recorded.events_singleton hQ) hrest.events
    · have h := hrest.success n' s a ho
      rwa [settled, ← hcons] at h
    · have h := hrest.failure n' s e' ho
      rwa [settled, ← hcons] at h
  · have hrest := hok n after (hc.success n after a rfl)
    refine ⟨Recorded.events_append hc.events hrest.events, fun n' s b ho => ?_,
      fun n' s e' ho => ?_⟩
    · have h := hrest.success n' s b ho
      rwa [List.append_assoc] at h
    · have h := hrest.failure n' s e' ho
      rwa [List.append_assoc] at h

namespace Script

variable {s : Surroundings υ} {walk : RecordedVisit υ}

theorem record_raises {err : PassError} {script : Script υ Handled} (h : script.Raises err)
    (hK : ∀ past e, K past e) (e : Engine υ) :
    (settled (script.record s walk e)).Meets Q J K past := by
  induction script generalizing e with
  | done h' =>
    refine ⟨fun _ _ _ he => by simp [settled, record] at he, fun n e' a ho => ?_,
      fun _ _ _ _ => hK _ _⟩
    simp only [settled, record, Option.map_some, Pass.settle, show h'.verdict = .error err from h]
      at ho
    cases ho
  | observe next ih => exact ih _ _ (h _ _) e
  | setSkip skip next ih => exact ih h _
  | warn loc description next ih => exact ih h _
  | pushScope node next ih => exact ih h _
  | popScope next ih => exact ih _ (h _) _
  | editContext edit next ih => exact ih h _
  | remember memory next ih => exact ih h _
  | traverse n parent next ih => exact h.elim
  | traverseChildren n next ih => exact h.elim

variable {I : List (Event υ) → Engine υ → Prop} {R : Node → Node → Prop}

theorem settle_meets (n₀ : Node) {h : Handled} {e : Engine υ}
    (htouch : ∀ past e e', e.Touches e' → I past e → I past e') (he : I past e)
    (hK : I past e → K past e) (hR : ∀ new, h.verdict = .ok new → R n₀ (new.getD h.node)) :
    (settled ([], some (h, e))).Meets Q (fun l m e _ => R n₀ m ∧ I l e) K past := by
  obtain ⟨node, verdict⟩ := h
  refine ⟨fun _ _ _ ho => by simp [settled] at ho, fun n e' a ho => ?_, fun n e' err ho => ?_⟩
  · cases verdict with
    | error err => cases ho
    | ok answer =>
      cases answer with
      | none =>
        cases ho
        simpa [settled] using And.intro (hR none rfl) he
      | some new =>
        cases ho
        have hcurrent := htouch past e { e with current := some n.info }
          (Engine.touches_of_eq rfl rfl) he
        simpa [settled] using And.intro (hR (some n) rfl) hcurrent
  · cases verdict with
    | error err =>
      cases ho
      simpa [settled] using hK he
    | ok answer => cases answer <;> cases ho

def DepthOnly (I : List (Event υ) → Engine υ → Prop) : Prop :=
  ∀ {past : List (Event υ)} {e e' : Engine υ}, e'.depth = e.depth → I past e → I past e'

theorem record_passing {n₀ : Node} {script : Script υ Handled}
    (hkind : ∀ {n m : Node}, m.kind = n.kind → R n m)
    (htouch : ∀ past e e', e.Touches e' → I past e → I past e')
    (hfailed : ∀ past before after, Q past (.failed before after)) (hK : ∀ past e, K past e)
    (hwalk : ∀ past n parent e, I past e →
      (walk n parent e).Meets Q (fun l m e _ => R n m ∧ I l e) K past)
    (hscopes : script.ScopeFree ∨ DepthOnly I) (hpass : script.PassesOn)
    (hR : script.Respects R n₀) {e : Engine υ} (he : I past e) :
    (settled (script.record s walk e)).Meets Q (fun l m e _ => R n₀ m ∧ I l e) K past := by
  have hsame : ∀ {past} e {e'}, e'.depth = e.depth → e'.scopes = e.scopes → I past e → I past e' :=
    fun _ _ hd hs => htouch _ _ _ (Engine.touches_of_eq hd hs)
  induction script generalizing past e with
  | done h => exact settle_meets n₀ htouch he (fun _ => hK _ _) hR
  | observe next ih => exact ih _ _ (hscopes.imp_left fun h => h _ _) (hpass _ _) (hR _ _) he
  | setSkip skip next ih => exact ih hscopes hpass hR (hsame e rfl rfl he)
  | warn loc description next ih => exact ih hscopes hpass hR (hsame e rfl rfl he)
  | pushScope node next ih =>
    have hdepth : DepthOnly I := hscopes.resolve_left fun h => h
    exact ih (.inr hdepth) hpass hR (hdepth (e.pushScope_depth _ node) he)
  | popScope next ih =>
    have hdepth : DepthOnly I := hscopes.resolve_left fun h => h
    exact ih _ (.inr hdepth) (hpass _) (hR _) (hdepth (e.popScope_depth _) he)
  | editContext edit next ih => exact ih hscopes hpass hR (htouch _ e _ ⟨rfl, edit, rfl⟩ he)
  | remember memory next ih => exact ih hscopes hpass hR (hsame e rfl rfl he)
  | traverse n parent next ih =>
    have hnext m r : (next m r).ScopeFree ∨ DepthOnly I := hscopes.imp_left fun h => h m r
    refine resume_meets (hwalk past n parent _ (hsame e rfl rfl he)) (fun m after hm => ?_)
      fun m after err _ => ⟨hfailed _ _ _, record_raises ((hpass m).2 err) hK after⟩
    exact ih _ _ (hnext m _) (hpass m).1 (hR m hm.1) (hsame after rfl rfl hm.2)
  | traverseChildren n next ih =>
    have hnext m r : (next m r).ScopeFree ∨ DepthOnly I := hscopes.imp_left fun h => h m r
    have hbegin : I past { e with skip := false } := hsame e rfl rfl he
    have hchildren := recordChildren_meets (fun _ _ _ => hK _ _)
      (fun past n parent e he => (hwalk past n parent e he).imp (fun _ _ _ _ h => h.2)
        fun _ _ h => h) s.options.keys n hbegin
    refine resume_meets hchildren (fun m after hm => ?_)
      fun m after err _ => ⟨hfailed _ _ _, record_raises ((hpass m).2 err) hK after⟩
    exact ih _ _ (hnext m _) (hpass m).1 (hR m (hkind hm.1)) (hsame after rfl rfl hm.2)

theorem record_free {script : Script υ Handled}
    (htouch : ∀ past e e', e.Touches e' → I past e → I past e')
    (hfailed : ∀ past before after, Q past (.failed before after))
    (hspoil : ∀ past e, I past e → K past e)
    (hresume : ∀ past rest before after, I past before → K (past ++ rest) after →
      I (past ++ rest ++ [.failed before after]) after)
    (hwalk : ∀ past n parent e, I past e →
      (walk n parent e).Meets Q (fun l _ e _ => I l e) K past)
    (hscopes : script.ScopeFree ∨ DepthOnly I) {e : Engine υ} (he : I past e) :
    (settled (script.record s walk e)).Meets Q (fun l _ e _ => I l e) K past := by
  have hsame : ∀ {past} e {e'}, e'.depth = e.depth → e'.scopes = e.scopes → I past e → I past e' :=
    fun _ _ hd hs => htouch _ _ _ (Engine.touches_of_eq hd hs)
  induction script generalizing past e with
  | done h =>
    exact (settle_meets (R := fun _ _ => True) h.node htouch he (hspoil _ _)
      fun _ _ => trivial).imp (fun _ _ _ _ h => h.2) fun _ _ h => h
  | observe next ih => exact ih _ _ (hscopes.imp_left fun h => h _ _) he
  | setSkip skip next ih => exact ih hscopes (hsame e rfl rfl he)
  | warn loc description next ih => exact ih hscopes (hsame e rfl rfl he)
  | pushScope node next ih =>
    have hdepth : DepthOnly I := hscopes.resolve_left fun h => h
    exact ih (.inr hdepth) (hdepth (e.pushScope_depth _ node) he)
  | popScope next ih =>
    have hdepth : DepthOnly I := hscopes.resolve_left fun h => h
    exact ih _ (.inr hdepth) (hdepth (e.popScope_depth _) he)
  | editContext edit next ih => exact ih hscopes (htouch _ e _ ⟨rfl, edit, rfl⟩ he)
  | remember memory next ih => exact ih hscopes (hsame e rfl rfl he)
  | traverse n parent next ih =>
    have hnext m r : (next m r).ScopeFree ∨ DepthOnly I := hscopes.imp_left fun h => h m r
    -- The handler may go on after a failed walk, and then starts from what that walk left.
    refine resume_meets (hwalk past n parent _ (hsame e rfl rfl he)) (fun m after hm => ?_)
      fun m after err hm => ⟨hfailed _ _ _, ih _ _ (hnext m _) (hresume _ _ _ _ he hm)⟩
    exact ih _ _ (hnext m _) (hsame after rfl rfl hm)
  | traverseChildren n next ih =>
    have hnext m r : (next m r).ScopeFree ∨ DepthOnly I := hscopes.imp_left fun h => h m r
    have hbegin : I past { e with skip := false } := hsame e rfl rfl he
    have hchildren := recordChildren_meets hspoil hwalk s.options.keys n hbegin
    refine resume_meets hchildren (fun m after hm => ?_)
      fun m after err hm => ⟨hfailed _ _ _, ih _ _ (hnext m _) (hresume _ _ _ _ he hm)⟩
    exact ih _ _ (hnext m _) (hsame after rfl rfl hm.2)

end Script

theorem Pass.recordDispatch_meets {p : Pass υ} {walk : RecordedVisit υ} {path : Path υ}
    {key : DispatchKey} {n : Node} {parent : Option Parent} {e : Engine υ}
    (hreached : Q past (.reached ⟨key, n, parent, e, path⟩))
    (hnone : J (past ++ [.reached ⟨key, n, parent, e, path⟩]) n e ())
    (hsome : ∀ handler, p.handlers.lookup key = some handler →
      (settled ((handler n parent).record (p.surroundings walk.forget) walk e)).Meets Q J K
        (past ++ [.reached ⟨key, n, parent, e, path⟩])) :
    (p.recordDispatch walk path key n parent e).Meets Q J K past := by
  cases hlookup : p.handlers.lookup key with
  | none =>
    rw [p.recordDispatch_of_none hlookup]
    exact Recorded.meets_single hreached hnone
  | some handler =>
    have hcalled := hsome handler hlookup
    rw [p.recordDispatch_of_some hlookup]
    refine ⟨Recorded.events_append (Recorded.events_singleton hreached) hcalled.events,
      fun n' e' a ho => ?_, fun n' e' err ho => ?_⟩
    · have h := hcalled.success n' e' a ho
      rwa [List.append_assoc] at h
    · have h := hcalled.failure n' e' err ho
      rwa [List.append_assoc] at h

end SyntaxWalk
