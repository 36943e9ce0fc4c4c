import SyntaxWalk.Proofs.FieldByField
import SyntaxWalk.Proofs.OnBaseline

/-!
# Descent by hand

An entry handler that asks to skip the children of its node and walks them itself does what the walk
does without it. The two runs go through the children at different points of the visit, one of them
inside a handler call, so they are compared in what the other handlers see of them (`Agrees`): the
same calls on the same engine, and the same end. Nothing else in the runs asks to skip, so that no
request is pending where a visit begins or ends.
-/

namespace SyntaxWalk

namespace Recorded

variable {ω κ τ τ' σ ε α β : Type}

/-- Both end in the same way, in a state that is good, and show the same to `see`. -/
structure Agrees (see : ω → Option κ) (good : σ → Prop) (c c' : Recorded ω τ σ ε α) : Prop where
  outcome : c'.outcome = c.outcome
  seen : c'.events.filterMap see = c.events.filterMap see
  good : ∀ o, c.outcome = some o → good o.state

variable {see : ω → Option κ} {good : σ → Prop}

theorem agrees_now {o : Outcome τ σ ε α} (h : good o.state) :
    (now o).Agrees see good (now o) where
  outcome := rfl
  seen := rfl
  good o' ho := by
    cases ho
    exact h

theorem Agrees.mapSubject {c c' : Recorded ω τ σ ε α} (h : c.Agrees see good c') (f : τ → τ') :
    (c.mapSubject f).Agrees see good (c'.mapSubject f) where
  outcome := congrArg (Option.map (Outcome.mapSubject f)) h.outcome
  seen := h.seen
  good o ho := by
    obtain ⟨o', ho', rfl⟩ := Option.map_eq_some_iff.1 ho
    exact h.good o' ho'

theorem Agrees.followed {c c' : Recorded ω τ σ ε α} {stop : τ → τ'}
    {next next' : τ → σ → α → Recorded ω τ' σ ε β} (h : c.Agrees see good c')
    (hnext : ∀ n s a, good s → (next n s a).Agrees see good (next' n s a)) :
    (c.followed stop next).Agrees see good (c'.followed stop next') := by
  obtain ⟨events, outcome⟩ := c
  obtain ⟨events', outcome'⟩ := c'
  obtain rfl : outcome' = outcome := h.outcome
  rcases outcome' with _ | ⟨n, s, e | a⟩
  · exact ⟨rfl, h.seen, fun o ho => (by cases ho)⟩
  · refine ⟨rfl, h.seen, fun o ho => ?_⟩
    cases ho
    exact h.good _ rfl
  · have hrest := hnext n s a (h.good _ rfl)
    refine ⟨hrest.outcome, ?_, hrest.good⟩
    simp only [Recorded.followed, List.filterMap_append, hrest.seen]
    rw [show events'.filterMap see = events.filterMap see from h.seen]

end Recorded

section Children

variable {ω κ σ ε : Type} {see : ω → Option κ} {good : σ → Prop}
  {walk walk' : RecordedDescent ω σ ε}

theorem composes_agrees (see : ω → Option κ) (good : σ → Prop) : Composes False
    fun _ _ _ (c c' : σ → Recorded ω _ σ ε Unit) =>
      ∀ s, good s → (c s).Agrees see good (c' s) where
  now _ _ hs := Recorded.agrees_now hs
  mapSubject f h s hs := (h s hs).mapSubject f
  followed h hnext s hs := (h s hs).followed fun m s' _ hs' => hnext m False.elim s' hs'

theorem recordChildren_agrees
    (hwalk : ∀ n parent s, good s → (walk n parent s).Agrees see good (walk' n parent s))
    (keys : VisitorKeys) (n : Node) {s : σ} (hs : good s) :
    (recordChildren keys walk n s).Agrees see good (recordChildren keys walk' n s) := by
  unfold recordChildren
  cases keys.childKeys? n with
  | some names =>
    exact (composes_agrees see good).fields (fun _ m _ => hwalk m _) names (.unlisted id) n s hs
  | none => exact Recorded.agrees_now hs

end Children

variable {υ α : Type}

def Script.SkipFree : Script υ α → Prop
  | .done _ => True
  | .observe next => ∀ options e, (next options e).SkipFree
  | .setSkip skip next => skip = false ∧ next.SkipFree
  | .warn _ _ next | .pushScope _ next | .editContext _ next | .remember _ next => next.SkipFree
  | .popScope next => ∀ frame, (next frame).SkipFree
  | .traverse _ _ next | .traverseChildren _ next => ∀ n r, (next n r).SkipFree

def Handler.SkipFree (h : Handler υ) : Prop := ∀ n parent, (h n parent).SkipFree

namespace HandlerSet

def SkipFree (h : HandlerSet υ) : Prop :=
  ∀ key handler, h.lookup key = some handler → handler.SkipFree

theorem baseline_skipFree : (baseline : HandlerSet υ).SkipFree :=
  baseline_handlers (fun _ _ => trivial) (fun _ _ => trivial) fun _ _ _ => trivial

theorem compose_skipFree {sets : List (HandlerSet υ)} (hsets : ∀ set ∈ sets, set.SkipFree) :
    (compose sets).SkipFree :=
  compose_handlers baseline_skipFree hsets

end HandlerSet

def Engine.Unskipped (e : Engine υ) : Prop := e.skip = false

structure Call (υ : Type) where
  key : DispatchKey
  node : Node
  parent : Option Parent
  engine : Engine υ

def Event.call? (h : HandlerSet υ) : Event υ → Option (Call υ)
  | .reached m =>
    if (h.lookup m.key).isSome then some ⟨m.key, m.node, m.parent, m.engine⟩ else none
  | .failed _ _ => none

def HandlerSet.calls (h : HandlerSet υ) (journal : List (Event υ)) : List (Call υ) :=
  journal.filterMap (Event.call? h)

namespace DescentByHand

def descend : Handler υ := fun n _ =>
  .setSkip true (.traverseChildren n fun n r => .done ⟨n, r.map fun _ => none⟩)

def descending : List String → HandlerSet υ
  | [] => .empty
  | kind :: kinds => (descending kinds).withEnter kind descend

theorem descending_scopeEnter (kinds : List String) :
    (descending kinds : HandlerSet υ).scopeEnter = none := by
  induction kinds with
  | nil => rfl
  | cons kind kinds ih => exact ih

theorem descending_scopeExit (kinds : List String) :
    (descending kinds : HandlerSet υ).scopeExit = none := by
  induction kinds with
  | nil => rfl
  | cons kind kinds ih => exact ih

theorem lookup_descending (kinds : List String) (key : DispatchKey) :
    (descending kinds : HandlerSet υ).lookup key =
      if ∃ kind ∈ kinds, key = .node kind .enter then some descend else none := by
  induction kinds with
  | nil => simp [descending, HandlerSet.lookup_empty]
  | cons kind kinds ih =>
    rw [descending, HandlerSet.lookup_withEnter, ih]
    by_cases hkey : key = .node kind .enter <;> simp [hkey]

variable {h : HandlerSet υ} {walk walk' : RecordedVisit υ}

abbrev Agrees (h : HandlerSet υ) (c c' : RecordedDispatch υ) : Prop :=
  c.Agrees (Event.call? h) Engine.Unskipped c'

abbrev WalksAgree (h : HandlerSet υ) (walk walk' : RecordedVisit υ) : Prop :=
  ∀ n parent e, e.Unskipped → Agrees h (walk n parent e) (walk' n parent e)

theorem resume_agrees {c c' : Recorded (Event υ) Node (Engine υ) SyntaxError Unit}
    {next next' : Node → Except PassError Unit → Engine υ →
      List (Event υ) × Option (Handled × Engine υ)} {e : Engine υ} (he : e.Unskipped)
    (hc : Agrees h c c')
    (hnext : ∀ n r after, after.Unskipped →
      Agrees h (settled (next n r after)) (settled (next' n r after))) :
    Agrees h (settled (resume e c next)) (settled (resume e c' next')) := by
  obtain ⟨events, outcome⟩ := c
  obtain ⟨events', outcome'⟩ := c'
  obtain rfl : outcome' = outcome := hc.outcome
  have hseen : events'.filterMap (Event.call? h) = events.filterMap (Event.call? h) := hc.seen
  rcases outcome' with _ | ⟨n, after, err | a⟩
  · exact ⟨rfl, hseen, fun o ho => (by cases ho)⟩
  · have hrest := hnext n (.error err) after (hc.good _ rfl)
    refine ⟨hrest.outcome, ?_, hrest.good⟩
    have hrestSeen := hrest.seen
    simp only [settled] at hrestSeen
    simp only [settled, resume, List.filterMap_append, List.filterMap_cons, Event.call?, hseen,
      hrestSeen]
  · have hrest := hnext n (.ok ()) { after with skip := e.skip, current := e.current } he
    refine ⟨hrest.outcome, ?_, hrest.good⟩
    have hrestSeen := hrest.seen
    simp only [settled] at hrestSeen
    simp only [settled, resume, List.filterMap_append, hseen, hrestSeen]

theorem settle_unskipped {handled : Handled} {e : Engine υ} (he : e.Unskipped) :
    (Pass.settle handled e).state.Unskipped := by
  unfold Pass.settle
  split <;> exact he

theorem record_agrees (hwalk : WalksAgree h walk walk') (s : Surroundings υ)
    (other : Descent (Engine υ) SyntaxError) {script : Script υ Handled} (hfree : script.SkipFree)
    {e : Engine υ} (he : e.Unskipped) :
    Agrees h (settled (script.record s walk e))
      (settled (script.record { s with walk := other } walk' e)) := by
  induction script generalizing e with
  | done handled =>
    refine ⟨rfl, rfl, fun o ho => ?_⟩
    cases ho
    exact settle_unskipped he
  | observe next ih => exact ih _ _ (hfree _ _) he
  | setSkip skip next ih => exact ih hfree.2 hfree.1
  | warn loc description next ih => exact ih hfree he
  | pushScope node next ih => exact ih hfree ((e.pushScope_skip s.scopeEnter node).trans he)
  | popScope next ih => exact ih _ (hfree _) ((e.popScope_skip s.scopeExit).trans he)
  | editContext edit next ih => exact ih hfree he
  | remember memory next ih => exact ih hfree he
  | traverse n parent next ih =>
    exact resume_agrees he (hwalk n parent _ rfl) fun m r after hafter => ih m r (hfree m r) hafter
  | traverseChildren n next ih =>
    refine resume_agrees he (recordChildren_agrees hwalk s.options.keys n rfl) ?_
    exact fun m r after hafter => ih m r (hfree m r) hafter

variable {kinds : List String}

theorem lookup_merge_descending {key : DispatchKey}
    (hkey : ∀ kind ∈ kinds, key ≠ .node kind .enter) :
    (h.merge (descending kinds)).lookup key = h.lookup key := by
  rw [HandlerSet.lookup_merge, lookup_descending, if_neg]
  · rfl
  · rintro ⟨kind, hkind, heq⟩
    exact hkey kind hkind heq

theorem lookup_merge_of_mem {kind : String} (hkind : kind ∈ kinds) :
    (h.merge (descending kinds)).lookup (.node kind .enter) = some descend := by
  rw [HandlerSet.lookup_merge, lookup_descending, if_pos ⟨kind, hkind, rfl⟩]
  rfl

abbrev byHand (p : Pass υ) (kinds : List String) : Pass υ :=
  ⟨p.options, p.handlers.merge (descending kinds)⟩

theorem byHand_surroundings (p : Pass υ) (walk walk' : Descent (Engine υ) SyntaxError) :
    (byHand p kinds).surroundings walk' = { p.surroundings walk with walk := walk' } := by
  simp only [Pass.surroundings, HandlerSet.merge, descending_scopeEnter, descending_scopeExit]
  rfl

end DescentByHand

def Pass.turn (n : Node) (e : Engine υ) (_ : Unit) : RecordedDispatch υ :=
  .now ⟨n, { e with current := some n.info }, .ok ()⟩

/-- A visit from the entry handler of its kind to the end of the descent. -/
def Pass.recordEntry (p : Pass υ) (walk : Path υ → RecordedVisit υ) (path : Path υ) :
    RecordedVisit υ := fun n parent e =>
  let inside := some ⟨n, e⟩ :: path
  (p.recordDispatch (walk (none :: path)) (none :: path) (.node n.kind .enter) n parent e).followed
    id fun n e _ =>
  (p.recordDispatch (walk inside) inside (.around .afterEnter) n parent e).followed id fun n e _ =>
  (p.recordDescent (walk inside) n e).followed id turn

def Pass.recordExit (p : Pass υ) (walk : Path υ → RecordedVisit υ) (path : Path υ)
    (entry : Entry υ) : RecordedVisit υ := fun n parent e =>
  let outside := none :: path
  let inside := some entry :: path
  (p.recordDispatch (walk inside) inside (.around .beforeExit) n parent e).followed id fun n e _ =>
  (p.recordDispatch (walk outside) inside (.node n.kind .exit) n parent e).followed id fun n e _ =>
  (p.recordDispatch (walk outside) outside (.around .afterExit) n parent e).followed id fun n e _ =>
  .now (Pass.depart n e)

theorem Recorded.followed_assoc {ω τ σ ε α β γ : Type} (c : Recorded ω τ σ ε α)
    (f : τ → σ → α → Recorded ω τ σ ε β) (g : τ → σ → β → Recorded ω τ σ ε γ) :
    (c.followed id f).followed id g = c.followed id fun n s a => (f n s a).followed id g := by
  obtain ⟨events, outcome⟩ := c
  rcases outcome with _ | ⟨n, s, e | a⟩
  · rfl
  · rfl
  · simp only [followed]
    rcases (f n s a).outcome with _ | ⟨m, s', e | b⟩ <;> simp

theorem Pass.recordVisit_eq (p : Pass υ) (walk : Path υ → RecordedVisit υ) (path : Path υ)
    (n : Node) (parent : Option Parent) (e : Engine υ) :
    p.recordVisit walk path n parent e =
      (p.recordDispatch (walk (none :: path)) (none :: path) (.around .beforeEnter) n parent
        (arrive n e)).followed id fun n e _ =>
      (p.recordEntry walk path n parent e).followed id fun m e' _ =>
      p.recordExit walk path ⟨n, e⟩ m parent e' := by
  simp only [recordEntry, recordExit, Recorded.followed_assoc]
  rfl

theorem Pass.recordDescent_unskipped (p : Pass υ) (walk : RecordedVisit υ) (n : Node) {e : Engine υ}
    (he : e.Unskipped) : p.recordDescent walk n e = recordChildren p.options.keys walk n e := by
  obtain ⟨depth, current, skip, scopes, warnings, memory⟩ := e
  obtain rfl : skip = false := he
  rfl

namespace DescentByHand

variable {p : Pass υ} {kinds : List String}

theorem entry_of_none {n : Node} (henter : p.handlers.lookup (.node n.kind .enter) = none)
    (hafter : p.handlers.lookup (.around .afterEnter) = none) (walk : Path υ → RecordedVisit υ)
    (path : Path υ) (parent : Option Parent) {e : Engine υ} (he : e.Unskipped) :
    let entered := (recordChildren p.options.keys (walk (some ⟨n, e⟩ :: path)) n e).followed id
      Pass.turn
    p.recordEntry walk path n parent e =
      ⟨.reached ⟨.node n.kind .enter, n, parent, e, none :: path⟩ ::
        .reached ⟨.around .afterEnter, n, parent, e, some ⟨n, e⟩ :: path⟩ :: entered.events,
        entered.outcome⟩ := by
  simp only [Pass.recordEntry, Pass.recordDispatch_of_none _ henter,
    Pass.recordDispatch_of_none _ hafter, Recorded.followed, Pass.recordDescent_unskipped _ _ _ he]
  rfl

/-- So is a node that is descended into by hand, up to events that are no calls. The handler gives
the engine back with its skip request and its current node, and neither outlasts the way in. -/
theorem entry_of_descend {h : HandlerSet υ} {n : Node}
    (henter : p.handlers.lookup (.node n.kind .enter) = some descend)
    (hafter : p.handlers.lookup (.around .afterEnter) = none)
    (hsilent : h.lookup (.node n.kind .enter) = none)
    (hquiet : h.lookup (.around .afterEnter) = none) (walk : Path υ → RecordedVisit υ)
    (path : Path υ) (parent : Option Parent) {e : Engine υ} (he : e.Unskipped)
    (hgood : ∀ o, (recordChildren p.options.keys (walk (none :: path)) n e).outcome = some o →
      o.state.Unskipped) :
    let entered := (recordChildren p.options.keys (walk (none :: path)) n e).followed id Pass.turn
    (p.recordEntry walk path n parent e).outcome = entered.outcome ∧
      h.calls (p.recordEntry walk path n parent e).events = h.calls entered.events := by
  obtain ⟨depth, current, skip, scopes, warnings, memory⟩ := e
  obtain rfl : skip = false := he
  simp only [Pass.recordEntry, Pass.recordDispatch_of_some _ henter,
    Pass.recordDispatch_of_none _ hafter, descend, Script.record, Pass.surroundings]
  generalize recordChildren p.options.keys (walk (none :: path)) n
    ⟨depth, current, false, scopes, warnings, memory⟩ = children at hgood ⊢
  obtain ⟨events, outcome⟩ := children
  rcases outcome with _ | ⟨m, after, err | a⟩
  · refine ⟨rfl, ?_⟩
    simp [HandlerSet.calls, settled, resume, Recorded.followed, Event.call?, hsilent]
  · refine ⟨rfl, ?_⟩
    simp [HandlerSet.calls, settled, resume, Recorded.followed, Event.call?, hsilent, Pass.settle,
      Except.map]
  · obtain ⟨depth', current', skip', scopes', warnings', memory'⟩ := after
    obtain rfl : skip' = false := hgood _ rfl
    refine ⟨rfl, ?_⟩
    simp [HandlerSet.calls, settled, resume, Recorded.followed, Event.call?, hsilent, hquiet,
      Pass.settle, Except.map, Pass.recordDescent, Pass.turn, Recorded.now]

section Visit

variable (hfree : p.handlers.SkipFree) (hafter : p.handlers.hooks .afterEnter = none)
  (hkinds : ∀ kind ∈ kinds, p.handlers.handler? .enter kind = none)

include hfree

theorem dispatch_agrees {walk walk' : RecordedVisit υ} (hwalk : WalksAgree p.handlers walk walk')
    {key : DispatchKey} (hkey : ∀ kind ∈ kinds, key ≠ .node kind .enter) (path path' : Path υ)
    (n : Node) (parent : Option Parent) {e : Engine υ} (he : e.Unskipped) :
    Agrees p.handlers (p.recordDispatch walk path key n parent e)
      ((byHand p kinds).recordDispatch walk' path' key n parent e) := by
  have hsame := lookup_merge_descending (h := p.handlers) hkey
  cases hlookup : p.handlers.lookup key with
  | none =>
    rw [Pass.recordDispatch_of_none _ hlookup, Pass.recordDispatch_of_none _ (hsame.trans hlookup)]
    refine ⟨rfl, rfl, fun o ho => ?_⟩
    cases ho
    exact he
  | some handler =>
    rw [Pass.recordDispatch_of_some _ hlookup, Pass.recordDispatch_of_some _ (hsame.trans hlookup),
      byHand_surroundings p walk.forget]
    have hcalled := record_agrees hwalk (p.surroundings walk.forget) walk'.forget
      (hfree key handler hlookup n parent) he
    refine ⟨hcalled.outcome, ?_, hcalled.good⟩
    have hmoment : Event.call? p.handlers (.reached ⟨key, n, parent, e, path⟩) =
        Event.call? p.handlers (.reached ⟨key, n, parent, e, path'⟩) := rfl
    simp only [List.filterMap_cons, hmoment, hcalled.seen]

theorem exit_agrees {walk walk' : Path υ → RecordedVisit υ}
    (hwalk : ∀ path path', WalksAgree p.handlers (walk path) (walk' path')) (path path' : Path υ)
    (entry entry' : Entry υ) (n : Node) (parent : Option Parent) {e : Engine υ}
    (he : e.Unskipped) :
    Agrees p.handlers (p.recordExit walk path entry n parent e)
      ((byHand p kinds).recordExit walk' path' entry' n parent e) := by
  refine (dispatch_agrees hfree (hwalk _ _) (fun _ _ => by simp) _ _ n parent he).followed
    fun n e₁ _ h₁ => ?_
  refine (dispatch_agrees hfree (hwalk _ _) (fun _ _ => by simp) _ _ n parent h₁).followed
    fun n e₂ _ h₂ => ?_
  refine (dispatch_agrees hfree (hwalk _ _) (fun _ _ => by simp) _ _ n parent h₂).followed
    fun n e₃ _ _ => ?_
  exact Recorded.agrees_now rfl

include hafter hkinds

/-- At a kind of the list the descent is in the entry handler and at any other it is in the walk;
in between no handler is called that could see the difference. -/
theorem entry_agrees {walk walk' : Path υ → RecordedVisit υ}
    (hwalk : ∀ path path', WalksAgree p.handlers (walk path) (walk' path')) (path path' : Path υ)
    (n : Node) (parent : Option Parent) {e : Engine υ} (he : e.Unskipped) :
    Agrees p.handlers (p.recordEntry walk path n parent e)
      ((byHand p kinds).recordEntry walk' path' n parent e) := by
  by_cases hkind : n.kind ∈ kinds
  · have hnone : p.handlers.lookup (.node n.kind .enter) = none := hkinds _ hkind
    have hafter' : (p.handlers.merge (descending kinds)).lookup (.around .afterEnter) = none :=
      (lookup_merge_descending (fun _ _ => by simp)).trans hafter
    have hchildren := recordChildren_agrees (hwalk (some ⟨n, e⟩ :: path) (none :: path'))
      p.options.keys n he
    have hentered : Agrees p.handlers
        ((recordChildren p.options.keys (walk (some ⟨n, e⟩ :: path)) n e).followed id Pass.turn)
        ((recordChildren p.options.keys (walk' (none :: path')) n e).followed id Pass.turn) :=
      hchildren.followed fun m e₁ _ h₁ => Recorded.agrees_now h₁
    obtain ⟨houtcome, hcalls⟩ := entry_of_descend (h := p.handlers) (p := byHand p kinds)
      (lookup_merge_of_mem hkind) hafter' hnone hafter walk' path' parent he
      fun o ho => hchildren.good o (hchildren.outcome.symm.trans ho)
    rw [entry_of_none hnone hafter walk path parent he]
    refine ⟨houtcome.trans hentered.outcome, ?_, hentered.good⟩
    refine hcalls.trans (hentered.seen.trans ?_)
    simp [Event.call?, hnone, show p.handlers.lookup (.around .afterEnter) = none from hafter]
  · have hother : ∀ kind ∈ kinds, DispatchKey.node n.kind .enter ≠ .node kind .enter := by
      rintro kind hmem heq
      cases heq
      exact hkind hmem
    refine (dispatch_agrees hfree (hwalk _ _) hother _ _ n parent he).followed fun m e₁ _ h₁ => ?_
    refine (dispatch_agrees hfree (hwalk _ _) (fun _ _ => by simp) _ _ m parent h₁).followed
      fun m e₂ _ h₂ => ?_
    rw [Pass.recordDescent_unskipped _ _ _ h₂, Pass.recordDescent_unskipped _ _ _ h₂]
    refine (recordChildren_agrees (hwalk _ _) p.options.keys m h₂).followed fun m e₃ _ h₃ => ?_
    exact Recorded.agrees_now h₃

theorem walk_agrees (fuel : Nat) (path path' : Path υ) :
    WalksAgree p.handlers (p.recordWalk fuel path) ((byHand p kinds).recordWalk fuel path') := by
  induction fuel generalizing path path' with
  | zero => exact fun n parent e he => ⟨rfl, rfl, fun o ho => (by cases ho)⟩
  | succ fuel ih =>
    intro n parent e he
    rw [Pass.recordWalk, Pass.recordWalk, Pass.recordVisit_eq, Pass.recordVisit_eq]
    have harrive : (Pass.arrive n e).Unskipped := he
    refine (dispatch_agrees hfree (ih _ _) (fun _ _ => by simp) _ _ n parent harrive).followed
      fun n e₁ _ h₁ => ?_
    refine (entry_agrees hfree hafter hkinds ih path path' n parent h₁).followed fun m e₂ _ h₂ => ?_
    exact exit_agrees hfree ih path path' ⟨n, e₁⟩ ⟨n, e₁⟩ m parent h₂

end Visit

/-- Handlers that skip the children of some kinds and walk them by hand, put on top of handlers that
have none of their own there, change nothing: the runs end alike, and the other handlers are called
in the same order with the same arguments on the same engine. -/
theorem run_byHand (hfree : p.handlers.SkipFree) (hafter : p.handlers.hooks .afterEnter = none)
    (hkinds : ∀ kind ∈ kinds, p.handlers.handler? .enter kind = none) (fuel : Nat) (tree : Node)
    (memory : υ) :
    (byHand p kinds).run fuel tree memory = p.run fuel tree memory ∧
      p.handlers.calls ((byHand p kinds).journal fuel tree memory) =
        p.handlers.calls (p.journal fuel tree memory) := by
  have hwalks := walk_agrees hfree hafter hkinds fuel [] [] tree none (.fresh memory) rfl
  refine ⟨?_, hwalks.seen⟩
  have houtcome := hwalks.outcome
  rw [Pass.recordWalk_outcome, Pass.recordWalk_outcome] at houtcome
  simp only [Pass.run, houtcome]

def naming : HandlerSet Unit :=
  HandlerSet.empty.withEnter "Identifier" fun n _ => .warn n.loc "a name" (.done (.keep n))

def namingPass : Pass Unit := ⟨.sourceless, .compose [naming]⟩

def statement : Node :=
  (Node.new "Program").withChildren "body"
    [(Node.new "ExpressionStatement").withChild "expression" (Node.new "Identifier")]

theorem naming_skipFree : naming.SkipFree := by
  intro key handler h
  rw [naming, HandlerSet.lookup_withEnter, HandlerSet.lookup_empty] at h
  split at h
  · cases h
    exact fun n parent => trivial
  · cases h

theorem run_naming_by_hand :
    namingPass.handlers.SkipFree ∧ namingPass.handlers.hooks .afterEnter = none ∧
    (∀ kind ∈ ["ExpressionStatement"], namingPass.handlers.handler? .enter kind = none) ∧
    ∃ output, (byHand namingPass ["ExpressionStatement"]).run 4 statement () =
        some ⟨.ok output, ()⟩ ∧
      output.warnings.map Warning.description = ["a name"] ∧
      (namingPass.handlers.calls ((byHand namingPass ["ExpressionStatement"]).journal 4 statement
        ())).map (·.key.text) = ["Program", "Identifier", "Program (exit)"] := by
  have hfree : namingPass.handlers.SkipFree :=
    HandlerSet.compose_skipFree (by simpa using naming_skipFree)
  have hafter : namingPass.handlers.hooks .afterEnter = none := rfl
  have hkinds : ∀ kind ∈ ["ExpressionStatement"],
      namingPass.handlers.handler? .enter kind = none := by
    intro kind hkind
    rw [List.mem_singleton.1 hkind]
    rfl
  obtain ⟨hrun, hcalls⟩ := run_byHand hfree hafter hkinds 4 statement ()
  refine ⟨hfree, hafter, hkinds, ?_⟩
  rw [hrun, hcalls]
  exact ⟨_, rfl, rfl, rfl⟩

end DescentByHand

end SyntaxWalk
