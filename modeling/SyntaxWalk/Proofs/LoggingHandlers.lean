import SyntaxWalk.Proofs.PooledWarnings

/-!
# Handlers that log

The chronicle and the journal of a run are kept by walks beside the one that runs. Here the handlers
keep a log themselves, in a memory beside their own: each is wrapped so that it writes down its call
before it does what it did, its warnings where it gives them, and its answer at the end, and so are
the scope hooks. What they do to the run does not change, and at its end the log is what the
chronicle tells, but for the descents, which no handler sees (`run_logging`). The calls in it are
those of the journal (`journal_logged`).
-/

namespace SyntaxWalk

variable {υ α β : Type}

abbrev Logged (υ : Type) := υ × List (Deed υ)

def Engine.withLog (e : Engine υ) (log : List (Deed υ)) : Engine (Logged υ) :=
  ⟨e.depth, e.current, e.skip, e.scopes, e.warnings, (e.memory, log)⟩

def Engine.withoutLog (e : Engine (Logged υ)) : Engine υ :=
  ⟨e.depth, e.current, e.skip, e.scopes, e.warnings, e.memory.1⟩

namespace Script

def note (deed : Deed υ) (next : Script (Logged υ) α) : Script (Logged υ) α :=
  .observe fun _ e => .remember (e.memory.1, e.memory.2 ++ [deed]) next

def logging : Script υ α → Script (Logged υ) α
  | .done a => .done a
  | .observe next => .observe fun o e => (next o e.withoutLog).logging
  | .setSkip skip next => .setSkip skip next.logging
  | .warn loc description next =>
    .note (.warned loc description) (.warn loc description next.logging)
  | .pushScope node next => .pushScope node next.logging
  | .popScope next => .popScope fun frame => (next frame).logging
  | .editContext edit next => .editContext edit next.logging
  | .remember memory next => .observe fun _ e => .remember (memory, e.memory.2) next.logging
  | .traverse n parent next => .traverse n parent fun n r => (next n r).logging
  | .traverseChildren n next => .traverseChildren n fun n r => (next n r).logging

end Script

def Handler.logging (handler : Handler υ) (key : DispatchKey) : Handler (Logged υ) :=
  fun n parent => .observe fun _ e =>
    let call : Call υ := ⟨key, n, parent, e.withoutLog⟩
    .note (.began call) ((handler n parent).logging.bind fun h =>
      .note (.ended call h.verdict) (.done h))

def ScopeHook.logging (hook : ScopeHook υ) (key : DispatchKey) : ScopeHook (Logged υ) :=
  fun t (memory, log) =>
    let (context, memory) := hook t memory
    (context, memory, log ++ [.hooked key])

def HandlerSet.logging (h : HandlerSet υ) : HandlerSet (Logged υ) where
  onEnter := ⟨h.onEnter.entries.map fun (kind, handler) =>
    (kind, Handler.logging handler (.node kind .enter))⟩
  onExit := ⟨h.onExit.entries.map fun (kind, handler) =>
    (kind, Handler.logging handler (.node kind .exit))⟩
  hooks hook := (h.hooks hook).map fun handler => Handler.logging handler (.around hook)
  scopeEnter := h.scopeEnter.map fun hook => ScopeHook.logging hook .scopeEnter
  scopeExit := h.scopeExit.map fun hook => ScopeHook.logging hook .scopeExit

def Pass.logging (p : Pass υ) : Pass (Logged υ) := ⟨p.options, p.handlers.logging⟩

/-- What a handler can log. -/
def Deed.seen : Deed υ → Bool
  | .descended _ => false
  | _ => true

def Chronicled.logging (c : Chronicled υ) : Engine (Logged υ) :=
  c.engine.withLog (c.deeds.filter Deed.seen)

section Lookup

theorem NameMap.find_map (f : String → α → β) (name : String) (entries : List (String × α)) :
    find name (entries.map fun (kind, a) => (kind, f kind a)) =
      (find name entries).map (f name) := by
  induction entries with
  | nil => rfl
  | cons entry rest ih =>
    obtain ⟨kind, a⟩ := entry
    simp only [List.map_cons, find, ih]
    split
    · rename_i hkind
      rw [hkind]
      rfl
    · rfl

theorem HandlerSet.lookup_logging (h : HandlerSet υ) (key : DispatchKey) :
    h.logging.lookup key = (h.lookup key).map fun handler => Handler.logging handler key := by
  rcases key with ⟨kind, _ | _⟩ | hook | _ | _
  · exact NameMap.find_map (fun kind handler => Handler.logging handler (.node kind .enter)) kind _
  · exact NameMap.find_map (fun kind handler => Handler.logging handler (.node kind .exit)) kind _
  · rfl
  · rfl
  · rfl

end Lookup

section Steps

variable (c : Chronicled υ)

theorem Chronicled.logging_act (e : Engine υ) (told : List (Deed υ)) :
    (c.act e told).logging = e.withLog (c.deeds.filter Deed.seen ++ told.filter Deed.seen) := by
  rw [logging, act, List.filter_append]

theorem Chronicled.logging_quiet (e : Engine υ) :
    (c.act e []).logging = e.withLog (c.deeds.filter Deed.seen) := by
  rw [logging_act, List.filter_nil, List.append_nil]

theorem seen_hookDeeds (hook : Option (ScopeHook υ)) (key : DispatchKey) :
    (hookDeeds hook key).filter Deed.seen = hookDeeds hook key := by
  cases hook <;> rfl

theorem Engine.callHook_logging (hook : Option (ScopeHook υ)) (key : DispatchKey)
    (t : Scope.Transition) (e : Engine υ) (log : List (Deed υ)) :
    callHook (hook.map fun hook => ScopeHook.logging hook key) t (e.withLog log) =
      (callHook hook t e).withLog (log ++ hookDeeds hook key) := by
  cases hook with
  | none => simp [callHook, hookDeeds]
  | some hook =>
    simp only [Option.map_some, callHook, ScopeHook.logging, hookDeeds, withLog]
    rcases hook t e.memory with ⟨_ | context, memory⟩ <;> rfl

theorem Engine.pushScope_logging (hook : Option (ScopeHook υ)) (node : NodeInfo) :
    c.logging.pushScope (hook.map fun hook => ScopeHook.logging hook .scopeEnter) node =
      (c.act (c.engine.pushScope hook node) (hookDeeds hook .scopeEnter)).logging := by
  rw [Chronicled.logging_act, seen_hookDeeds]
  exact callHook_logging hook .scopeEnter _ { c.engine with scopes := _ } _

theorem Engine.popScope_logging (hook : Option (ScopeHook υ)) :
    c.logging.popScope (hook.map fun hook => ScopeHook.logging hook .scopeExit) =
      let closed := c.engine.popScope hook
      (closed.1, (c.act closed.2
        (if closed.1.isSome then hookDeeds hook .scopeExit else [])).logging) := by
  have hscopes : c.logging.scopes = c.engine.scopes := rfl
  unfold popScope
  rw [hscopes]
  cases c.engine.scopes.pop? with
  | none => exact congrArg (Prod.mk none) (c.logging_quiet _).symm
  | some closed =>
    obtain ⟨frame, scopes⟩ := closed
    simp only [Option.isSome_some, if_true, Chronicled.logging_act, seen_hookDeeds]
    exact congrArg (Prod.mk (some frame))
      (callHook_logging hook .scopeExit _ { c.engine with scopes } _)

end Steps

section InStep

variable {p : Pass υ} {walk : Descent (Chronicled υ) SyntaxError}
  {walk' : Descent (Engine (Logged υ)) SyntaxError}

abbrev VisitsLog : Option (Outcome Node (Chronicled υ) SyntaxError α) →
    Option (Outcome Node (Engine (Logged υ)) SyntaxError α) → Prop :=
  Outcome.InStep (fun c e => e = c.logging) (fun c e _ => e = c.logging) False

abbrev WalksLog (walk : Descent (Chronicled υ) SyntaxError)
    (walk' : Descent (Engine (Logged υ)) SyntaxError) : Prop :=
  WalksInStep (fun c e => e = c.logging) (fun c e _ => e = c.logging) False walk walk'

theorem nested_logging {first : Chronicled υ → Option (ChronicledVisit υ)}
    {first' : Engine (Logged υ) → Option (Pass.Visited (Logged υ) Unit)} (c : Chronicled υ)
    (hfirst : ∀ c, VisitsLog (first c) (first' c.logging)) :
    VisitsLog (c.nested first) (c.logging.nested first') := by
  have hbegin := hfirst (c.act { c.engine with skip := false } [])
  have hstart : (c.act { c.engine with skip := false } []).logging =
      { c.logging with skip := false } := c.logging_quiet _
  rw [hstart] at hbegin
  simp only [Chronicled.nested, Engine.nested]
  generalize first (c.act { c.engine with skip := false } []) = o at hbegin ⊢
  generalize first' { c.logging with skip := false } = o' at hbegin ⊢
  cases hbegin with
  | exhausted => exact .exhausted
  | @ok n c₁ e₁ _ h =>
    subst h
    exact .ok (c₁.logging_quiet
      { c₁.engine with skip := c.engine.skip, current := c.engine.current }).symm
  | failed h => exact .failed h
  | ahead h => exact h.elim

theorem VisitsLog.bind {o : Option (ChronicledVisit υ)}
    {o' : Option (Pass.Visited (Logged υ) Unit)} (h : VisitsLog o o')
    {next : ChronicledVisit υ → Option (α × Chronicled υ)}
    {next' : Pass.Visited (Logged υ) Unit → Option (α × Engine (Logged υ))}
    (hnext : ∀ n c r, next' ⟨n, c.logging, r⟩ =
      (next ⟨n, c, r⟩).map fun (a, c) => (a, c.logging)) :
    o'.bind next' = (o.bind next).map fun (a, c) => (a, c.logging) := by
  cases h with
  | exhausted => rfl
  | ok h =>
    subst h
    exact hnext ..
  | failed h =>
    subst h
    exact hnext ..
  | ahead h => exact h.elim

theorem Script.run_logging (hwalk : WalksLog walk walk') (script : Script υ α)
    {c : Chronicled υ} {e : Engine (Logged υ)} (h : e = c.logging) :
    script.logging.run (p.logging.surroundings walk') e =
      (script.chronicle p walk c).map fun (a, c) => (a, c.logging) := by
  induction script generalizing c e with
  | done a =>
    rw [h]
    rfl
  | observe next ih =>
    subst h
    exact ih p.options c.engine rfl
  | setSkip skip next ih => exact ih (by rw [c.logging_quiet, h]; rfl)
  | warn loc description next ih => exact ih (by rw [c.logging_act, h]; rfl)
  | pushScope node next ih => exact ih (by rw [h]; exact Engine.pushScope_logging c _ node)
  | popScope next ih =>
    have hpop : e.popScope (p.logging.surroundings walk').scopeExit =
        let closed := c.engine.popScope p.handlers.scopeExit
        (closed.1, (c.act closed.2
          (if closed.1.isSome then hookDeeds p.handlers.scopeExit .scopeExit
            else [])).logging) := by
      rw [h]
      exact Engine.popScope_logging c p.handlers.scopeExit
    simp only [logging, run, hpop]
    exact ih _ rfl
  | editContext edit next ih => exact ih (by rw [c.logging_quiet, h]; rfl)
  | remember memory next ih => exact ih (by rw [c.logging_quiet, h]; rfl)
  | traverse n parent next ih =>
    have hfirst (c : Chronicled υ) : VisitsLog (walk n parent c) (walk' n parent c.logging) :=
      hwalk n parent c _ rfl
    rw [h]
    exact (nested_logging c hfirst).bind fun n c r => ih n r rfl
  | traverseChildren n next ih =>
    have hfirst (c : Chronicled υ) :
        VisitsLog (walkChildren p.options.keys walk n (c.act c.engine [.descended n]))
          (walkChildren p.options.keys walk' n c.logging) := by
      refine walkChildren_inStep (fun _ _ _ h => h) hwalk p.options.keys n ?_
      rw [Chronicled.logging_act]
      exact congrArg c.engine.withLog (List.append_nil _).symm
    rw [h]
    exact (nested_logging c hfirst).bind fun n c r => ih n r rfl

theorem Pass.dispatch_logging (hwalk : WalksLog walk walk') (key : DispatchKey) (n : Node)
    (parent : Option Parent) {c : Chronicled υ} {e : Engine (Logged υ)} (h : e = c.logging) :
    VisitsLog (p.chronicleDispatch walk key n parent c)
      (p.logging.dispatch walk' (p.logging.handlers.lookup key) n parent e) := by
  subst h
  have hlookup : p.logging.handlers.lookup key =
      (p.handlers.lookup key).map fun handler => Handler.logging handler key :=
    p.handlers.lookup_logging key
  rw [hlookup]
  unfold chronicleDispatch dispatch
  cases p.handlers.lookup key with
  | none => exact .ok rfl
  | some handler =>
    let call : Call υ := ⟨key, n, parent, c.engine⟩
    let began := c.act c.engine [.began call]
    have hrun := Script.run_logging (p := p) hwalk (handler n parent) (Eq.refl began.logging)
    have hcalled : (Handler.logging handler key n parent).run (p.logging.surroundings walk')
        c.logging = ((handler n parent).chronicle p walk began).map fun r =>
          (r.1, (r.2.act r.2.engine [.ended call r.1.verdict]).logging) := by
      have hbegan : began.logging = c.engine.withLog (c.deeds.filter Deed.seen ++ [.began call]) :=
        c.logging_act c.engine [.began call]
      rw [hbegan] at hrun
      simp only [Handler.logging, Script.note, Script.run, Script.run_bind]
      refine (congrArg (Option.bind · _) hrun).trans ?_
      rcases (handler n parent).chronicle p walk began with _ | ⟨h, c'⟩
      · rfl
      · have hended := c'.logging_act c'.engine [.ended call h.verdict]
        exact congrArg (fun e => some (h, e)) hended.symm
    simp only [Option.map_some, hcalled]
    rcases (handler n parent).chronicle p walk began with _ | ⟨h, c'⟩
    · exact .exhausted
    · obtain ⟨m, err | _ | new⟩ := h
      · exact .failed rfl
      · exact .ok rfl
      · exact .ok rfl

theorem Pass.side_logging (hwalk : WalksLog walk walk') (before : Hook) (phase : Phase)
    (after : Hook) (n : Node) (parent : Option Parent) {c : Chronicled υ} {e : Engine (Logged υ)}
    (h : e = c.logging) :
    VisitsLog (p.chronicleSide walk before phase after n parent c)
      (p.logging.dispatchSide walk' before phase after n parent e) := by
  simp only [chronicleSide, dispatchSide, Option.bind_eq_bind, ← Option.bind_assoc]
  refine ((dispatch_logging hwalk (.around before) n parent h).andThen fun n c e _ h => ?_).andThen
    fun n c e _ h => dispatch_logging hwalk (.around after) n parent h
  exact dispatch_logging hwalk (.node n.kind phase) n parent h

theorem Pass.visitors_log (p : Pass υ) : VisitorsInStep (fun c e => e = c.logging)
    (fun c e _ => e = c.logging) False p.chronicler p.logging.visitor where
  enter hwalk n parent c e h := by
    have harrive : arrive n e = (c.act (arrive n c.engine) []).logging := by
      rw [c.logging_quiet, h]
      rfl
    refine (side_logging hwalk .beforeEnter .enter .afterEnter n parent harrive).andThen
      fun n c e _ h => ?_
    subst h
    have hunseen : (if c.engine.skip then [] else [Deed.descended n]).filter Deed.seen =
        ([] : List (Deed υ)) := by
      cases c.engine.skip <;> rfl
    refine .ok ?_
    rw [c.logging_act, hunseen, List.append_nil]
    rfl
  leave hwalk n parent c e h := by
    have hturn : { e with current := some n.info } =
        (c.act { c.engine with current := some n.info } []).logging := by
      rw [c.logging_quiet, h]
      rfl
    refine (side_logging hwalk .beforeExit .exit .afterExit n parent hturn).andThen
      fun n c e _ h => ?_
    subst h
    exact .ok (c.logging_quiet (depart n c.engine).state).symm

end InStep

namespace Pass

variable (p : Pass υ)

theorem walk_logging (fuel : Nat) :
    WalksLog (walkNode p.chronicler p.options.keys fuel) (p.logging.walk fuel) :=
  walkNode_inStep (fun _ _ _ h => h) p.visitors_log p.options.keys fuel

/-- A run ends with handlers that log as it ends without, and with its chronicle in the log. -/
theorem run_logging (fuel : Nat) (tree : Node) (memory : υ) :
    p.logging.run fuel tree (memory, []) = (p.run fuel tree memory).map fun finished =>
      ⟨finished.result, finished.memory, (p.deeds fuel tree memory).filter Deed.seen⟩ := by
  have hsteps := p.walk_logging fuel tree none ⟨.fresh memory, []⟩ _ rfl
  have hplain := p.chronicle_walk fuel tree memory
  rw [chronicle] at hplain
  rw [run, run, ← hplain, deeds, chronicle]
  generalize walkNode p.chronicler p.options.keys fuel tree none ⟨.fresh memory, []⟩ = told
    at hsteps ⊢
  have hfresh : (⟨.fresh memory, []⟩ : Chronicled υ).logging = .fresh (memory, []) := rfl
  rw [hfresh] at hsteps
  generalize p.logging.walk fuel tree none (.fresh (memory, [])) = logged at hsteps ⊢
  cases hsteps with
  | exhausted => rfl
  | ok h =>
    subst h
    rfl
  | failed h =>
    subst h
    rfl
  | ahead h => exact h.elim

end Pass

def Deed.began? : Deed υ → Option (Call υ)
  | .began call => some call
  | _ => none

theorem HandlerSet.calls_append (h : HandlerSet υ) (past events : List (Event υ)) :
    h.calls (past ++ events) = h.calls past ++ h.calls events :=
  List.filterMap_append

/-- The journal and the chronicle are of the same engine, and tell of the same calls. -/
structure SameCalls (h : HandlerSet υ) (past : List (Event υ)) (e : Engine υ) (c : Chronicled υ) :
    Prop where
  engine : c.engine = e
  calls : c.deeds.filterMap Deed.began? = h.calls past

namespace SameCalls

variable {h : HandlerSet υ} {past : List (Event υ)} {e : Engine υ} {c : Chronicled υ}

theorem act (hc : SameCalls h past e c) (e' : Engine υ) {told : List (Deed υ)}
    {events : List (Event υ)} (htold : told.filterMap Deed.began? = h.calls events) :
    SameCalls h (past ++ events) e' (c.act e' told) where
  engine := rfl
  calls := by
    rw [Chronicled.act, List.filterMap_append, hc.calls, htold, h.calls_append]

theorem quiet (hc : SameCalls h past e c) (e' : Engine υ) {told : List (Deed υ)}
    (htold : told.filterMap Deed.began? = []) : SameCalls h past e' (c.act e' told) := by
  have hsame : SameCalls h (past ++ []) e' (c.act e' told) := hc.act e' htold
  rwa [List.append_nil] at hsame

theorem failed (hc : SameCalls h past e c) (before after : Engine υ) :
    SameCalls h (past ++ [.failed before after]) e c where
  engine := hc.engine
  calls := by
    rw [hc.calls, h.calls_append]
    exact (List.append_nil _).symm

end SameCalls

section Journal

variable {p : Pass υ} {walk : RecordedVisit υ} {walk' : Descent (Chronicled υ) SyntaxError}

abbrev RunsAlike (p : Pass υ) (past : List (Event υ))
    (first : Recorded (Event υ) Node (Engine υ) SyntaxError α)
    (second : Option (Outcome Node (Chronicled υ) SyntaxError α)) : Prop :=
  Recorded.InStep (SameCalls p.handlers) (fun past e c _ => SameCalls p.handlers past e c) False
    past first second

abbrev ScriptsAlike (p : Pass υ) (past : List (Event υ))
    (first : List (Event υ) × Option (α × Engine υ)) (second : Option (α × Chronicled υ)) : Prop :=
  Accords (fun _ c => c.deeds.filterMap Deed.began? = p.handlers.calls (past ++ first.1)) second
    first.2

theorem ScriptsAlike.after {past events rest : List (Event υ)} {ended : Option (α × Engine υ)}
    {second : Option (α × Chronicled υ)}
    (h : ScriptsAlike p (past ++ events) (rest, ended) second) :
    ScriptsAlike p past (events ++ rest, ended) second := by
  simpa [ScriptsAlike] using h

theorem resume_alike {past : List (Event υ)} {e : Engine υ} {c : Chronicled υ}
    {told : Recorded (Event υ) Node (Engine υ) SyntaxError Unit}
    {first : Chronicled υ → Option (ChronicledVisit υ)} (hc : c.engine = e)
    (hfirst : RunsAlike p past told (first (c.act { e with skip := false } [])))
    {next : Node → Except PassError Unit → Engine υ → List (Event υ) × Option (α × Engine υ)}
    {next' : Node → Except PassError Unit → Chronicled υ → Option (α × Chronicled υ)}
    (hnext : ∀ past n r e c, SameCalls p.handlers past e c →
      ScriptsAlike p past (next n r e) (next' n r c)) :
    ScriptsAlike p past (resume e told next)
      ((c.nested first).bind fun o => next' o.subject o.verdict o.state) := by
  subst hc
  obtain ⟨events, outcome⟩ := told
  simp only [Chronicled.nested]
  generalize first (c.act { c.engine with skip := false } []) = o at hfirst ⊢
  cases hfirst with
  | exhausted => exact .exhausted
  | @ok n e₁ c₁ _ h =>
    obtain rfl : c₁.engine = e₁ := h.engine
    exact (hnext _ n (.ok ()) _ _ (h.quiet _ rfl)).after
  | @failed n e₁ c₁ err h =>
    have hrest := hnext _ n (.error err) _ _ (h.failed c.engine e₁)
    rw [List.append_assoc] at hrest
    have hafter := hrest.after
    rw [List.append_assoc] at hafter
    exact hafter
  | ahead h => exact h.elim

theorem began_hookDeeds (hook : Option (ScopeHook υ)) (key : DispatchKey) :
    (hookDeeds hook key).filterMap Deed.began? = [] := by
  cases hook <;> rfl

theorem Script.record_alike
    (hwalk : ∀ past n parent e c, SameCalls p.handlers past e c →
      RunsAlike p past (walk n parent e) (walk' n parent c))
    (script : Script υ α) {past : List (Event υ)} {e : Engine υ} {c : Chronicled υ}
    (hc : SameCalls p.handlers past e c) :
    ScriptsAlike p past (script.record (p.surroundings walk.forget) walk e)
      (script.chronicle p walk' c) := by
  induction script generalizing past e c with
  | done a => exact .done hc.engine (by simpa [record] using hc.calls)
  | observe next ih =>
    obtain rfl := hc.engine
    exact ih p.options c.engine hc
  | setSkip skip next ih =>
    obtain rfl := hc.engine
    exact ih (hc.quiet _ rfl)
  | warn loc description next ih =>
    obtain rfl := hc.engine
    exact ih (hc.quiet _ rfl)
  | pushScope node next ih =>
    obtain rfl := hc.engine
    exact ih (hc.quiet _ (began_hookDeeds _ _))
  | popScope next ih =>
    obtain rfl := hc.engine
    refine ih _ (hc.quiet _ ?_)
    split
    · exact began_hookDeeds _ _
    · rfl
  | editContext edit next ih =>
    obtain rfl := hc.engine
    exact ih (hc.quiet _ rfl)
  | remember memory next ih =>
    obtain rfl := hc.engine
    exact ih (hc.quiet _ rfl)
  | traverse n parent next ih =>
    exact resume_alike hc.engine (hwalk past n parent _ _ (hc.quiet _ rfl))
      fun past m r e c h => ih m r h
  | traverseChildren n next ih =>
    refine resume_alike hc.engine ?_ fun past m r e c h => ih m r h
    exact recordChildren_inStep (fun _ _ _ _ h => h) hwalk p.options.keys n
      ((hc.quiet _ rfl).quiet _ rfl)

namespace Pass

theorem dispatch_alike
    (hwalk : ∀ past n parent e c, SameCalls p.handlers past e c →
      RunsAlike p past (walk n parent e) (walk' n parent c))
    (path : Path υ) (key : DispatchKey) (n : Node) (parent : Option Parent)
    {past : List (Event υ)} {e : Engine υ} {c : Chronicled υ} (hc : SameCalls p.handlers past e c) :
    RunsAlike p past (p.recordDispatch walk path key n parent e)
      (p.chronicleDispatch walk' key n parent c) := by
  obtain rfl := hc.engine
  let call : Call υ := ⟨key, n, parent, c.engine⟩
  let reached : Event υ := .reached ⟨key, n, parent, c.engine, path⟩
  unfold recordDispatch chronicleDispatch
  cases hlookup : p.handlers.lookup key with
  | none =>
    have hcalls : p.handlers.calls [reached] = [] := by
      simp [HandlerSet.calls, Event.call?, reached, hlookup]
    refine .ok ⟨rfl, ?_⟩
    rw [p.handlers.calls_append, hcalls, List.append_nil, hc.calls]
  | some handler =>
    have hcalls : p.handlers.calls [reached] = [call] := by
      simp [HandlerSet.calls, Event.call?, reached, call, hlookup]
    have hbegan : SameCalls p.handlers (past ++ [reached]) c.engine
        (c.act c.engine [.began call]) := hc.act c.engine hcalls.symm
    have hscript := Script.record_alike hwalk (handler n parent) hbegan
    simp only [settled]
    generalize (handler n parent).record (p.surroundings walk.forget) walk c.engine = told
      at hscript ⊢
    generalize (handler n parent).chronicle p walk' (c.act c.engine [.began call]) = ended
      at hscript ⊢
    obtain ⟨events, outcome⟩ := told
    rw [ScriptsAlike] at hscript
    cases hscript with
    | exhausted => exact .exhausted
    | @done handled c' e' he h =>
      subst he
      have hended (e : Engine υ) : SameCalls p.handlers (past ++ reached :: events) e
          (c'.act e [.ended call handled.verdict]) := by
        refine ⟨rfl, ?_⟩
        rw [Chronicled.act, List.filterMap_append, h, List.append_assoc]
        exact List.append_nil _
      obtain ⟨m, err | _ | new⟩ := handled
      · exact .failed (hended _)
      · exact .ok (hended _)
      · exact .ok (hended _)

theorem descent_alike
    (hwalk : ∀ past n parent e c, SameCalls p.handlers past e c →
      RunsAlike p past (walk n parent e) (walk' n parent c))
    (n : Node) {past : List (Event υ)} {e : Engine υ} {c : Chronicled υ}
    (hc : SameCalls p.handlers past e c) :
    RunsAlike p past (p.recordDescent walk n e)
      (Outcome.andThen ⟨n, c.act (takeSkip n c.engine).state
        (if c.engine.skip then [] else [.descended n]), (takeSkip n c.engine).verdict⟩
        fun n c control =>
          match control with
          | .descend => walkChildren p.options.keys walk' n c
          | .skip => some ⟨n, c, .ok ()⟩) := by
  obtain rfl := hc.engine
  unfold recordDescent takeSkip
  rw [Outcome.andThen_ok]
  by_cases hskip : c.engine.skip
  · simp only [hskip, if_true]
    exact .now (hc.quiet _ rfl) n ()
  · simp only [hskip]
    exact recordChildren_inStep (fun _ _ _ _ h => h) hwalk p.options.keys n (hc.quiet _ rfl)

theorem visit_alike {walk : Path υ → RecordedVisit υ}
    (hwalk : ∀ path past n parent e c, SameCalls p.handlers past e c →
      RunsAlike p past (walk path n parent e) (walk' n parent c))
    (path : Path υ) (n : Node) (parent : Option Parent) {past : List (Event υ)} {e : Engine υ}
    {c : Chronicled υ} (hc : SameCalls p.handlers past e c) :
    RunsAlike p past (p.recordVisit walk path n parent e)
      (visit p.chronicler p.options.keys walk' n parent c) := by
  obtain rfl := hc.engine
  simp only [visit, chronicler, chronicleSide, Option.bind_eq_bind, ← Option.bind_assoc,
    Outcome.bind_andThen_assoc]
  unfold recordVisit
  refine (dispatch_alike (hwalk _) _ _ n parent (hc.quiet _ rfl)).andThen fun n e c _ hc => ?_
  refine (dispatch_alike (hwalk _) _ _ n parent hc).andThen fun n e c _ hc => ?_
  refine (dispatch_alike (hwalk _) _ _ n parent hc).andThen fun n e c _ hc => ?_
  refine (descent_alike (hwalk _) n hc).andThen fun n e c _ hc => ?_
  obtain rfl := hc.engine
  refine (dispatch_alike (hwalk _) _ _ n parent (hc.quiet _ rfl)).andThen fun n e c _ hc => ?_
  refine (dispatch_alike (hwalk _) _ _ n parent hc).andThen fun n e c _ hc => ?_
  refine (dispatch_alike (hwalk _) _ _ n parent hc).andThen fun n e c _ hc => ?_
  obtain rfl := hc.engine
  exact .now (hc.quiet _ rfl) n ()

theorem walk_alike (p : Pass υ) (fuel : Nat) (path : Path υ) (past : List (Event υ)) (n : Node)
    (parent : Option Parent) (e : Engine υ) (c : Chronicled υ)
    (hc : SameCalls p.handlers past e c) :
    RunsAlike p past (p.recordWalk fuel path n parent e)
      (walkNode p.chronicler p.options.keys fuel n parent c) := by
  induction fuel generalizing path past n parent e c with
  | zero => exact .exhausted
  | succ fuel ih => exact visit_alike ih path n parent hc


end Pass

end Journal

theorem began_filter_seen (deeds : List (Deed υ)) :
    (deeds.filter Deed.seen).filterMap Deed.began? = deeds.filterMap Deed.began? := by
  rw [List.filterMap_filter]
  congr 1
  funext deed
  cases deed <;> rfl

/-- Where a run ends, the calls in the log of its handlers are those of its journal. -/
theorem Pass.journal_logged {p : Pass υ} {fuel : Nat} {tree : Node} {memory : υ}
    {finished : Finished (Logged υ)}
    (h : p.logging.run fuel tree (memory, []) = some finished) :
    finished.memory.2.filterMap Deed.began? = p.handlers.calls (p.journal fuel tree memory) := by
  rw [run_logging] at h
  obtain ⟨ended, hrun, rfl⟩ := Option.map_eq_some_iff.1 h
  rw [began_filter_seen]
  have halike := walk_alike p fuel [] [] tree none (.fresh memory) ⟨.fresh memory, []⟩ ⟨rfl, rfl⟩
  simp only [RunsAlike, Recorded.InStep, recordWalk_outcome, List.nil_append] at halike
  rw [run] at hrun
  obtain ⟨o, hwalk, -⟩ := Option.map_eq_some_iff.1 hrun
  rw [hwalk] at halike
  rw [journal, deeds, chronicle]
  generalize walkNode p.chronicler p.options.keys fuel tree none ⟨.fresh memory, []⟩ = told
    at halike ⊢
  cases halike with
  | ok h => exact h.calls
  | failed h => exact h.calls
  | ahead h => exact h.elim

end SyntaxWalk
