import SyntaxWalk.Proofs.InStep
import SyntaxWalk.Proofs.LintKeys
import SyntaxWalk.Proofs.ScopedScripts

/-!
# Lints do not interfere

Lints that are run together walk the tree as each of them does alone, and each of them finds what it
would find alone. The run of a list is compared with the run of one lint in it (`Abreast`): of the
warnings so far the one has those with the lint's text, and if the lint looks at the scopes the two
have the same. The runs part only where `with` statements are refused in the one and not in the
other.
-/

namespace SyntaxWalk.Lint

variable {υ : Type}

theorem scopeHook_blind : ScopeHook.Blind (Shadowing.scopeHook : ScopeHook υ) :=
  ⟨fun t => t.context.map Shadowing.enterScope, fun _ _ => rfl⟩

section Handlers

open Shadowing

variable {P : String → Prop}

theorem declare_scoped (hP : ∀ name, P (message name)) (identifier : Node) :
    (declare identifier : Script υ Unit).Scoped P fun _ => True := by
  have hcontext : (Script.context : Script υ (Option Context)).Scoped P fun _ => True :=
    fun options e => ⟨trivial, fun e' h => by simp only [h]⟩
  refine hcontext.bind fun context _ => ?_
  split
  · rename_i name context _
    have hbind : (Script.modifyContext (bind · name) : Script υ Unit).Scoped P fun _ => True :=
      trivial
    refine hbind.bind fun _ _ => ?_
    split
    · exact ⟨hP name, trivial⟩
    · exact trivial
  · exact trivial

theorem declareAll_scoped (hP : ∀ name, P (message name)) (identifiers : List Node) :
    (declareAll identifiers : Script υ Unit).Scoped P fun _ => True := by
  induction identifiers with
  | nil => exact trivial
  | cons identifier rest ih => exact (declare_scoped hP identifier).bind fun _ _ => ih

theorem declareId_scoped (hP : ∀ name, P (message name)) (n : Node) :
    (declareId n : Script υ Unit).Scoped P fun _ => True := by
  unfold declareId
  cases n.child? "id" with
  | none => exact trivial
  | some id => exact declareAll_scoped hP (bindings id)

/-- Keeps its node, looks at nothing but the scopes and gives only warnings in `P`. -/
def Keeps (P : String → Prop) (h : Handler υ) : Prop :=
  ∀ n parent, (h n parent).Scoped P (· = .keep n)

theorem enterDeclarator_keeps (hP : ∀ name, P (message name)) :
    Keeps P (enterDeclarator : Handler υ) :=
  fun n _ => (declareId_scoped hP n).bind fun _ _ => rfl

theorem enterFunction_keeps (hP : ∀ name, P (message name)) :
    Keeps P (enterFunction : Handler υ) :=
  fun n _ => (declareAll_scoped hP ((n.children "params").flatMap bindings)).bind fun _ _ => rfl

theorem enterDeclaration_keeps (hP : ∀ name, P (message name)) :
    Keeps P (enterDeclaration : Handler υ) :=
  fun n parent => (declareId_scoped hP n).bind fun _ _ => enterFunction_keeps hP n parent

theorem close_keeps : Keeps P (Baseline.close : Handler υ) := fun _ _ _ => rfl

theorem baseline_keeps : ∀ key handler,
    (HandlerSet.baseline : HandlerSet υ).lookup key = some handler → Keeps P handler :=
  HandlerSet.baseline_handlers (fun _ _ => rfl) (fun _ _ => rfl) close_keeps

theorem shadowing_keeps (hP : ∀ name, P (message name)) : ∀ key handler,
    (handlers .shadowing : HandlerSet υ).lookup key = some handler → Keeps P handler :=
  shadowing_handlers (enterDeclarator_keeps hP) (enterDeclaration_keeps hP) (enterFunction_keeps hP)
    close_keeps

end Handlers

abbrev pass (options : Options) (lints : List Lint) : Pass υ :=
  ⟨options, .compose (lints.map handlers)⟩

theorem Keeps.spares {P : String → Prop} {h : Handler υ} (hkeeps : Keeps P h) : h.Spares := by
  refine fun n parent => (hkeeps n parent).plain.imp ?_
  rintro _ rfl
  exact ⟨rfl, fun new hnew => (by cases hnew)⟩

theorem handlers_spare (lint : Lint) : (handlers lint : HandlerSet υ).Spares := by
  cases lint with
  | noDebugger =>
    have hwarn : Keeps (fun _ => True) (warnDebugger : Handler υ) := fun _ _ => ⟨trivial, rfl⟩
    exact HandlerSet.added_handlers HandlerSet.empty_handlers (HandlerSet.lookup_withEnter _ _ _)
      hwarn.spares
  | noWith =>
    have hrefuse : Handler.Spares (refuseWith : Handler υ) :=
      fun _ _ _ _ => ⟨rfl, fun new hnew => (by cases hnew)⟩
    exact HandlerSet.added_handlers HandlerSet.empty_handlers (HandlerSet.lookup_withEnter _ _ _)
      hrefuse
  | shadowing =>
    exact fun key handler hlookup =>
      (shadowing_keeps (fun _ => trivial) key handler hlookup : Keeps (fun _ => True) _).spares

theorem pass_spares (options : Options) (lints : List Lint) :
    (pass options lints : Pass υ).handlers.Spares :=
  composed_handlers (fun key handler hlookup =>
    (baseline_keeps key handler hlookup : Keeps (fun _ => True) _).spares) handlers_spare lints

theorem pass_blind (options : Options) (lints : List Lint)
    (walk : Descent (Engine υ) SyntaxError) :
    ((pass options lints).surroundings walk).Blind where
  scopeEnter hook h := by
    have hhook : (if .shadowing ∈ lints then some Shadowing.scopeHook else none) = some hook :=
      (scopeEnter_composed lints).symm.trans h
    split at hhook
    · cases hhook
      exact scopeHook_blind
    · cases hhook
  scopeExit hook h := by
    have hnone : (none : Option (ScopeHook υ)) = some hook :=
      (scopeExit_composed lints).symm.trans h
    cases hnone

theorem dispatch_keeps {P : String → Prop} (options : Options) (lints : List Lint)
    {handler : Option (Handler υ)} (hkeeps : ∀ h, handler = some h → Keeps P h) (n : Node)
    (parent : Option Parent) (e : Engine υ) :
    ∃ scopes added, (∀ w ∈ added, P w.description) ∧
      ∀ walk e', e'.scopes = e.scopes → e'.depth = e.depth →
        (pass options lints).dispatch walk handler n parent e' =
          some ⟨n, { e' with scopes, warnings := e'.warnings ++ added }, .ok ()⟩ := by
  cases handler with
  | none =>
    refine ⟨e.scopes, [], fun w hw => (by cases hw), fun walk e' hscopes _ => ?_⟩
    rw [Pass.dispatch, List.append_nil, ← hscopes]
  | some h =>
    obtain ⟨_, scopes, added, rfl, hadded, hrun⟩ := (hkeeps h rfl n parent).run
      (pass_blind options lints fun _ _ _ => none) e
    refine ⟨scopes, added, hadded, fun walk e' hscopes hdepth => ?_⟩
    have hcalled : (h n parent).run ((pass options lints).surroundings walk) e' =
        some (.keep n, { e' with scopes, warnings := e'.warnings ++ added }) :=
      hrun walk e' hscopes hdepth
    simp only [Pass.dispatch, hcalled]
    rfl

structure Abreast (lints : List Lint) (lint : Lint) (e e' : Engine υ) : Prop where
  skip : e.skip = false
  skip' : e'.skip = false
  depth : e'.depth = e.depth
  memory : e'.memory = e.memory
  scopes : lint = .shadowing → e'.scopes = e.scopes
  warnings : e'.warnings = e.warnings.filter fun w => lint.Says w.description
  said : ∀ w ∈ e.warnings, ∃ other ∈ lints, other.Says w.description

/-- The run of the list stops by itself only where it refuses what the lint would let pass. -/
abbrev RunsAbreast {τ α : Type} (lints : List Lint) (lint : Lint) :
    Option (Outcome τ (Engine υ) SyntaxError α) → Option (Outcome τ (Engine υ) SyntaxError α) →
      Prop :=
  Outcome.InStep (Abreast lints lint) (fun _ _ _ => True) (lint ≠ .noWith ∧ .noWith ∈ lints)

theorem Abreast.extend {lints : List Lint} {lint : Lint} {e e' : Engine υ}
    (h : Abreast lints lint e e') {scopes scopes' : Scope.Stack} {added added' : List Warning}
    (hscopes : lint = .shadowing → scopes' = scopes)
    (hadded : added' = added.filter fun w => lint.Says w.description)
    (hsaid : ∀ w ∈ added, ∃ other ∈ lints, other.Says w.description) :
    Abreast lints lint { e with scopes, warnings := e.warnings ++ added }
      { e' with scopes := scopes', warnings := e'.warnings ++ added' } where
  skip := h.skip
  skip' := h.skip'
  depth := h.depth
  memory := h.memory
  scopes := hscopes
  warnings := by rw [List.filter_append, h.warnings, hadded]
  said w hw := (List.mem_append.1 hw).elim (h.said w) (hsaid w)

theorem baseline_of_keeper {key : DispatchKey} (h : keeper key ≠ .shadowing) :
    (HandlerSet.baseline : HandlerSet υ).lookup key = none := by
  rcases key with ⟨kind, phase⟩ | hook | _ | _
  · have hopens : ¬ OpensScope kind := by
      rintro (rfl | rfl) <;> exact h rfl
    cases hlookup : (HandlerSet.baseline : HandlerSet υ).lookup (.node kind phase) with
    | none => rfl
    | some handler =>
      have hcontains : (HandlerSet.baseline : HandlerSet υ).contains (.node kind phase) := by
        rw [HandlerSet.contains_node, hlookup]
        rfl
      exact absurd ((HandlerSet.baseline_contains_iff kind phase).1 hcontains) hopens
  all_goals rfl

section Dispatch

variable {lints : List Lint} {lint : Lint} {options : Options}
  {walk walk' : Descent (Engine υ) SyntaxError} {e e' : Engine υ}

theorem lookup_of_keeper {key : DispatchKey} {other : Lint} (hkeeper : keeper key = other)
    (hother : other ≠ .shadowing) :
    (pass options lints : Pass υ).handlers.lookup key =
      if other ∈ lints then (handlers other).lookup key else none := by
  subst hkeeper
  rw [lookup_composed, baseline_of_keeper hother, Option.or_none]

theorem not_mem_alone {other : Lint} (hlint : lint ∈ lints) (hother : other ∉ lints) :
    other ∉ [lint] := by
  intro hone
  rw [List.mem_singleton.1 hone] at hother
  exact hother hlint

theorem dispatch_debugger (h : Abreast lints lint e e') (hlint : lint ∈ lints) {key : DispatchKey}
    (hkeeper : keeper key = .noDebugger) (n : Node) (parent : Option Parent) :
    RunsAbreast lints lint
      ((pass options lints).dispatch walk ((pass options lints).handlers.lookup key) n parent e)
      ((pass options [lint]).dispatch walk' ((pass options [lint]).handlers.lookup key) n parent
        e') := by
  rw [lookup_of_keeper hkeeper (by decide), lookup_of_keeper hkeeper (by decide), handlers,
    HandlerSet.lookup_withEnter, HandlerSet.lookup_empty]
  by_cases hkey : key = .node "DebuggerStatement" .enter
  · simp only [if_pos hkey]
    by_cases hmem : .noDebugger ∈ lints
    · rw [if_pos hmem]
      let w : Warning := ⟨n.loc, options.filename, "unexpected 'debugger' statement"⟩
      have hsaid : ∀ w' ∈ [w], ∃ other ∈ lints, other.Says w'.description := by
        intro w' hw'
        rw [List.mem_singleton.1 hw']
        exact ⟨.noDebugger, hmem, rfl⟩
      by_cases hl : lint = .noDebugger
      · subst hl
        rw [if_pos (List.mem_singleton_self _)]
        exact .ok (h.extend h.scopes rfl hsaid)
      · rw [if_neg fun hone => hl (List.mem_singleton.1 hone).symm]
        have hdropped : [] = [w].filter fun w => lint.Says w.description := by
          rw [List.filter_cons_of_neg, List.filter_nil]
          intro hsays
          exact hl (says_unique (of_decide_eq_true hsays) (show noDebugger.Says w.description from rfl))
        have hwarned := h.extend h.scopes hdropped hsaid
        rw [List.append_nil] at hwarned
        exact .ok hwarned
    · rw [if_neg hmem, if_neg (not_mem_alone hlint hmem)]
      exact .ok h
  · simp only [if_neg hkey, ite_self]
    exact .ok h

theorem dispatch_with (h : Abreast lints lint e e') (hlint : lint ∈ lints) {key : DispatchKey}
    (hkeeper : keeper key = .noWith) (n : Node) (parent : Option Parent) :
    RunsAbreast lints lint
      ((pass options lints).dispatch walk ((pass options lints).handlers.lookup key) n parent e)
      ((pass options [lint]).dispatch walk' ((pass options [lint]).handlers.lookup key) n parent
        e') := by
  rw [lookup_of_keeper hkeeper (by decide), lookup_of_keeper hkeeper (by decide), handlers,
    HandlerSet.lookup_withEnter, HandlerSet.lookup_empty]
  by_cases hkey : key = .node "WithStatement" .enter
  · simp only [if_pos hkey]
    by_cases hmem : .noWith ∈ lints
    · rw [if_pos hmem]
      by_cases hl : lint = .noWith
      · subst hl
        rw [if_pos (List.mem_singleton_self _)]
        exact .failed trivial
      · exact .ahead ⟨hl, hmem⟩
    · rw [if_neg hmem, if_neg (not_mem_alone hlint hmem)]
      exact .ok h
  · simp only [if_neg hkey, ite_self]
    exact .ok h

theorem dispatch_of_shadowing (hmem : .shadowing ∈ lints) :
    (pass options lints : Pass υ).dispatch = (pass options [.shadowing]).dispatch := by
  unfold Pass.dispatch Pass.surroundings
  rw [scopeEnter_composed, scopeEnter_composed, if_pos hmem, if_pos (List.mem_singleton_self _),
    scopeExit_composed, scopeExit_composed]

/-- The handlers of the shadowing lint and of the baseline. If the lint is another one, the two
engines may have different scopes here, and it finds no warning of its own. -/
theorem dispatch_scopes (h : Abreast lints lint e e') (hlint : lint ∈ lints) {key : DispatchKey}
    (hkeeper : keeper key = .shadowing) (n : Node) (parent : Option Parent) :
    RunsAbreast lints lint
      ((pass options lints).dispatch walk ((pass options lints).handlers.lookup key) n parent e)
      ((pass options [lint]).dispatch walk' ((pass options [lint]).handlers.lookup key) n parent
        e') := by
  let P : String → Prop := fun description =>
    .shadowing ∈ lints ∧ Lint.shadowing.Says description
  have hkeeps : ∀ h, (pass options lints : Pass υ).handlers.lookup key = some h → Keeps P h := by
    intro handler hlookup
    rw [lookup_composed, hkeeper] at hlookup
    rcases Option.or_eq_some_iff.1 hlookup with hown | ⟨-, hbase⟩
    · split at hown
      · rename_i hmem
        exact shadowing_keeps (fun name => ⟨hmem, name, rfl⟩) key handler hown
      · cases hown
    · exact baseline_keeps key handler hbase
  obtain ⟨scopes, added, hadded, hrun⟩ := dispatch_keeps options lints hkeeps n parent e
  have hsaid : ∀ w ∈ added, ∃ other ∈ lints, other.Says w.description :=
    fun w hw => ⟨.shadowing, hadded w hw⟩
  rw [hrun walk e rfl rfl]
  by_cases hl : lint = .shadowing
  · subst hl
    have hsame : (pass options [.shadowing] : Pass υ).handlers.lookup key =
        (pass options lints).handlers.lookup key := by
      rw [lookup_composed, lookup_composed, hkeeper, if_pos hlint,
        if_pos (List.mem_singleton_self _)]
    rw [hsame, ← dispatch_of_shadowing hlint, hrun walk' e' (h.scopes rfl) h.depth]
    refine .ok (h.extend (fun _ => rfl) ?_ hsaid)
    exact (List.filter_eq_self.2 fun w hw => decide_eq_true (hadded w hw).2).symm
  · have hbase : ∀ h, (pass options [lint] : Pass υ).handlers.lookup key = some h →
        Keeps (fun _ => False) h := by
      intro handler hlookup
      rw [lookup_composed, hkeeper, if_neg fun hone => hl (List.mem_singleton.1 hone).symm,
        Option.none_or] at hlookup
      exact baseline_keeps key handler hlookup
    obtain ⟨scopes', added', hadded', hrun'⟩ := dispatch_keeps options [lint] hbase n parent e'
    obtain rfl : added' = [] := List.eq_nil_iff_forall_not_mem.2 hadded'
    rw [hrun' walk' e' rfl rfl]
    refine .ok (h.extend (fun hl' => absurd hl' hl) ?_ hsaid)
    refine (List.filter_eq_nil_iff.2 fun w hw hsays => hl ?_).symm
    exact says_unique (of_decide_eq_true hsays) (hadded w hw).2

theorem dispatch_abreast (h : Abreast lints lint e e') (hlint : lint ∈ lints) (key : DispatchKey)
    (n : Node) (parent : Option Parent) :
    RunsAbreast lints lint
      ((pass options lints).dispatch walk ((pass options lints).handlers.lookup key) n parent e)
      ((pass options [lint]).dispatch walk' ((pass options [lint]).handlers.lookup key) n parent
        e') := by
  cases hkeeper : keeper key with
  | noDebugger => exact dispatch_debugger h hlint hkeeper n parent
  | noWith => exact dispatch_with h hlint hkeeper n parent
  | shadowing => exact dispatch_scopes h hlint hkeeper n parent

theorem dispatchSide_abreast (h : Abreast lints lint e e') (hlint : lint ∈ lints) (before : Hook)
    (phase : Phase) (after : Hook) (n : Node) (parent : Option Parent) :
    RunsAbreast lints lint
      ((pass options lints).dispatchSide walk before phase after n parent e)
      ((pass options [lint]).dispatchSide walk' before phase after n parent e') := by
  simp only [Pass.dispatchSide, Option.bind_eq_bind, ← Option.bind_assoc]
  refine Outcome.InStep.andThen (R := Abreast lints lint)
    ((dispatch_abreast h hlint (.around before) n parent).andThen fun n e e' _ h => ?_)
    fun n e e' _ h => ?_
  · exact dispatch_abreast h hlint (.node n.kind phase) n parent
  · exact dispatch_abreast h hlint (.around after) n parent

end Dispatch

theorem visitors_abreast {lints : List Lint} {lint : Lint} (hlint : lint ∈ lints)
    (options : Options) :
    VisitorsInStep (Abreast lints lint) (fun _ _ _ => True) (lint ≠ .noWith ∧ .noWith ∈ lints)
      (pass options lints : Pass υ).visitor (pass options [lint]).visitor where
  enter {walk walk'} _ n parent e e' h := by
    have harrive : Abreast lints lint (Pass.arrive n e) (Pass.arrive n e') :=
      ⟨h.skip, h.skip', congrArg (· + 1) h.depth, h.memory, h.scopes, h.warnings, h.said⟩
    refine (dispatchSide_abreast harrive hlint .beforeEnter .enter .afterEnter n parent).andThen
      fun n e e' _ h => ?_
    simp only [Pass.takeSkip, h.skip, h.skip']
    exact .ok ⟨rfl, rfl, h.depth, h.memory, h.scopes, h.warnings, h.said⟩
  leave {walk walk'} _ n parent e e' h := by
    have hturn : Abreast lints lint { e with current := some n.info }
        { e' with current := some n.info } :=
      ⟨h.skip, h.skip', h.depth, h.memory, h.scopes, h.warnings, h.said⟩
    refine (dispatchSide_abreast hturn hlint .beforeExit .exit .afterExit n parent).andThen
      fun n e e' _ h => ?_
    exact .ok ⟨rfl, rfl, congrArg (· - 1) h.depth, h.memory, h.scopes, h.warnings, h.said⟩

theorem walks_abreast {lints : List Lint} {lint : Lint} (hlint : lint ∈ lints) (options : Options)
    (fuel : Nat) (tree : Node) (memory : υ) :
    RunsAbreast lints lint ((pass options lints).walk fuel tree none (.fresh memory))
      ((pass options [lint]).walk fuel tree none (.fresh memory)) := by
  have hfresh : Abreast lints lint (Engine.fresh memory) (Engine.fresh memory) :=
    ⟨rfl, rfl, rfl, rfl, fun _ => rfl, rfl, fun w hw => by cases hw⟩
  exact walkNode_inStep (fun _ _ _ _ => trivial) (visitors_abreast hlint options) options.keys fuel
    tree none _ _ hfresh

section Runs

variable {options : Options} {lints : List Lint} {fuel : Nat} {tree t : Node} {memory : υ}
  {e : Engine υ} (results : Pass.Results)

theorem runPasses_of_ok
    (h : (pass options lints).walk fuel tree none (.fresh memory) = some ⟨t, e, .ok ()⟩) :
    runPasses fuel tree options (lints.map handlers) results memory =
      some ⟨.ok t, ⟨results.warnings ++ e.warnings⟩, e.memory⟩ := by
  rw [runPasses, Pass.runInto, Pass.run, h]
  rfl

theorem runPasses_of_error {err : PassError}
    (h : (pass options lints).walk fuel tree none (.fresh memory) = some ⟨t, e, .error err⟩) :
    runPasses fuel tree options (lints.map handlers) results memory =
      some ⟨.error err, results, e.memory⟩ := by
  rw [runPasses, Pass.runInto, Pass.run, h]
  rfl

theorem alone_of_ok {lint : Lint} (hlint : lint ∈ lints)
    (h : (pass options lints).walk fuel tree none (.fresh memory) = some ⟨t, e, .ok ()⟩) :
    runPasses fuel tree options [handlers lint] results memory =
      some ⟨.ok t, ⟨results.warnings ++ e.warnings.filter fun w => lint.Says w.description⟩,
        e.memory⟩ := by
  have habreast := walks_abreast hlint options fuel tree memory
  rw [h] at habreast
  obtain ⟨e', halone, hends⟩ := habreast.of_ok
  have hrun := runPasses_of_ok results halone
  rwa [hends.warnings, hends.memory] at hrun

theorem alone_of_error {lint : Lint} (hlint : lint ∈ lints) {err : PassError}
    (h : (pass options lints).walk fuel tree none (.fresh memory) = some ⟨t, e, .error err⟩) :
    (lint ≠ .noWith ∧ .noWith ∈ lints) ∨ ∃ results' memory',
      runPasses fuel tree options [handlers lint] results memory =
        some ⟨.error err, results', memory'⟩ := by
  have habreast := walks_abreast hlint options fuel tree memory
  rw [h] at habreast
  refine habreast.of_error.imp id ?_
  rintro ⟨e', halone, -⟩
  exact ⟨results, e'.memory, runPasses_of_error results halone⟩

theorem said_of_ok (hlints : lints ≠ [])
    (h : (pass options lints).walk fuel tree none (.fresh memory) = some ⟨t, e, .ok ()⟩) :
    ∀ w ∈ e.warnings, ∃ lint ∈ lints, lint.Says w.description := by
  obtain ⟨lint, hlint⟩ := List.exists_mem_of_ne_nil lints hlints
  have habreast := walks_abreast hlint options fuel tree memory
  rw [h] at habreast
  obtain ⟨e', -, hends⟩ := habreast.of_ok
  exact hends.said

end Runs

/-- Lints that are run together do not interfere. The outcome depends only on which lints there are.
If it is a success, the tree is returned as it was, and every lint run alone succeeds with those of
the warnings that have its text; each warning has the text of some lint. It is a failure exactly if
some lint fails alone, and with the error of `noWith` if that is among them. -/
theorem lints_apart {lints : List Lint} (hlints : lints ≠ []) (options : Options) {fuel : Nat}
    {tree : Node} (hfuel : tree.count ≤ fuel) (results : Pass.Results) (memory : υ) :
    (∀ lints' : List Lint, (∀ lint, lint ∈ lints' ↔ lint ∈ lints) →
      runPasses fuel tree options (lints'.map handlers) results memory =
        runPasses fuel tree options (lints.map handlers) results memory) ∧
    ∃ pooled, runPasses fuel tree options (lints.map handlers) results memory = some pooled ∧
      (∀ t, pooled.tree = .ok t → t = tree ∧ ∃ added,
        pooled.results = ⟨results.warnings ++ added⟩ ∧
        (∀ w ∈ added, ∃ lint ∈ lints, lint.Says w.description) ∧
        ∀ lint ∈ lints, runPasses fuel tree options [handlers lint] results memory =
          some ⟨.ok tree, ⟨results.warnings ++ added.filter fun w => lint.Says w.description⟩,
            pooled.memory⟩) ∧
      ((∃ err, pooled.tree = .error err) ↔ ∃ lint ∈ lints, ∃ err results' memory',
        runPasses fuel tree options [handlers lint] results memory =
          some ⟨.error err, results', memory'⟩) ∧
      (.noWith ∈ lints → ∀ err, pooled.tree = .error err → ∃ results' memory',
        runPasses fuel tree options [handlers .noWith] results memory =
          some ⟨.error err, results', memory'⟩) := by
  refine ⟨fun lints' hsame => ?_, ?_⟩
  · simp only [runPasses, Pass.runInto, run_of_mem_iff hsame]
  obtain ⟨e, verdict, hwalk⟩ := Pass.run_spares (pass_spares options lints) fuel tree hfuel memory
  cases verdict with
  | ok a =>
    refine ⟨_, runPasses_of_ok results hwalk, fun t ht => ?_, ⟨?_, ?_⟩, fun _ err herr => ?_⟩
    · cases ht
      exact ⟨rfl, e.warnings, rfl, said_of_ok hlints hwalk,
        fun lint hlint => alone_of_ok results hlint hwalk⟩
    · rintro ⟨err, herr⟩
      cases herr
    · rintro ⟨lint, hlint, err, results', memory', hrun⟩
      rw [alone_of_ok results hlint hwalk] at hrun
      cases hrun
    · cases herr
  | error err =>
    have hwith : .noWith ∈ lints → ∃ results' memory',
        runPasses fuel tree options [handlers .noWith] results memory =
          some ⟨.error err, results', memory'⟩ :=
      fun hmem => (alone_of_error results hmem hwalk).resolve_left fun h => h.1 rfl
    refine ⟨_, runPasses_of_error results hwalk, fun t ht => (by cases ht), ⟨fun _ => ?_, ?_⟩,
      fun hmem err' herr => ?_⟩
    · obtain ⟨lint, hlint⟩ := List.exists_mem_of_ne_nil lints hlints
      rcases alone_of_error results hlint hwalk with ⟨-, hmem⟩ | hfails
      · exact ⟨.noWith, hmem, err, hwith hmem⟩
      · exact ⟨lint, hlint, err, hfails⟩
    · exact fun _ => ⟨err, rfl⟩
    · cases herr
      exact hwith hmem

def mixed (last : List Node) : Node :=
  let x := (Node.new "Identifier").withValue "name" (.string "x")
  (Node.new "Program").withChildren "body" ([(Node.new "VariableDeclarator").withChild "id" x,
    (Node.new "ArrowFunctionExpression").withChildren "params" [x],
    Node.new "DebuggerStatement"] ++ last)

theorem lints_apart_mixed :
    [shadowing, noDebugger, noWith, shadowing] ≠ [] ∧ (mixed []).count ≤ 9 ∧
    (mixed [Node.new "WithStatement"]).count ≤ 9 ∧
    (∃ added memory, runPasses 9 (mixed []) .sourceless
        ([shadowing, noDebugger, noWith, shadowing].map handlers) {} () =
          some ⟨.ok (mixed []), ⟨added⟩, memory⟩ ∧
      added.map Warning.description =
        ["'x' shadows a binding from an enclosing scope", "unexpected 'debugger' statement"] ∧
      runPasses 9 (mixed []) .sourceless [handlers noDebugger] {} () = some ⟨.ok (mixed []),
        ⟨added.filter fun w => noDebugger.Says w.description⟩, memory⟩) ∧
    ∃ pooled err, runPasses 9 (mixed [Node.new "WithStatement"]) .sourceless
        ([shadowing, noDebugger, noWith, shadowing].map handlers) {} () = some pooled ∧
      pooled.tree = .error err ∧ err.text? = some ": 'with' statements are not allowed" ∧
      ∃ results memory, runPasses 9 (mixed [Node.new "WithStatement"]) .sourceless
        [handlers noWith] {} () = some ⟨.error err, results, memory⟩ := by
  have hlints : [shadowing, noDebugger, noWith, shadowing] ≠ [] := by decide
  have hfuel : (mixed []).count ≤ 9 := by decide
  have hfuel' : (mixed [Node.new "WithStatement"]).count ≤ 9 := by decide
  refine ⟨hlints, hfuel, hfuel', ?_, ?_⟩
  · obtain ⟨-, pooled, hrun, hok, -, -⟩ := lints_apart hlints .sourceless hfuel {} ()
    have hwarnings : (runPasses 9 (mixed []) .sourceless
        ([shadowing, noDebugger, noWith, shadowing].map handlers) {} ()).map
          (fun pooled => (pooled.tree.isOk, pooled.results.warnings.map Warning.description)) =
        some (true, ["'x' shadows a binding from an enclosing scope",
          "unexpected 'debugger' statement"]) := by
      decide +kernel
    rw [hrun] at hwarnings
    obtain ⟨hisOk, hdescriptions⟩ := Prod.mk.inj (Option.some.inj hwarnings)
    obtain ⟨tree, results, memory⟩ := pooled
    cases tree with
    | error err => cases hisOk
    | ok t =>
      obtain ⟨rfl, added, hresults, -, halone⟩ := hok t rfl
      obtain rfl : results = ⟨added⟩ := hresults
      have hone := halone .noDebugger (by decide)
      exact ⟨added, memory, hrun, hdescriptions, hone⟩
  · obtain ⟨-, pooled, hrun, -, -, hwith⟩ := lints_apart hlints .sourceless hfuel' {} ()
    have htext : (runPasses 9 (mixed [Node.new "WithStatement"]) .sourceless
        ([shadowing, noDebugger, noWith, shadowing].map handlers) {} ()).map (fun pooled =>
          match pooled.tree with
          | .ok _ => none
          | .error err => err.text?) = some (some ": 'with' statements are not allowed") := by
      decide +kernel
    rw [hrun] at htext
    obtain ⟨tree, results, memory⟩ := pooled
    cases tree with
    | ok t => cases Option.some.inj htext
    | error err => exact ⟨_, err, hrun, rfl, Option.some.inj htext, hwith (by decide) err rfl⟩

end SyntaxWalk.Lint
