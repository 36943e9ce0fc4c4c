import SyntaxWalk.Proofs.LintsApart
import SyntaxWalk.Proofs.Shadowing
import Mathlib.Data.List.Nodup

/-!
# The names bound in and around a scope

The shadowing lint writes two lists into the context of a scope, the names bound in it and those
bound around it. A new scope starts with a copy of the lists around it, and later each scope writes
only to its own, so what a scope says of the names around it could go out of date. It never does: at
every handler call of a run, in every open scope, the two lists are there without repeats, and the
second has just the names that the scopes around list as their own (`names_layered`).

What a run keeps true of its scopes is settled by what opening, closing and the allowed edits of a
context keep true (`Scope.Lasting`).
-/

namespace SyntaxWalk

variable {υ α β : Type}

/-- Every edit of a context that the script makes is an allowed one. -/
def Script.EditsBy (allowed : (Context → Context) → Prop) : Script υ α → Prop
  | .done _ => True
  | .observe next => ∀ options e, (next options e).EditsBy allowed
  | .setSkip _ next | .warn _ _ next | .pushScope _ next | .remember _ next => next.EditsBy allowed
  | .popScope next => ∀ frame, (next frame).EditsBy allowed
  | .editContext edit next => allowed edit ∧ next.EditsBy allowed
  | .traverse _ _ next | .traverseChildren _ next => ∀ n r, (next n r).EditsBy allowed

abbrev Handler.EditsBy (allowed : (Context → Context) → Prop) (h : Handler υ) : Prop :=
  ∀ n parent, (h n parent).EditsBy allowed

/-- Holds of no scopes, and goes on to hold when a scope is opened or closed under these hooks and
when the innermost context is edited in an allowed way. -/
structure Scope.Lasting (enter exit : Option (ScopeHook υ)) (allowed : (Context → Context) → Prop)
    (F : Scope.Stack → Prop) : Prop where
  empty : F .empty
  push : ∀ {e : Engine υ} (node : NodeInfo), F e.scopes → F (e.pushScope enter node).scopes
  pop : ∀ {e : Engine υ}, F e.scopes → F (e.popScope exit).2.scopes
  edit : ∀ {s : Scope.Stack} {edit : Context → Context}, allowed edit → F s → F (s.mapContext edit)

def Event.ScopesAre (F : Scope.Stack → Prop) : Event υ → Prop
  | .reached m => F m.engine.scopes
  | .failed before after => F before.scopes ∧ F after.scopes

abbrev ScopesStay (F : Scope.Stack → Prop) (past : List (Event υ)) (c : RecordedDispatch υ) :
    Prop :=
  c.Meets (fun _ => Event.ScopesAre F) (fun _ _ e _ => F e.scopes) (fun _ e => F e.scopes) past

def VisitsStay (F : Scope.Stack → Prop) (walk : RecordedVisit υ) : Prop :=
  ∀ past n parent e, F e.scopes → ScopesStay F past (walk n parent e)

theorem Pass.settle_scopes (h : Handled) (e : Engine υ) :
    (Pass.settle h e).state.scopes = e.scopes := by
  unfold Pass.settle
  split <;> rfl

namespace Script

variable {allowed : (Context → Context) → Prop}

theorem EditsBy.bind {f : α → Script υ β} {script : Script υ α} (h : script.EditsBy allowed)
    (hf : ∀ a, (f a).EditsBy allowed) : (script.bind f).EditsBy allowed := by
  induction script with
  | done a => exact hf a
  | observe next ih => exact fun options e => ih options e (h options e)
  | setSkip skip next ih => exact ih h
  | warn loc description next ih => exact ih h
  | pushScope node next ih => exact ih h
  | popScope next ih => exact fun frame => ih frame (h frame)
  | editContext edit next ih => exact ⟨h.1, ih h.2⟩
  | remember memory next ih => exact ih h
  | traverse n parent next ih => exact fun n r => ih n r (h n r)
  | traverseChildren n next ih => exact fun n r => ih n r (h n r)

variable {F : Scope.Stack → Prop} {s : Surroundings υ} {walk : RecordedVisit υ}

/-- A handler may go on after a walk of its own has failed. What that walk left of the scopes is as
good a start as any. -/
theorem record_lasting (hF : Scope.Lasting s.scopeEnter s.scopeExit allowed F)
    (hwalk : VisitsStay F walk) {script : Script υ Handled} (hscript : script.EditsBy allowed)
    {past : List (Event υ)} {e : Engine υ} (he : F e.scopes) :
    ScopesStay F past (settled (script.record s walk e)) := by
  induction script generalizing past e with
  | done h =>
    have hend : ∀ {n e' verdict}, Pass.settle h e = ⟨n, e', verdict⟩ → F e'.scopes := by
      intro n e' verdict hsettled
      have hscopes := Pass.settle_scopes h e
      rw [hsettled] at hscopes
      exact hscopes ▸ he
    exact ⟨fun _ _ _ ho => by simp [settled, record] at ho,
      fun _ _ _ ho => hend (Option.some.inj ho), fun _ _ _ ho => hend (Option.some.inj ho)⟩
  | observe next ih => exact ih _ _ (hscript _ _) he
  | setSkip skip next ih => exact ih hscript he
  | warn loc description next ih => exact ih hscript he
  | pushScope node next ih => exact ih hscript (hF.push node he)
  | popScope next ih => exact ih _ (hscript _) (hF.pop he)
  | editContext edit next ih => exact ih hscript.2 (hF.edit hscript.1 he)
  | remember memory next ih => exact ih hscript he
  | traverse n parent next ih =>
    exact resume_meets (hwalk past n parent _ he) (fun m _ hm => ih m _ (hscript m _) hm)
      fun m _ _ hm => ⟨⟨he, hm⟩, ih m _ (hscript m _) hm⟩
  | traverseChildren n next ih =>
    have hbegin : F { e with skip := false }.scopes := he
    exact resume_meets (recordChildren_meets (fun _ _ h => h) hwalk s.options.keys n hbegin)
      (fun m _ hm => ih m _ (hscript m _) hm.2) fun m _ _ hm => ⟨⟨he, hm⟩, ih m _ (hscript m _) hm⟩

end Script

namespace Scope.Lasting

variable {p : Pass υ} {allowed : (Context → Context) → Prop} {F : Scope.Stack → Prop}
  (hF : Lasting p.handlers.scopeEnter p.handlers.scopeExit allowed F)
  (hhandlers : ∀ key handler, p.handlers.lookup key = some handler → handler.EditsBy allowed)

include hF hhandlers

theorem dispatch {walk : RecordedVisit υ} (hwalk : VisitsStay F walk) {past : List (Event υ)}
    (path : Path υ) (key : DispatchKey) (n : Node) (parent : Option Parent) {e : Engine υ}
    (he : F e.scopes) : ScopesStay F past (p.recordDispatch walk path key n parent e) :=
  Pass.recordDispatch_meets he he fun handler hlookup =>
    Script.record_lasting hF hwalk (hhandlers key handler hlookup n parent) he

theorem invariant : p.Invariant (fun _ => Event.ScopesAre F) (fun _ _ e => F e.scopes)
    (fun _ _ e => F e.scopes) fun _ _ => True := by
  have hpoint : ∀ {walk : Path υ → RecordedVisit υ}, Kept (fun _ => Event.ScopesAre F)
      (fun _ _ e => F e.scopes) (fun _ _ e => F e.scopes) (fun _ _ => True) walk →
      ∀ inner path key n parent {past : List (Event υ)} {e : Engine υ}, F e.scopes →
        (p.recordDispatch (walk inner) path key n parent e).Meets (fun _ => Event.ScopesAre F)
          (fun _ _ e _ => True ∧ F e.scopes) (fun _ e => F e.scopes) past := by
    intro walk hwalk inner path key n parent past e he
    have hvisits : VisitsStay F (walk inner) := fun past n parent e he =>
      (hwalk past inner n parent e he).imp (fun _ _ _ _ h => h.2) fun _ _ h => h
    exact (hF.dispatch hhandlers hvisits path key n parent he).imp
      (fun _ _ _ _ h => ⟨trivial, h⟩) fun _ _ h => h
  exact {
    kind := fun _ => trivial
    trans := fun _ _ => trivial
    touch := fun _ _ he => he
    arrive := fun _ he => he
    depart := fun _ he => he
    spoil := fun he => he
    widen := fun he => he
    around := fun hwalk _ _ _ _ n parent he => hpoint hwalk _ _ _ n parent he
    enter := fun hwalk _ _ _ n parent he => hpoint hwalk _ _ _ n parent he
    exit := fun hwalk _ _ _ _ n parent _ he => hpoint hwalk _ _ _ n parent he }

/-- The scopes are so at every event of a run and when it is over, also when it fails. -/
theorem run (fuel : Nat) (tree : Node) (memory : υ) :
    (∀ event ∈ p.journal fuel tree memory, event.ScopesAre F) ∧
      ∀ n e verdict, p.walk fuel tree none (.fresh memory) = some ⟨n, e, verdict⟩ → F e.scopes := by
  have hmeets := (hF.invariant hhandlers).walk fuel [] [] tree none (.fresh memory) hF.empty
  refine ⟨Recorded.forall_of_meets hmeets, fun n e verdict ho => ?_⟩
  rw [← p.recordWalk_outcome fuel []] at ho
  cases verdict with
  | error err => exact hmeets.failure n e err ho
  | ok a => exact (hmeets.success n e a ho).2

end Scope.Lasting

namespace Lint

namespace Shadowing

section Contexts

variable {context : Context} {key : String} {names : List String} {name : String}

/-- Under the key is the array of these names, and no name is in it twice. -/
structure Stored (context : Context) (key : String) (names : List String) : Prop where
  value : context.get? key = some (.array (names.map Json.string))
  nodup : names.Nodup

theorem stored_withNames (context : Context) (key : String) (hnodup : names.Nodup) :
    Stored (withNames context key names) key names :=
  ⟨by rw [withNames, NameMap.get?_insert, if_pos rfl], hnodup⟩

theorem Stored.withNames_of_ne {other : String} (h : Stored context key names) (hne : key ≠ other)
    (others : List String) : Stored (withNames context other others) key names :=
  ⟨by rw [withNames, NameMap.get?_insert, if_neg hne, h.value], h.nodup⟩

theorem Stored.namesUnder_eq (h : Stored context key names) : namesUnder context key = names := by
  have hget : (withNames context key names).get? key = context.get? key := by
    rw [h.value, (stored_withNames context key h.nodup).value]
  have hself := namesUnder_withNames_self context key names
  simp only [namesUnder, Context.getAs, hget] at hself ⊢
  exact hself

theorem nodup_addName (h : names.Nodup) (name : String) : (addName names name).Nodup := by
  unfold addName
  split
  · exact h
  · rename_i hnew
    rw [List.contains_iff_mem] at hnew
    exact List.concat_eq_append ▸ h.concat hnew

theorem nodup_foldl_addName (added : List String) (h : names.Nodup) :
    (added.foldl addName names).Nodup := by
  induction added generalizing names with
  | nil => exact h
  | cons name rest ih => exact ih (nodup_addName h name)

theorem stored_bind (h : Stored context localKey names) (name : String) :
    Stored (bind context name) localKey (addName names name) := by
  have hnodup := nodup_addName h.nodup name
  unfold addName at hnodup ⊢
  rw [bind, h.namesUnder_eq]
  split
  · exact h
  · rename_i hnew
    rw [if_neg hnew] at hnodup
    exact stored_withNames context localKey hnodup

theorem Stored.bind_outer (h : Stored context outerKey names) (name : String) :
    Stored (bind context name) outerKey names := by
  have hne : outerKey ≠ localKey := by decide
  dsimp only [bind]
  split
  · exact h
  · exact h.withNames_of_ne hne _

theorem stored_enterScope (context : Context) (h : (namesUnder context outerKey).Nodup) :
    Stored (enterScope context) localKey [] ∧ Stored (enterScope context) outerKey
      ((namesUnder context localKey).foldl addName (namesUnder context outerKey)) := by
  have hne : outerKey ≠ localKey := by decide
  have houter := stored_withNames context outerKey
    (nodup_foldl_addName (namesUnder context localKey) h)
  exact ⟨stored_withNames _ localKey List.nodup_nil, houter.withNames_of_ne hne []⟩

end Contexts

def BoundIn (frame : Scope.Frame) (name : String) : Prop :=
  ∃ names, Stored frame.context localKey names ∧ name ∈ names

theorem boundIn_iff {frame : Scope.Frame} {names : List String}
    (h : Stored frame.context localKey names) (name : String) :
    BoundIn frame name ↔ name ∈ names := by
  refine ⟨fun ⟨others, hothers, hname⟩ => ?_, fun hname => ⟨names, h, hname⟩⟩
  rwa [← h.namesUnder_eq, hothers.namesUnder_eq]

/-- A scope with both lists, the outer one right for the scopes around it. -/
structure Layer (frame : Scope.Frame) (around : List Scope.Frame) : Prop where
  own : ∃ names, Stored frame.context localKey names
  outer : ∃ names, Stored frame.context outerKey names ∧
    ∀ name, name ∈ names ↔ ∃ other ∈ around, BoundIn other name

def Layered (s : Scope.Stack) : Prop :=
  ∀ inner frame around, s.frames = inner ++ frame :: around → Layer frame around

variable {scope : Scope.Info} {context : Context} {frame : Scope.Frame} {frames : List Scope.Frame}

theorem layered_cons : Layered ⟨frame :: frames⟩ ↔ Layer frame frames ∧ Layered ⟨frames⟩ := by
  refine ⟨fun h => ⟨h [] frame frames rfl, fun inner other around hsplit => ?_⟩,
    fun ⟨hframe, hframes⟩ inner other around hsplit => ?_⟩
  · exact h (frame :: inner) other around (congrArg (frame :: ·) hsplit)
  · cases inner with
    | nil =>
      cases hsplit
      exact hframe
    | cons first inner =>
      obtain ⟨-, hsplit⟩ := List.cons.inj hsplit
      exact hframes inner other around hsplit

theorem layered_nil : Layered ⟨[]⟩ := by
  intro inner frame around hsplit
  simp at hsplit

theorem layer_outermost (scope : Scope.Info) : Layer ⟨scope, enterScope .empty⟩ [] := by
  obtain ⟨hown, houter⟩ := stored_enterScope .empty List.nodup_nil
  refine ⟨⟨_, hown⟩, _, houter, fun name => ?_⟩
  have hlocal : namesUnder .empty localKey = [] := rfl
  have hunder : namesUnder .empty outerKey = [] := rfl
  simp [hlocal, hunder]

theorem Layer.enterScope (h : Layer frame frames) (scope : Scope.Info) :
    Layer ⟨scope, enterScope frame.context⟩ (frame :: frames) := by
  obtain ⟨⟨own, hown⟩, outer, houter, hnames⟩ := h
  obtain ⟨hnew, haround⟩ := stored_enterScope frame.context (houter.namesUnder_eq ▸ houter.nodup)
  refine ⟨⟨_, hnew⟩, _, haround, fun name => ?_⟩
  rw [mem_foldl_addName, houter.namesUnder_eq, hown.namesUnder_eq, hnames, List.exists_mem_cons_iff,
    boundIn_iff hown, or_comm]

theorem Layer.bind (h : Layer ⟨scope, context⟩ frames) (name : String) :
    Layer ⟨scope, bind context name⟩ frames := by
  obtain ⟨⟨own, hown⟩, outer, houter, hnames⟩ := h
  exact ⟨⟨_, stored_bind hown name⟩, outer, houter.bind_outer name, hnames⟩

def Binding (edit : Context → Context) : Prop := ∃ name, edit = (bind · name)

theorem layered_lasting :
    Scope.Lasting (some scopeHook : Option (ScopeHook υ)) none Binding Layered where
  empty := layered_nil
  push {e} node he := by
    obtain ⟨depth, current, skip, ⟨frames⟩, warnings, memory⟩ := e
    cases frames with
    | nil => exact layered_cons.2 ⟨layer_outermost _, layered_nil⟩
    | cons frame frames => exact layered_cons.2 ⟨(layered_cons.1 he).1.enterScope _, he⟩
  pop {e} he := by
    obtain ⟨depth, current, skip, ⟨frames⟩, warnings, memory⟩ := e
    cases frames with
    | nil => exact he
    | cons frame frames => exact (layered_cons.1 he).2
  edit {s edit} hedit hs := by
    obtain ⟨name, rfl⟩ := hedit
    obtain ⟨frames⟩ := s
    cases frames with
    | nil => exact hs
    | cons frame frames =>
      obtain ⟨hframe, hframes⟩ := layered_cons.1 hs
      exact layered_cons.2 ⟨hframe.bind name, hframes⟩

theorem declare_binds (identifier : Node) :
    (declare identifier : Script υ Unit).EditsBy Binding := by
  have hcontext : (Script.context : Script υ (Option Context)).EditsBy Binding :=
    fun _ _ => trivial
  refine hcontext.bind fun context => ?_
  split
  · rename_i name context _
    have hbind : (Script.modifyContext (bind · name) : Script υ Unit).EditsBy Binding :=
      ⟨⟨name, rfl⟩, trivial⟩
    refine hbind.bind fun _ => ?_
    split
    · exact trivial
    · exact trivial
  · exact trivial

theorem declareAll_binds (identifiers : List Node) :
    (declareAll identifiers : Script υ Unit).EditsBy Binding := by
  induction identifiers with
  | nil => exact trivial
  | cons identifier rest ih => exact (declare_binds identifier).bind fun _ => ih

theorem declareId_binds (n : Node) : (declareId n : Script υ Unit).EditsBy Binding := by
  unfold declareId
  cases n.child? "id" with
  | none => exact trivial
  | some id => exact declareAll_binds (bindings id)

theorem enterFunction_binds : (enterFunction : Handler υ).EditsBy Binding :=
  fun n _ => (declareAll_binds ((n.children "params").flatMap bindings)).bind fun _ => trivial

theorem enterDeclaration_binds : (enterDeclaration : Handler υ).EditsBy Binding :=
  fun n parent => (declareId_binds n).bind fun _ => enterFunction_binds n parent

theorem close_binds : (Baseline.close : Handler υ).EditsBy Binding := fun _ _ _ => trivial

end Shadowing

open Shadowing

theorem handlers_bind (lint : Lint) : ∀ key handler,
    (handlers lint : HandlerSet υ).lookup key = some handler → handler.EditsBy Binding := by
  cases lint with
  | noDebugger =>
    exact HandlerSet.added_handlers HandlerSet.empty_handlers (HandlerSet.lookup_withEnter _ _ _)
      fun _ _ => trivial
  | noWith =>
    exact HandlerSet.added_handlers HandlerSet.empty_handlers (HandlerSet.lookup_withEnter _ _ _)
      fun _ _ _ _ => trivial
  | shadowing =>
    exact shadowing_handlers (fun n _ => (declareId_binds n).bind fun _ => trivial)
      enterDeclaration_binds enterFunction_binds close_binds

theorem pass_binds (options : Options) (lints : List Lint) : ∀ key handler,
    (pass options lints : Pass υ).handlers.lookup key = some handler → handler.EditsBy Binding :=
  composed_handlers (HandlerSet.baseline_handlers (fun _ _ => trivial) (fun _ _ => trivial)
    close_binds) handlers_bind lints

/-- In a run with the shadowing lint every open scope has both lists, and the outer one has the
names of the scopes around it, at every handler call and when the run is over. -/
theorem names_layered {lints : List Lint} (hlints : .shadowing ∈ lints) (options : Options)
    (fuel : Nat) (tree : Node) (memory : υ) :
    (∀ m, .reached m ∈ (pass options lints).journal fuel tree memory → Layered m.engine.scopes) ∧
      ∀ n e verdict, (pass options lints).walk fuel tree none (.fresh memory) =
        some ⟨n, e, verdict⟩ → Layered e.scopes := by
  have hlasting : Scope.Lasting (pass options lints : Pass υ).handlers.scopeEnter
      (pass options lints : Pass υ).handlers.scopeExit Binding Layered := by
    rw [scopeEnter_composed, if_pos hlints, scopeExit_composed]
    exact layered_lasting
  obtain ⟨hjournal, hend⟩ := hlasting.run (pass_binds options lints) fuel tree memory
  exact ⟨fun m hm => hjournal _ hm, hend⟩

def listed (s : Scope.Stack) : List (List String × List String) :=
  s.frames.map fun frame =>
    (namesUnder frame.context outerKey, namesUnder frame.context localKey)

def scopesOfAllKinds : Node :=
  let identifier (name : String) := (Node.new "Identifier").withValue "name" (.string name)
  let arrow := (Node.new "ArrowFunctionExpression").withChildren "params" [identifier "x"]
    |>.withChild "body" (Node.new "WithStatement")
  let expression := (Node.new functionExpressionKind).withChildren "params" [identifier "y"]
    |>.withChild "body" arrow
  let declaration := (Node.new "FunctionDeclaration").withChild "id" (identifier "f")
    |>.withChildren "params" [identifier "y", identifier "x"] |>.withChild "body" expression
  let declarator := (Node.new "VariableDeclarator").withChild "id" (identifier "x")
  (Node.new programKind).withChildren "body" [declarator, declaration]

/-- The refused statement is reached, and the run left, with all four scopes open. -/
theorem names_layered_of_all_kinds :
    let p : Pass Unit := pass .sourceless [.noWith, .shadowing]
    let lists := [(["x", "f", "y"], ["x"]), (["x", "f", "y"], ["y"]), (["x", "f"], ["y", "x"]),
      ([], ["x", "f"])]
    .shadowing ∈ [noWith, shadowing] ∧
    (∃ m, .reached m ∈ p.journal 5 scopesOfAllKinds () ∧ m.key = .node "WithStatement" .enter ∧
      listed m.engine.scopes = lists ∧ Layered m.engine.scopes) ∧
    ∃ n e err, p.walk 5 scopesOfAllKinds none (.fresh ()) = some ⟨n, e, .error err⟩ ∧
      listed e.scopes = lists ∧ Layered e.scopes := by
  intro p lists
  have hmem : .shadowing ∈ [noWith, shadowing] := by decide
  obtain ⟨hjournal, hend⟩ := names_layered hmem .sourceless 5 scopesOfAllKinds ()
  have hreached : (p.journal 5 scopesOfAllKinds ()).any (fun event =>
      match event with
      | .reached m => m.key = .node "WithStatement" .enter ∧ listed m.engine.scopes = lists
      | .failed _ _ => false) = true := by
    decide +kernel
  have hfails : (p.walk 5 scopesOfAllKinds none (.fresh ())).map (fun o =>
      (o.verdict.toOption.isSome, listed o.state.scopes)) = some (false, lists) := by
    decide +kernel
  refine ⟨hmem, ?_, ?_⟩
  · obtain ⟨event, hevent, hfound⟩ := List.any_eq_true.1 hreached
    cases event with
    | failed before after => cases hfound
    | reached m =>
      obtain ⟨hkey, hlisted⟩ := of_decide_eq_true hfound
      exact ⟨m, hevent, hkey, hlisted, hjournal m hevent⟩
  · obtain ⟨⟨n, e, verdict⟩, hwalk, hlisted⟩ := Option.map_eq_some_iff.1 hfails
    obtain ⟨hfailed, hlists⟩ := Prod.mk.inj hlisted
    cases verdict with
    | ok a => cases hfailed
    | error err => exact ⟨n, e, err, hwalk, hlists, hend n e _ hwalk⟩

end Lint

end SyntaxWalk
