import SyntaxWalk.Proofs.LastCall
import SyntaxWalk.Proofs.SkipRequests
import SyntaxWalk.Proofs.VisitPoints

/-!
# The current node

The engine notes the kind and the location of a node where a side of its visit begins and where a
handler returns a replacement. A handler that changes the node it was given and returns none leaves
the note as it was, so that later calls of the same side may find it out of date. These are the only
calls that do (`upToDate_iff`), as long as handlers pass on the errors of the walks they start.
-/

namespace SyntaxWalk

variable {υ : Type}

namespace CurrentNode

def callsAt (level : Nat) (events : List (Event υ)) : List (Moment υ) :=
  events.filterMap fun
    | .reached m => if m.path.length = level then some m else none
    | .failed _ _ => none

end CurrentNode

open CurrentNode

namespace Moment

def callBefore (past : List (Event υ)) (m : Moment υ) : Option (Moment υ) :=
  (callsAt m.path.length past).getLast?

def BeginsSide (m : Moment υ) : Prop :=
  m.key = .around .beforeEnter ∨ m.key = .around .beforeExit

instance (m : Moment υ) : Decidable m.BeginsSide := inferInstanceAs (Decidable (_ ∨ _))

def UpToDate (m : Moment υ) : Prop := m.engine.current = some m.node.info

end Moment

namespace Pass

variable (p : Pass υ)

/-- What the handler of a call returns in place of its node, in a run with this fuel. -/
def replacement? (fuel : Nat) (m : Moment υ) : Option Node := do
  let handler ← p.handlers.lookup m.key
  let called ← (handler m.node m.parent).run
    (p.surroundings (p.walk (fuel - m.path.length))) m.engine
  match called.1.verdict with
  | .ok answer => answer
  | .error _ => none

/-- What a call leaves to the next one of its side: a replacement with its own note, or the note as
it was. -/
def Leaves (fuel : Nat) (m : Moment υ) (n : Node) (e : Engine υ) : Prop :=
  match p.replacement? fuel m with
  | some new => n = new ∧ e.current = some new.info
  | none => e.current = m.engine.current

/-- Where a side of a visit begins the note is of the visit's node, and after that it is what the
call before has left. -/
def Notes (fuel : Nat) (past : List (Event υ)) (m : Moment υ) : Prop :=
  if m.BeginsSide then m.UpToDate
  else ∃ before, m.callBefore past = some before ∧ p.Leaves fuel before m.node m.engine

/-- The call before it on the same side left another kind or location, and no replacement. -/
def ChangedQuietly (fuel : Nat) (past : List (Event υ)) (m : Moment υ) : Prop :=
  ¬ m.BeginsSide ∧ ∃ before, m.callBefore past = some before ∧
    p.replacement? fuel before = none ∧ m.node.info ≠ before.node.info

theorem notes_of_beginsSide {p : Pass υ} {fuel : Nat} {past : List (Event υ)} {m : Moment υ}
    (hside : m.BeginsSide) (h : m.UpToDate) : p.Notes fuel past m := by
  rw [Notes, if_pos hside]
  exact h

end Pass

namespace Engine

theorem callHook_current (hook : Option (ScopeHook υ)) (t : Scope.Transition) (e : Engine υ) :
    (callHook hook t e).current = e.current := by
  cases hook with
  | none => rfl
  | some hook =>
    simp only [callHook]
    split <;> rfl

theorem pushScope_current (hook : Option (ScopeHook υ)) (node : NodeInfo) (e : Engine υ) :
    (e.pushScope hook node).current = e.current := callHook_current _ _ _

theorem popScope_current (hook : Option (ScopeHook υ)) (e : Engine υ) :
    (e.popScope hook).2.current = e.current := by
  unfold popScope
  split
  · rfl
  · exact callHook_current _ _ _

end Engine

namespace Script

variable {s : Surroundings υ}

theorem Raises.run {err : PassError} {script : Script υ Handled} (hraises : script.Raises err)
    {e e' : Engine υ} {h : Handled} (hrun : script.run s e = some (h, e')) :
    h.verdict = .error err := by
  induction script generalizing e with
  | done h' =>
    cases hrun
    exact hraises
  | observe next ih => exact ih _ _ (hraises _ _) hrun
  | setSkip skip next ih => exact ih hraises hrun
  | warn loc description next ih => exact ih hraises hrun
  | pushScope node next ih => exact ih hraises hrun
  | popScope next ih => exact ih _ (hraises _) hrun
  | editContext edit next ih => exact ih hraises hrun
  | remember memory next ih => exact ih hraises hrun
  | traverse n parent next ih => exact hraises.elim
  | traverseChildren n next ih => exact hraises.elim

theorem resumed_current {next : Node → Except PassError Unit → Script υ Handled}
    {walk : Engine υ → Option (Outcome Node (Engine υ) SyntaxError Unit)} {e e' : Engine υ}
    {h : Handled} {answer : Option Node} (hok : h.verdict = .ok answer)
    (hpass : ∀ n, (next n (.ok ())).PassesOn ∧ ∀ err, (next n (.error err)).Raises err)
    (hnext : ∀ n e, (next n (.ok ())).run s e = some (h, e') → e'.current = e.current)
    (hrun : ((e.nested walk).bind fun o => (next o.subject o.verdict).run s o.state) =
      some (h, e')) : e'.current = e.current := by
  obtain ⟨o, hnested, hrun⟩ := Option.bind_eq_some_iff.mp hrun
  obtain ⟨⟨n, after, verdict⟩, -, hresumed⟩ := Option.bind_eq_some_iff.mp hnested
  cases verdict with
  | ok a =>
    cases hresumed
    exact hnext n { after with skip := e.skip, current := e.current } hrun
  | error err =>
    cases hresumed
    have hfails := ((hpass n).2 err).run hrun
    rw [hok] at hfails
    cases hfails

theorem PassesOn.run_current {script : Script υ Handled} (hpass : script.PassesOn)
    {e e' : Engine υ} {h : Handled} {answer : Option Node} (hok : h.verdict = .ok answer)
    (hrun : script.run s e = some (h, e')) : e'.current = e.current := by
  induction script generalizing e with
  | done h' =>
    cases hrun
    rfl
  | observe next ih => exact ih _ _ (hpass _ _) hrun
  | setSkip skip next ih => exact ih (e := { e with skip }) hpass hrun
  | warn loc description next ih => exact ih (e := e.warn _) hpass hrun
  | pushScope node next ih => exact (ih hpass hrun).trans (e.pushScope_current _ _)
  | popScope next ih => exact (ih _ (hpass _) hrun).trans (e.popScope_current _)
  | editContext edit next ih =>
    exact ih (e := { e with scopes := e.scopes.mapContext edit }) hpass hrun
  | remember memory next ih => exact ih (e := { e with memory }) hpass hrun
  | traverse n parent next ih =>
    exact resumed_current hok hpass (fun m e => ih m _ (hpass m).1) hrun
  | traverseChildren n next ih =>
    exact resumed_current hok hpass (fun m e => ih m _ (hpass m).1) hrun

end Script

namespace CurrentNode

open VisitPoints (Within)

theorem callsAt_append (level : Nat) (first second : List (Event υ)) :
    callsAt level (first ++ second) = callsAt level first ++ callsAt level second :=
  List.filterMap_append

theorem callsAt_of_within {level : Nat} {events : List (Event υ)}
    (h : ∀ event ∈ events, Within (level + 1) event) : callsAt level events = [] := by
  refine List.filterMap_eq_nil_iff.mpr fun event hevent => ?_
  cases event with
  | reached m => exact if_neg (Nat.ne_of_gt (h _ hevent))
  | failed before after => rfl

/-- What happens below a call does not come between it and the next one of its visit. -/
theorem callBefore_concat {past deeper : List (Event υ)} {m next : Moment υ}
    (hpath : m.path.length = next.path.length)
    (hdeeper : ∀ event ∈ deeper, Within (m.path.length + 1) event) :
    next.callBefore (past ++ .reached m :: deeper) = some m := by
  have hcall : callsAt m.path.length (.reached m :: deeper) = [m] := by
    rw [← List.singleton_append, callsAt_append, callsAt_of_within hdeeper]
    simp [callsAt]
  rw [Moment.callBefore, ← hpath, callsAt_append, hcall, List.getLast?_concat]

theorem mem_of_callBefore {past : List (Event υ)} {m before : Moment υ}
    (h : m.callBefore past = some before) : .reached before ∈ past := by
  obtain ⟨event, hevent, hcall⟩ := List.mem_filterMap.mp (List.mem_of_getLast? h)
  cases event with
  | reached other =>
    dsimp only at hcall
    split at hcall
    · cases hcall
      exact hevent
    · cases hcall
  | failed _ _ => cases hcall

section Visits

variable {p : Pass υ} {total : Nat}

def Noted (p : Pass υ) (total : Nat) (past : List (Event υ)) : Event υ → Prop
  | .reached m => p.Notes total past m
  | .failed _ _ => True

structure Below (p : Pass υ) (total length : Nat) (walk : RecordedVisit υ) : Prop where
  forget : walk.forget = p.walk (total - length)
  within : ∀ n parent e, ∀ event ∈ (walk n parent e).events, Within (length + 1) event
  noted : ∀ past n parent e,
    (walk n parent e).Meets (Noted p total) (fun _ _ _ _ => True) (fun _ _ => True) past

theorem leaves_of_outcome (hpass : p.handlers.PassesOn) {length : Nat} {walk : RecordedVisit υ}
    (hwalk : Below p total length walk) {m : Moment υ} (hlength : m.path.length = length)
    {n : Node} {e : Engine υ} {a : Unit}
    (ho : (p.recordDispatch walk m.path m.key m.node m.parent m.engine).outcome =
      some ⟨n, e, .ok a⟩) : p.Leaves total m n e := by
  rw [p.recordDispatch_outcome, hwalk.forget] at ho
  unfold Pass.Leaves Pass.replacement?
  cases hlookup : p.handlers.lookup m.key with
  | none =>
    rw [hlookup] at ho
    cases ho
    rfl
  | some handler =>
    rw [hlookup] at ho
    obtain ⟨⟨h, e'⟩, hrun, hsettle⟩ := Option.map_eq_some_iff.mp ho
    have hcurrent {answer : Option Node} (hok : h.verdict = .ok answer) :=
      (hpass m.key handler hlookup m.node m.parent).run_current hok hrun
    simp only [Option.bind_eq_bind, Option.bind_some, hlength, hrun]
    obtain ⟨node, _ | _ | new⟩ := h
    · cases hsettle
    · cases hsettle
      exact hcurrent rfl
    · cases hsettle
      exact ⟨rfl, rfl⟩

theorem called_meets {length : Nat} {walk : RecordedVisit υ} (hwalk : Below p total length walk)
    (s : Surroundings υ) (script : Script υ Handled) (e : Engine υ) (past : List (Event υ)) :
    (settled (script.record s walk e)).Meets (Noted p total) (fun _ _ _ _ => True)
      (fun _ _ => True) past :=
  (Script.record_free (I := fun _ _ => True) (K := fun _ _ => True) (fun _ _ _ _ h => h)
    (fun _ _ _ => trivial) (fun _ _ h => h) (fun _ _ _ _ _ _ => trivial)
    (fun past n parent e _ => hwalk.noted past n parent e) (.inr fun _ h => h) trivial)

theorem dispatch_meets (hpass : p.handlers.PassesOn) {walk : RecordedVisit υ}
    {past : List (Event υ)} {m : Moment υ} (hwalk : Below p total m.path.length walk)
    (hm : p.Notes total past m) :
    (p.recordDispatch walk m.path m.key m.node m.parent m.engine).Meets (Noted p total)
      (fun l n e _ => ∀ next : Moment υ, next.path.length = m.path.length → ¬ next.BeginsSide →
        next.node = n → next.engine = e → p.Notes total l next) (fun _ _ => True) past := by
  have hcall : (p.recordDispatch walk m.path m.key m.node m.parent m.engine).Meets (Noted p total)
      (fun _ _ _ _ => True) (fun _ _ => True) past :=
    Pass.recordDispatch_meets hm trivial fun handler _ => called_meets hwalk _ _ _ _
  obtain ⟨deeper, hevents, hdeeper⟩ : ∃ deeper,
      (p.recordDispatch walk m.path m.key m.node m.parent m.engine).events =
        .reached m :: deeper ∧ ∀ event ∈ deeper, Within (m.path.length + 1) event := by
    cases hlookup : p.handlers.lookup m.key with
    | none =>
      rw [p.recordDispatch_of_none hlookup]
      exact ⟨[], rfl, fun _ h => absurd h List.not_mem_nil⟩
    | some handler =>
      rw [p.recordDispatch_of_some hlookup]
      exact ⟨_, rfl, VisitPoints.call_within hwalk.within _ _ _⟩
  refine ⟨hcall.events, fun n e a ho next hlength hside hnode hengine => ?_, fun _ _ _ _ => trivial⟩
  rw [Pass.Notes, if_neg hside, hevents]
  refine ⟨m, callBefore_concat hlength.symm hdeeper, ?_⟩
  rw [hnode, hengine]
  exact leaves_of_outcome hpass hwalk rfl ho

theorem descent_meets {length : Nat} {walk : RecordedVisit υ} (hwalk : Below p total length walk)
    (n : Node) (e : Engine υ) (past : List (Event υ)) :
    (p.recordDescent walk n e).Meets (Noted p total) (fun _ _ _ _ => True) (fun _ _ => True)
      past := by
  unfold Pass.recordDescent
  split
  · exact Recorded.meets_now trivial
  · exact (recordChildren_meets (I := fun _ _ => True) (fun _ _ _ => trivial)
      (fun past n parent e _ => hwalk.noted past n parent e) p.options.keys n trivial).imp
      (fun _ _ _ _ _ => trivial) fun _ _ _ => trivial

theorem visit_meets (hpass : p.handlers.PassesOn) {walk : Path υ → RecordedVisit υ} {path : Path υ}
    (hwalk : ∀ visit, Below p total (path.length + 1) (walk (visit :: path)))
    (past : List (Event υ)) (n : Node) (parent : Option Parent) (e : Engine υ) :
    (p.recordVisit walk path n parent e).Meets (Noted p total) (fun _ _ _ _ => True)
      (fun _ _ => True) past := by
  unfold Pass.recordVisit
  refine (dispatch_meets hpass
    (m := ⟨.around .beforeEnter, n, parent, Pass.arrive n e, none :: path⟩) (hwalk none)
    (Pass.notes_of_beginsSide (.inl rfl) rfl)).followed fun n₁ e₁ _ h₁ => ?_
  refine (dispatch_meets hpass (m := ⟨.node n₁.kind .enter, n₁, parent, e₁, none :: path⟩)
    (hwalk none) (h₁ _ rfl (by simp [Moment.BeginsSide]) rfl rfl)).followed fun n₂ e₂ _ h₂ => ?_
  refine (dispatch_meets hpass
    (m := ⟨.around .afterEnter, n₂, parent, e₂, some ⟨n₁, e₁⟩ :: path⟩) (hwalk _)
    (h₂ _ rfl (by simp [Moment.BeginsSide]) rfl rfl)).followed fun n₃ e₃ _ _ => ?_
  refine (descent_meets (hwalk _) n₃ e₃ _).followed fun n₄ e₄ _ _ => ?_
  refine (dispatch_meets hpass (m := ⟨.around .beforeExit, n₄, parent,
    { e₄ with current := some n₄.info }, some ⟨n₁, e₁⟩ :: path⟩) (hwalk _)
    (Pass.notes_of_beginsSide (.inr rfl) rfl)).followed fun n₅ e₅ _ h₅ => ?_
  refine (dispatch_meets hpass
    (m := ⟨.node n₅.kind .exit, n₅, parent, e₅, some ⟨n₁, e₁⟩ :: path⟩) (hwalk none)
    (h₅ _ rfl (by simp [Moment.BeginsSide]) rfl rfl)).followed fun n₆ e₆ _ h₆ => ?_
  refine (dispatch_meets hpass (m := ⟨.around .afterExit, n₆, parent, e₆, none :: path⟩)
    (hwalk none) (h₆ _ rfl (by simp [Moment.BeginsSide]) rfl rfl)).followed fun n₇ e₇ _ _ => ?_
  exact Recorded.meets_now trivial

theorem below_of_noted {fuel : Nat} {path : Path υ} (htotal : path.length + fuel = total)
    (hnoted : ∀ past n parent e, (p.recordWalk fuel path n parent e).Meets (Noted p total)
      (fun _ _ _ _ => True) (fun _ _ => True) past) :
    Below p total path.length (p.recordWalk fuel path) where
  forget := by
    rw [p.recordWalk_forget, ← htotal, Nat.add_sub_cancel_left]
  within n parent e := by
    obtain ⟨_, hcalls⟩ := VisitPoints.walk_calls p fuel path n parent e
    exact hcalls.within
  noted := hnoted

theorem walk_noted (hpass : p.handlers.PassesOn) (fuel : Nat) (path : Path υ)
    (htotal : path.length + fuel = total) (past : List (Event υ)) (n : Node)
    (parent : Option Parent) (e : Engine υ) :
    (p.recordWalk fuel path n parent e).Meets (Noted p total) (fun _ _ _ _ => True)
      (fun _ _ => True) past := by
  induction fuel generalizing path past n parent e with
  | zero => exact p.recordWalk_zero_meets path n parent e
  | succ fuel ih =>
    have hdeeper (visit : Option (Entry υ)) : (visit :: path).length + fuel = total := by
      rw [List.length_cons, ← htotal]
      omega
    exact visit_meets hpass
      (fun visit => below_of_noted (hdeeper visit) fun past n parent e =>
        ih (visit :: path) (hdeeper visit) past n parent e) past n parent e

end Visits

theorem upToDate_iff_unchanged {p : Pass υ} {fuel : Nat} {past : List (Event υ)} {m : Moment υ}
    (hnotes : p.Notes fuel past m)
    (hbefore : ∀ before, m.callBefore past = some before → before.UpToDate) :
    m.UpToDate ↔ ¬ p.ChangedQuietly fuel past m := by
  by_cases hside : m.BeginsSide
  · rw [Pass.Notes, if_pos hside] at hnotes
    exact iff_of_true hnotes fun hchanged => hchanged.1 hside
  · rw [Pass.Notes, if_neg hside] at hnotes
    obtain ⟨before, hcall, hleaves⟩ := hnotes
    have hb : before.engine.current = some before.node.info := hbefore before hcall
    rw [Pass.ChangedQuietly, Moment.UpToDate, hcall]
    cases hreplacement : p.replacement? fuel before with
    | some new =>
      rw [Pass.Leaves, hreplacement] at hleaves
      refine iff_of_true (by rw [hleaves.2, hleaves.1]) ?_
      rintro ⟨-, other, hother, hnone, -⟩
      rw [← Option.some.inj hother, hreplacement] at hnone
      cases hnone
    | none =>
      rw [Pass.Leaves, hreplacement] at hleaves
      rw [hleaves, hb, Option.some.injEq]
      constructor
      · rintro hsame ⟨-, other, hother, -, hchanged⟩
        rw [← Option.some.inj hother] at hchanged
        exact hchanged hsame.symm
      · intro hquiet
        by_cases hsame : m.node.info = before.node.info
        · exact hsame.symm
        · exact absurd ⟨hside, before, rfl, hreplacement, hsame⟩ hquiet

theorem forall_upToDate_iff {p : Pass υ} {fuel : Nat} {l : List (Event υ)}
    (hnotes : ∀ first m rest, l = first ++ .reached m :: rest → p.Notes fuel first m) :
    (∀ m, .reached m ∈ l → m.UpToDate) ↔
      ∀ first m rest, l = first ++ .reached m :: rest → ¬ p.ChangedQuietly fuel first m := by
  constructor
  · intro hall first m rest hsplit
    refine (upToDate_iff_unchanged (hnotes first m rest hsplit) fun before hbefore => ?_).mp
      (hall m (by simp [hsplit]))
    exact hall before (by simp [hsplit, mem_of_callBefore hbefore])
  · intro hquiet m hmem
    obtain ⟨first, rest, hsplit⟩ := List.append_of_mem hmem
    -- The call before is earlier in the journal, so the induction is on how far that goes.
    induction hlength : first.length using Nat.strongRecOn generalizing first m rest with
    | ind k ih =>
      refine (upToDate_iff_unchanged (hnotes first m rest hsplit) fun before hbefore => ?_).mpr
        (hquiet first m rest hsplit)
      obtain ⟨first', rest', hfirst⟩ := List.append_of_mem (mem_of_callBefore hbefore)
      exact ih first'.length (by simp [← hlength, hfirst]) before (by simp [hsplit, hfirst]) first'
        (rest' ++ .reached m :: rest) (by simp [hsplit, hfirst]) rfl

/-- What the note is at every call of a run, and that up to any point of the run it was always of
the node at hand unless a handler had changed its node quietly. -/
theorem upToDate_iff (p : Pass υ) (hpass : p.handlers.PassesOn) (fuel : Nat) (tree : Node)
    (memory : υ) :
    (∀ first m rest, p.journal fuel tree memory = first ++ .reached m :: rest →
      p.Notes fuel first m) ∧
    ∀ l, l <+: p.journal fuel tree memory →
      ((∀ m, .reached m ∈ l → m.UpToDate) ↔
        ∀ first m rest, l = first ++ .reached m :: rest → ¬ p.ChangedQuietly fuel first m) := by
  have hnotes : ∀ first m rest, p.journal fuel tree memory = first ++ .reached m :: rest →
      p.Notes fuel first m := fun first m rest hsplit =>
    (walk_noted hpass fuel [] (Nat.zero_add fuel) [] tree none (.fresh memory)).events
      first (.reached m) rest hsplit
  refine ⟨hnotes, fun l ⟨more, hmore⟩ => forall_upToDate_iff fun first m rest hsplit => ?_⟩
  exact hnotes first m (rest ++ more) (by rw [← hmore, hsplit]; simp)

def name : Node := (Node.new "Identifier").withValue "name" (.string "x")

def replacing : HandlerSet Unit :=
  HandlerSet.empty.withEnter "Identifier" fun n _ => .done (.replace n (Node.new "ThisExpression"))

def editing : HandlerSet Unit :=
  (HandlerSet.empty.withHook .beforeEnter fun n _ =>
    .done (.keep (n.withKind "ThisExpression"))).withHook .afterEnter fun n _ =>
      .done (.keep n)

theorem replacing_passesOn : replacing.PassesOn :=
  HandlerSet.added_handlers HandlerSet.empty_handlers (HandlerSet.lookup_withEnter _ _ _)
    fun _ _ => trivial

theorem editing_passesOn : editing.PassesOn := by
  refine HandlerSet.added_handlers (HandlerSet.added_handlers HandlerSet.empty_handlers
    (HandlerSet.lookup_withHook _ _ _) ?_) (HandlerSet.lookup_withHook _ _ _) ?_
  · exact fun _ _ => trivial
  · exact fun _ _ => trivial

theorem upToDate_of_replaced :
    let p : Pass Unit := ⟨.sourceless, replacing⟩
    p.handlers.PassesOn ∧ ∃ m, .reached m ∈ p.journal 1 name () ∧ m.key = .around .afterEnter ∧
      m.node.info = ⟨"ThisExpression", none⟩ ∧ m.UpToDate := by
  intro p
  have hnotes := (upToDate_iff p replacing_passesOn 1 name ()).1 [_, _] _ [_, _, _] rfl
  refine ⟨replacing_passesOn, _, List.mem_of_getElem? (i := 2) rfl, rfl, rfl, ?_⟩
  obtain ⟨before, hbefore, hleaves⟩ := hnotes
  cases hbefore
  exact hleaves.2

theorem outOfDate_of_edited :
    let p : Pass Unit := ⟨.sourceless, editing⟩
    p.handlers.PassesOn ∧ (∃ n e, p.walk 1 name none (.fresh ()) = some ⟨n, e, .ok ()⟩) ∧
    ∃ m, .reached m ∈ p.journal 1 name () ∧ m.key = .around .afterEnter ∧
      (p.handlers.lookup m.key).isSome ∧ m.engine.current = some ⟨"Identifier", none⟩ ∧
      m.node.info = ⟨"ThisExpression", none⟩ ∧ ¬ m.UpToDate := by
  refine ⟨editing_passesOn, ⟨_, _, rfl⟩, _, List.mem_of_getElem? (i := 2) rfl, rfl, rfl, rfl, rfl,
    fun h => ?_⟩
  exact absurd (congrArg NodeInfo.kind (Option.some.inj h)) (by decide)

end CurrentNode

end SyntaxWalk
