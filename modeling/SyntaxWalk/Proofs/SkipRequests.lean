import SyntaxWalk.Proofs.Conduct
import SyntaxWalk.Proofs.OnBaseline

/-!
# Whose children a skip request leaves out

The engine keeps one flag for all skip requests. In a run that succeeds the flag still acts for each
visit by itself: no visit begins with a request pending, and the children of its node are walked
unless one of its own three entry handlers asked for a skip (`descends_unless_asked`). The handlers
have to be resolute: they pass on the errors of the walks they start and withdraw no request.
-/

namespace SyntaxWalk

variable {υ α : Type}

namespace Script

/-- Whether a request is made on the way that the script takes. What the walks that it starts ask
for belongs to the visits in them. -/
def asks (s : Surroundings υ) : Script υ α → Engine υ → Bool
  | .done _, _ => false
  | .observe next, e => (next s.options e).asks s e
  | .setSkip skip next, e => skip || next.asks s { e with skip }
  | .warn loc description next, e => next.asks s (e.warn ⟨loc, s.options.filename, description⟩)
  | .pushScope node next, e => next.asks s (e.pushScope s.scopeEnter node)
  | .popScope next, e => (next (e.popScope s.scopeExit).1).asks s (e.popScope s.scopeExit).2
  | .editContext edit next, e => next.asks s { e with scopes := e.scopes.mapContext edit }
  | .remember memory next, e => next.asks s { e with memory }
  | .traverse n parent next, e =>
    (e.nested (s.walk n parent)).elim false fun o => (next o.subject o.verdict).asks s o.state
  | .traverseChildren n next, e =>
    (e.nested (walkChildren s.options.keys s.walk n)).elim false fun o =>
      (next o.subject o.verdict).asks s o.state

/-- Never overwrites the controller so that a request is lost, where `pending` says whether there is
one. -/
def NeverWithdraws : Script υ α → Bool → Prop
  | .done _, _ => True
  | .observe next, pending =>
    ∀ options e, e.skip = pending → (next options e).NeverWithdraws pending
  | .setSkip skip next, pending => (pending = true → skip = true) ∧ next.NeverWithdraws skip
  | .warn _ _ next, pending | .pushScope _ next, pending | .editContext _ next, pending
  | .remember _ next, pending => next.NeverWithdraws pending
  | .popScope next, pending => ∀ frame, (next frame).NeverWithdraws pending
  | .traverse _ _ next, pending | .traverseChildren _ next, pending =>
    ∀ n, (next n (.ok ())).NeverWithdraws pending

end Script

structure Handler.Resolute (handler : Handler υ) : Prop where
  passesOn : ∀ n parent, (handler n parent).PassesOn
  neverWithdraws : ∀ n parent pending, (handler n parent).NeverWithdraws pending

def HandlerSet.Resolute (h : HandlerSet υ) : Prop :=
  ∀ key handler, h.lookup key = some handler → handler.Resolute

namespace HandlerSet

theorem baseline_resolute : (baseline : HandlerSet υ).Resolute :=
  baseline_handlers ⟨fun _ _ => trivial, fun _ _ _ => trivial⟩
    ⟨fun _ _ => trivial, fun _ _ _ => trivial⟩ ⟨fun _ _ _ => trivial, fun _ _ _ _ => trivial⟩

theorem compose_resolute {sets : List (HandlerSet υ)} (hsets : ∀ set ∈ sets, set.Resolute) :
    (compose sets).Resolute :=
  compose_handlers baseline_resolute hsets

end HandlerSet

namespace Recorded

variable {ω τ τ' σ ε α β : Type}

def Ends (c : Recorded ω τ σ ε α) (events : List ω) (t : τ) (s : σ) (a : α) : Prop :=
  c = ⟨events, some ⟨t, s, .ok a⟩⟩

theorem ends_of_outcome {c : Recorded ω τ σ ε α} {t : τ} {s : σ} {a : α}
    (h : c.outcome = some ⟨t, s, .ok a⟩) : c.Ends c.events t s a := by
  obtain ⟨events, outcome⟩ := c
  cases h
  rfl

theorem Ends.of_followed {c : Recorded ω τ σ ε α} {stop : τ → τ'}
    {next : τ → σ → α → Recorded ω τ' σ ε β} {l : List ω} {t : τ'} {s : σ} {b : β}
    (h : (c.followed stop next).Ends l t s b) :
    ∃ l₁ l₂ n s₁ a, l = l₁ ++ l₂ ∧ c.Ends l₁ n s₁ a ∧ (next n s₁ a).Ends l₂ t s b := by
  obtain ⟨n, s₁, a, hfirst, hnext, hevents⟩ := Recorded.of_followed (congrArg outcome h)
  rw [h] at hevents
  exact ⟨_, _, n, s₁, a, hevents, ends_of_outcome hfirst, ends_of_outcome hnext⟩

end Recorded

namespace Pass

def asks (p : Pass υ) (walk : RecordedVisit υ) (key : DispatchKey) (n : Node)
    (parent : Option Parent) (e : Engine υ) : Bool :=
  match p.handlers.lookup key with
  | none => false
  | some handler => (handler n parent).asks (p.surroundings walk.forget) e

/-- A visit by its events, without the flag: whether the children of the node that entry left are
walked depends on what its own entry handlers asked for, and the exit side runs in either case. -/
inductive Course (p : Pass υ) (walk : Path υ → RecordedVisit υ) (path : Path υ) (n : Node)
    (parent : Option Parent) (e : Engine υ) : List (Event υ) → Prop where
  | visit {l₁ l₂ l₃ l₄ l₅ l₆ l₇ : List (Event υ)} {n₁ n₂ n₃ n₄ n₅ n₆ n₇ : Node}
    {e₁ e₂ e₃ e₄ e₅ e₆ e₇ : Engine υ}
    (beforeEnter : (p.recordDispatch (walk (none :: path)) (none :: path) (.around .beforeEnter)
      n parent e).Ends l₁ n₁ e₁ ())
    (enter : (p.recordDispatch (walk (none :: path)) (none :: path) (.node n₁.kind .enter)
      n₁ parent e₁).Ends l₂ n₂ e₂ ())
    (afterEnter : (p.recordDispatch (walk (some ⟨n₁, e₁⟩ :: path)) (some ⟨n₁, e₁⟩ :: path)
      (.around .afterEnter) n₂ parent e₂).Ends l₃ n₃ e₃ ())
    (descent : if p.asks (walk (none :: path)) (.around .beforeEnter) n parent e ||
        p.asks (walk (none :: path)) (.node n₁.kind .enter) n₁ parent e₁ ||
        p.asks (walk (some ⟨n₁, e₁⟩ :: path)) (.around .afterEnter) n₂ parent e₂
      then l₄ = [] ∧ n₄ = n₃ ∧ e₄ = { e₃ with skip := false }
      else (recordChildren p.options.keys (walk (some ⟨n₁, e₁⟩ :: path)) n₃
        { e₃ with skip := false }).Ends l₄ n₄ e₄ ())
    (beforeExit : (p.recordDispatch (walk (some ⟨n₁, e₁⟩ :: path)) (some ⟨n₁, e₁⟩ :: path)
      (.around .beforeExit) n₄ parent { e₄ with current := some n₄.info }).Ends l₅ n₅ e₅ ())
    (exit : (p.recordDispatch (walk (none :: path)) (some ⟨n₁, e₁⟩ :: path) (.node n₅.kind .exit)
      n₅ parent e₅).Ends l₆ n₆ e₆ ())
    (afterExit : (p.recordDispatch (walk (none :: path)) (none :: path) (.around .afterExit)
      n₆ parent e₆).Ends l₇ n₇ e₇ ()) :
    Course p walk path n parent e (l₁ ++ (l₂ ++ (l₃ ++ (l₄ ++ (l₅ ++ (l₆ ++ l₇))))))

/-- The visit that begins at a moment finds no request pending, and the events from there on begin
with its course. -/
def TakesCourse (p : Pass υ) (m : Moment υ) (after : List (Event υ)) : Prop :=
  m.engine.skip = false ∧ ∃ fuel path visit later, m.path = none :: path ∧
    .reached m :: after = visit ++ later ∧
    p.Course (p.recordWalk fuel) path m.node m.parent m.engine visit

def OnCourse (p : Pass υ) : List (Event υ) → Prop
  | [] => True
  | .failed _ _ :: rest => p.OnCourse rest
  | .reached m :: rest => (m.key = .around .beforeEnter → p.TakesCourse m rest) ∧ p.OnCourse rest

variable {p : Pass υ}

theorem TakesCourse.append {m : Moment υ} {after : List (Event υ)} (h : p.TakesCourse m after)
    (more : List (Event υ)) : p.TakesCourse m (after ++ more) := by
  obtain ⟨hskip, fuel, path, visit, later, hpath, hvisit, hcourse⟩ := h
  refine ⟨hskip, fuel, path, visit, later ++ more, hpath, ?_, hcourse⟩
  rw [← List.append_assoc, ← hvisit, List.cons_append]

namespace OnCourse

theorem append {first second : List (Event υ)} (hfirst : p.OnCourse first)
    (hsecond : p.OnCourse second) : p.OnCourse (first ++ second) := by
  induction first with
  | nil => exact hsecond
  | cons event first ih =>
    cases event with
    | failed before after => exact ih hfirst
    | reached m => exact ⟨fun hkey => (hfirst.1 hkey).append second, ih hfirst.2⟩

theorem reached {before after : List (Event υ)} {m : Moment υ}
    (h : p.OnCourse (before ++ .reached m :: after)) (hkey : m.key = .around .beforeEnter) :
    p.TakesCourse m after := by
  induction before with
  | nil => exact h.1 hkey
  | cons event before ih =>
    cases event with
    | failed _ _ => exact ih h
    | reached _ => exact ih h.2

end OnCourse

def Clear (p : Pass υ) (past : List (Event υ)) (e : Engine υ) : Prop :=
  p.OnCourse past ∧ e.skip = false

def Clears (p : Pass υ) (walk : RecordedVisit υ) : Prop :=
  ∀ n parent e l m e', e.skip = false → (walk n parent e).Ends l m e' () → p.Clear l e'

theorem Clears.meets {walk : RecordedVisit υ} (h : p.Clears walk) (past : List (Event υ)) (n : Node)
    (parent : Option Parent) (e : Engine υ) (he : p.Clear past e) :
    (walk n parent e).Meets (fun _ _ => True) (fun l _ e _ => p.Clear l e) (fun _ _ => True)
      past where
  events _ _ _ _ := trivial
  success m e' _ ho := by
    obtain ⟨hevents, hskip⟩ := h n parent e _ m e' he.2 (Recorded.ends_of_outcome ho)
    exact ⟨he.1.append hevents, hskip⟩
  failure _ _ _ _ := trivial

theorem Clears.children {walk : RecordedVisit υ} (h : p.Clears walk) (keys : VisitorKeys) (n : Node)
    {past : List (Event υ)} {e : Engine υ} (he : p.Clear past e) :
    (recordChildren keys walk n e).Meets (fun _ _ => True) (fun l _ e _ => p.Clear l e)
      (fun _ _ => True) past :=
  (recordChildren_meets (fun _ _ _ => trivial) h.meets keys n he).imp (fun _ _ _ _ h => h.2)
    fun _ _ h => h

end Pass

theorem Recorded.Meets.with_outcome {ω τ σ ε α : Type} {Q : List ω → ω → Prop}
    {J : List ω → τ → σ → α → Prop} {K : List ω → σ → Prop} {past : List ω}
    {c : Recorded ω τ σ ε α} (h : c.Meets Q J K past) :
    c.Meets Q (fun l n s a => J l n s a ∧ c.outcome = some ⟨n, s, .ok a⟩) K past :=
  ⟨h.events, fun n s a ho => ⟨h.success n s a ho, ho⟩, h.failure⟩

theorem Engine.nested_of_ok {τ : Type} {n : τ} {e after : Engine υ}
    {walk : Engine υ → Option (Outcome τ (Engine υ) SyntaxError Unit)}
    (h : walk { e with skip := false } = some ⟨n, after, .ok ()⟩) :
    e.nested walk = some ⟨n, { after with skip := e.skip, current := e.current }, .ok ()⟩ := by
  simp only [nested, h]
  rfl

theorem Pass.settle_skip {h : Handled} {n : Node} {e e' : Engine υ} {a : Unit}
    (hsettle : settle h e = ⟨n, e', .ok a⟩) : e'.skip = e.skip := by
  obtain ⟨node, _ | _ | new⟩ := h
  · cases hsettle
  · cases hsettle
    rfl
  · cases hsettle
    rfl

section Dispatch

variable {p : Pass υ} {walk : RecordedVisit υ} (hwalk : p.Clears walk)

include hwalk

/-- A script ends with a request pending just when there was one or it made one: a walk that it
starts has its requests taken by its own visits, and gives back the one from before. -/
theorem Script.record_asks {script : Script υ Handled} {e : Engine υ} (hpass : script.PassesOn)
    (hkeep : script.NeverWithdraws e.skip) {past : List (Event υ)} (hpast : p.OnCourse past) :
    (settled (script.record (p.surroundings walk.forget) walk e)).Meets (fun _ _ => True)
      (fun l _ e' _ => p.OnCourse l ∧
        e'.skip = (e.skip || script.asks (p.surroundings walk.forget) e)) (fun _ _ => True) past := by
  induction script generalizing past e with
  | done h =>
    refine ⟨fun _ _ _ _ => trivial, fun n e' a ho => ?_, fun _ _ _ _ => trivial⟩
    have hsettle : Pass.settle h e = ⟨n, e', .ok a⟩ := Option.some.inj ho
    rw [Pass.settle_skip hsettle, asks, Bool.or_false]
    simpa [settled, record] using hpast
  | observe next ih => exact ih _ _ (hpass _ _) (hkeep _ _ rfl) hpast
  | setSkip skip next ih =>
    refine (ih (e := { e with skip }) hpass hkeep.2 hpast).imp (fun l n e' _ h => ⟨h.1, ?_⟩)
      fun _ _ h => h
    have hkept : (e.skip || skip) = skip := by
      cases hskip : e.skip with
      | false => rfl
      | true => exact (hkeep.1 hskip).symm
    rw [h.2, asks, ← Bool.or_assoc, hkept]
  | warn loc description next ih => exact ih (e := e.warn _) hpass hkeep hpast
  | pushScope node next ih =>
    have hsame := e.pushScope_skip p.handlers.scopeEnter node
    have hnext := ih (e := e.pushScope p.handlers.scopeEnter node) hpass (hsame ▸ hkeep) hpast
    rwa [hsame] at hnext
  | popScope next ih =>
    have hsame := e.popScope_skip p.handlers.scopeExit
    have hnext := ih (e.popScope p.handlers.scopeExit).1 (e := (e.popScope p.handlers.scopeExit).2)
      (hpass _) (hsame ▸ hkeep _) hpast
    rwa [hsame] at hnext
  | editContext edit next ih =>
    exact ih (e := { e with scopes := e.scopes.mapContext edit }) hpass hkeep hpast
  | remember memory next ih => exact ih (e := { e with memory }) hpass hkeep hpast
  | traverse n parent next ih =>
    have hbegin : p.Clear past { e with skip := false } := ⟨hpast, rfl⟩
    refine resume_meets (hwalk.meets past n parent _ hbegin).with_outcome (fun m after hm => ?_)
      fun m after err _ => ⟨trivial, record_raises ((hpass m).2 err) (fun _ _ => trivial) after⟩
    have hwalked : walk.forget n parent { e with skip := false } = some ⟨m, after, .ok ()⟩ := hm.2
    have hnested := Engine.nested_of_ok hwalked
    rw [asks, show (p.surroundings walk.forget).walk = walk.forget from rfl, hnested]
    exact ih m _ (e := { after with skip := e.skip, current := e.current }) (hpass m).1 (hkeep m)
      hm.1.1
  | traverseChildren n next ih =>
    have hbegin : p.Clear past { e with skip := false } := ⟨hpast, rfl⟩
    refine resume_meets (hwalk.children p.options.keys n hbegin).with_outcome (fun m after hm => ?_)
      fun m after err _ => ⟨trivial, record_raises ((hpass m).2 err) (fun _ _ => trivial) after⟩
    have hwalked : walkChildren (p.surroundings walk.forget).options.keys walk.forget n
        { e with skip := false } = some ⟨m, after, .ok ()⟩ :=
      (recordChildren_outcome _ walk n _).symm.trans hm.2
    have hnested := Engine.nested_of_ok hwalked
    rw [asks, show (p.surroundings walk.forget).walk = walk.forget from rfl, hnested]
    exact ih m _ (e := { after with skip := e.skip, current := e.current }) (hpass m).1 (hkeep m)
      hm.1.1

theorem Pass.recordDispatch_asks (hp : p.handlers.Resolute) {path : Path υ} {key : DispatchKey}
    {n m : Node} {parent : Option Parent} {e e' : Engine υ} {l : List (Event υ)} {a : Unit}
    (h : (p.recordDispatch walk path key n parent e).Ends l m e' a) :
    ∃ inner, l = .reached ⟨key, n, parent, e, path⟩ :: inner ∧ p.OnCourse inner ∧
      e'.skip = (e.skip || p.asks walk key n parent e) := by
  cases hlookup : p.handlers.lookup key with
  | none =>
    rw [p.recordDispatch_of_none hlookup] at h
    cases h
    simp only [asks, hlookup, Bool.or_false]
    exact ⟨[], rfl, trivial, trivial⟩
  | some handler =>
    have hresolute := hp key handler hlookup
    have hcalled := Script.record_asks hwalk (hresolute.passesOn n parent)
      (hresolute.neverWithdraws n parent e.skip) (show p.OnCourse [] from trivial)
    rw [p.recordDispatch_of_some hlookup] at h
    obtain ⟨hevents, hskip⟩ := hcalled.success m e' a (congrArg Recorded.outcome h)
    simp only [asks, hlookup]
    exact ⟨_, (congrArg Recorded.events h).symm, hevents, hskip⟩

end Dispatch

namespace Pass

variable {p : Pass υ}

theorem recordDispatch_onCourse {walk : RecordedVisit υ} (hwalk : p.Clears walk)
    (hp : p.handlers.Resolute) {path : Path υ} {key : DispatchKey} {n m : Node}
    {parent : Option Parent} {e e' : Engine υ} {l : List (Event υ)} {a : Unit}
    (h : (p.recordDispatch walk path key n parent e).Ends l m e' a)
    (hkey : key ≠ .around .beforeEnter) :
    p.OnCourse l ∧ e'.skip = (e.skip || p.asks walk key n parent e) := by
  obtain ⟨inner, rfl, hinner, hskip⟩ := recordDispatch_asks hwalk hp h
  exact ⟨⟨fun hbegin => absurd hbegin hkey, hinner⟩, hskip⟩

theorem recordDescent_of_skip (walk : RecordedVisit υ) {n : Node} {e : Engine υ} {asked : Bool}
    (hskip : e.skip = asked) {l : List (Event υ)} {m : Node} {e' : Engine υ}
    (h : (p.recordDescent walk n e).Ends l m e' ()) :
    if asked then l = [] ∧ m = n ∧ e' = { e with skip := false }
    else (recordChildren p.options.keys walk n { e with skip := false }).Ends l m e' () := by
  subst hskip
  unfold recordDescent at h
  split at h
  · rename_i hskip
    cases h
    rw [if_pos hskip]
    exact ⟨rfl, rfl, rfl⟩
  · rename_i hskip
    rw [if_neg hskip]
    exact h

theorem recordDescent_clears {walk : RecordedVisit υ} (hwalk : p.Clears walk) {n m : Node}
    {e e' : Engine υ} {l : List (Event υ)} (h : (p.recordDescent walk n e).Ends l m e' ()) :
    p.Clear l e' := by
  unfold recordDescent at h
  split at h
  · cases h
    exact ⟨trivial, rfl⟩
  · have hbegin : p.Clear [] { e with skip := false } := ⟨trivial, rfl⟩
    have hchildren := (hwalk.children p.options.keys n hbegin).success m e' ()
      (congrArg Recorded.outcome h)
    rwa [List.nil_append, congrArg Recorded.events h] at hchildren

theorem visit_clears (hp : p.handlers.Resolute) {fuel : Nat}
    (hwalk : ∀ path, p.Clears (p.recordWalk fuel path)) (path : Path υ) :
    p.Clears (p.recordVisit (p.recordWalk fuel) path) := by
  intro n parent e l m e' hskip h
  obtain ⟨l₁, _, n₁, e₁, a₁, rfl, h₁, h⟩ := h.of_followed
  obtain ⟨l₂, _, n₂, e₂, a₂, rfl, h₂, h⟩ := h.of_followed
  obtain ⟨l₃, _, n₃, e₃, a₃, rfl, h₃, h⟩ := h.of_followed
  obtain ⟨l₄, _, n₄, e₄, a₄, rfl, h₄, h⟩ := h.of_followed
  obtain ⟨l₅, _, n₅, e₅, a₅, rfl, h₅, h⟩ := h.of_followed
  obtain ⟨l₆, _, n₆, e₆, a₆, rfl, h₆, h⟩ := h.of_followed
  obtain ⟨l₇, _, n₇, e₇, a₇, rfl, h₇, h⟩ := h.of_followed
  cases h
  obtain ⟨inner, hl₁, hinner, hskip₁⟩ := recordDispatch_asks (hwalk _) hp h₁
  obtain ⟨hon₂, hskip₂⟩ := recordDispatch_onCourse (hwalk _) hp h₂ (by simp)
  obtain ⟨hon₃, hskip₃⟩ := recordDispatch_onCourse (hwalk _) hp h₃ (by simp)
  obtain ⟨hon₄, -⟩ := recordDescent_clears (hwalk _) h₄
  obtain ⟨hon₅, -⟩ := recordDispatch_onCourse (hwalk _) hp h₅ (by simp)
  obtain ⟨hon₆, -⟩ := recordDispatch_onCourse (hwalk _) hp h₆ (by simp)
  obtain ⟨hon₇, -⟩ := recordDispatch_onCourse (hwalk _) hp h₇ (by simp)
  have hbegin : (arrive n e).skip = false := hskip
  -- What is pending at the descent is what the three calls of this visit asked for.
  rw [hskip₂, hskip₁, hbegin, Bool.false_or] at hskip₃
  have hcourse : p.Course (p.recordWalk fuel) path n parent (arrive n e) _ :=
    .visit h₁ h₂ h₃ (recordDescent_of_skip _ hskip₃ h₄) h₅ h₆ h₇
  have hlater : p.OnCourse (l₂ ++ (l₃ ++ (l₄ ++ (l₅ ++ (l₆ ++ l₇))))) :=
    hon₂.append (hon₃.append (hon₄.append (hon₅.append (hon₆.append hon₇))))
  subst hl₁
  rw [List.append_nil]
  refine ⟨⟨fun _ => ?_, hinner.append hlater⟩, rfl⟩
  exact ⟨hbegin, fuel, path, _, [], rfl, (List.append_nil _).symm, hcourse⟩

theorem walk_clears (hp : p.handlers.Resolute) (fuel : Nat) (path : Path υ) :
    p.Clears (p.recordWalk fuel path) := by
  induction fuel generalizing path with
  | zero =>
    intro n parent e l m e' _ h
    cases h
  | succ fuel ih => exact visit_clears hp ih path

/-- In a run that succeeds every visit takes its course: it begins without a request, walks the
children of the node that its entry left unless its own entry handlers asked for a skip, and runs
its exit handlers. -/
theorem descends_unless_asked (hp : p.handlers.Resolute) {fuel : Nat} {tree : Node} {memory : υ}
    {output : Output} {memory' : υ} (hrun : p.run fuel tree memory = some ⟨.ok output, memory'⟩)
    {before after : List (Event υ)} {m : Moment υ}
    (hjournal : p.journal fuel tree memory = before ++ .reached m :: after)
    (hkey : m.key = .around .beforeEnter) : p.TakesCourse m after := by
  obtain ⟨⟨tree', e, verdict⟩, hwalk, hfinished⟩ := Option.map_eq_some_iff.1 hrun
  cases verdict with
  | error err => cases hfinished
  | ok a =>
    rw [← p.recordWalk_outcome fuel []] at hwalk
    have hends := Recorded.ends_of_outcome hwalk
    obtain ⟨hevents, -⟩ := walk_clears hp fuel [] tree none (.fresh memory) _ tree' e rfl hends
    rw [show (p.recordWalk fuel [] tree none (.fresh memory)).events = _ from hjournal] at hevents
    exact hevents.reached hkey

def tardy : HandlerSet Unit :=
  (HandlerSet.empty.withEnter "BlockStatement" fun n _ =>
    .setSkip true (.traverseChildren n fun n r => .done ⟨n, r.map fun _ => none⟩)).withExit
      "Identifier" fun n _ => .setSkip true (.done (.keep n))

def tardyPass : Pass Unit := ⟨.sourceless, .compose [tardy]⟩

def names : Node :=
  (Node.new "BlockStatement").withChildren "body" (List.replicate 2 (Node.new "Identifier"))

theorem tardy_resolute : tardy.Resolute := by
  refine HandlerSet.added_handlers (HandlerSet.added_handlers HandlerSet.empty_handlers
    (HandlerSet.lookup_withEnter _ _ _) ?_) (HandlerSet.lookup_withExit _ _ _) ?_
  · exact ⟨fun n parent m => ⟨trivial, fun err => rfl⟩,
      fun n parent pending => ⟨fun _ => rfl, fun m => trivial⟩⟩
  · exact ⟨fun n parent => trivial, fun n parent pending => ⟨fun _ => rfl, trivial⟩⟩

theorem descends_unless_asked_tardy :
    tardyPass.handlers.Resolute ∧
    ∃ output before m after, tardyPass.run 2 names () = some ⟨.ok output, ()⟩ ∧
      tardyPass.journal 2 names () = before ++ .reached m :: after ∧
      m.key = .around .beforeEnter ∧ m.node.kind = "Identifier" ∧
      m.parent.bind (·.index) = some 1 ∧ tardyPass.TakesCourse m after := by
  have hresolute : tardyPass.handlers.Resolute :=
    HandlerSet.compose_resolute (by simpa using tardy_resolute)
  obtain ⟨output, hrun⟩ : ∃ output, tardyPass.run 2 names () = some ⟨.ok output, ()⟩ :=
    ⟨_, rfl⟩
  obtain ⟨m, hm, hkey, hkind, hindex⟩ : ∃ m, .reached m ∈ tardyPass.journal 2 names () ∧
      m.key = .around .beforeEnter ∧ m.node.kind = "Identifier" ∧
      m.parent.bind (·.index) = some 1 :=
    ⟨_, List.mem_of_getElem? (i := 8) rfl, rfl, rfl, rfl⟩
  obtain ⟨before, after, hjournal⟩ := List.append_of_mem hm
  exact ⟨hresolute, output, before, m, after, hrun, hjournal, hkey, hkind, hindex,
    descends_unless_asked hresolute hrun hjournal hkey⟩

end Pass

end SyntaxWalk
