import SyntaxWalk.Proofs.LastCall
import SyntaxWalk.Proofs.VisitPoints

/-!
# Open visits

The depth of the engine counts the open visits, those of a nested walk on top of the ones around it.
A nested walk that fails leaves its visits counted (`Event.Even`), so a handler that goes on after
one finds the depth too high from then on. Handlers that pass errors on never go on, and with them
the count is right at every call (`depth_counts_open_visits`).
-/

namespace SyntaxWalk

variable {υ : Type}

def Event.Even : Event υ → Prop
  | .reached _ => True
  | .failed before after => after.depth = before.depth

def AllEven (past : List (Event υ)) : Prop := ∀ event ∈ past, event.Even

/-- The visitor of a pass, but with no outcome where it would leave a visit at depth zero. -/
def Pass.guardedVisitor (p : Pass υ) : Visitor (Engine υ) SyntaxError where
  enter := p.visitor.enter
  leave walk n parent e := do
    let o ← p.dispatchSide walk .beforeExit .exit .afterExit n parent
      { e with current := some n.info }
    o.andThen fun n e _ => if e.depth = 0 then none else some (depart n e)

namespace OpenVisits

open VisitPoints

structure Counts (visits : Nat) (past : List (Event υ)) (e : Engine υ) : Prop where
  le : visits ≤ e.depth
  eq_iff : e.depth = visits ↔ AllEven past

structure Bounds (visits : Nat) (past : List (Event υ)) (e : Engine υ) : Prop where
  le : visits ≤ e.depth
  even : e.depth = visits → AllEven past

/-- A handler is called with the right count, `base` visits lying beneath the path. -/
def Seen (base : Nat) (past : List (Event υ)) : Event υ → Prop
  | .reached m => Counts (base + m.path.length) past m.engine
  | .failed _ _ => True

theorem allEven_append {first second : List (Event υ)} :
    AllEven (first ++ second) ↔ AllEven first ∧ AllEven second := List.forall_mem_append

theorem allEven_singleton {event : Event υ} : AllEven [event] ↔ event.Even :=
  List.forall_mem_singleton

variable {visits : Nat} {past : List (Event υ)} {e e' : Engine υ}

theorem Bounds.outer (h : Bounds (visits + 1) past e) : Bounds visits past e :=
  ⟨Nat.le_of_succ_le h.le, fun heq => absurd h.le (by omega)⟩

namespace Counts

theorem start (e : Engine υ) : Counts e.depth [] e :=
  ⟨Nat.le_refl _, fun _ _ h => absurd h List.not_mem_nil, fun _ => rfl⟩

theorem of_depth (h : Counts visits past e) (hdepth : e'.depth = e.depth) :
    Counts visits past e' := by
  refine ⟨?_, ?_⟩
  · rw [hdepth]
    exact h.le
  · rw [hdepth]
    exact h.eq_iff

theorem reached (h : Counts visits past e) (m : Moment υ) :
    Counts visits (past ++ [.reached m]) e := by
  refine ⟨h.le, ?_⟩
  rw [h.eq_iff, allEven_append, allEven_singleton]
  exact (and_iff_left trivial).symm

theorem arrive (h : Counts visits past e) (n : Node) :
    Counts (visits + 1) past (Pass.arrive n e) :=
  ⟨Nat.succ_le_succ h.le, Nat.succ_inj.trans h.eq_iff⟩

theorem depart (h : Counts (visits + 1) past e) (n : Node) :
    Counts visits past (Pass.depart n e).state := by
  have hle : visits ≤ e.depth - 1 := Nat.le_sub_one_of_lt h.le
  refine ⟨hle, ?_⟩
  rw [← h.eq_iff]
  have hpos : visits + 1 ≤ e.depth := h.le
  show e.depth - 1 = visits ↔ e.depth = visits + 1
  omega

theorem bounds (h : Counts visits past e) : Bounds visits past e := ⟨h.le, h.eq_iff.1⟩

/-- A handler goes on after a walk that failed. Where the count is right after that, it was before,
and so the walk left the depth as it was. -/
theorem resume {rest : List (Event υ)} {before after : Engine υ} (h : Counts visits past before)
    (hleft : Bounds visits (past ++ rest) after) :
    Counts visits (past ++ rest ++ [.failed before after]) after := by
  refine ⟨hleft.le, ?_⟩
  rw [allEven_append, allEven_singleton]
  constructor
  · intro heq
    have hrest := hleft.even heq
    have hbefore : before.depth = visits := h.eq_iff.2 (allEven_append.1 hrest).1
    exact ⟨hrest, heq.trans hbefore.symm⟩
  · rintro ⟨hrest, hevent⟩
    have hbefore : before.depth = visits := h.eq_iff.2 (allEven_append.1 hrest).1
    exact Eq.trans hevent hbefore

end Counts

variable {p : Pass υ} {base : Nat}

abbrev CountsOn (base : Nat) (past : List (Event υ)) (path : Path υ) (e : Engine υ) : Prop :=
  Counts (base + path.length) past e

abbrev BoundsOn (base : Nat) (past : List (Event υ)) (path : Path υ) (e : Engine υ) : Prop :=
  Bounds (base + path.length) past e

theorem dispatch_meets {walk : Path υ → RecordedVisit υ}
    (hwalk : Kept (Seen base) (CountsOn base) (BoundsOn base) (fun _ _ => True) walk)
    (outer inner : Path υ) (hlength : inner.length = outer.length) (key : DispatchKey) (n : Node)
    (parent : Option Parent) (he : Counts (base + outer.length) past e) :
    (p.recordDispatch (walk outer) inner key n parent e).Meets (Seen base)
      (fun l _ e _ => True ∧ CountsOn base l outer e) (fun l e => BoundsOn base l outer e)
      past := by
  have hreached : Seen base past (.reached ⟨key, n, parent, e, inner⟩) := by
    rwa [Seen, hlength]
  refine Pass.recordDispatch_meets hreached ⟨trivial, he.reached _⟩ fun handler _ => ?_
  have hcalled : (settled ((handler n parent).record (p.surroundings (walk outer).forget)
      (walk outer) e)).Meets (Seen base) (fun l _ e _ => CountsOn base l outer e)
      (fun l e => BoundsOn base l outer e) (past ++ [.reached ⟨key, n, parent, e, inner⟩]) := by
    refine Script.record_free (I := Counts (base + outer.length))
      (fun _ _ _ ht h => h.of_depth ht.1) (fun _ _ _ => trivial) (fun _ _ h => h.bounds)
      (fun _ _ _ _ hbefore hleft => hbefore.resume hleft) (fun past m parent e he => ?_)
      (.inr fun hdepth h => h.of_depth hdepth) (he.reached _)
    exact (hwalk past outer m parent e he).imp (fun _ _ _ _ h => h.2) fun _ _ h => h
  exact hcalled.imp (fun _ _ _ _ h => ⟨trivial, h⟩) fun _ _ h => h

theorem invariant (p : Pass υ) (base : Nat) :
    p.Invariant (Seen base) (CountsOn base) (BoundsOn base) (fun _ _ => True) where
  kind _ := trivial
  trans _ _ := trivial
  touch _ _ h := h.of_depth rfl
  arrive n h := h.arrive n
  depart n h := h.depart n
  spoil h := h.bounds
  widen h := h.outer
  around hwalk _ path _ _ n parent he := dispatch_meets hwalk path path rfl _ n parent he
  enter hwalk _ path _ n parent he :=
    dispatch_meets hwalk (none :: path) (none :: path) rfl _ n parent he
  exit hwalk _ path entry _ n parent _ he :=
    dispatch_meets hwalk (none :: path) (some entry :: path) rfl _ n parent he

/-- Whatever the handlers do: a visit that fails is still counted. -/
theorem walk_counts (p : Pass υ) (fuel : Nat) (n : Node) (parent : Option Parent)
    (he : Counts visits past e) :
    (p.recordWalk fuel [] n parent e).Meets (Seen visits) (fun l _ e _ => Counts visits l e)
      (fun l e => Bounds (visits + 1) l e) past := by
  have h := invariant p visits
  cases fuel with
  | zero => exact p.recordWalk_zero_meets [] n parent e
  | succ fuel =>
    have hstart : CountsOn visits past [] e := he
    exact (h.visit_open (h.walk fuel) n parent hstart).imp (fun _ _ _ _ h => h.2)
      fun _ _ hopen => hopen.elim fun _ h => h

/-- Whatever the handlers do, the depth that a call sees is at least the number of open visits. It
is that number as long as every nested walk that failed has left the depth as it was. -/
theorem journal_counts (p : Pass υ) (fuel : Nat) (tree : Node) (memory : υ) :
    (∀ first m rest, p.journal fuel tree memory = first ++ .reached m :: rest →
      m.path.length ≤ m.engine.depth ∧ (m.engine.depth = m.path.length ↔ AllEven first)) ∧
    ∀ n e, p.walk fuel tree none (.fresh memory) = some ⟨n, e, .ok ()⟩ →
      (e.depth = 0 ↔ AllEven (p.journal fuel tree memory)) := by
  obtain ⟨hseen, hend⟩ := (invariant p 0).run fuel tree memory (Counts.start (.fresh memory))
  refine ⟨fun first m rest hsplit => ?_, fun n e hrun => (hend n e hrun).eq_iff⟩
  have hcounts : Counts (0 + m.path.length) first m.engine := hseen first _ rest hsplit
  rw [Nat.zero_add] at hcounts
  exact ⟨hcounts.le, hcounts.eq_iff⟩

def Unfailed (past : List (Event υ)) : Prop := ∀ before after, .failed before after ∉ past

theorem Unfailed.allEven (h : Unfailed past) : AllEven past := by
  intro event hevent
  cases event with
  | reached m => trivial
  | failed before after => exact absurd hevent (h before after)

theorem Unfailed.reached (h : Unfailed past) (m : Moment υ) : Unfailed (past ++ [.reached m]) := by
  intro before after hmem
  rcases List.mem_append.1 hmem with hpast | hlast
  · exact h before after hpast
  · cases List.mem_singleton.1 hlast

theorem unfailed_nil : Unfailed ([] : List (Event υ)) := fun _ _ h => absurd h List.not_mem_nil

def CalledCalmly (past : List (Event υ)) : Event υ → Prop
  | .reached _ => Unfailed past
  | .failed _ _ => True

theorem calm_dispatch (hp : p.handlers.PassesOn) {walk : Path υ → RecordedVisit υ}
    (hwalk : Kept CalledCalmly (fun l _ _ => Unfailed l) (fun _ _ _ => True) (fun _ _ => True) walk)
    (outer inner : Path υ) (key : DispatchKey) (n : Node) (parent : Option Parent)
    (e : Engine υ) (hpast : Unfailed past) :
    (p.recordDispatch (walk outer) inner key n parent e).Meets CalledCalmly
      (fun l _ _ _ => True ∧ Unfailed l) (fun _ _ => True) past := by
  refine Pass.recordDispatch_meets hpast ⟨trivial, hpast.reached _⟩ fun handler hlookup => ?_
  have hR : (handler n parent).Respects (fun _ _ => True) n :=
    Script.respects_of_forall fun _ _ => trivial
  exact Script.record_passing (I := fun l _ => Unfailed l) (fun _ => trivial)
    (fun _ _ _ _ h => h) (fun _ _ _ => trivial) (fun _ _ => trivial)
    (fun past m parent e he => hwalk past outer m parent e he) (.inr fun _ h => h)
    (hp key handler hlookup n parent) hR (hpast.reached _)

theorem calm_invariant (hp : p.handlers.PassesOn) :
    p.Invariant CalledCalmly (fun l _ _ => Unfailed l) (fun _ _ _ => True) (fun _ _ => True) where
  kind _ := trivial
  trans _ _ := trivial
  touch _ _ h := h
  arrive _ h := h
  depart _ h := h
  spoil _ := trivial
  widen _ := trivial
  around hwalk _ path e _ n parent h := calm_dispatch hp hwalk path path _ n parent e h
  enter hwalk _ _ e n parent h := calm_dispatch hp hwalk _ _ _ n parent e h
  exit hwalk _ path entry e n parent _ h :=
    calm_dispatch hp hwalk (none :: path) (some entry :: path) _ n parent e h

section PassesOn

variable (hp : p.handlers.PassesOn) {fuel : Nat} {n m : Node} {parent : Option Parent}

include hp

theorem walk_calm (fuel : Nat) (n : Node) (parent : Option Parent) (e : Engine υ)
    (hpast : Unfailed past) :
    (p.recordWalk fuel [] n parent e).Meets CalledCalmly (fun l _ _ _ => Unfailed l)
      (fun _ _ => True) past :=
  ((calm_invariant hp).walk fuel past [] n parent e hpast).imp (fun _ _ _ _ h => h.2)
    fun _ _ h => h

theorem depth_of_reached {c : Moment υ}
    (hc : .reached c ∈ (p.recordWalk fuel [] n parent e).events) :
    c.engine.depth = e.depth + c.path.length := by
  obtain ⟨first, rest, hsplit⟩ := List.append_of_mem hc
  have hunfailed : Unfailed first :=
    (walk_calm hp fuel n parent e unfailed_nil).events first _ rest hsplit
  have hseen : Counts (e.depth + c.path.length) first c.engine :=
    (walk_counts p fuel n parent (Counts.start e)).events first _ rest hsplit
  exact hseen.eq_iff.2 hunfailed.allEven

theorem depth_of_ok
    (ho : (p.recordWalk fuel [] n parent e).outcome = some ⟨m, e', .ok ()⟩) :
    e'.depth = e.depth := by
  have hunfailed := (walk_calm hp fuel n parent e unfailed_nil).success m e' () ho
  have hcounts := (walk_counts p fuel n parent (Counts.start e)).success m e' () ho
  exact hcounts.eq_iff.2 hunfailed.allEven

end PassesOn

def Rises {τ α : Type} (d : Nat) (o : Option (Outcome τ (Engine υ) SyntaxError α)) : Prop :=
  ∀ t e verdict, o = some ⟨t, e, verdict⟩ → d ≤ e.depth

namespace Rises

variable {τ τ' α β : Type} {d : Nat} {o : Option (Outcome τ (Engine υ) SyntaxError α)}
  {f g : τ → Engine υ → α → Option (Outcome τ (Engine υ) SyntaxError β)}

theorem of_meets {Q : List (Event υ) → Event υ → Prop}
    {c : Recorded (Event υ) τ (Engine υ) SyntaxError α}
    (h : c.Meets Q (fun l _ e _ => Counts d l e) (fun l e => Bounds d l e) past) :
    Rises d c.outcome := by
  intro t e verdict ho
  cases verdict with
  | ok a => exact (h.success t e a ho).le
  | error err => exact (h.failure t e err ho).le

theorem andThen (h : Rises d o) (hf : ∀ t e a, d ≤ e.depth → Rises d (f t e a)) :
    Rises d (o.bind fun o => o.andThen f) := by
  rcases o with _ | ⟨t, e, err | a⟩
  · exact fun _ _ _ ho => (by cases ho)
  · intro t' e' verdict ho
    cases ho
    exact h t e _ rfl
  · exact hf t e a (h t e _ rfl)

theorem andThen_congr (h : Rises d o) (hfg : ∀ t e a, d ≤ e.depth → f t e a = g t e a) :
    (o.bind fun o => o.andThen f) = o.bind fun o => o.andThen g := by
  rcases o with _ | ⟨t, e, err | a⟩
  · rfl
  · rfl
  · exact hfg t e a (h t e _ rfl)

end Rises

section Guard

variable (p) (fuel : Nat) {d : Nat}

theorem walk_rises (n : Node) (parent : Option Parent) {e : Engine υ} (he : d ≤ e.depth) :
    Rises d (p.walk fuel n parent e) := by
  have hmeets := walk_counts p fuel n parent (Counts.start e)
  rw [← p.recordWalk_outcome fuel []]
  intro m e' verdict ho
  have hrises := Rises.of_meets (hmeets.imp (fun _ _ _ _ h => h) fun _ _ h => h.outer)
  exact Nat.le_trans he (hrises m e' verdict ho)

theorem children_rises (n : Node) {e : Engine υ} (he : d ≤ e.depth) :
    Rises d (walkChildren p.options.keys (p.walk fuel) n e) := by
  let silent : RecordedDescent Empty (Engine υ) SyntaxError := (p.walk fuel).silent
  have hsteps : ∀ past n parent e, d ≤ e.depth → (silent n parent e).Meets (fun _ _ => True)
      (fun _ _ e _ => d ≤ e.depth) (fun _ e => d ≤ e.depth) past := by
    intro past n parent e he
    have hrises := walk_rises p fuel n parent he
    exact ⟨fun _ _ _ _ => trivial, fun m e' a ho => hrises m e' (.ok a) ho,
      fun m e' err ho => hrises m e' (.error err) ho⟩
  have hchildren : (recordChildren p.options.keys silent n e).Meets (fun _ _ => True)
      (fun _ m e _ => m.kind = n.kind ∧ d ≤ e.depth) (fun _ e => d ≤ e.depth) [] :=
    recordChildren_meets (fun _ _ h => h) hsteps p.options.keys n he
  intro m e' verdict ho
  rw [show p.walk fuel = silent.forget from rfl, ← recordChildren_outcome] at ho
  cases verdict with
  | ok a => exact (hchildren.success m e' a ho).2
  | error err => exact hchildren.failure m e' err ho

theorem side_rises (before : Hook) (phase : Phase) (after : Hook) (n : Node)
    (parent : Option Parent) {e : Engine υ} (he : d ≤ e.depth) :
    Rises d (p.dispatchSide (p.walk fuel) before phase after n parent e) := by
  have hdispatch : ∀ key n e, d ≤ e.depth →
      Rises d (p.dispatch (p.walk fuel) (p.handlers.lookup key) n parent e) := by
    intro key n e he
    rw [← p.recordWalk_forget fuel [], ← p.recordDispatch_outcome (p.recordWalk fuel []) []]
    intro m e' verdict ho
    have hmeets : (p.recordDispatch (p.recordWalk fuel []) [] key n parent e).Meets (Seen e.depth)
        (fun l _ e' _ => True ∧ Counts e.depth l e') (fun l e' => Bounds e.depth l e') [] :=
      dispatch_meets ((invariant p e.depth).walk fuel) [] [] rfl key n parent (Counts.start e)
    have hrises := Rises.of_meets (hmeets.imp (fun _ _ _ _ h => h.2) fun _ _ h => h)
    exact Nat.le_trans he (hrises m e' verdict ho)
  simp only [Pass.dispatchSide, Option.bind_eq_bind, ← Option.bind_assoc]
  exact ((hdispatch (.around before) n e he).andThen fun n e _ he =>
    hdispatch (.node n.kind phase) n e he).andThen fun n e _ he => hdispatch (.around after) n e he

theorem guarded_leave (n : Node) (parent : Option Parent) {e : Engine υ} (he : 1 ≤ e.depth) :
    p.guardedVisitor.leave (p.walk fuel) n parent e = p.visitor.leave (p.walk fuel) n parent e := by
  have hside := side_rises p fuel .beforeExit .exit .afterExit n parent
    (e := { e with current := some n.info }) he
  exact hside.andThen_congr fun m e _ he => if_neg (Nat.ne_of_gt he)

theorem guarded_walk : walkNode p.guardedVisitor p.options.keys fuel = p.walk fuel := by
  induction fuel with
  | zero => rfl
  | succ fuel ih =>
    funext n parent e
    have harrive : 1 ≤ (Pass.arrive n e).depth := Nat.succ_le_succ (Nat.zero_le _)
    have hentered : Rises 1 (p.visitor.enter (p.walk fuel) n parent e) :=
      (side_rises p fuel .beforeEnter .enter .afterEnter n parent harrive).andThen
        fun m e _ he => by
          intro m' e' verdict ho
          cases ho
          exact he
    rw [walkNode, ih]
    simp only [Pass.walk, walkNode, visit, Option.bind_eq_bind, ← Option.bind_assoc]
    refine (hentered.andThen fun m e control he => ?_).andThen_congr fun m e _ he =>
      guarded_leave p fuel m parent he
    cases control with
    | descend => exact children_rises p fuel m he
    | skip =>
      intro m' e' verdict ho
      cases ho
      exact he

end Guard

/-- With handlers that pass errors on, every call of a run sees as depth the number of open visits,
its own included. A visit makes the calls of its six points, or the first of them if it fails, and
all of them with one visit more open than before it; if it succeeds it leaves the depth as it was.
No visit is left at depth zero, and a run that succeeds ends with that depth. -/
theorem depth_counts_open_visits (hp : p.handlers.PassesOn) :
    (∀ fuel tree memory m, .reached m ∈ p.journal fuel tree memory →
      m.engine.depth = m.path.length) ∧
    (∀ fuel n parent e,
      let visit := p.recordWalk fuel [] n parent e
      (∀ m, .reached m ∈ visit.events → m.engine.depth = e.depth + m.path.length) ∧
      ∃ kind kind', keysAt 1 visit.events <+: visitKeys kind kind' ∧
        ∀ m e', visit.outcome = some ⟨m, e', .ok ()⟩ →
          keysAt 1 visit.events = visitKeys kind kind' ∧ e'.depth = e.depth) ∧
    (∀ fuel, walkNode p.guardedVisitor p.options.keys fuel = p.walk fuel) ∧
    ∀ fuel tree memory n e, p.walk fuel tree none (.fresh memory) = some ⟨n, e, .ok ()⟩ →
      e.depth = 0 := by
  refine ⟨fun fuel tree memory m hm => ?_,
    fun fuel n parent e => ⟨fun m hm => depth_of_reached hp hm, ?_⟩, guarded_walk p,
    fun fuel tree memory n e ho => ?_⟩
  · exact (depth_of_reached hp hm).trans (Nat.zero_add _)
  · obtain ⟨⟨kind, kind'⟩, hcalls⟩ := walk_calls p fuel [] n parent e
    exact ⟨kind, kind', hcalls.keys_le, fun m e' ho =>
      ⟨hcalls.keys_eq m e' () ho, depth_of_ok hp ho⟩⟩
  · rw [← p.recordWalk_outcome fuel []] at ho
    exact depth_of_ok hp ho

def reentrant : HandlerSet Unit :=
  HandlerSet.empty
    |>.withEnter programKind (fun n _ => .setSkip true (.traverseChildren n fun n r =>
      .done ⟨n, r.map fun _ => none⟩))
    |>.withExit "Identifier" fun n _ => .traverse (Node.new "Literal") none fun _ r =>
      .done ⟨n, r.map fun _ => none⟩

def reentrantPass : Pass Unit := ⟨.sourceless, .compose [reentrant]⟩

theorem reentrant_passesOn : reentrant.PassesOn := by
  refine HandlerSet.added_handlers (HandlerSet.added_handlers HandlerSet.empty_handlers
    (HandlerSet.lookup_withEnter _ _ _) ?_) (HandlerSet.lookup_withExit _ _ _) ?_
  · exact fun _ _ _ => ⟨trivial, fun _ => rfl⟩
  · exact fun _ _ _ => ⟨trivial, fun _ => rfl⟩

theorem depth_counts_reentrant_visits :
    reentrantPass.handlers.PassesOn ∧
    (∃ m, .reached m ∈ reentrantPass.journal 4 oneName () ∧ m.node.kind = "Literal" ∧
      m.path.length = 3 ∧ m.engine.depth = m.path.length) ∧
    (∃ kind kind', keysAt 1 (reentrantPass.recordWalk 4 [] oneName none (.fresh ())).events =
      visitKeys kind kind') ∧
    (∃ n e, reentrantPass.walk 4 oneName none (.fresh ()) = some ⟨n, e, .ok ()⟩ ∧ e.depth = 0) := by
  have hpasses : reentrantPass.handlers.PassesOn :=
    HandlerSet.compose_passesOn (by simpa using reentrant_passesOn)
  obtain ⟨hdepth, hvisit, -, hend⟩ := depth_counts_open_visits hpasses
  refine ⟨hpasses, ?_, ?_, ?_⟩
  · have hm : .reached _ ∈ reentrantPass.journal 4 oneName () :=
      List.mem_of_getElem? (i := 7) rfl
    exact ⟨_, hm, rfl, rfl, hdepth 4 oneName () _ hm⟩
  · obtain ⟨-, kind, kind', -, hall⟩ := hvisit 4 oneName none (.fresh ())
    exact ⟨kind, kind', (hall _ _ rfl).1⟩
  · have hrun : reentrantPass.walk 4 oneName none (.fresh ()) = some ⟨_, _, .ok ()⟩ := rfl
    exact ⟨_, _, hrun, hend 4 oneName () _ _ hrun⟩

end OpenVisits

end SyntaxWalk
