import SyntaxWalk.Proofs.DescentByHand
import SyntaxWalk.Proofs.InStep
import SyntaxWalk.Proofs.PlainHandlers

/-!
# The engine follows the walk

Handlers that only observe do not disturb the walk: the run of a pass makes its calls at the nodes
that a bare walk enters and leaves, three on each side of a visit, and ends as that walk does. The
bare walk is that of a visitor which notes every call it gets; `points` says which dispatch points of
the engine these calls stand for, the depth of each being how many visits are open.
-/

namespace SyntaxWalk

variable {υ : Type}

inductive Passage where
  | entered (n : Node) (parent : Option Parent)
  | left (n : Node) (parent : Option Parent)

def Visitor.recording {ε : Type} : Visitor (List Passage) ε :=
  .plain (fun n parent trace => ⟨n, trace ++ [.entered n parent], .ok .descend⟩)
    fun n parent trace => ⟨n, trace ++ [.left n parent], .ok ()⟩

structure Point where
  key : DispatchKey
  node : Node
  parent : Option Parent
  depth : Nat

def sidePoints (before : Hook) (phase : Phase) (after : Hook) (n : Node) (parent : Option Parent)
    (depth : Nat) : List Point :=
  [⟨.around before, n, parent, depth⟩, ⟨.node n.kind phase, n, parent, depth⟩,
    ⟨.around after, n, parent, depth⟩]

/-- The dispatch points of a trace in the order of their calls; `depth` visits are open before. -/
def points : Nat → List Passage → List Point
  | _, [] => []
  | depth, .entered n parent :: rest =>
    sidePoints .beforeEnter .enter .afterEnter n parent (depth + 1) ++ points (depth + 1) rest
  | depth, .left n parent :: rest =>
    sidePoints .beforeExit .exit .afterExit n parent depth ++ points (depth - 1) rest

def nesting : Nat → List Passage → Nat
  | depth, [] => depth
  | depth, .entered _ _ :: rest => nesting (depth + 1) rest
  | depth, .left _ _ :: rest => nesting (depth - 1) rest

def Point.passage? (point : Point) : Option Passage :=
  if point.key = .around .beforeEnter then some (.entered point.node point.parent)
  else if point.key = .around .afterExit then some (.left point.node point.parent)
  else none

def Call.point (call : Call υ) : Point := ⟨call.key, call.node, call.parent, call.engine.depth⟩

def Moment.point (m : Moment υ) : Point := ⟨m.key, m.node, m.parent, m.engine.depth⟩

def Event.point? : Event υ → Option Point
  | .reached m => some m.point
  | .failed _ _ => none

theorem points_append (depth : Nat) (before after : List Passage) :
    points depth (before ++ after) = points depth before ++ points (nesting depth before) after := by
  induction before generalizing depth with
  | nil => rfl
  | cons passage rest ih =>
    cases passage <;> simp only [List.cons_append, points, nesting, ih, List.append_assoc]

theorem nesting_append (depth : Nat) (before after : List Passage) :
    nesting depth (before ++ after) = nesting (nesting depth before) after := by
  induction before generalizing depth with
  | nil => rfl
  | cons passage rest ih => cases passage <;> exact ih _

theorem points_passages (depth : Nat) (trace : List Passage) :
    (points depth trace).filterMap Point.passage? = trace := by
  induction trace generalizing depth with
  | nil => rfl
  | cons passage rest ih =>
    cases passage <;> simp [points, sidePoints, Point.passage?, ih]

theorem calls_points (h : HandlerSet υ) (journal : List (Event υ)) :
    (h.calls journal).map Call.point =
      (journal.filterMap Event.point?).filter fun point => (h.lookup point.key).isSome := by
  rw [HandlerSet.calls, List.map_filterMap, List.filter_filterMap]
  congr 1
  funext event
  cases event with
  | failed before after => rfl
  | reached m =>
    have hkey : m.point.key = m.key := rfl
    simp only [Event.call?, Event.point?, Option.filter_some, hkey]
    cases (h.lookup m.key).isSome <;> rfl

theorem hooks_passages {h : HandlerSet υ} (henter : (h.hooks .beforeEnter).isSome)
    (hexit : (h.hooks .afterExit).isSome) (points : List Point) :
    (points.filter fun point => (h.lookup point.key).isSome).filterMap Point.passage? =
      points.filterMap Point.passage? := by
  rw [List.filterMap_filter]
  congr 1
  funext point
  unfold Point.passage?
  by_cases hbefore : point.key = .around .beforeEnter
  · have hcalled : (h.lookup point.key).isSome := by rw [hbefore]; exact henter
    rw [if_pos hcalled]
  · by_cases hafter : point.key = .around .afterExit
    · have hcalled : (h.lookup point.key).isSome := by rw [hafter]; exact hexit
      rw [if_pos hcalled]
    · simp only [hbefore, hafter, if_false, ite_self]

/-- Gives its node back as it was, and neither fails, walks nor asks for a skip. -/
def Handler.Observes (h : Handler υ) : Prop := ∀ n parent, (h n parent).Plain (· = .keep n)

def HandlerSet.Observes (h : HandlerSet υ) : Prop :=
  ∀ key handler, h.lookup key = some handler → handler.Observes

theorem HandlerSet.compose_observes {sets : List (HandlerSet υ)}
    (hsets : ∀ set ∈ sets, set.Observes) : (compose sets).Observes :=
  compose_handlers (baseline_handlers (fun _ _ => rfl) (fun _ _ => rfl) fun _ _ _ => rfl) hsets

theorem Visitor.recording_neverWrites {ε : Type} :
    (Visitor.recording : Visitor (List Passage) ε).NeverWrites where
  enter _ n _ _ := .now (R := (· = n)) rfl _ _
  leave _ n _ _ := .now (R := (· = n)) rfl _ _

theorem Visitor.recording_answers {ε : Type} :
    (Visitor.recording : Visitor (List Passage) ε).Answers where
  enter _ _ _ _ := rfl
  leave _ _ _ _ := rfl

/-- What happened so far is what the trace stands for. -/
structure Follows (past : List (Event υ)) (e : Engine υ) (trace : List Passage) : Prop where
  points : past.filterMap Event.point? = points 0 trace
  depth : e.depth = nesting 0 trace
  skip : e.skip = false

theorem Follows.side {past : List (Event υ)} {e e' : Engine υ} {trace : List Passage}
    {passage : Passage} {m₁ m₂ m₃ : Moment υ} (h : Follows past e trace)
    (hpoints : [m₁.point, m₂.point, m₃.point] = SyntaxWalk.points e.depth [passage])
    (hdepth : e'.depth = nesting e.depth [passage]) (hskip : e'.skip = false) :
    Follows (past ++ [.reached m₁] ++ [.reached m₂] ++ [.reached m₃]) e' (trace ++ [passage]) where
  points := by
    rw [points_append, ← h.depth, ← hpoints, ← h.points]
    simp [Event.point?]
  depth := by rw [hdepth, nesting_append, ← h.depth]
  skip := hskip

def Stops (past : List (Event υ)) (e : Engine υ) (trace : List Passage) (err : PassError) : Prop :=
  Follows past e trace ∧ ∃ node, err = .unknownKind node

namespace Pass

variable {p : Pass υ} (hp : p.handlers.Observes)

include hp

theorem recordDispatch_observes (walk : RecordedVisit υ) (path : Path υ) (key : DispatchKey)
    (n : Node) (parent : Option Parent) (e : Engine υ) :
    ∃ e', p.recordDispatch walk path key n parent e =
      ⟨[.reached ⟨key, n, parent, e, path⟩], some ⟨n, e', .ok ()⟩⟩ ∧ e.Steady e' := by
  cases hlookup : p.handlers.lookup key with
  | none => exact ⟨e, p.recordDispatch_of_none hlookup walk path n parent e, .refl e⟩
  | some handler =>
    have hplain := hp key handler hlookup n parent
    obtain ⟨_, e', hrun, rfl, hsteady⟩ := Script.run_plain (p.surroundings walk.forget) hplain e
    refine ⟨e', ?_, hsteady⟩
    rw [p.recordDispatch_of_some hlookup, Script.record_plain _ walk hplain, hrun]
    rfl

theorem dispatch_leads {walk : RecordedVisit υ} {path : Path υ} {key : DispatchKey} {n : Node}
    {parent : Option Parent} {e : Engine υ} {past : List (Event υ)}
    {next : Node → Engine υ → Unit → RecordedDispatch υ}
    {right : Option (Outcome Node (List Passage) SyntaxError Unit)}
    (h : ∀ e', e.Steady e' → Recorded.InStep Follows Stops False
      (past ++ [.reached ⟨key, n, parent, e, path⟩]) (next n e' ()) right) :
    Recorded.InStep Follows Stops False past
      ((p.recordDispatch walk path key n parent e).followed id next) right := by
  obtain ⟨e', hcalled, hsteady⟩ := recordDispatch_observes hp walk path key n parent e
  rw [hcalled]
  exact .lead (h e' hsteady)

theorem recordVisit_follows {walk : Path υ → RecordedVisit υ}
    {walk' : Descent (List Passage) SyntaxError}
    (hwalk : ∀ path past n parent e trace, Follows past e trace →
      Recorded.InStep Follows Stops False past (walk path n parent e) (walk' n parent trace))
    (path : Path υ) {past : List (Event υ)} (n : Node) (parent : Option Parent) {e : Engine υ}
    {trace : List Passage} (h : Follows past e trace) :
    Recorded.InStep Follows Stops False past (p.recordVisit walk path n parent e)
      (visit .recording p.options.keys walk' n parent trace) := by
  have hright : visit .recording p.options.keys walk' n parent trace =
      (walkChildren p.options.keys walk' n (trace ++ [.entered n parent])).bind fun o =>
        o.andThen fun n trace _ => some ⟨n, trace ++ [.left n parent], .ok ()⟩ := rfl
  rw [hright]
  -- The three points of the entry side, where the bare walk enters the node.
  refine dispatch_leads hp fun e₁ hs₁ => dispatch_leads hp fun e₂ hs₂ =>
    dispatch_leads hp fun e₃ hs₃ => ?_
  have hskip : e₃.skip = false := hs₃.skip (hs₂.skip (hs₁.skip h.skip))
  have hd₁ : e₁.depth = e.depth + 1 := hs₁.depth
  have hd₂ : e₂.depth = e.depth + 1 := hs₂.depth.trans hd₁
  rw [recordDescent_unskipped _ _ _ hskip]
  refine Recorded.InStep.andThen (recordChildren_inStep (fun past e trace node h => ⟨h, node, rfl⟩)
    (hwalk _) p.options.keys n (h.side ?_ (hs₃.depth.trans hd₂) hskip)) fun m e₄ trace' _ h' => ?_
  · simp only [Moment.point, hd₁, hd₂]
    rfl
  -- The three points of the exit side, where it leaves the node.
  refine dispatch_leads hp fun e₅ hs₅ => dispatch_leads hp fun e₆ hs₆ =>
    dispatch_leads hp fun e₇ hs₇ => ?_
  have hd₅ : e₅.depth = e₄.depth := hs₅.depth
  have hd₆ : e₆.depth = e₄.depth := hs₆.depth.trans hd₅
  have hd₇ : (depart m e₇).state.depth = e₄.depth - 1 := congrArg (· - 1) (hs₇.depth.trans hd₆)
  refine .now (h'.side ?_ hd₇ rfl) m ()
  simp only [Moment.point, hd₅, hd₆]
  rfl

omit hp in
theorem recordWalk_follows (hp : p.handlers.Observes) (fuel : Nat) (path : Path υ)
    (past : List (Event υ)) (n : Node) (parent : Option Parent) (e : Engine υ)
    (trace : List Passage) (h : Follows past e trace) :
    Recorded.InStep Follows Stops False past (p.recordWalk fuel path n parent e)
      (walkNode .recording p.options.keys fuel n parent trace) := by
  induction fuel generalizing path past n parent e trace with
  | zero => exact .exhausted
  | succ fuel ih => exact recordVisit_follows hp ih path n parent h

theorem run_of_trace {fuel : Nat} {tree : Node} (memory : υ) {trace : List Passage}
    {verdict : Except PassError Unit}
    (hwalk : walkNode .recording p.options.keys fuel tree none [] = some ⟨tree, trace, verdict⟩) :
    ∃ e, Follows (p.journal fuel tree memory) e trace ∧
      p.run fuel tree memory = some ⟨verdict.map fun _ => ⟨tree, e.warnings⟩, e.memory⟩ ∧
      ∀ err, verdict = .error err → ∃ node, err = .unknownKind node := by
  have hsteps := recordWalk_follows hp fuel [] [] tree none (.fresh memory) [] ⟨rfl, rfl, rfl⟩
  rw [Recorded.InStep, hwalk] at hsteps
  rw [run, ← p.recordWalk_outcome fuel [], journal]
  generalize p.recordWalk fuel [] tree none (.fresh memory) = c at hsteps ⊢
  obtain ⟨events, outcome⟩ := c
  cases hsteps with
  | @ok _ e _ _ h => exact ⟨e, h, rfl, fun err herr => (by cases herr)⟩
  | @failed _ e _ err h =>
    refine ⟨e, h.1, rfl, fun err herr => ?_⟩
    cases herr
    exact h.2
  | ahead h => exact h.elim

end Pass

def Pass.callPoints (p : Pass υ) (fuel : Nat) (tree : Node) (memory : υ) : List Point :=
  (p.handlers.calls (p.journal fuel tree memory)).map Call.point

def watching : HandlerSet Unit :=
  HandlerSet.empty
    |>.withHook .beforeEnter (fun n _ => .warn n.loc "in" (.done (.keep n)))
    |>.withHook .afterExit (fun n _ => .warn n.loc "out" (.done (.keep n)))
    |>.withEnter "Identifier" fun n _ => .pushScope n.info (.done (.keep n))

def watched : Node :=
  (Node.new "Program").withChildren "body" [Node.new "Identifier", Node.new "Mystery"]

def watchedOptions : Options :=
  ⟨"", "", .registerLeaf (.register .empty "Program" ["body"]) "Identifier"⟩

theorem watching_observes : watching.Observes := by
  refine HandlerSet.added_handlers (HandlerSet.added_handlers (HandlerSet.added_handlers
    HandlerSet.empty_handlers (HandlerSet.lookup_withHook _ _ _) ?_)
    (HandlerSet.lookup_withHook _ _ _) ?_) (HandlerSet.lookup_withEnter _ _ _) ?_
  all_goals exact fun _ _ => rfl

end SyntaxWalk
