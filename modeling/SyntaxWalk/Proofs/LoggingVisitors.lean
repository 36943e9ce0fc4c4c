import SyntaxWalk.Proofs.InStep
import SyntaxWalk.Proofs.Tracks

/-!
# Visitors that log

The track of a walk is kept by a second walk beside it. Here the visitor keeps a log itself, beside
its own state: it does what it did, also in the walks that it starts, and writes down each call that
the walk makes to it, but for the place, which it is not told. At the end the log is the track
(`walkNode_logging`).
-/

namespace SyntaxWalk

variable {σ ε α : Type}

namespace Mark

def unplaced : Mark σ ε → Mark σ ε
  | .entered call => .entered { call with place := [] }
  | .left call => .left { call with place := [] }

end Mark

abbrev LoggedState (σ ε : Type) := σ × List (Mark σ ε)

def Outcome.withState {σ' : Type} (o : Outcome Node σ ε α) (state : σ') : Outcome Node σ' ε α :=
  ⟨o.subject, state, o.verdict⟩

def Descent.unlogged (walk : Descent (LoggedState σ ε) ε) : Descent σ ε := fun n parent s =>
  (walk n parent (s, [])).map fun o => o.withState o.state.1

def Visitor.logging (v : Visitor σ ε) : Visitor (LoggedState σ ε) ε where
  enter walk n parent state :=
    (v.enter (Descent.unlogged walk) n parent state.1).map fun o =>
      o.withState (o.state, state.2 ++ [.entered ⟨[], n, parent, state.1, some o⟩])
  leave walk n parent state :=
    (v.leave (Descent.unlogged walk) n parent state.1).map fun o =>
      o.withState (o.state, state.2 ++ [.left ⟨[], n, parent, state.1, some o⟩])

def Logs (past : List (Mark σ ε)) (s : σ) (state : LoggedState σ ε) : Prop :=
  state = (s, past.map Mark.unplaced)

abbrev TracksLog (past : List (Mark σ ε)) (c : Recorded (Mark σ ε) Node σ ε α)
    (o' : Option (Outcome Node (LoggedState σ ε) ε α)) : Prop :=
  Recorded.InStep Logs (fun past s state _ => Logs past s state) False past c o'

theorem call_logs (past : List (Mark σ ε)) (o : Option (Outcome Node σ ε α))
    (mark : Option (Outcome Node σ ε α) → Mark σ ε) :
    TracksLog past ⟨[mark o], o⟩ (o.map fun o =>
      o.withState (o.state, past.map Mark.unplaced ++ [(mark (some o)).unplaced])) := by
  rcases o with _ | ⟨n, s, err | a⟩
  · exact .exhausted
  · exact .failed (by simp [Logs])
  · exact .ok (by simp [Logs])

section Visit

variable {v : Visitor σ ε} {keys : VisitorKeys} {walk : Descent (LoggedState σ ε) ε}
  {track : Place → Track σ ε}
  (hwalk : ∀ place past n parent s state, Logs past s state →
    TracksLog past (track place n parent s) (walk n parent state))

include hwalk

theorem unlogged_eq_forget (place : Place) : walk.unlogged = (track place).forget := by
  funext n parent s
  have hsteps := hwalk place [] n parent s (s, []) rfl
  simp only [TracksLog, Recorded.InStep] at hsteps
  rw [Descent.unlogged, RecordedDescent.forget]
  generalize walk n parent (s, []) = o' at hsteps ⊢
  generalize track place n parent s = c at hsteps ⊢
  obtain ⟨events, outcome⟩ := c
  cases hsteps with
  | exhausted => rfl
  | ok h =>
    obtain rfl := h
    rfl
  | failed h =>
    obtain rfl := h
    rfl
  | ahead h => exact h.elim

theorem descent_logs (place : Place) (n : Node) (control : Control) {past : List (Mark σ ε)} {s : σ}
    {state : LoggedState σ ε} (h : Logs past s state) :
    TracksLog past (trackDescent keys track place n s control)
      (match control with
      | .descend => walkChildren keys walk n state
      | .skip => some ⟨n, state, .ok ()⟩) := by
  cases control with
  | descend =>
    exact recordChildren_inStep (fun _ _ _ _ h => h)
      (fun past n parent => hwalk (place.under parent) past n parent) keys n h
  | skip => exact .now h n ()

theorem trackVisit_logs (place : Place) (past : List (Mark σ ε)) (n : Node)
    (parent : Option Parent) (s : σ) (state : LoggedState σ ε) (h : Logs past s state) :
    TracksLog past (trackVisit v keys walk.unlogged track place n parent s)
      (visit v.logging keys walk n parent state) := by
  subst h
  simp only [visit, Option.bind_eq_bind, ← Option.bind_assoc, Outcome.bind_andThen_assoc]
  refine Recorded.InStep.andThen (call_logs past _ fun o => .entered ⟨place, n, parent, s, o⟩)
    fun n s state control h => ?_
  refine (descent_logs hwalk place n control h).andThen fun n s state _ h => ?_
  subst h
  exact call_logs _ _ fun o => .left ⟨place, n, parent, s, o⟩

end Visit

theorem track_logs (v : Visitor σ ε) (keys : VisitorKeys) (fuel : Nat) (place : Place)
    (past : List (Mark σ ε)) (n : Node) (parent : Option Parent) (s : σ) (state : LoggedState σ ε)
    (h : Logs past s state) :
    TracksLog past (track v keys fuel place n parent s)
      (walkNode v.logging keys fuel n parent state) := by
  induction fuel generalizing place past n parent s state with
  | zero => exact .exhausted
  | succ fuel ih =>
    have hown : Descent.unlogged (walkNode v.logging keys fuel) = walkNode v keys fuel := by
      rw [unlogged_eq_forget ih place]
      funext n parent s
      exact track_outcome v keys fuel place n parent s
    have hvisit : TracksLog past
        (trackVisit v keys (walkNode v.logging keys fuel).unlogged (track v keys fuel) place n
          parent s) (visit v.logging keys (walkNode v.logging keys fuel) n parent state) :=
      trackVisit_logs ih place past n parent s state h
    rwa [hown] at hvisit

/-- A walk ends with a visitor that logs as it ends without, and with its track in the log. -/
theorem walkNode_logging (v : Visitor σ ε) (keys : VisitorKeys) (fuel : Nat) (n : Node)
    (parent : Option Parent) (s : σ) :
    walkNode v.logging keys fuel n parent (s, []) =
      (walkNode v keys fuel n parent s).map fun o =>
        o.withState (o.state, (marks v keys fuel n parent s).map Mark.unplaced) := by
  have hsteps := track_logs v keys fuel [] [] n parent s (s, []) rfl
  simp only [TracksLog, Recorded.InStep, List.nil_append] at hsteps
  rw [marks, ← track_outcome v keys fuel []]
  generalize track v keys fuel [] n parent s = c at hsteps ⊢
  generalize walkNode v.logging keys fuel n parent (s, []) = o' at hsteps ⊢
  obtain ⟨events, outcome⟩ := c
  cases hsteps with
  | exhausted => rfl
  | ok h =>
    obtain rfl := h
    rfl
  | failed h =>
    obtain rfl := h
    rfl
  | ahead h => exact h.elim

end SyntaxWalk
