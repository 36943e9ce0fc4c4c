import SyntaxWalk.Proofs.FieldByField

/-!
# Tracks

The calls a walk makes to its visitor, in order, each with the place of the node it is about, the
arguments and what came of it. They are listed by a second walk beside the first, which ends as the
first does (`track_outcome`). Walks that the visitor starts itself are not part of it, and may go by
another table than the walk (`trackBy`).
-/

namespace SyntaxWalk

/-- A call of the visitor: the place of the node, the arguments, and the outcome unless there was
none. -/
structure VisitorCall (σ ε α : Type) where
  place : Place
  node : Node
  parent : Option Parent
  state : σ
  outcome : Option (Outcome Node σ ε α)

def VisitorCall.answer? {σ ε α : Type} (call : VisitorCall σ ε α) : Option α :=
  call.outcome.bind fun o => o.verdict.toOption

inductive Mark (σ ε : Type) where
  | entered (call : VisitorCall σ ε Control)
  | left (call : VisitorCall σ ε Unit)

namespace Mark

variable {σ ε : Type}

def place : Mark σ ε → Place
  | .entered call => call.place
  | .left call => call.place

def entered? : Mark σ ε → Option (VisitorCall σ ε Control)
  | .entered call => some call
  | .left _ => none

def left? : Mark σ ε → Option (VisitorCall σ ε Unit)
  | .entered _ => none
  | .left call => some call

end Mark

variable {σ ε : Type}

def Place.under (place : Place) : Option Parent → Place
  | some parent => place ++ [⟨parent.key, parent.index⟩]
  | none => place

abbrev Track (σ ε : Type) := RecordedDescent (Mark σ ε) σ ε

def Track.below (track : Place → Track σ ε) (place : Place) : Track σ ε := fun n parent s =>
  track (place.under parent) n parent s

def trackDescent (keys : VisitorKeys) (track : Place → Track σ ε) (place : Place) (n : Node)
    (s : σ) : Control → Recorded (Mark σ ε) Node σ ε Unit
  | .descend => recordChildren keys (Track.below track place) n s
  | .skip => .now ⟨n, s, .ok ()⟩

/-- One visit. `walk` is what the visitor is given, `track` is the walk of the children. -/
def trackVisit (v : Visitor σ ε) (keys : VisitorKeys) (walk : Descent σ ε)
    (track : Place → Track σ ε) (place : Place) : Track σ ε := fun n parent s =>
  let entered := v.enter walk n parent s
  (⟨[.entered ⟨place, n, parent, s, entered⟩], entered⟩ :
    Recorded (Mark σ ε) Node σ ε Control).followed id fun n s control =>
  (trackDescent keys track place n s control).followed id fun n s _ =>
  let left := v.leave walk n parent s
  ⟨[.left ⟨place, n, parent, s, left⟩], left⟩

def track (v : Visitor σ ε) (keys : VisitorKeys) : Nat → Place → Track σ ε
  | 0, _ => fun _ _ _ => ⟨[], none⟩
  | fuel + 1, place => trackVisit v keys (walkNode v keys fuel) (track v keys fuel) place

/-- The walk by the table `full`, with a visitor whose own walks go by `keys`. -/
def trackBy (v : Visitor σ ε) (keys full : VisitorKeys) : Nat → Place → Track σ ε
  | 0, _ => fun _ _ _ => ⟨[], none⟩
  | fuel + 1, place =>
    trackVisit v full (walkNode v keys fuel) (trackBy v keys full fuel) place

def marks (v : Visitor σ ε) (keys : VisitorKeys) (fuel : Nat) (tree : Node)
    (parent : Option Parent) (s : σ) : List (Mark σ ε) :=
  (track v keys fuel [] tree parent s).events

def marksBy (v : Visitor σ ε) (keys full : VisitorKeys) (fuel : Nat) (tree : Node)
    (parent : Option Parent) (s : σ) : List (Mark σ ε) :=
  (trackBy v keys full fuel [] tree parent s).events

theorem trackBy_self (v : Visitor σ ε) (keys : VisitorKeys) (fuel : Nat) :
    trackBy v keys keys fuel = track v keys fuel := by
  induction fuel with
  | zero => rfl
  | succ fuel ih =>
    funext place
    rw [trackBy, track, ih]

theorem forall_trackBy {v : Visitor σ ε} {P : Mark σ ε → Prop}
    (henter : ∀ walk place n parent s,
      P (.entered ⟨place, n, parent, s, v.enter walk n parent s⟩))
    (hleave : ∀ walk place n parent s, P (.left ⟨place, n, parent, s, v.leave walk n parent s⟩))
    (keys full : VisitorKeys) (fuel : Nat) (place : Place) (n : Node) (parent : Option Parent)
    (s : σ) : ∀ mark ∈ (trackBy v keys full fuel place n parent s).events, P mark := by
  induction fuel generalizing place n parent s with
  | zero => exact fun mark hmark => by cases hmark
  | succ fuel ih =>
    refine Recorded.forall_of_meets (.followed (Recorded.meets_of_forall ?_) fun p s₁ control _ =>
      .followed (Recorded.meets_of_forall ?_) fun m s₂ _ _ => Recorded.meets_of_forall ?_)
    · exact List.forall_mem_singleton.2 (henter ..)
    · cases control with
      | skip => exact fun mark hmark => by cases hmark
      | descend =>
        exact forall_recordChildren (fun n parent s => ih (place.under parent) n parent s) full p s₁
    · exact List.forall_mem_singleton.2 (hleave ..)

theorem track_outcome (v : Visitor σ ε) (keys : VisitorKeys) (fuel : Nat) (place : Place)
    (n : Node) (parent : Option Parent) (s : σ) :
    (track v keys fuel place n parent s).outcome = walkNode v keys fuel n parent s := by
  induction fuel generalizing place n parent s with
  | zero => rfl
  | succ fuel ih =>
    have hwalk : (Track.below (track v keys fuel) place).forget = walkNode v keys fuel := by
      funext n parent s
      exact ih (place.under parent) n parent s
    simp only [track, trackVisit, Recorded.followed_outcome, walkNode, visit, Option.bind_eq_bind]
    rcases v.enter (walkNode v keys fuel) n parent s with _ | ⟨m, s₁, err | control⟩
    · rfl
    · rfl
    · cases control with
      | skip => rfl
      | descend =>
        simp only [trackDescent, ← hwalk, ← recordChildren_outcome]
        rfl

end SyntaxWalk
