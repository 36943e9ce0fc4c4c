import SyntaxWalk.Proofs.Tracks
import SyntaxWalk.Proofs.Visits

/-!
# The tour of a tree

A visitor that leaves its nodes as they are and never fails is called as a `Tour` says: for one node
after the other there is the call that enters it, the tour of what is beneath it, and the call that
leaves it. The walk takes each field out of its parent and puts back what came of it, which for such
a visitor is the same field, so that it finds everything beneath a node as it was (`track_tours`).
-/

namespace SyntaxWalk

variable {σ ε : Type}

/-- What there is to walk below a node, once the visitor has answered. -/
inductive Beneath (keys : VisitorKeys) (place : Place) (n : Node) :
    Control → List (Place × Node) → Prop
  | skip : Beneath keys place n .skip []
  | descend {names : List String} (known : keys.childKeys? n = some names) :
      Beneath keys place n .descend ((n.steps names).map fun (step, m) => (place ++ [step], m))

/-- The calls of visits to some nodes at their places, one after the other: each node is entered
and, after what is beneath it, left. -/
inductive Tour (keys : VisitorKeys) : List (Place × Node) → List (Mark σ ε) → Prop
  | nil : Tour keys [] []
  | visit {place : Place} {n : Node} {parent : Option Parent} {s₁ s₂ s₃ s₄ : σ} {control : Control}
      {below rest : List (Place × Node)} {inside after : List (Mark σ ε)}
      (beneath : Beneath keys place n control below) (descent : Tour keys below inside)
      (siblings : Tour keys rest after) :
      Tour keys ((place, n) :: rest)
        (.entered ⟨place, n, parent, s₁, some ⟨n, s₂, .ok control⟩⟩ ::
          (inside ++ .left ⟨place, n, parent, s₃, some ⟨n, s₄, .ok ()⟩⟩ :: after))

theorem Tour.append {keys : VisitorKeys} {items items' : List (Place × Node)}
    {l l' : List (Mark σ ε)} (h : Tour keys items l) (h' : Tour keys items' l') :
    Tour keys (items ++ items') (l ++ l') := by
  induction h with
  | nil => exact h'
  | visit beneath descent siblings _ ih =>
    rw [List.cons_append, List.cons_append, List.append_assoc, List.cons_append]
    exact .visit beneath descent ih

/-- Leaves the nodes it is given as they are, and never fails. -/
structure Visitor.Reads (v : Visitor σ ε) : Prop where
  enter : ∀ walk n parent s o, v.enter walk n parent s = some o →
    ∃ s' control, o = ⟨n, s', .ok control⟩
  leave : ∀ walk n parent s o, v.leave walk n parent s = some o → ∃ s', o = ⟨n, s', .ok ()⟩

def Tours (keys : VisitorKeys) (items : List (Place × Node)) {τ : Type} (t : τ)
    (c : Recorded (Mark σ ε) τ σ ε Unit) : Prop :=
  ∀ t' s, c.outcome = some ⟨t', s, .ok ()⟩ → t' = t ∧ Tour keys items c.events

namespace Tours

variable {keys : VisitorKeys} {items items' : List (Place × Node)} {τ τ' : Type} {t : τ} {t' : τ'}

theorem now (s : σ) : Tours keys [] t (.now ⟨t, s, .ok ()⟩ : Recorded (Mark σ ε) τ σ ε Unit) := by
  intro t' s' ho
  cases ho
  exact ⟨rfl, .nil⟩

theorem mapSubject {c : Recorded (Mark σ ε) τ σ ε Unit} (h : Tours keys items t c) (f : τ → τ') :
    Tours keys items (f t) (c.mapSubject f) := by
  intro t' s ho
  obtain ⟨⟨t₁, s₁, v⟩, hc, hmap⟩ := Option.map_eq_some_iff.1 ho
  cases hmap
  obtain ⟨rfl, htour⟩ := h t₁ s₁ hc
  exact ⟨rfl, htour⟩

theorem followed {c : Recorded (Mark σ ε) τ σ ε Unit} {stop : τ → τ'}
    {next : τ → σ → Unit → Recorded (Mark σ ε) τ' σ ε Unit} (h : Tours keys items t c)
    (hnext : ∀ s u, Tours keys items' t' (next t s u)) :
    Tours keys (items ++ items') t' (c.followed stop next) := by
  intro t₁ s ho
  obtain ⟨t₂, s₂, u, hc, hlast, hevents⟩ := Recorded.of_followed ho
  obtain ⟨rfl, htour⟩ := h t₂ s₂ hc
  obtain ⟨rfl, hrest⟩ := hnext s₂ u t₁ s hlast
  rw [hevents]
  exact ⟨rfl, htour.append hrest⟩

end Tours

theorem composes_tours (keys : VisitorKeys) (place : Place) :
    Composes True (Sole fun _ items t (c : σ → Recorded (Mark σ ε) _ σ ε Unit) =>
      ∀ s, Tours keys (items.map fun (step, m) => (place ++ [step], m)) t (c s)) where
  now _ s := .now s
  mapSubject f h s := (h s).mapSubject f
  followed h hnext s := by
    rw [List.map_append]
    exact (h s).followed fun s' _ => hnext _ (fun _ => rfl) s'

section Children

variable {keys : VisitorKeys} {track : Place → Track σ ε}
  (htrack : ∀ place n parent s, Tours keys [(place, n)] n (track place n parent s)) (place : Place)

include htrack

theorem recordFields_tours (names : List String) (n : Node) (s : σ) :
    Tours keys ((n.steps names).map fun (step, m) => (place ++ [step], m)) n
      (recordFields (Track.below track place) names n s) :=
  (composes_tours keys place).fields_sole (fun step m _ => htrack (place ++ [step]) m _) names
    (.unwritten trivial) n s

theorem recordChildren_tours (n : Node) (s : σ) :
    ∀ m s', (recordChildren keys (Track.below track place) n s).outcome = some ⟨m, s', .ok ()⟩ →
      m = n ∧ ∃ below, Beneath keys place n .descend below ∧
        Tour keys below (recordChildren keys (Track.below track place) n s).events := by
  intro m s' ho
  unfold recordChildren at ho ⊢
  cases hnames : keys.childKeys? n with
  | none =>
    rw [hnames] at ho
    cases ho
  | some names =>
    rw [hnames] at ho
    obtain ⟨hm, htour⟩ := recordFields_tours htrack place names n s m s' ho
    exact ⟨hm, _, .descend hnames, htour⟩

end Children

theorem trackDescent_tours {track : Place → Track σ ε}
    (htrack : ∀ place n parent s, Tours keys [(place, n)] n (track place n parent s))
    (place : Place) (n : Node) (s : σ) (control : Control) :
    ∀ m s', (trackDescent keys track place n s control).outcome = some ⟨m, s', .ok ()⟩ →
      m = n ∧ ∃ below, Beneath keys place n control below ∧
        Tour keys below (trackDescent keys track place n s control).events := by
  cases control with
  | descend => exact recordChildren_tours htrack place n s
  | skip =>
    intro m s' ho
    cases ho
    exact ⟨rfl, [], .skip, .nil⟩

theorem trackVisit_tours {v : Visitor σ ε} (hv : v.Reads) {keys : VisitorKeys}
    {track : Place → Track σ ε}
    (htrack : ∀ place n parent s, Tours keys [(place, n)] n (track place n parent s))
    (walk : Descent σ ε) (place : Place) (n : Node) (parent : Option Parent) (s : σ) :
    Tours keys [(place, n)] n (trackVisit v keys walk track place n parent s) := by
  intro m s' ho
  rw [trackVisit] at ho ⊢
  obtain ⟨n₁, s₁, control, henter, ho, hevents⟩ := Recorded.of_followed ho
  obtain ⟨n₂, s₂, u, hdescent, hleave, hrest⟩ := Recorded.of_followed ho
  have hentered : v.enter walk n parent s = some ⟨n₁, s₁, .ok control⟩ := henter
  have hleft : v.leave walk n₂ parent s₂ = some ⟨m, s', .ok ()⟩ := hleave
  rw [hevents, hrest, hentered, hleft]
  obtain ⟨s₃, control', hsame⟩ := hv.enter _ n parent s _ hentered
  cases hsame
  obtain ⟨rfl, below, hbelow, htour⟩ := trackDescent_tours htrack place _ s₁ control n₂ s₂ hdescent
  obtain ⟨s₄, hsame⟩ := hv.leave _ _ parent s₂ _ hleft
  cases hsame
  exact ⟨rfl, .visit hbelow htour .nil⟩

theorem trackBy_tours {v : Visitor σ ε} (hv : v.Reads) (keys full : VisitorKeys) (fuel : Nat)
    (place : Place) (n : Node) (parent : Option Parent) (s : σ) :
    Tours full [(place, n)] n (trackBy v keys full fuel place n parent s) := by
  induction fuel generalizing place n parent s with
  | zero =>
    intro m s' ho
    cases ho
  | succ fuel ih => exact trackVisit_tours hv ih (walkNode v keys fuel) place n parent s

theorem track_tours {v : Visitor σ ε} (hv : v.Reads) (keys : VisitorKeys) (fuel : Nat)
    (place : Place) (n : Node) (parent : Option Parent) (s : σ) :
    Tours keys [(place, n)] n (track v keys fuel place n parent s) := by
  rw [← trackBy_self]
  exact trackBy_tours hv keys keys fuel place n parent s

end SyntaxWalk
