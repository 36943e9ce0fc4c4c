import SyntaxWalk.Pass
import SyntaxWalk.Proofs.FieldByField

/-!
# Visits

A visit whose entry side succeeds without a skip request goes on with the children of the node it
is left with, and a visit ends as its exit side does. Where every visit leaves its node as it was
and does to the state what `g` does to what the state stands for, the walk of the children of a node
folds `g` over them, in the order of the table (`walkChildren_leaves`).
-/

namespace SyntaxWalk

variable {τ σ ε α : Type}

/-- Where it succeeds, the subject is `t` still and the state stands for `a`. -/
def Leaves (R : σ → α → Prop) (t : τ) (a : α) (o : Option (Outcome τ σ ε Unit)) : Prop :=
  ∀ m s, o = some ⟨m, s, .ok ()⟩ → m = t ∧ R s a

def foldNodes (g : Node → α → α) (nodes : List Node) (a : α) : α :=
  nodes.foldl (fun a n => g n a) a

def foldChildren (g : Node → α → α) (n : Node) (names : List String) (a : α) : α :=
  names.foldl (fun a name => foldNodes g (n.children name) a) a

theorem foldNodes_steps (g : Node → α → α) (n : Node) (names : List String) (a : α) :
    foldNodes g ((n.steps names).map Prod.snd) a = foldChildren g n names a := by
  simp only [Node.steps, List.map_flatMap, Node.stepsUnder_nodes, foldNodes, List.foldl_flatMap]
  rfl

theorem Leaves.mapSubject {τ' : Type} {R : σ → α → Prop} {t : τ} {a : α}
    {o : Option (Outcome τ σ ε Unit)} (h : Leaves R t a o) (f : τ → τ') :
    Leaves R (f t) a (o.map (Outcome.mapSubject f)) := by
  intro m s ho
  obtain ⟨⟨k, s', v⟩, hk, hmap⟩ := Option.map_eq_some_iff.1 ho
  cases hmap
  obtain ⟨hkt, hs⟩ := h k s' hk
  exact ⟨congrArg f hkt, hs⟩

theorem Leaves.followed {ω τ' : Type} {R : σ → α → Prop} {t : τ} {t' : τ'} {a b : α}
    {stop : τ → τ'} {c : Recorded ω τ σ ε Unit} {next : τ → σ → Unit → Recorded ω τ' σ ε Unit}
    (h : Leaves R t a c.outcome) (hnext : ∀ s u, R s a → Leaves R t' b (next t s u).outcome) :
    Leaves R t' b (c.followed stop next).outcome := by
  intro m s ho
  obtain ⟨k, s', u, hk, hrest, -⟩ := Recorded.of_followed ho
  obtain ⟨rfl, hs⟩ := h k s' hk
  exact hnext s' u hs m s hrest

theorem Leaves.andThen {R : σ → α → Prop} {t t' : τ} {a b : α} {o : Option (Outcome τ σ ε Unit)}
    {next : τ → σ → Unit → Option (Outcome τ σ ε Unit)} (h : Leaves R t a o)
    (hnext : ∀ s u, R s a → Leaves R t' b (next t s u)) :
    Leaves R t' b (o.bind fun o => o.andThen next) := by
  let c : Recorded Empty τ σ ε Unit := ⟨[], o⟩
  have hfollowed : Leaves R t' b (c.followed id fun t s u => ⟨[], next t s u⟩).outcome :=
    Leaves.followed h hnext
  rwa [Recorded.followed_outcome] at hfollowed

theorem composes_leaves (R : σ → α → Prop) (g : Node → α → α) :
    Composes True (Sole fun _ items t (c : σ → Recorded Empty _ σ ε Unit) =>
      ∀ s a, R s a → Leaves R t (foldNodes g (items.map Prod.snd) a) (c s).outcome) where
  now t s a hs m s' ho := by
    cases ho
    exact ⟨rfl, hs⟩
  mapSubject f h s a hs := (h s a hs).mapSubject f
  followed h hnext s a hs := by
    rw [List.map_append, foldNodes, List.foldl_append]
    exact (h s a hs).followed fun s' _ hs' => hnext _ (fun _ => rfl) s' _ hs'

section Walk

variable {R : σ → α → Prop} {g : Node → α → α} {walk : Descent σ ε}
  (hwalk : ∀ n parent s a, R s a → Leaves R n (g n a) (walk n parent s))

include hwalk

theorem walkFields_leaves (names : List String) (n : Node) {s : σ} {a : α} (hs : R s a) :
    Leaves R n (foldChildren g n names a) (walkFields walk names n s) := by
  let silent : RecordedDescent Empty σ ε := walk.silent
  have hnodes : ∀ step m view s a, R s a →
      Leaves R m (g m a) (silent m (some ⟨view, Step.key step, step.index⟩) s).outcome :=
    fun _ m _ s a => hwalk m _ s a
  have hfields := (composes_leaves R g).fields_sole hnodes names (.unwritten trivial) n s a hs
  rw [recordFields_outcome, foldNodes_steps] at hfields
  exact hfields

theorem walkChildren_leaves (keys : VisitorKeys) (n : Node) {s : σ} {a : α} (hs : R s a) :
    Leaves R n (foldChildren g n ((keys.childKeys? n).getD []) a) (walkChildren keys walk n s) := by
  cases hnames : keys.childKeys? n with
  | none =>
    rw [walkChildren_unknown hnames]
    intro m s' ho
    cases ho
  | some names =>
    rw [walkChildren, hnames]
    exact walkFields_leaves hwalk names n hs

end Walk

namespace Pass

variable {υ : Type} {p : Pass υ} {walk : Descent (Engine υ) SyntaxError} {n m : Node}
  {parent : Option Parent} {e e₁ : Engine υ}

theorem walk_of_enter {fuel : Nat}
    (h : p.dispatchSide (p.walk fuel) .beforeEnter .enter .afterEnter n parent (arrive n e) =
      some ⟨m, e₁, .ok ()⟩) (hskip : e₁.skip = false) :
    p.walk (fuel + 1) n parent e =
      (walkChildren p.options.keys (p.walk fuel) m { e₁ with skip := false }).bind fun o =>
        o.andThen fun n e _ => p.visitor.leave (p.walk fuel) n parent e := by
  have hvisit : p.walk (fuel + 1) n parent e =
      visit p.visitor p.options.keys (p.walk fuel) n parent e := rfl
  rw [hvisit]
  simp only [visit, visitor, h, takeSkip, hskip, Outcome.andThen_ok, Option.bind_eq_bind,
    Option.bind_some]
  rfl

theorem leave_of_exit
    (h : p.dispatchSide walk .beforeExit .exit .afterExit n parent
      { e with current := some n.info } = some ⟨m, e₁, .ok ()⟩) :
    p.visitor.leave walk n parent e = some (depart m e₁) := by
  simp only [visitor, h, Outcome.andThen_ok, Option.bind_eq_bind, Option.bind_some]

end Pass

end SyntaxWalk
