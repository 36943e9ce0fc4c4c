import SyntaxWalk.Proofs.FieldByField
import SyntaxWalk.Proofs.Journal

/-!
# Invariants of a run

An invariant of a pass relates what has happened so far, the open visits and the engine. Where the
handlers keep it, given that the walks they start keep it, every visit keeps it and so does the
whole run (`Invariant.run`). `K` is what is left of it when a visit fails, `Q` what holds of each
event and those before it, and `R` relates the node a visit was given to the node it leaves.
-/

namespace SyntaxWalk

variable {υ : Type}

def Kept (Q : List (Event υ) → Event υ → Prop) (I K : List (Event υ) → Path υ → Engine υ → Prop)
    (R : Node → Node → Prop) (walk : Path υ → RecordedVisit υ) : Prop :=
  ∀ past path n parent e, I past path e →
    (walk path n parent e).Meets Q (fun l m e _ => R n m ∧ I l path e) (fun l e => K l path e) past

structure Pass.Invariant (p : Pass υ) (Q : List (Event υ) → Event υ → Prop)
    (I K : List (Event υ) → Path υ → Engine υ → Prop) (R : Node → Node → Prop) : Prop where
  kind : ∀ {n m : Node}, m.kind = n.kind → R n m
  trans : ∀ {n m k : Node}, R n m → R m k → R n k
  touch : ∀ {past path e} (skip : Bool) (current : Option NodeInfo), I past path e →
    I past path { e with skip, current }
  arrive : ∀ {past path e} (n : Node), I past path e → I past (none :: path) (Pass.arrive n e)
  depart : ∀ {past path e} (n : Node), I past (none :: path) e →
    I past path (Pass.depart n e).state
  spoil : ∀ {past path e}, I past path e → K past path e
  widen : ∀ {past path visit e}, K past (visit :: path) e → K past path e
  around : ∀ {walk}, Kept Q I K R walk → ∀ {past path e} (hook : Hook) (n : Node)
    (parent : Option Parent), I past path e →
    (p.recordDispatch (walk path) path (.around hook) n parent e).Meets Q
      (fun l m e _ => R n m ∧ I l path e) (fun l e => K l path e) past
  enter : ∀ {walk}, Kept Q I K R walk → ∀ {past path e} (n : Node) (parent : Option Parent),
    I past (none :: path) e →
    (p.recordDispatch (walk (none :: path)) (none :: path) (.node n.kind .enter) n parent e).Meets Q
      (fun l m e' _ => R n m ∧ I l (some ⟨n, e⟩ :: path) e') (fun l e => K l (none :: path) e) past
  exit : ∀ {walk}, Kept Q I K R walk → ∀ {past path entry e} (n : Node) (parent : Option Parent),
    R entry.node n → I past (some entry :: path) e →
    (p.recordDispatch (walk (none :: path)) (some entry :: path) (.node n.kind .exit) n parent
      e).Meets Q
      (fun l m e _ => R n m ∧ I l (none :: path) e) (fun l e => K l (none :: path) e) past

theorem Pass.recordWalk_zero_meets (p : Pass υ) {Q : List (Event υ) → Event υ → Prop}
    {J : List (Event υ) → Node → Engine υ → Unit → Prop} {K : List (Event υ) → Engine υ → Prop}
    {past : List (Event υ)} (path : Path υ) (n : Node) (parent : Option Parent) (e : Engine υ) :
    (p.recordWalk 0 path n parent e).Meets Q J K past where
  events _ _ _ h := by simp [recordWalk] at h
  success _ _ _ h := by cases h
  failure _ _ _ h := by cases h

namespace Pass.Invariant

variable {p : Pass υ} {Q : List (Event υ) → Event υ → Prop}
  {I K : List (Event υ) → Path υ → Engine υ → Prop} {R : Node → Node → Prop}

theorem descent (h : p.Invariant Q I K R) {walk : Path υ → RecordedVisit υ}
    (hwalk : Kept Q I K R walk) {past : List (Event υ)} {path : Path υ} {e : Engine υ} (n : Node)
    (he : I past path e) :
    (p.recordDescent (walk path) n e).Meets Q (fun l m e _ => R n m ∧ I l path e)
      (fun l e => K l path e) past := by
  have hfree : I past path { e with skip := false } := h.touch false e.current he
  unfold recordDescent
  split
  · exact Recorded.meets_now ⟨h.kind rfl, hfree⟩
  · have hchildren := recordChildren_meets (Q := Q) (I := fun l e => I l path e)
      (K := fun l e => K l path e) (fun _ _ => h.spoil)
      (fun past n parent e he => (hwalk past path n parent e he).imp (fun _ _ _ _ h => h.2)
        fun _ _ h => h) p.options.keys n hfree
    exact hchildren.imp (fun _ _ _ _ hm => ⟨h.kind hm.1, hm.2⟩) fun _ _ h => h

theorem visit_open (h : p.Invariant Q I K R) {walk : Path υ → RecordedVisit υ}
    (hwalk : Kept Q I K R walk) {past : List (Event υ)} {path : Path υ} (n : Node)
    (parent : Option Parent) {e : Engine υ} (he : I past path e) :
    (p.recordVisit walk path n parent e).Meets Q (fun l m e _ => R n m ∧ I l path e)
      (fun l e => ∃ visit, K l (visit :: path) e) past := by
  have houtside : ∀ l e, K l (none :: path) e → ∃ visit, K l (visit :: path) e :=
    fun _ _ hK => ⟨none, hK⟩
  refine ((h.around hwalk .beforeEnter n parent (h.arrive n he)).imp (fun _ _ _ _ h => h)
    houtside).followed fun n₁ e₁ _ h₁ => ?_
  refine ((h.enter hwalk n₁ parent h₁.2).imp (fun _ _ _ _ h => h)
    houtside).followed fun n₂ e₂ _ h₂ => ?_
  have hinside : ∀ l e, K l (some ⟨n₁, e₁⟩ :: path) e → ∃ visit, K l (visit :: path) e :=
    fun _ _ hK => ⟨some ⟨n₁, e₁⟩, hK⟩
  refine ((h.around hwalk .afterEnter n₂ parent h₂.2).imp (fun _ _ _ _ h => h)
    hinside).followed fun n₃ e₃ _ h₃ => ?_
  refine ((h.descent hwalk n₃ h₃.2).imp (fun _ _ _ _ h => h)
    hinside).followed fun n₄ e₄ _ h₄ => ?_
  have hleave := h.touch e₄.skip (some n₄.info) h₄.2
  refine ((h.around hwalk .beforeExit n₄ parent hleave).imp (fun _ _ _ _ h => h)
    hinside).followed fun n₅ e₅ _ h₅ => ?_
  -- The exit handler is looked up for the node of now, the entry handler was for `n₁`.
  have hentry : R n₁ n₅ := h.trans h₂.1 (h.trans h₃.1 (h.trans h₄.1 h₅.1))
  refine ((h.exit hwalk n₅ parent hentry h₅.2).imp (fun _ _ _ _ h => h)
    houtside).followed fun n₆ e₆ _ h₆ => ?_
  refine ((h.around hwalk .afterExit n₆ parent h₆.2).imp (fun _ _ _ _ h => h)
    houtside).followed fun n₇ e₇ _ h₇ => ?_
  exact Recorded.meets_now
    ⟨h.trans h₁.1 (h.trans hentry (h.trans h₆.1 h₇.1)), h.depart n₇ h₇.2⟩

theorem visit (h : p.Invariant Q I K R) {walk : Path υ → RecordedVisit υ}
    (hwalk : Kept Q I K R walk) : Kept Q I K R (p.recordVisit walk) := by
  intro past path n parent e he
  exact (h.visit_open hwalk n parent he).imp (fun _ _ _ _ h => h)
    fun _ _ hopen => hopen.elim fun _ => h.widen

theorem walk (h : p.Invariant Q I K R) (fuel : Nat) : Kept Q I K R (p.recordWalk fuel) := by
  induction fuel with
  | zero => exact fun _ path n parent e _ => p.recordWalk_zero_meets path n parent e
  | succ fuel ih => exact h.visit ih

/-- Every event of a run satisfies `Q`, and a run that succeeds ends with `I` and no visit open. -/
theorem run (h : p.Invariant Q I K R) (fuel : Nat) (tree : Node) (memory : υ)
    (hfresh : I [] [] (.fresh memory)) :
    (∀ first event rest, p.journal fuel tree memory = first ++ event :: rest → Q first event) ∧
      ∀ n e, p.walk fuel tree none (.fresh memory) = some ⟨n, e, .ok ()⟩ →
        I (p.journal fuel tree memory) [] e := by
  have hmeets := h.walk fuel [] [] tree none (.fresh memory) hfresh
  refine ⟨fun first event rest he => hmeets.events first event rest he, fun n e ho => ?_⟩
  rw [← p.recordWalk_outcome fuel []] at ho
  exact (hmeets.success n e () ho).2

end Pass.Invariant

end SyntaxWalk
