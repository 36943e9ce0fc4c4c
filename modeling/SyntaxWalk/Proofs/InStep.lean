import SyntaxWalk.Proofs.FieldByField

/-!
# Walks in step

Two walks over the same tree, each with a state of its own, are in step when they make the same
answers to the walk: then they visit the same nodes in the same order and end in the same way, and a
relation between the states that each visit keeps is kept by the whole (`walkNode_inStep`). The first
may fail where the second goes on, if that is foreseen. The first may be recorded, and the relation
then speaks of what happened in it so far (`recordChildren_inStep`).
-/

namespace SyntaxWalk

variable {ω ω' τ τ' σ σ' ε α β : Type}

/-- Two computations that end alike: with states in the relation `R` where they succeed, and in `K`
where they fail. Where `F` holds, the first may have failed by itself. -/
inductive Outcome.InStep (R : σ → σ' → Prop) (K : σ → σ' → WalkError ε → Prop) (F : Prop) :
    Option (Outcome τ σ ε α) → Option (Outcome τ σ' ε α) → Prop
  | exhausted : InStep R K F none none
  | ok {t : τ} {s : σ} {s' : σ'} {a : α} (h : R s s') :
      InStep R K F (some ⟨t, s, .ok a⟩) (some ⟨t, s', .ok a⟩)
  | failed {t : τ} {s : σ} {s' : σ'} {e : WalkError ε} (h : K s s' e) :
      InStep R K F (some ⟨t, s, .error e⟩) (some ⟨t, s', .error e⟩)
  | ahead {t : τ} {s : σ} {e : WalkError ε} {o' : Option (Outcome τ σ' ε α)} (h : F) :
      InStep R K F (some ⟨t, s, .error e⟩) o'

namespace Outcome.InStep

variable {R R' : σ → σ' → Prop} {K : σ → σ' → WalkError ε → Prop} {F : Prop}
  {o : Option (Outcome τ σ ε α)} {o' : Option (Outcome τ σ' ε α)}

theorem andThen (h : InStep R K F o o') {next : τ → σ → α → Option (Outcome τ σ ε β)}
    {next' : τ → σ' → α → Option (Outcome τ σ' ε β)}
    (hnext : ∀ t s s' a, R s s' → InStep R' K F (next t s a) (next' t s' a)) :
    InStep R' K F (o.bind fun o => o.andThen next) (o'.bind fun o => o.andThen next') := by
  cases h with
  | exhausted => exact .exhausted
  | ok h => exact hnext _ _ _ _ h
  | failed h => exact .failed h
  | ahead h => exact .ahead h

theorem of_ok {t : τ} {s : σ} {a : α} (h : InStep R K F (some ⟨t, s, .ok a⟩) o') :
    ∃ s', o' = some ⟨t, s', .ok a⟩ ∧ R s s' := by
  cases h with
  | ok h => exact ⟨_, rfl, h⟩

theorem of_error {t : τ} {s : σ} {e : WalkError ε} (h : InStep R K F (some ⟨t, s, .error e⟩) o') :
    F ∨ ∃ s', o' = some ⟨t, s', .error e⟩ ∧ K s s' e := by
  cases h with
  | failed h => exact .inr ⟨_, rfl, h⟩
  | ahead h => exact .inl h

end Outcome.InStep

namespace Recorded

/-- The relations speak of all that happened in the first computation, what was before included. -/
def InStep (R : List ω → σ → σ' → Prop) (K : List ω → σ → σ' → WalkError ε → Prop) (F : Prop)
    (past : List ω) (c : Recorded ω τ σ ε α) (o' : Option (Outcome τ σ' ε α)) : Prop :=
  Outcome.InStep (R (past ++ c.events)) (K (past ++ c.events)) F c.outcome o'

namespace InStep

variable {R R' : List ω → σ → σ' → Prop} {K : List ω → σ → σ' → WalkError ε → Prop} {F : Prop}
  {past : List ω}

theorem now {s : σ} {s' : σ'} (h : R past s s') (t : τ) (a : α) :
    InStep R K F past (.now ⟨t, s, .ok a⟩) (some ⟨t, s', .ok a⟩) :=
  .ok (by simpa [Recorded.now] using h)

theorem mapSubject {c : Recorded ω τ σ ε α} {c' : Recorded ω' τ σ' ε α}
    (h : InStep R K F past c c'.outcome) (f : τ → τ') :
    InStep R K F past (c.mapSubject f) (c'.mapSubject f).outcome := by
  obtain ⟨events, outcome⟩ := c
  obtain ⟨events', outcome'⟩ := c'
  cases h with
  | exhausted => exact .exhausted
  | ok h => exact .ok h
  | failed h => exact .failed h
  | ahead h => exact .ahead h

theorem followed {c : Recorded ω τ σ ε α} {c' : Recorded ω' τ σ' ε α} {stop : τ → τ'}
    {next : τ → σ → α → Recorded ω τ' σ ε β} {next' : τ → σ' → α → Recorded ω' τ' σ' ε β}
    (h : InStep R K F past c c'.outcome)
    (hnext : ∀ t s s' a, R (past ++ c.events) s s' →
      InStep R' K F (past ++ c.events) (next t s a) (next' t s' a).outcome) :
    InStep R' K F past (c.followed stop next) (c'.followed stop next').outcome := by
  obtain ⟨events, outcome⟩ := c
  obtain ⟨events', outcome'⟩ := c'
  cases h with
  | exhausted => exact .exhausted
  | @ok t s s' a h =>
    have hrest := hnext t s s' a h
    rw [InStep, List.append_assoc] at hrest
    exact hrest
  | failed h => exact .failed h
  | ahead h => exact .ahead h

theorem andThen {c : Recorded ω τ σ ε α} {o' : Option (Outcome τ σ' ε α)}
    {next : τ → σ → α → Recorded ω τ σ ε β} {next' : τ → σ' → α → Option (Outcome τ σ' ε β)}
    (h : InStep R K F past c o')
    (hnext : ∀ t s s' a, R (past ++ c.events) s s' →
      InStep R' K F (past ++ c.events) (next t s a) (next' t s' a)) :
    InStep R' K F past (c.followed id next) (o'.bind fun o => o.andThen next') := by
  let c' : Recorded Empty τ σ' ε α := ⟨[], o'⟩
  have hfollowed : InStep R' K F past (c.followed id next)
      (c'.followed id fun t s a => ⟨[], next' t s a⟩).outcome := followed h hnext
  rw [followed_outcome] at hfollowed
  exact hfollowed

theorem lead {event : ω} {t : τ} {s : σ} {a : α} {next : τ → σ → α → Recorded ω τ σ ε β}
    {o' : Option (Outcome τ σ' ε β)} (h : InStep R K F (past ++ [event]) (next t s a) o') :
    InStep R K F past ((⟨[event], some ⟨t, s, .ok a⟩⟩ : Recorded ω τ σ ε α).followed id next) o' := by
  rw [InStep, List.append_assoc] at h
  exact h

end InStep

end Recorded

section Recorded

variable {R : List ω → σ → σ' → Prop} {K : List ω → σ → σ' → WalkError ε → Prop} {F : Prop}

theorem composes_inStep (R : List ω → σ → σ' → Prop)
    (K : List ω → σ → σ' → WalkError ε → Prop) (F : Prop) :
    Composes False fun _ _ _ (c : σ → Recorded ω _ σ ε Unit) (c' : σ' → Recorded ω' _ σ' ε Unit) =>
      ∀ past s s', R past s s' → Recorded.InStep R K F past (c s) (c' s').outcome where
  now t _ _ _ hs := .now hs t ()
  mapSubject f h past s s' hs := (h past s s' hs).mapSubject f
  followed h hnext past s s' hs :=
    (h past s s' hs).followed fun m s₁ s₁' _ hs₁ => hnext m False.elim _ s₁ s₁' hs₁

theorem recordFields_inStep {walk : RecordedDescent ω σ ε} {walk' : RecordedDescent ω' σ' ε}
    (hwalk : ∀ past n parent s s', R past s s' →
      Recorded.InStep R K F past (walk n parent s) (walk' n parent s').outcome)
    (names : List String) (n : Node) {past : List ω} {s : σ} {s' : σ'} (hs : R past s s') :
    Recorded.InStep R K F past (recordFields walk names n s)
      (recordFields walk' names n s').outcome :=
  (composes_inStep R K F).fields (fun _ m _ past => hwalk past m _) names (.unlisted id) n past s s'
    hs

end Recorded

/-- On an unknown kind both fail before anything happens, so `K` has to hold where `R` does. -/
theorem recordChildren_inStep {R : List ω → σ → σ' → Prop}
    {K : List ω → σ → σ' → WalkError ε → Prop} {F : Prop} {walk : RecordedDescent ω σ ε}
    {walk' : Descent σ' ε}
    (hunknown : ∀ past s s' node, R past s s' → K past s s' (.unknownKind node))
    (hwalk : ∀ past n parent s s', R past s s' →
      Recorded.InStep R K F past (walk n parent s) (walk' n parent s'))
    (keys : VisitorKeys) (n : Node) {past : List ω} {s : σ} {s' : σ'} (hs : R past s s') :
    Recorded.InStep R K F past (recordChildren keys walk n s) (walkChildren keys walk' n s') := by
  let silent : RecordedDescent Empty σ' ε := walk'.silent
  have hsilent : walkChildren keys walk' n s' = (recordChildren keys silent n s').outcome :=
    (recordChildren_outcome keys silent n s').symm
  rw [hsilent]
  unfold recordChildren
  cases keys.childKeys? n with
  | some names =>
    have hsteps : ∀ past n parent s s', R past s s' →
      Recorded.InStep R K F past (walk n parent s) (silent n parent s').outcome := hwalk
    exact recordFields_inStep hsteps names n hs
  | none => exact .failed (by simpa [Recorded.now] using hunknown past s s' n.info hs)

section Plain

variable {R : σ → σ' → Prop} {K : σ → σ' → WalkError ε → Prop} {F : Prop}

def WalksInStep (R : σ → σ' → Prop) (K : σ → σ' → WalkError ε → Prop) (F : Prop)
    (walk : Descent σ ε) (walk' : Descent σ' ε) : Prop :=
  ∀ n parent s s', R s s' → Outcome.InStep R K F (walk n parent s) (walk' n parent s')

/-- The two visitors answer alike and keep the relation between their states, if the walks that they
are given do. -/
structure VisitorsInStep (R : σ → σ' → Prop) (K : σ → σ' → WalkError ε → Prop) (F : Prop)
    (v : Visitor σ ε) (v' : Visitor σ' ε) : Prop where
  enter : ∀ {walk walk'}, WalksInStep R K F walk walk' → ∀ n parent s s', R s s' →
    Outcome.InStep R K F (v.enter walk n parent s) (v'.enter walk' n parent s')
  leave : ∀ {walk walk'}, WalksInStep R K F walk walk' → ∀ n parent s s', R s s' →
    Outcome.InStep R K F (v.leave walk n parent s) (v'.leave walk' n parent s')

theorem walkFields_inStep {walk : Descent σ ε} {walk' : Descent σ' ε}
    (hwalk : WalksInStep R K F walk walk') (names : List String) (n : Node) {s : σ} {s' : σ'}
    (hs : R s s') :
    Outcome.InStep R K F (walkFields walk names n s) (walkFields walk' names n s') := by
  let silent : RecordedDescent Empty σ ε := walk.silent
  let silent' : RecordedDescent Empty σ' ε := walk'.silent
  have hsteps : ∀ past : List Empty, ∀ n parent s s', R s s' →
      Recorded.InStep (fun _ => R) (fun _ => K) F past (silent n parent s)
        (silent' n parent s').outcome := fun _ => hwalk
  have hfields : Recorded.InStep (fun _ => R) (fun _ => K) F [] (recordFields silent names n s)
      (recordFields silent' names n s').outcome := recordFields_inStep hsteps names n hs
  rw [Recorded.InStep, recordFields_outcome, recordFields_outcome] at hfields
  exact hfields

variable (hunknown : ∀ s s' node, R s s' → K s s' (.unknownKind node))

include hunknown

theorem walkChildren_inStep {walk : Descent σ ε} {walk' : Descent σ' ε}
    (hwalk : WalksInStep R K F walk walk') (keys : VisitorKeys) (n : Node) {s : σ} {s' : σ'}
    (hs : R s s') :
    Outcome.InStep R K F (walkChildren keys walk n s) (walkChildren keys walk' n s') := by
  let silent : RecordedDescent Empty σ ε := walk.silent
  have hsteps : ∀ past : List Empty, ∀ n parent s s', R s s' →
      Recorded.InStep (fun _ => R) (fun _ => K) F past (silent n parent s) (walk' n parent s') :=
    fun _ => hwalk
  have hchildren : Recorded.InStep (fun _ => R) (fun _ => K) F [] (recordChildren keys silent n s)
      (walkChildren keys walk' n s') := recordChildren_inStep (fun _ => hunknown) hsteps keys n hs
  rw [Recorded.InStep, recordChildren_outcome] at hchildren
  exact hchildren

theorem walkNode_inStep {v : Visitor σ ε} {v' : Visitor σ' ε} (hv : VisitorsInStep R K F v v')
    (keys : VisitorKeys) (fuel : Nat) :
    WalksInStep R K F (walkNode v keys fuel) (walkNode v' keys fuel) := by
  induction fuel with
  | zero => exact fun _ _ _ _ _ => .exhausted
  | succ fuel ih =>
    intro n parent s s' hs
    simp only [walkNode, visit, Option.bind_eq_bind, ← Option.bind_assoc]
    refine ((hv.enter ih n parent s s' hs).andThen fun n s s' control hs => ?_).andThen
      fun n s s' _ hs => hv.leave ih n parent s s' hs
    cases control with
    | descend => exact walkChildren_inStep hunknown ih keys n hs
    | skip => exact .ok hs

end Plain

end SyntaxWalk
