import SyntaxWalk.Proofs.Places
import SyntaxWalk.Proofs.Recorded

/-!
# Field by field

What is shown of the walk of the children of a node goes by the list, the field and the fields of
the node. That is done here once, for two walks that are judged together: if a judgement holds where
nothing is walked, takes no heed of what the subject is put into, and passes from a computation and
the one that follows it to both (`Composes`), then it holds of the walk of all fields if it does of
the walk of each node in them (`Composes.recordFields`). A judgement of one walk leaves the other
out. It may speak of the nodes to walk, each with the step that leads to it.
-/

namespace SyntaxWalk

theorem NameMap.overwrite_of_find {β : Type} {name : String} {value : β}
    {entries : List (String × β)} (h : find name entries = some value) :
    overwrite name value entries = entries := by
  induction entries with
  | nil => rfl
  | cons entry rest ih =>
    obtain ⟨other, v⟩ := entry
    rw [find] at h
    rw [overwrite]
    split at h
    · rename_i heq
      cases h
      rw [if_pos heq]
    · rename_i hne
      rw [if_neg hne, ih h]

theorem Node.replaceField_self {n : Node} {key : String} {field : Field Node}
    (h : n.field? key = some field) : n.replaceField key field = n := by
  obtain ⟨kind, loc, ⟨entries⟩⟩ := n
  have hentries := NameMap.overwrite_of_find h
  simp only [replaceField, NameMap.replace, hentries]

namespace Node

variable {n : Node} {key : String} {field : Field Node}

theorem steps_cons (h : n.field? key = some field) (names : List String) :
    n.steps (key :: names) = field.steps key ++ n.steps names := by
  simp [steps, stepsUnder, h]

theorem steps_cons_of_none (h : n.field? key = none) (names : List String) :
    n.steps (key :: names) = n.steps names := by
  simp [steps, stepsUnder, h]

theorem steps_replaceField {names : List String} (h : key ∉ names) (n : Node)
    (field : Field Node) : (n.replaceField key field).steps names = n.steps names := by
  unfold steps
  refine congrArg List.flatten (List.map_congr_left fun name hname => ?_)
  have hne : name ≠ key := fun heq => h (heq ▸ hname)
  rw [stepsUnder, stepsUnder, field?_replaceField, if_neg hne]

end Node

variable {ω ω' τ τ' σ σ' ε : Type}

abbrev Judgement (ω ω' σ σ' ε : Type) := ∀ τ : Type, List (Step × Node) → τ →
  (σ → Recorded ω τ σ ε Unit) → (σ' → Recorded ω' τ σ' ε Unit) → Prop

/-- `reads` is that a computation of which the judgement holds leaves its subject as it was. -/
structure Composes (reads : Prop) (J : Judgement ω ω' σ σ' ε) : Prop where
  now : ∀ {τ : Type} (t : τ), J τ [] t (fun s => .now ⟨t, s, .ok ()⟩) fun s => .now ⟨t, s, .ok ()⟩
  mapSubject : ∀ {τ τ' : Type} {items : List (Step × Node)} {t : τ}
    {c : σ → Recorded ω τ σ ε Unit} {c' : σ' → Recorded ω' τ σ' ε Unit} (f : τ → τ'),
    J τ items t c c' → J τ' items (f t) (fun s => (c s).mapSubject f) fun s => (c' s).mapSubject f
  followed : ∀ {τ τ' : Type} {items rest : List (Step × Node)} {t : τ} {stop : τ → τ'}
    {c : σ → Recorded ω τ σ ε Unit} {c' : σ' → Recorded ω' τ σ' ε Unit}
    {next : τ → σ → Recorded ω τ' σ ε Unit} {next' : τ → σ' → Recorded ω' τ' σ' ε Unit},
    J τ items t c c' →
    (∀ m, (reads → m = t) → J τ' rest (stop m) (next m) (next' m)) →
    J τ' (items ++ rest) (stop t) (fun s => (c s).followed stop fun m s _ => next m s)
      fun s => (c' s).followed stop fun m s _ => next' m s

/-- Why the fields that come later in the table are to be walked as they were at first: nothing is
written, or no field comes twice, or the judgement says nothing of the nodes to walk. -/
inductive Lasting (reads : Prop) (J : Judgement ω ω' σ σ' ε) (names : List String) : Prop
  | unwritten (h : reads)
  | nodup (h : names.Nodup)
  | unlisted (h : ∀ {τ : Type} {items items' : List (Step × Node)} {t : τ}
      {c : σ → Recorded ω τ σ ε Unit} {c' : σ' → Recorded ω' τ σ' ε Unit},
      J τ items t c c' → J τ items' t c c')

theorem Lasting.tail {reads : Prop} {J : Judgement ω ω' σ σ' ε} {key : String}
    {names : List String} (h : Lasting reads J (key :: names)) : Lasting reads J names := by
  cases h with
  | unwritten h => exact .unwritten h
  | nodup h => exact .nodup (List.nodup_cons.1 h).2
  | unlisted h => exact .unlisted h

theorem Lasting.restate {reads : Prop} {J : Judgement ω ω' σ σ' ε} {key : String}
    {names : List String} {n t : Node} {field field' : Field Node}
    {c : σ → Recorded ω Node σ ε Unit} {c' : σ' → Recorded ω' Node σ' ε Unit}
    (h : Lasting reads J (key :: names)) (hfield : n.field? key = some field)
    (hread : reads → field' = field)
    (hrest : J Node ((n.replaceField key field').steps names) t c c') :
    J Node (n.steps names) t c c' := by
  cases h with
  | unwritten h => rwa [hread h, Node.replaceField_self hfield] at hrest
  | nodup h => rwa [Node.steps_replaceField (List.nodup_cons.1 h).1] at hrest
  | unlisted h => exact h hrest

namespace Composes

variable {reads : Prop} {J : Judgement ω ω' σ σ' ε} {walk : RecordedDescent ω σ ε}
  {walk' : RecordedDescent ω' σ' ε} (hJ : Composes reads J)
  (hwalk : ∀ step m view, J Node [(step, m)] m (walk m (some ⟨view, step.key, step.index⟩))
    (walk' m (some ⟨view, step.key, step.index⟩)))

include hJ hwalk

theorem items (view : Node) (key : String) (index : Nat) (items : List (Option Node)) :
    J _ (itemSteps key index items) items (recordItems walk view key index items)
      (recordItems walk' view key index items) := by
  induction items generalizing index with
  | nil => exact hJ.now []
  | cons item rest ih =>
    cases item with
    | none => exact hJ.mapSubject (none :: ·) (ih (index + 1))
    | some n =>
      exact hJ.followed (hwalk ⟨key, some index⟩ n view) fun m _ =>
        hJ.mapSubject (some m :: ·) (ih (index + 1))

theorem field (view : Node) (key : String) (field : Field Node) :
    J _ (field.steps key) field (recordField walk view key field)
      (recordField walk' view key field) := by
  cases field with
  | node n => exact hJ.mapSubject Field.node (hwalk ⟨key, none⟩ n view)
  | list items => exact hJ.mapSubject Field.list (hJ.items hwalk view key 0 items)
  | value v => exact hJ.now (Field.value v)

theorem fields (names : List String) (h : Lasting reads J names) (n : Node) :
    J _ (n.steps names) n (recordFields walk names n) (recordFields walk' names n) := by
  induction names generalizing n with
  | nil => exact hJ.now n
  | cons key names ih =>
    cases hfield : n.field? key with
    | none =>
      rw [recordFields_of_none hfield, recordFields_of_none hfield, Node.steps_cons_of_none hfield]
      exact ih h.tail n
    | some field =>
      rw [recordFields_of_some hfield, recordFields_of_some hfield, Node.steps_cons hfield]
      have hnext : ∀ field', (reads → field' = field) →
          J _ (n.steps names) (n.replaceField key field')
            (recordFields walk names (n.replaceField key field'))
            (recordFields walk' names (n.replaceField key field')) :=
        fun field' hread => h.restate hfield hread (ih h.tail _)
      have hput := hJ.followed (hJ.field hwalk (n.eraseField key) key field) hnext
      rwa [Node.replaceField_self hfield] at hput

end Composes

abbrev Sole (J : ∀ τ : Type, List (Step × Node) → τ → (σ → Recorded ω τ σ ε Unit) → Prop) :
    Judgement ω ω σ σ ε := fun τ items t c _ => J τ items t c

theorem Composes.fields_sole {reads : Prop}
    {J : ∀ τ : Type, List (Step × Node) → τ → (σ → Recorded ω τ σ ε Unit) → Prop}
    (hJ : Composes reads (Sole J)) {walk : RecordedDescent ω σ ε}
    (hwalk : ∀ step m view, J Node [(step, m)] m (walk m (some ⟨view, step.key, step.index⟩)))
    (names : List String) (h : Lasting reads (Sole J) names) (n : Node) :
    J Node (n.steps names) n (recordFields walk names n) := by
  have hboth : Sole J Node (n.steps names) n (recordFields walk names n)
      (recordFields walk names n) := hJ.fields hwalk names h n
  exact hboth

def Descent.silent (walk : Descent σ ε) : RecordedDescent ω σ ε := fun n parent s =>
  ⟨[], walk n parent s⟩

theorem recordFields_kind {walk : RecordedDescent ω σ ε} {names : List String} {n m : Node}
    {s s' : σ} (h : (recordFields walk names n s).outcome = some ⟨m, s', .ok ()⟩) :
    m.kind = n.kind := by
  induction names generalizing n s with
  | nil =>
    cases h
    rfl
  | cons key names ih =>
    cases hfield : n.field? key with
    | none =>
      rw [recordFields_of_none hfield] at h
      exact ih h
    | some field =>
      rw [recordFields_of_some hfield] at h
      obtain ⟨field', s₁, -, -, hrest, -⟩ := Recorded.of_followed h
      have hput : m.kind = (n.replaceField key field').kind := ih hrest
      exact hput

section Meets

variable {Q : List ω → ω → Prop} {I K : List ω → σ → Prop} {walk : RecordedDescent ω σ ε}

theorem composes_meets (Q : List ω → ω → Prop) (I K : List ω → σ → Prop) :
    Composes False (Sole fun _ _ _ (c : σ → Recorded ω _ σ ε Unit) =>
      ∀ past s, I past s → (c s).Meets Q (fun l _ s _ => I l s) K past) where
  now _ _ _ hs := Recorded.meets_now hs
  mapSubject _ h past s hs := (h past s hs).mapSubject fun _ _ _ _ h => h
  followed h hnext past s hs :=
    (h past s hs).followed fun m s' _ hs' => hnext m False.elim _ s' hs'

theorem recordFields_meets
    (hwalk : ∀ past n parent s, I past s → (walk n parent s).Meets Q (fun l _ s _ => I l s) K past)
    (names : List String) (n : Node) {past : List ω} {s : σ} (hs : I past s) :
    (recordFields walk names n s).Meets Q (fun l m s _ => m.kind = n.kind ∧ I l s) K past := by
  have hfields := (composes_meets Q I K).fields_sole (fun _ m _ past => hwalk past m _) names
    (.unlisted id) n past s hs
  refine ⟨hfields.events, fun m s' a ho => ⟨recordFields_kind ho, hfields.success m s' a ho⟩, ?_⟩
  exact hfields.failure

/-- The walk of the children keeps what every visit keeps. It fails on an unknown kind before
anything happens, so `K` has to hold where `I` does. -/
theorem recordChildren_meets (hIK : ∀ past s, I past s → K past s)
    (hwalk : ∀ past n parent s, I past s → (walk n parent s).Meets Q (fun l _ s _ => I l s) K past)
    (keys : VisitorKeys) (n : Node) {past : List ω} {s : σ} (hs : I past s) :
    (recordChildren keys walk n s).Meets Q (fun l m s _ => m.kind = n.kind ∧ I l s) K past := by
  unfold recordChildren
  cases keys.childKeys? n with
  | some names => exact recordFields_meets hwalk names n hs
  | none =>
    refine ⟨fun _ _ _ he => by simp [Recorded.now] at he, fun _ _ _ ho => (by cases ho), ?_⟩
    intro m s' e ho
    cases ho
    simpa [Recorded.now] using hIK past s hs

theorem forall_recordChildren {P : ω → Prop}
    (hwalk : ∀ n parent s, ∀ event ∈ (walk n parent s).events, P event) (keys : VisitorKeys)
    (n : Node) (s : σ) : ∀ event ∈ (recordChildren keys walk n s).events, P event :=
  Recorded.forall_of_meets (recordChildren_meets (I := fun _ _ => True) (K := fun _ _ => True)
    (fun _ _ h => h) (fun _ n parent s _ => Recorded.meets_of_forall (hwalk n parent s)) keys n
    trivial)

end Meets

end SyntaxWalk
