import SyntaxWalk.Proofs.DepthFirst
import SyntaxWalk.Proofs.Slots
import Mathlib.Algebra.GroupWithZero.Nat
import Mathlib.Algebra.Order.BigOperators.Group.Finset

/-!
# Bounds on visits

How many nodes a walk enters when entering a node never makes its tree larger. The nodes below a
node after its entry are counted field by field (`Node.countUnder`). A field that is not walked yet
is as the entry left it, and none is walked twice, so the counts of the listed fields bound what is
entered below (`recordFields_bounded`), whatever the visits before have made of their fields. With
fuel for its count such a walk ends if the calls of the visitor do.
-/

namespace SyntaxWalk

variable {τ τ' σ ε α β : Type}

def Node.countUnder (n : Node) (key : String) : Nat := ((n.field? key).map Node.countField).getD 0

def Mark.Returned : Mark σ ε → Prop
  | .entered call => call.outcome.isSome
  | .left call => call.outcome.isSome

/-- Entering a node never leaves a larger tree. -/
def Visitor.NeverGrows (v : Visitor σ ε) (keys : VisitorKeys) : Prop :=
  ∀ fuel n parent s o, n.Ordered → v.enter (walkNode v keys fuel) n parent s = some o →
    o.subject.Ordered ∧ o.subject.count ≤ n.count

section Sums

theorem sum_map_le_of_support {names others : List String} {f : String → Nat} (hnames : names.Nodup)
    (hothers : others.Nodup) (h : ∀ key ∈ names, f key ≠ 0 → key ∈ others) :
    (names.map f).sum ≤ (others.map f).sum := by
  rw [← List.sum_toFinset f hnames, ← List.sum_toFinset f hothers]
  apply Finset.sum_le_sum_of_ne_zero
  simpa using h

theorem Node.countItems_eq_sum (items : List (Option Node)) :
    countItems items = ((items.filterMap id).map count).sum := by
  induction items with
  | nil => rfl
  | cons item rest ih =>
    cases item with
    | none => exact ih
    | some n => exact congrArg (n.count + ·) ih

theorem Node.countUnder_eq_sum (n : Node) (key : String) :
    n.countUnder key = ((n.children key).map count).sum := by
  unfold countUnder children
  rcases n.field? key with _ | m | items | v
  · rfl
  · rfl
  · exact countItems_eq_sum items
  · rfl

theorem Node.sum_steps_count (n : Node) (names : List String) :
    ((n.steps names).map fun item => item.2.count).sum = (names.map n.countUnder).sum := by
  induction names with
  | nil => rfl
  | cons key names ih =>
    have hunder : ((n.stepsUnder key).map fun item => item.2.count).sum = n.countUnder key := by
      rw [countUnder_eq_sum, ← stepsUnder_nodes, List.map_map]
      rfl
    rw [steps, List.flatMap_cons, List.map_append, List.sum_append, hunder, List.map_cons,
      List.sum_cons]
    exact congrArg _ ih

theorem Node.countFields_eq_sum {entries : List (String × Field Node)}
    (h : (entries.map Prod.fst).Nodup) :
    Node.countFields entries = ((entries.map Prod.fst).map fun key =>
      ((NameMap.find key entries).map Node.countField).getD 0).sum := by
  induction entries with
  | nil => rfl
  | cons entry rest ih =>
    obtain ⟨name, field⟩ := entry
    obtain ⟨hname, hrest⟩ := List.nodup_cons.1 h
    have hothers : ∀ key ∈ rest.map Prod.fst,
        NameMap.find key ((name, field) :: rest) = NameMap.find key rest := by
      intro key hkey
      exact if_neg fun heq : name = key => hname (heq ▸ hkey)
    rw [Node.countFields, ih hrest, List.map_cons, List.map_cons, List.sum_cons]
    congr 1
    · simp [NameMap.find]
    · apply congrArg List.sum
      apply List.map_congr_left
      intro key hkey
      rw [hothers key hkey]

variable {n : Node} {names : List String}

theorem Node.count_eq_sum (h : n.fields.names.Nodup) :
    n.count = 1 + (n.fields.names.map n.countUnder).sum := by
  obtain ⟨kind, loc, ⟨entries⟩⟩ := n
  rw [count, countFields_eq_sum h]
  rfl

theorem Node.mem_names_of_countUnder {key : String} (h : n.countUnder key ≠ 0) :
    key ∈ n.fields.names := by
  unfold countUnder at h
  cases hfield : n.field? key with
  | none => simp [hfield] at h
  | some field => exact List.mem_map.2 ⟨(key, field), NameMap.mem_of_find hfield, rfl⟩

theorem Node.sum_countUnder_lt (hn : n.Ordered) (hnames : names.Nodup) :
    (names.map n.countUnder).sum < n.count := by
  have hle : (names.map n.countUnder).sum ≤ (n.fields.names.map n.countUnder).sum :=
    sum_map_le_of_support hnames hn.names.nodup fun key _ => mem_names_of_countUnder
  have hcount := count_eq_sum hn.names.nodup
  omega

end Sums

/-- At most `b` nodes are entered, and the computation ends if every call in it does. -/
structure Recorded.Bounded (b : Nat) (c : Recorded (Mark σ ε) τ σ ε α) : Prop where
  entered : (enteredPlaces c.events).length ≤ b
  ends : (∀ mark ∈ c.events, mark.Returned) → c.outcome.isSome

namespace Recorded.Bounded

theorem now (o : Outcome τ σ ε α) : (Recorded.now o : Recorded (Mark σ ε) τ σ ε α).Bounded 0 where
  entered := Nat.le_refl 0
  ends _ := rfl

theorem mono {b b' : Nat} {c : Recorded (Mark σ ε) τ σ ε α} (h : c.Bounded b) (hb : b ≤ b') :
    c.Bounded b' := ⟨h.entered.trans hb, h.ends⟩

theorem mapSubject {b : Nat} {c : Recorded (Mark σ ε) τ σ ε α} (h : c.Bounded b) (f : τ → τ') :
    (c.mapSubject f).Bounded b where
  entered := h.entered
  ends hcalls := by
    rw [Recorded.mapSubject, Option.isSome_map]
    exact h.ends hcalls

theorem followed {b b' : Nat} {c : Recorded (Mark σ ε) τ σ ε α} {stop : τ → τ'}
    {next : τ → σ → α → Recorded (Mark σ ε) τ' σ ε β} (h : c.Bounded b)
    (hnext : ∀ t s a, c.outcome = some ⟨t, s, .ok a⟩ → (next t s a).Bounded b') :
    (c.followed stop next).Bounded (b + b') := by
  obtain ⟨events, outcome⟩ := c
  have hentered : (enteredPlaces events).length ≤ b := h.entered
  rcases outcome with _ | ⟨t, s, e | a⟩
  · exact ⟨by simp only [Recorded.followed]; omega, fun hcalls => h.ends hcalls⟩
  · exact ⟨by simp only [Recorded.followed]; omega, fun _ => rfl⟩
  · have hn := hnext t s a rfl
    refine ⟨?_, fun hcalls => hn.ends fun mark hmark => hcalls mark (List.mem_append_right _ hmark)⟩
    have hrest := hn.entered
    simp only [Recorded.followed, enteredPlaces_append, List.length_append]
    omega

end Recorded.Bounded

theorem composes_bounded (fuel : Nat) :
    Composes False (Sole fun _ items _ (c : σ → Recorded (Mark σ ε) _ σ ε Unit) =>
      (∀ item ∈ items, item.2.Ordered) → (items.map fun item => item.2.count).sum ≤ fuel →
        ∀ s, (c s).Bounded (items.map fun item => item.2.count).sum) where
  now _ _ _ _ := .now _
  mapSubject f h hordered hfuel s := (h hordered hfuel s).mapSubject f
  followed h hnext hordered hfuel s := by
    rw [List.map_append, List.sum_append] at hfuel ⊢
    have hfirst := h (fun item hitem => hordered item (List.mem_append_left _ hitem)) (by omega) s
    refine hfirst.followed fun m s' _ _ => hnext m False.elim (fun item hitem => ?_) (by omega) s'
    exact hordered item (List.mem_append_right _ hitem)

section Walk

variable {keys : VisitorKeys} {track : Place → Track σ ε} {fuel : Nat}
  (htrack : ∀ place n parent s, n.Ordered → n.count ≤ fuel →
    (track place n parent s).Bounded n.count)
  (place : Place)

include htrack

theorem recordFields_bounded {names : List String} (hnames : names.Nodup) {n : Node}
    (hn : n.Ordered) (hfuel : (names.map n.countUnder).sum ≤ fuel) (s : σ) :
    (recordFields (Track.below track place) names n s).Bounded (names.map n.countUnder).sum := by
  have hnodes : ∀ step m view, (∀ item ∈ [(step, m)], item.2.Ordered) → m.count ≤ fuel → ∀ s,
      (Track.below track place m (some ⟨view, Step.key step, step.index⟩) s).Bounded m.count :=
    fun step m view hordered hfuel s =>
      htrack (place ++ [step]) m _ s (hordered _ (List.mem_singleton_self _)) hfuel
  rw [← n.sum_steps_count] at hfuel ⊢
  refine (composes_bounded fuel).fields_sole hnodes names (.nodup hnames) n (fun item hitem => ?_)
    hfuel s
  exact hn.at? (Node.mem_steps.1 hitem).2

theorem recordChildren_bounded (hkeys : keys.Distinct) {n : Node} (hn : n.Ordered)
    (hfuel : n.count ≤ fuel + 1) (s : σ) :
    (recordChildren keys (Track.below track place) n s).Bounded (n.count - 1) := by
  unfold recordChildren
  cases hnames : keys.childKeys? n with
  | none => exact (Recorded.Bounded.now _).mono (Nat.zero_le _)
  | some names =>
    have hnodup := hkeys.childKeys? hn hnames
    have hsum := Node.sum_countUnder_lt hn hnodup
    exact (recordFields_bounded htrack place hnodup hn (by omega) s).mono (by omega)

theorem trackVisit_bounded (hkeys : keys.Distinct) {v : Visitor σ ε} {walk : Descent σ ε} {n : Node}
    {parent : Option Parent} {s : σ}
    (henter : ∀ o, v.enter walk n parent s = some o →
      o.subject.Ordered ∧ o.subject.count ≤ n.count) (hfuel : n.count ≤ fuel + 1) :
    (trackVisit v keys walk track place n parent s).Bounded n.count := by
  have hentered : (⟨[.entered ⟨place, n, parent, s, v.enter walk n parent s⟩],
      v.enter walk n parent s⟩ : Recorded (Mark σ ε) Node σ ε Control).Bounded 1 :=
    ⟨Nat.le_refl 1, fun hcalls => hcalls _ (List.mem_singleton_self _)⟩
  have hrest : 1 + ((n.count - 1) + 0) = n.count := by
    have := n.count_pos
    omega
  rw [← hrest]
  refine hentered.followed fun p s₁ control hp => ?_
  obtain ⟨hordered, hcount⟩ := henter _ hp
  simp only at hordered hcount
  refine Recorded.Bounded.followed ?_ fun m s₂ _ _ =>
    ⟨Nat.le_refl 0, fun hcalls => hcalls _ (List.mem_singleton_self _)⟩
  cases control with
  | skip => exact (Recorded.Bounded.now _).mono (Nat.zero_le _)
  | descend =>
    exact (recordChildren_bounded htrack place hkeys hordered (by omega) s₁).mono (by omega)

end Walk

theorem Visitor.Reads.neverGrows {v : Visitor σ ε} (hv : v.Reads) (keys : VisitorKeys) :
    v.NeverGrows keys := by
  intro fuel n parent s o hn ho
  obtain ⟨s', control, rfl⟩ := hv.enter _ n parent s o ho
  exact ⟨hn, Nat.le_refl n.count⟩

theorem Visitor.Answers.returned {v : Visitor σ ε} (hv : v.Answers) (keys full : VisitorKeys)
    (fuel : Nat) (place : Place) (n : Node) (parent : Option Parent) (s : σ) :
    ∀ mark ∈ (trackBy v keys full fuel place n parent s).events, mark.Returned :=
  forall_trackBy (fun walk _ n parent s => hv.enter walk n parent s)
    (fun walk _ n parent s => hv.leave walk n parent s) keys full fuel place n parent s

theorem trackBy_bounded {v : Visitor σ ε} {keys full : VisitorKeys} (hv : v.NeverGrows keys)
    (hfull : full.Distinct) (fuel : Nat) (place : Place) (n : Node) (parent : Option Parent) (s : σ)
    (hn : n.Ordered) (hfuel : n.count ≤ fuel) :
    (trackBy v keys full fuel place n parent s).Bounded n.count := by
  induction fuel generalizing place n parent s with
  | zero => exact absurd n.count_pos (by omega)
  | succ fuel ih =>
    exact trackVisit_bounded ih place hfull (fun o ho => hv fuel n parent s o hn ho) hfuel

end SyntaxWalk
