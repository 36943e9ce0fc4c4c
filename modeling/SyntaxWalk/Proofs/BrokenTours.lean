import SyntaxWalk.Proofs.DepthFirst

/-!
# Broken tours

A visitor that leaves its nodes as they are and never fails can only be stopped by the table: by a
node that it would go below and whose fields are not known. The calls up to there are those of a
tour that breaks off when that node was entered (`Cut`). The visits still open then are those of the
node and of the nodes above it.
-/

namespace SyntaxWalk

variable {σ ε : Type}

/-- The calls of visits to some nodes, broken off with the entry of one of them, or of one below
them, whose fields are not known. -/
inductive Cut (keys : VisitorKeys) : List (Place × Node) → List (Mark σ ε) → Place → Node → Prop
  | here {place : Place} {n : Node} {parent : Option Parent} {s₁ s₂ : σ}
      {rest : List (Place × Node)} (unknown : keys.childKeys? n = none) :
      Cut keys ((place, n) :: rest)
        [.entered ⟨place, n, parent, s₁, some ⟨n, s₂, .ok .descend⟩⟩] place n
  | inside {place q : Place} {n m : Node} {parent : Option Parent} {s₁ s₂ : σ}
      {below rest : List (Place × Node)} {inside : List (Mark σ ε)}
      (beneath : Beneath keys place n .descend below) (descent : Cut keys below inside q m) :
      Cut keys ((place, n) :: rest)
        (.entered ⟨place, n, parent, s₁, some ⟨n, s₂, .ok .descend⟩⟩ :: inside) q m
  | later {place q : Place} {n m : Node} {parent : Option Parent} {s₁ s₂ s₃ s₄ : σ}
      {control : Control} {below rest : List (Place × Node)} {inside after : List (Mark σ ε)}
      (beneath : Beneath keys place n control below) (descent : Tour keys below inside)
      (siblings : Cut keys rest after q m) :
      Cut keys ((place, n) :: rest)
        (.entered ⟨place, n, parent, s₁, some ⟨n, s₂, .ok control⟩⟩ ::
          (inside ++ .left ⟨place, n, parent, s₃, some ⟨n, s₄, .ok ()⟩⟩ :: after)) q m

namespace Cut

variable {keys : VisitorKeys} {tree m : Node} {items items' : List (Place × Node)}
  {l l' : List (Mark σ ε)} {q : Place}

theorem append (h : Cut keys items l q m) (items' : List (Place × Node)) :
    Cut keys (items ++ items') l q m := by
  induction h with
  | here unknown => exact .here unknown
  | inside beneath descent _ => exact .inside beneath descent
  | later beneath descent _ ih => exact .later beneath descent ih

theorem after_tour (h : Tour keys items l) (h' : Cut keys items' l' q m) :
    Cut keys (items ++ items') (l ++ l') q m := by
  induction h with
  | nil => exact h'
  | visit beneath descent siblings _ ih =>
    rw [List.cons_append, List.cons_append, List.append_assoc, List.cons_append]
    exact .later beneath descent ih

theorem unknown (h : Cut keys items l q m) : keys.childKeys? m = none := by
  induction h with
  | here unknown => exact unknown
  | inside _ _ ih => exact ih
  | later _ _ _ ih => exact ih

theorem last (h : Cut keys items l q m) :
    ∃ call, [.entered call] <:+ l ∧ call.place = q ∧ call.node = m := by
  induction h with
  | here unknown => exact ⟨_, List.suffix_rfl, rfl, rfl⟩
  | inside _ _ ih =>
    obtain ⟨call, hsuffix, hcall⟩ := ih
    exact ⟨call, hsuffix.trans (List.suffix_cons ..), hcall⟩
  | later _ _ _ ih =>
    obtain ⟨call, hsuffix, hcall⟩ := ih
    refine ⟨call, hsuffix.trans ?_, hcall⟩
    exact (List.suffix_cons ..).trans ((List.suffix_append ..).trans (List.suffix_cons ..))

theorem leads (h : Cut keys items l q m) (hitems : ∀ item ∈ items, Leads keys tree item.1 item.2) :
    Leads keys tree q m := by
  induction h with
  | here unknown => exact hitems _ List.mem_cons_self
  | @inside place q n m parent s₁ s₂ below rest inside beneath _ ih =>
    have hn : Leads keys tree place n := hitems _ List.mem_cons_self
    refine ih fun item hitem => ?_
    obtain ⟨names, step, known, hlisted, hat, hplace⟩ := beneath.mem_iff.1 hitem
    rw [hplace]
    exact hn.step known hlisted hat
  | later _ _ _ ih => exact ih fun item hitem => hitems item (List.mem_cons_of_mem _ hitem)

theorem answered_head {place place' : Place} {n n' : Node} {parent : Option Parent} {s₁ s₂ : σ}
    {control answer : Control} {inside : List (Mark σ ε)} :
    Answered (.entered ⟨place, n, parent, s₁, some ⟨n, s₂, .ok control⟩⟩ :: inside) place' n'
        answer ↔
      (place' = place ∧ n' = n ∧ answer = control) ∨ Answered inside place' n' answer := by
  constructor
  · rintro ⟨call, hcall, rfl, rfl, hanswer⟩
    rcases List.mem_cons.1 hcall with heq | hcall
    · cases heq
      cases hanswer
      exact .inl ⟨rfl, rfl, rfl⟩
    · exact .inr ⟨call, hcall, rfl, rfl, hanswer⟩
  · rintro (⟨rfl, rfl, rfl⟩ | h)
    · exact ⟨_, List.mem_cons_self, rfl, rfl, rfl⟩
    · exact h.mono fun mark hmark => List.mem_cons_of_mem _ hmark

/-- The node at which it breaks off was got to by going below each of the nodes above it. -/
theorem path (h : Cut keys items l q m) : ∃ item ∈ items, item.1 <+: q ∧
    ∀ above, item.1 <+: above → above <+: q → ∃ k, Answered l above k .descend := by
  induction h with
  | @here place n =>
    refine ⟨(place, n), List.mem_cons_self, List.prefix_rfl, fun above hplace hq => ?_⟩
    have heq : above = place := hq.eq_of_length (Nat.le_antisymm hq.length_le hplace.length_le)
    exact ⟨n, answered_head.2 (.inl ⟨heq, rfl, rfl⟩)⟩
  | @inside place q n m parent s₁ s₂ below rest inside beneath _ ih =>
    obtain ⟨item, hitem, hunder, hpath⟩ := ih
    obtain ⟨step, hstep⟩ := beneath.place_eq item hitem
    rw [hstep] at hunder hpath
    refine ⟨(place, n), List.mem_cons_self, (List.prefix_append place [step]).trans hunder,
      fun above (hplace : place <+: above) hq => ?_⟩
    by_cases heq : above = place
    · exact ⟨n, answered_head.2 (.inl ⟨heq, rfl, rfl⟩)⟩
    · have hlonger : (place ++ [step]).length ≤ above.length := by
        have hlength := hplace.length_le
        have hne : place.length ≠ above.length := fun h => heq (hplace.eq_of_length h).symm
        simp only [List.length_append, List.length_singleton]
        omega
      have hbelow := List.prefix_of_prefix_length_le hunder hq hlonger
      exact (hpath above hbelow hq).imp fun k hk => answered_head.2 (.inr hk)
  | @later place q n m parent s₁ s₂ s₃ s₄ control below rest inside after _ _ _ ih =>
    obtain ⟨item, hitem, hunder, hpath⟩ := ih
    refine ⟨item, List.mem_cons_of_mem _ hitem, hunder, fun above hplace hq => ?_⟩
    exact (hpath above hplace hq).imp fun k hk => Tour.answered_visit.2 (.inr (.inr hk))

/-- The visits still open are those of the node at which it breaks off and of the nodes above. -/
theorem entered_perm (h : Cut keys items l q m) : ∃ item ∈ items, ∃ path, q = item.1 ++ path ∧
    (enteredPlaces l).Perm (path.inits.map (item.1 ++ ·) ++ leftPlaces l) := by
  induction h with
  | @here place n =>
    refine ⟨(place, n), List.mem_cons_self, [], (List.append_nil place).symm, ?_⟩
    simp
  | @inside place q n m parent s₁ s₂ below rest inside beneath _ ih =>
    obtain ⟨item, hitem, path, hq, hperm⟩ := ih
    obtain ⟨step, hstep⟩ := beneath.place_eq item hitem
    refine ⟨(place, n), List.mem_cons_self, step :: path, by rw [hq, hstep, List.append_assoc]; rfl,
      ?_⟩
    rw [hstep] at hperm
    simpa [Function.comp_def] using hperm
  | @later place q n m parent s₁ s₂ s₃ s₄ control below rest inside after _ descent _ ih =>
    obtain ⟨item, hitem, path, hq, hperm⟩ := ih
    refine ⟨item, List.mem_cons_of_mem _ hitem, path, hq, ?_⟩
    rw [enteredPlaces_visit, leftPlaces_visit]
    have hvisit := descent.left_perm.symm.append hperm
    refine (hvisit.cons place).trans ?_
    have hmove : (leftPlaces inside ++ (path.inits.map (item.1 ++ ·) ++ leftPlaces after)).Perm
        (path.inits.map (item.1 ++ ·) ++ (leftPlaces inside ++ leftPlaces after)) := by
      rw [← List.append_assoc, ← List.append_assoc]
      exact List.perm_append_comm.append_right _
    refine (hmove.cons place).trans ?_
    rw [← List.append_assoc, ← List.append_assoc]
    exact List.perm_middle.symm

end Cut

def Cuts (keys : VisitorKeys) (items : List (Place × Node)) {τ : Type}
    (c : Recorded (Mark σ ε) τ σ ε Unit) : Prop :=
  ∀ t s e, c.outcome = some ⟨t, s, .error e⟩ →
    ∃ q m, e = .unknownKind m.info ∧ Cut keys items c.events q m

namespace Cuts

variable {keys : VisitorKeys} {items items' : List (Place × Node)} {τ τ' : Type} {t : τ}

theorem now (t : τ) (s : σ) : Cuts keys [] (.now ⟨t, s, .ok ()⟩ : Recorded (Mark σ ε) τ σ ε Unit) :=
  fun _ _ _ ho => by cases ho

theorem mapSubject {c : Recorded (Mark σ ε) τ σ ε Unit} (h : Cuts keys items c) (f : τ → τ') :
    Cuts keys items (c.mapSubject f) := by
  intro t' s e ho
  obtain ⟨⟨t₁, s₁, verdict⟩, hc, hmap⟩ := Option.map_eq_some_iff.1 ho
  cases hmap
  exact h t₁ s₁ e hc

theorem followed {c : Recorded (Mark σ ε) τ σ ε Unit} {stop : τ → τ'}
    {next : τ → σ → Unit → Recorded (Mark σ ε) τ' σ ε Unit} (htour : Tours keys items t c)
    (h : Cuts keys items c) (hnext : ∀ s u, Cuts keys items' (next t s u)) :
    Cuts keys (items ++ items') (c.followed stop next) := by
  intro t' s e ho
  rcases Recorded.of_followed_error ho with ⟨n, hc, hevents⟩ | ⟨n, s₁, u, hc, hlast, hevents⟩
  · obtain ⟨q, m, he, hcut⟩ := h n s e hc
    rw [hevents]
    exact ⟨q, m, he, hcut.append items'⟩
  · obtain ⟨rfl, hdone⟩ := htour n s₁ hc
    obtain ⟨q, m, he, hcut⟩ := hnext s₁ u t' s e hlast
    rw [hevents]
    exact ⟨q, m, he, .after_tour hdone hcut⟩

end Cuts

/-- What is walked before the failure is toured, so the two are shown together. -/
theorem composes_cuts (keys : VisitorKeys) (place : Place) :
    Composes True (Sole fun _ items t (c : σ → Recorded (Mark σ ε) _ σ ε Unit) =>
      let placed := items.map fun (step, m) => (place ++ [step], m)
      ∀ s, Tours keys placed t (c s) ∧ Cuts keys placed (c s)) where
  now t s := ⟨.now s, .now t s⟩
  mapSubject f h s := ⟨(h s).1.mapSubject f, (h s).2.mapSubject f⟩
  followed h hnext s := by
    have hrest := hnext _ fun _ => rfl
    rw [List.map_append]
    exact ⟨(h s).1.followed fun s' _ => (hrest s').1,
      .followed (h s).1 (h s).2 fun s' _ => (hrest s').2⟩

section Children

variable {keys : VisitorKeys} {track : Place → Track σ ε}
  (htour : ∀ place n parent s, Tours keys [(place, n)] n (track place n parent s))
  (htrack : ∀ place n parent s, Cuts keys [(place, n)] (track place n parent s)) (place : Place)

include htour htrack

theorem recordFields_cuts (names : List String) (n : Node) (s : σ) :
    Cuts keys ((n.steps names).map fun (step, m) => (place ++ [step], m))
      (recordFields (Track.below track place) names n s) := by
  have hnodes : ∀ step m view s,
      let c := Track.below track place m (some ⟨view, step.key, step.index⟩) s
      Tours keys [(place ++ [step], m)] m c ∧ Cuts keys [(place ++ [step], m)] c :=
    fun step m _ s => ⟨htour (place ++ [step]) m _ s, htrack (place ++ [step]) m _ s⟩
  exact ((composes_cuts keys place).fields_sole hnodes names (.unwritten trivial) n s).2

theorem trackVisit_cuts {v : Visitor σ ε} (hv : v.Reads) (walk : Descent σ ε) (n : Node)
    (parent : Option Parent) (s : σ) :
    Cuts keys [(place, n)] (trackVisit v keys walk track place n parent s) := by
  intro t s' e ho
  rw [trackVisit] at ho ⊢
  rcases Recorded.of_followed_error ho with ⟨n₁, henter, -⟩ | ⟨n₁, s₁, control, henter, ho, hevents⟩
  · obtain ⟨s₂, control, hsame⟩ := hv.enter walk n parent s _ henter
    cases hsame
  have hentered : v.enter walk n parent s = some ⟨n₁, s₁, .ok control⟩ := henter
  obtain ⟨s₂, control', hsame⟩ := hv.enter walk n parent s _ hentered
  cases hsame
  rcases Recorded.of_followed_error ho with ⟨m, hdescent, hrest⟩ | ⟨m, s₃, u, -, hleave, -⟩
  · rw [hevents, hrest, hentered]
    cases control with
    | skip => cases hdescent
    | descend =>
      simp only [trackDescent, recordChildren] at hdescent ⊢
      cases hnames : keys.childKeys? n with
      | none =>
        rw [hnames] at hdescent
        cases hdescent
        exact ⟨place, n, rfl, .here hnames⟩
      | some names =>
        rw [hnames] at hdescent
        obtain ⟨q, k, he, hcut⟩ := recordFields_cuts htour htrack place names n s₁ m s' e hdescent
        exact ⟨q, k, he, .inside (.descend hnames) hcut⟩
  · obtain ⟨s₄, hsame⟩ := hv.leave walk m parent s₃ _ hleave
    cases hsame

end Children

theorem trackBy_cuts {v : Visitor σ ε} (hv : v.Reads) (keys full : VisitorKeys) (fuel : Nat)
    (place : Place) (n : Node) (parent : Option Parent) (s : σ) :
    Cuts full [(place, n)] (trackBy v keys full fuel place n parent s) := by
  induction fuel generalizing place n parent s with
  | zero =>
    intro t s' e ho
    cases ho
  | succ fuel ih =>
    exact trackVisit_cuts (trackBy_tours hv keys full fuel) ih place hv (walkNode v keys fuel) n
      parent s

theorem track_cuts {v : Visitor σ ε} (hv : v.Reads) (keys : VisitorKeys) (fuel : Nat)
    (place : Place) (n : Node) (parent : Option Parent) (s : σ) :
    Cuts keys [(place, n)] (track v keys fuel place n parent s) := by
  rw [← trackBy_self]
  exact trackBy_cuts hv keys keys fuel place n parent s

end SyntaxWalk
