import SyntaxWalk.Proofs.BrokenTours
import SyntaxWalk.Proofs.VisitBounds

/-!
# Unknown kinds

Where a table stops a walk. A walk by a table that knows more kinds makes the same calls up to the
entry of the first node that the smaller table does not know and goes on from there
(`track_outlasts`). Nodes of unknown kind that the walk would go below (`DeadEnd`) are what it fails
at, and it fails at the first of them in depth-first order, with the visits of that node and of the
nodes above it open.
-/

namespace SyntaxWalk

variable {τ τ' σ ε α β : Type}

/-- `full` knows every kind, and gives the same fields where the table knows them. -/
structure VisitorKeys.CompletedBy (keys full : VisitorKeys) : Prop where
  agrees : ∀ n names, keys.childKeys? n = some names → full.childKeys? n = some names
  total : ∀ n, (full.childKeys? n).isSome
  distinct : full.Distinct

/-- A place that the table leads to where neither the node nor one above it is answered with a
skip, and a kind there that the table does not contain. -/
structure DeadEnd (keys : VisitorKeys) (tree : Node) (l : List (Mark σ ε)) (place : Place)
    (n : Node) : Prop where
  leads : Leads keys tree place n
  followed : ∀ above m, above <+: place → ¬ Answered l above m .skip
  unknown : keys.contains n.kind = false

theorem VisitorKeys.withFallback_completes {keys : VisitorKeys} (h : keys.Distinct) :
    keys.CompletedBy (keys.withFallback .fields) where
  agrees n names hnames := by
    unfold childKeys? at hnames ⊢
    simp only [withFallback]
    cases htable : keys.table.get? n.kind with
    | some fields => rwa [htable] at hnames
    | none =>
      rw [htable] at hnames
      cases hfallback : keys.fallback with
      | error => simp [hfallback] at hnames
      | fields => rwa [hfallback] at hnames
  total n := by
    unfold childKeys?
    simp only [withFallback]
    cases keys.table.get? n.kind <;> rfl
  distinct := h

theorem VisitorKeys.contains_eq_false {keys : VisitorKeys} (h : keys.fallback = .error) {n : Node} :
    keys.contains n.kind = false ↔ keys.childKeys? n = none := by
  simp [childKeys?_eq_none, h, contains, NameMap.contains]

/-- The calls are the first ones of the other computation, which is the same one if this succeeds
and does not end if this does not. -/
structure Outlasts (c c' : Recorded (Mark σ ε) τ σ ε α) : Prop where
  calls : c.events <+: c'.events
  success : ∀ t s a, c.outcome = some ⟨t, s, .ok a⟩ → c' = c
  ends : c.outcome = none → c'.outcome = none

namespace Outlasts

theorem refl (c : Recorded (Mark σ ε) τ σ ε α) : Outlasts c c :=
  ⟨List.prefix_rfl, fun _ _ _ _ => rfl, id⟩

theorem mapSubject {c c' : Recorded (Mark σ ε) τ σ ε α} (h : Outlasts c c') (f : τ → τ') :
    Outlasts (c.mapSubject f) (c'.mapSubject f) where
  calls := h.calls
  success t s a ho := by
    obtain ⟨⟨t₁, s₁, verdict⟩, hc, hmap⟩ := Option.map_eq_some_iff.1 ho
    cases hmap
    rw [h.success t₁ s₁ a hc]
  ends hnone := Option.map_eq_none_iff.2 (h.ends (Option.map_eq_none_iff.1 hnone))

theorem followed {c c' : Recorded (Mark σ ε) τ σ ε α} {stop : τ → τ'}
    {next next' : τ → σ → α → Recorded (Mark σ ε) τ' σ ε β} (h : Outlasts c c')
    (hnext : ∀ t s a, Outlasts (next t s a) (next' t s a)) :
    Outlasts (c.followed stop next) (c'.followed stop next') := by
  have hfirst : c.events <+: (c'.followed stop next').events := by
    obtain ⟨rest, hrest⟩ : ∃ rest, (c'.followed stop next').events = c'.events ++ rest :=
      Recorded.followed_events
    rw [hrest]
    exact h.calls.trans (List.prefix_append c'.events rest)
  obtain ⟨events, outcome⟩ := c
  rcases outcome with _ | ⟨t, s, e | a⟩
  · refine ⟨hfirst, fun _ _ _ ho => (by cases ho), fun _ => ?_⟩
    rw [Recorded.followed, h.ends rfl]
  · exact ⟨hfirst, fun _ _ _ ho => (by cases ho), fun ho => (by cases ho)⟩
  · rw [h.success t s a rfl]
    have hn := hnext t s a
    refine ⟨(List.prefix_append_right_inj events).2 hn.calls, fun t' s' b ho => ?_, hn.ends⟩
    simp only [Recorded.followed, hn.success t' s' b ho]

end Outlasts

theorem composes_outlasts : Composes False
    fun _ _ _ (c c' : σ → Recorded (Mark σ ε) _ σ ε Unit) => ∀ s, Outlasts (c s) (c' s) where
  now _ _ := .refl _
  mapSubject f h s := (h s).mapSubject f
  followed h hnext s := (h s).followed fun m s' _ => hnext m False.elim s'

theorem recordChildren_outlasts {keys full : VisitorKeys}
    {walk walk' : RecordedDescent (Mark σ ε) σ ε}
    (hwalk : ∀ n parent s, Outlasts (walk n parent s) (walk' n parent s))
    (hfull : keys.CompletedBy full) (n : Node) (s : σ) :
    Outlasts (recordChildren keys walk n s) (recordChildren full walk' n s) := by
  unfold recordChildren
  cases hnames : keys.childKeys? n with
  | none => exact ⟨List.nil_prefix, fun _ _ _ ho => (by cases ho), fun ho => (by cases ho)⟩
  | some names =>
    rw [hfull.agrees n names hnames]
    exact composes_outlasts.fields (fun _ m _ => hwalk m _) names (.unlisted id) n s

theorem track_outlasts (v : Visitor σ ε) {keys full : VisitorKeys} (hfull : keys.CompletedBy full)
    (fuel : Nat) (place : Place) (n : Node) (parent : Option Parent) (s : σ) :
    Outlasts (track v keys fuel place n parent s) (trackBy v keys full fuel place n parent s) := by
  induction fuel generalizing place n parent s with
  | zero => exact .refl _
  | succ fuel ih =>
    refine (Outlasts.refl _).followed fun p s₁ control => ?_
    refine Outlasts.followed ?_ fun m s₂ _ => .refl _
    cases control with
    | skip => exact .refl _
    | descend =>
      have hbelow := fun n parent s => ih (place.under parent) n parent s
      exact recordChildren_outlasts hbelow hfull p s₁

section DeadEnds

variable {keys full : VisitorKeys} {tree m : Node} {items : List (Place × Node)}
  {l l' : List (Mark σ ε)} {q : Place}

theorem Tour.known (h : Tour keys items l) {place : Place} {n : Node}
    (hanswered : Answered l place n .descend) : (keys.childKeys? n).isSome := by
  induction h with
  | nil =>
    obtain ⟨call, hcall, -⟩ := hanswered
    cases hcall
  | visit beneath _ _ ihd ihs =>
    rcases answered_visit.1 hanswered with ⟨rfl, rfl, rfl⟩ | hanswered | hanswered
    · cases beneath with
      | descend known => rw [known]; rfl
    · exact ihd hanswered
    · exact ihs hanswered

theorem Cut.known (h : Cut keys items l q m) {place : Place} {n : Node}
    (hanswered : Answered l place n .descend) : place = q ∨ (keys.childKeys? n).isSome := by
  induction h with
  | here unknown =>
    rcases answered_head.1 hanswered with ⟨rfl, -⟩ | ⟨call, hcall, -⟩
    · exact .inl rfl
    · cases hcall
  | inside beneath _ ih =>
    rcases answered_head.1 hanswered with ⟨rfl, rfl, -⟩ | hanswered
    · cases beneath with
      | descend known => exact .inr (by rw [known]; rfl)
    · exact ih hanswered
  | later beneath descent _ ih =>
    rcases Tour.answered_visit.1 hanswered with ⟨rfl, rfl, rfl⟩ | hanswered | hanswered
    · cases beneath with
      | descend known => exact .inr (by rw [known]; rfl)
    · exact .inr (descent.known hanswered)
    · exact ih hanswered

def Due (keys : VisitorKeys) (items : List (Place × Node)) (l : List (Mark σ ε)) (place : Place)
    (n : Node) : Prop :=
  (place, n) ∈ items ∨ ∃ above k below, Answered l above k .descend ∧
    Beneath keys above k .descend below ∧ (place, n) ∈ below

section Due

variable {top place : Place} {k n : Node} {parent : Option Parent} {s₁ s₂ s₃ s₄ : σ}
  {control : Control} {below rest : List (Place × Node)} {inside after : List (Mark σ ε)}

theorem Due.of_inside (hbeneath : Beneath keys top k .descend below)
    (h : Due keys ((top, k) :: rest)
      (.entered ⟨top, k, parent, s₁, some ⟨k, s₂, .ok .descend⟩⟩ :: inside) place n) :
    (place = top ∧ n = k) ∨ (place, n) ∈ rest ∨ Due keys below inside place n := by
  rcases h with hitem | ⟨above, k', below', hanswered, hbeneath', hmem⟩
  · rcases List.mem_cons.1 hitem with heq | hrest
    · exact .inl (Prod.mk.inj heq)
    · exact .inr (.inl hrest)
  · refine .inr (.inr ?_)
    rcases Cut.answered_head.1 hanswered with ⟨rfl, rfl, -⟩ | hanswered
    · exact .inl (hbeneath'.unique hbeneath ▸ hmem)
    · exact .inr ⟨above, k', below', hanswered, hbeneath', hmem⟩

theorem Due.of_visit (hbeneath : Beneath keys top k control below)
    (h : Due keys ((top, k) :: rest)
      (.entered ⟨top, k, parent, s₁, some ⟨k, s₂, .ok control⟩⟩ ::
        (inside ++ .left ⟨top, k, parent, s₃, some ⟨k, s₄, .ok ()⟩⟩ :: after)) place n) :
    (place = top ∧ n = k) ∨ Due keys below inside place n ∨ Due keys rest after place n := by
  rcases h with hitem | ⟨above, k', below', hanswered, hbeneath', hmem⟩
  · rcases List.mem_cons.1 hitem with heq | hrest
    · exact .inl (Prod.mk.inj heq)
    · exact .inr (.inr (.inl hrest))
  · rcases Tour.answered_visit.1 hanswered with ⟨rfl, rfl, rfl⟩ | hanswered | hanswered
    · exact .inr (.inl (.inl (hbeneath'.unique hbeneath ▸ hmem)))
    · exact .inr (.inl (.inr ⟨above, k', below', hanswered, hbeneath', hmem⟩))
    · exact .inr (.inr (.inr ⟨above, k', below', hanswered, hbeneath', hmem⟩))

end Due

/-- A tour that breaks off has entered a node that was due, unless that node comes after the one at
which it breaks off. -/
theorem Cut.answered_or_apart (hkeys : keys.Distinct) (htree : tree.Ordered)
    (h : Cut keys items l q m) (hlaid : Laid keys tree items) {place : Place} {n : Node}
    (hdue : Due keys items l place n) :
    (∃ answer, Answered l place n answer) ∨ Apart keys tree q place := by
  induction h with
  | @here top k parent s₁ s₂ rest unknown =>
    rcases hdue with hitem | ⟨above, k', below, hanswered, hbeneath, -⟩
    · rcases List.mem_cons.1 hitem with heq | hrest
      · cases heq
        exact .inl ⟨_, answered_head.2 (.inl ⟨rfl, rfl, rfl⟩)⟩
      · exact .inr (hlaid.apart_of_mem hrest)
    · rcases answered_head.1 hanswered with ⟨rfl, rfl, -⟩ | ⟨call, hcall, -⟩
      · cases hbeneath with
        | descend known => rw [unknown] at known; cases known
      · cases hcall
  | @inside top q k m parent s₁ s₂ below rest inside beneath descent ih =>
    have hleads : Leads keys tree top k := hlaid.leads _ List.mem_cons_self
    rcases hdue.of_inside beneath with ⟨rfl, rfl⟩ | hrest | hbelow
    · exact .inl ⟨_, answered_head.2 (.inl ⟨rfl, rfl, rfl⟩)⟩
    · obtain ⟨item, hitem, hunder, -⟩ := descent.path
      obtain ⟨step, hstep⟩ := beneath.place_eq item hitem
      have hq : top <+: q := (strictly_below_of_step (hstep ▸ hunder)).1
      exact .inr ((hlaid.apart_of_mem hrest).mono hq List.prefix_rfl)
    · have hinside := ih (beneath.laid hkeys (hleads.ordered htree) hleads) hbelow
      exact hinside.imp_left fun h => h.imp fun answer ha => answered_head.2 (.inr ha)
  | later beneath descent _ ih =>
    rcases hdue.of_visit beneath with ⟨rfl, rfl⟩ | hbelow | hrest
    · exact .inl ⟨_, Tour.answered_visit.2 (.inl ⟨rfl, rfl, rfl⟩)⟩
    · have hinside := (descent.answered_iff place n).2 hbelow
      exact .inl (hinside.imp fun answer ha => Tour.answered_visit.2 (.inr (.inl ha)))
    · have hafter := ih hlaid.tail hrest
      exact hafter.imp_left fun h =>
        h.imp fun answer ha => Tour.answered_visit.2 (.inr (.inr ha))

theorem Cut.answered_or_apart_of_leads (hkeys : keys.Distinct) (htree : tree.Ordered)
    (h : Cut keys [([], tree)] l q m) {place : Place} {n : Node} (hleads : Leads keys tree place n)
    (hfree : ∀ above k, above <+: place → above ≠ place → ¬ Answered l above k .skip) :
    (∃ answer, Answered l place n answer) ∨ Apart keys tree q place := by
  have hroot := Laid.root keys tree
  induction hleads with
  | root => exact h.answered_or_apart hkeys htree hroot (.inl (List.mem_singleton_self _))
  | @step place n k names step above known listed below ih =>
    have hstrict : ∀ other, other <+: place → ∀ k', ¬ Answered l other k' .skip := by
      intro other hunder k'
      refine hfree other k' (hunder.trans (List.prefix_append _ _)) fun heq => ?_
      exact (strictly_below_of_step (heq ▸ hunder)).2 rfl
    rcases ih fun other k' hunder _ => hstrict other hunder k' with ⟨answer, hanswered⟩ | hapart
    · have hanswer : answer = .descend := by
        cases answer with
        | descend => rfl
        | skip => exact absurd hanswered (hstrict place List.prefix_rfl n)
      rw [hanswer] at hanswered
      have hbeneath : Beneath keys place n .descend _ := .descend known
      exact h.answered_or_apart hkeys htree hroot (.inr ⟨place, n, _, hanswered, hbeneath,
        hbeneath.mem_iff.2 ⟨names, step, known, listed, below, rfl⟩⟩)
    · exact .inr (hapart.mono List.prefix_rfl (List.prefix_append _ _))

theorem Cut.deadEnd (herror : keys.fallback = .error) (h : Cut keys [([], tree)] l q m)
    (hl : l <+: l') (hnodup : (enteredPlaces l').Nodup) : DeadEnd keys tree l' q m where
  leads := h.leads fun item hitem => by
    rw [List.mem_singleton.1 hitem]
    exact .root
  followed above k hunder hskip := by
    obtain ⟨item, hitem, -, hpath⟩ := h.path
    rw [List.mem_singleton.1 hitem] at hpath
    obtain ⟨k', hdescend⟩ := hpath above List.nil_prefix hunder
    cases (hdescend.mono hl.subset).answer_unique hnodup hskip
  unknown := (VisitorKeys.contains_eq_false herror).2 h.unknown

theorem Cut.first (hkeys : keys.Distinct) (htree : tree.Ordered) (herror : keys.fallback = .error)
    (h : Cut keys [([], tree)] l q m) (hl : l <+: l') {place : Place} {n : Node}
    (hdead : DeadEnd keys tree l' place n) : place = q ∨ Precedes keys tree q place := by
  have hfree : ∀ above k, above <+: place → ¬ Answered l above k .skip := by
    intro above k hunder hskip
    exact hdead.followed above k hunder (hskip.mono hl.subset)
  have hunknown := (VisitorKeys.contains_eq_false herror).1 hdead.unknown
  rcases h.answered_or_apart_of_leads hkeys htree hdead.leads fun above k hunder _ =>
      hfree above k hunder with ⟨answer, hanswered⟩ | hapart
  · cases answer with
    | skip => exact absurd hanswered (hfree place n List.prefix_rfl)
    | descend => exact (h.known hanswered).imp_right fun hknown => by simp [hunknown] at hknown
  · exact .inr (.inr hapart)

theorem Tour.no_deadEnd (herror : keys.fallback = .error) (h : Tour keys [([], tree)] l)
    {place : Place} {n : Node} : ¬ DeadEnd keys tree l place n := by
  intro hdead
  obtain ⟨answer, hanswered⟩ := h.answered_of_leads hdead.leads fun above k hunder _ =>
    hdead.followed above k hunder
  cases answer with
  | skip => exact hdead.followed place n List.prefix_rfl hanswered
  | descend =>
    have hknown := h.known hanswered
    rw [(VisitorKeys.contains_eq_false herror).1 hdead.unknown] at hknown
    cases hknown

end DeadEnds

/-- The walk with the calls `l` stops at a node where the one with the calls `l'` goes on. -/
structure StopsAt (keys : VisitorKeys) (tree : Node) (l l' : List (Mark σ ε)) (place : Place)
    (n : Node) : Prop where
  deadEnd : DeadEnd keys tree l' place n
  first : ∀ other m, DeadEnd keys tree l' other m → other = place ∨ Precedes keys tree place other
  calls : l <+: l'
  last : ∃ call, [.entered call] <:+ l ∧ call.place = place ∧ call.node = n
  once : (enteredPlaces l').Nodup
  opened : (enteredPlaces l).Perm (place.inits ++ leftPlaces l)

section Walk

variable {v : Visitor σ ε} (hv : v.Reads) {keys full : VisitorKeys} (hfull : keys.CompletedBy full)
  {tree : Node} (htree : tree.Ordered) {fuel : Nat} {parent : Option Parent} {s : σ}

include hv hfull htree

theorem marksBy_tour (hfuel : tree.count ≤ fuel)
    (hcalls : ∀ mark ∈ marksBy v keys full fuel tree parent s, mark.Returned) :
    (trackBy v keys full fuel [] tree parent s).outcome.isSome ∧
      Tour full [([], tree)] (marksBy v keys full fuel tree parent s) := by
  have hbounds := trackBy_bounded (hv.neverGrows keys) hfull.distinct fuel [] tree parent s htree
    hfuel
  have hends := hbounds.ends hcalls
  obtain ⟨⟨t, s', verdict⟩, ho⟩ := Option.isSome_iff_exists.1 hends
  refine ⟨hends, ?_⟩
  cases verdict with
  | ok u => exact (trackBy_tours hv keys full fuel [] tree parent s t s' ho).2
  | error e =>
    obtain ⟨q, m, -, hcut⟩ := trackBy_cuts hv keys full fuel [] tree parent s t s' e ho
    have htotal := hfull.total m
    rw [hcut.unknown] at htotal
    cases htotal

omit htree in
theorem no_deadEnd_of_ok (herror : keys.fallback = .error) {t : Node} {s' : σ}
    (h : walkNode v keys fuel tree parent s = some ⟨t, s', .ok ()⟩) {place : Place} {n : Node} :
    ¬ DeadEnd keys tree (marksBy v keys full fuel tree parent s) place n := by
  have ho := (track_outcome v keys fuel [] tree parent s).trans h
  have hsame : marksBy v keys full fuel tree parent s = marks v keys fuel tree parent s :=
    congrArg Recorded.events ((track_outlasts v hfull fuel [] tree parent s).success t s' () ho)
  rw [hsame]
  exact (track_tours hv keys fuel [] tree parent s t s' ho).2.no_deadEnd herror

theorem stopsAt_of_error (hkeys : keys.Distinct) (herror : keys.fallback = .error)
    (hnodup : (enteredPlaces (marksBy v keys full fuel tree parent s)).Nodup) {t : Node} {s' : σ}
    {e : WalkError ε} (h : walkNode v keys fuel tree parent s = some ⟨t, s', .error e⟩) :
    ∃ place n, e = .unknownKind n.info ∧ StopsAt keys tree (marks v keys fuel tree parent s)
      (marksBy v keys full fuel tree parent s) place n := by
  have ho := (track_outcome v keys fuel [] tree parent s).trans h
  have hprefix : marks v keys fuel tree parent s <+: marksBy v keys full fuel tree parent s :=
    (track_outlasts v hfull fuel [] tree parent s).calls
  obtain ⟨q, m, he, hcut⟩ := track_cuts hv keys fuel [] tree parent s t s' e ho
  obtain ⟨item, hitem, path, hq, hperm⟩ := hcut.entered_perm
  rw [List.mem_singleton.1 hitem] at hq hperm
  simp only [List.nil_append, List.map_id'] at hq hperm
  rw [← hq] at hperm
  exact ⟨q, m, he, hcut.deadEnd herror hprefix hnodup,
    fun other k hother => hcut.first hkeys htree herror hprefix hother, hprefix, hcut.last, hnodup,
    hperm⟩

end Walk

/-- A walk fails if and only if there is a node that it would go below and whose kind the table does
not contain. It fails at the first of them, with its kind and location, when it has just entered it,
and up to there it is the walk by a table that knows all kinds. -/
theorem walk_fails_iff_deadEnd {v : Visitor σ ε} (hv : v.Reads) {keys full : VisitorKeys}
    (hkeys : keys.Distinct) (herror : keys.fallback = .error) (hfull : keys.CompletedBy full)
    (tree : Tree) {fuel : Nat} (hfuel : tree.root.count ≤ fuel) {parent : Option Parent} {s : σ}
    (hcalls : ∀ mark ∈ marksBy v keys full fuel tree.root parent s, mark.Returned) :
    let l := marks v keys fuel tree.root parent s
    let l' := marksBy v keys full fuel tree.root parent s
    ∃ t s' verdict, walkNode v keys fuel tree.root parent s = some ⟨t, s', verdict⟩ ∧
      ((∃ e, verdict = .error e) ↔ ∃ place n, DeadEnd keys tree.root l' place n) ∧
      ∀ e, verdict = .error e → ∃ place n, e = .unknownKind n.info ∧
        StopsAt keys tree.root l l' place n := by
  intro l l'
  obtain ⟨hends, htour⟩ := marksBy_tour hv hfull tree.ordered hfuel hcalls
  have hnodup : (enteredPlaces l').Nodup :=
    (htour.ordered hfull.distinct tree.ordered (.root full tree.root)).imp Precedes.ne
  cases hwalk : walkNode v keys fuel tree.root parent s with
  | none =>
    have hnone := (track_outcome v keys fuel [] tree.root parent s).trans hwalk
    rw [(track_outlasts v hfull fuel [] tree.root parent s).ends hnone] at hends
    cases hends
  | some o =>
    obtain ⟨t, s', verdict⟩ := o
    refine ⟨t, s', verdict, rfl, ?_⟩
    cases verdict with
    | ok u =>
      exact ⟨⟨fun ⟨e, he⟩ => (by cases he), fun ⟨place, n, hdead⟩ =>
        absurd hdead (no_deadEnd_of_ok hv hfull herror hwalk)⟩, fun e he => (by cases he)⟩
    | error e =>
      obtain ⟨q, m, he, hstops⟩ := stopsAt_of_error hv hfull tree.ordered hkeys herror hnodup hwalk
      refine ⟨⟨fun _ => ⟨q, m, hstops.deadEnd⟩, fun _ => ⟨e, rfl⟩⟩, fun e' he' => ?_⟩
      cases he'
      exact ⟨q, m, he, hstops⟩

def cryptic : Tree :=
  (Tree.leaf "Program").withItems "body"
    [some ((Tree.leaf "FunctionExpression").withChild "body" (.leaf "Mystery")),
      some ((Tree.leaf "UnaryExpression").withChild "argument" (.leaf "Mystery")),
      some (.leaf "Riddle")]

def crypticKeys : VisitorKeys :=
  .register (.register .empty "Program" ["body"]) "UnaryExpression" ["argument"]

theorem crypticKeys_distinct : crypticKeys.Distinct := by
  have hempty : VisitorKeys.empty.Distinct := fun kind names h => by cases h
  exact (hempty.register (List.nodup_singleton _) _).register (List.nodup_singleton _) _

/-- The function is skipped, though its kind is not known either. The operand of the operator is the
first node that the walk cannot go below, and the node after it is not entered any more. -/
theorem cryptic_fails :
    let v := skipping "FunctionExpression"
    let l := marks v crypticKeys 6 cryptic.root none ()
    let l' := marksBy v crypticKeys (crypticKeys.withFallback .fields) 6 cryptic.root none ()
    v.Reads ∧ crypticKeys.Distinct ∧ crypticKeys.fallback = .error ∧
    crypticKeys.CompletedBy (crypticKeys.withFallback .fields) ∧
    cryptic.root.count ≤ 6 ∧ (∀ mark ∈ l', mark.Returned) ∧
    ∃ t s' place n, walkNode v crypticKeys 6 cryptic.root none () =
      some ⟨t, s', .error (.unknownKind ⟨"Mystery", none⟩)⟩ ∧
      enteredPlaces l = [[], [⟨"body", some 0⟩], [⟨"body", some 1⟩],
        [⟨"body", some 1⟩, ⟨"argument", none⟩]] ∧
      leftPlaces l = [[⟨"body", some 0⟩]] ∧ StopsAt crypticKeys cryptic.root l l' place n := by
  intro v l l'
  have hreads : v.Reads := skipping_reads "FunctionExpression"
  have hanswers : v.Answers := ⟨fun _ _ _ _ => rfl, fun _ _ _ _ => rfl⟩
  have hreturned : ∀ mark ∈ l', mark.Returned := hanswers.returned _ _ 6 [] cryptic.root none ()
  have hfull := VisitorKeys.withFallback_completes crypticKeys_distinct
  obtain ⟨t, s', verdict, hwalk, -, hstops⟩ := walk_fails_iff_deadEnd hreads crypticKeys_distinct
    rfl hfull cryptic (by decide) hreturned
  have hfails : walkNode v crypticKeys 6 cryptic.root none () =
      some ⟨cryptic.root, (), .error (.unknownKind ⟨"Mystery", none⟩)⟩ := rfl
  obtain ⟨rfl, rfl, rfl⟩ : t = cryptic.root ∧ s' = () ∧
      verdict = .error (.unknownKind ⟨"Mystery", none⟩) := by
    rw [hfails] at hwalk
    cases hwalk
    exact ⟨rfl, rfl, rfl⟩
  obtain ⟨place, n, -, hstop⟩ := hstops _ rfl
  exact ⟨hreads, crypticKeys_distinct, rfl, hfull, by decide, hreturned, _, _,
    place, n, hfails, rfl, rfl, hstop⟩

end SyntaxWalk
