import SyntaxWalk.Proofs.BrokenTours
import SyntaxWalk.Proofs.ParentViews
import SyntaxWalk.Proofs.VisitBounds
import Mathlib.Data.List.Perm.Subperm

/-!
# Counts of visits

A walk whose visitor never makes a node larger when it enters it ends, and enters no more nodes than
there are in the tree. It leaves no node more often than it has entered it (`Matched`). Where the
table lists every field that holds nodes (`Node.Covered`), a visitor that only looks on enters and
leaves just the nodes that `Node.count` counts. The tour goes along the steps in the order of the
table and the count along the fields in the order of their names, so that the two are brought
together by sums over names (`Node.sum_steps_count`).
-/

namespace SyntaxWalk

variable {σ ε : Type}

/-- The table gives fields for every node of the tree, all those that hold nodes among them. -/
inductive Node.Covered (keys : VisitorKeys) : Node → Prop
  | mk {n : Node} {names : List String} (known : keys.childKeys? n = some names)
      (listed : ∀ key, n.children key ≠ [] → key ∈ names)
      (below : ∀ key, ∀ child ∈ n.children key, child.Covered keys) : n.Covered keys

def Visitor.NeverSkips (v : Visitor σ ε) : Prop :=
  ∀ walk n parent s m s' control, v.enter walk n parent s = some ⟨m, s', .ok control⟩ →
    control = .descend

section Sums

variable {n : Node} {names : List String}

theorem Node.sum_countUnder_eq (hn : n.Ordered) (hnames : names.Nodup)
    (hlisted : ∀ key, n.children key ≠ [] → key ∈ names) :
    1 + (names.map n.countUnder).sum = n.count := by
  have hle := sum_countUnder_lt hn hnames
  have hge : (n.fields.names.map n.countUnder).sum ≤ (names.map n.countUnder).sum := by
    refine sum_map_le_of_support hn.names.nodup hnames fun key _ hcount => hlisted key ?_
    intro hnone
    apply hcount
    rw [countUnder_eq_sum, hnone]
    rfl
  have hcount := count_eq_sum hn.names.nodup
  omega

end Sums

section Covered

variable {keys : VisitorKeys} {tree n m : Node}

theorem Leads.covered (htree : tree.Covered keys) {place : Place} (h : Leads keys tree place n) :
    n.Covered keys := by
  induction h with
  | root => exact htree
  | step _ _ _ hat ih =>
    cases ih with
    | mk _ _ below => exact below _ _ (Node.mem_children_of_at? hat)

theorem Node.covered_by_fields (n : Node) : n.Covered (VisitorKeys.empty.withFallback .fields) := by
  refine .mk rfl (fun key hkey => ?_) fun key child hchild => covered_by_fields child
  unfold children at hkey
  cases hfield : n.field? key with
  | none => simp [hfield] at hkey
  | some field =>
    refine List.mem_map.2 ⟨(key, field), List.mem_filter.2 ⟨NameMap.mem_of_find hfield, ?_⟩, rfl⟩
    cases field with
    | node m => rfl
    | list items => rfl
    | value v => simp [hfield, Field.nodes] at hkey
termination_by n.count
decreasing_by exact count_lt_of_mem_children hchild

end Covered

section Counts

variable {keys : VisitorKeys} {tree : Node} {items : List (Place × Node)} {l l' : List (Mark σ ε)}

theorem Visitor.NeverSkips.not_skipped {v : Visitor σ ε} (hv : v.NeverSkips)
    (keys : VisitorKeys) (fuel : Nat) (tree : Node) (parent : Option Parent) (s : σ)
    (place : Place) (n : Node) : ¬ Answered (marks v keys fuel tree parent s) place n .skip := by
  have hanswers : ∀ mark ∈ marksBy v keys keys fuel tree parent s, ∀ call, mark = .entered call →
      call.answer? ≠ some .skip := by
    refine forall_trackBy (fun walk place n parent s call hcall => ?_)
      (fun walk place n parent s call hcall => by cases hcall) keys keys fuel [] tree parent s
    cases hcall
    unfold VisitorCall.answer?
    intro hskip
    obtain ⟨⟨m, s', verdict⟩, henter, hverdict⟩ := Option.bind_eq_some_iff.1 hskip
    cases verdict with
    | error e => cases hverdict
    | ok control =>
      cases hverdict
      cases hv walk n parent s m s' _ henter
  rw [marksBy, trackBy_self] at hanswers
  intro hanswered
  obtain ⟨call, hcall, -, -, hskip⟩ := hanswered
  exact hanswers _ hcall call rfl hskip

theorem Tour.entered_length (hkeys : keys.Distinct) (htree : tree.Ordered)
    (hcovered : tree.Covered keys) (h : Tour keys items l) (hlaid : Laid keys tree items)
    (hskips : ∀ place n, ¬ Answered l place n .skip) :
    (enteredPlaces l).length = (items.map fun item => item.2.count).sum := by
  induction h with
  | nil => rfl
  | @visit place n parent s₁ s₂ s₃ s₄ control below rest inside after beneath _ _ ihd ihs =>
    have hleads : Leads keys tree place n := hlaid.leads _ List.mem_cons_self
    have hn := hleads.ordered htree
    have hinside := ihd (beneath.laid hkeys hn hleads) fun q m hskip =>
      hskips q m (answered_visit.2 (.inr (.inl hskip)))
    have hafter := ihs hlaid.tail fun q m hskip =>
      hskips q m (answered_visit.2 (.inr (.inr hskip)))
    have hbelow : 1 + (below.map fun item => item.2.count).sum = n.count := by
      cases beneath with
      | skip => exact absurd (answered_visit.2 (.inl ⟨rfl, rfl, rfl⟩)) (hskips place n)
      | @descend names known =>
        cases hleads.covered hcovered with
        | mk known' listed _ =>
          rw [known] at known'
          cases known'
          rw [List.map_map]
          exact (congrArg (1 + ·) (Node.sum_steps_count _ names)).trans
            (Node.sum_countUnder_eq hn (hkeys.childKeys? hn known) listed)
    rw [enteredPlaces_visit, List.length_cons, List.length_append, hinside, hafter, List.map_cons,
      List.sum_cons, ← hbelow]
    omega

/-- Every call that leaves a node comes after the one that entered it, with none for that node
between the two. -/
def Matched (l : List (Mark σ ε)) : Prop :=
  ∀ past call rest, l = past ++ .left call :: rest → ∃ before enter inside,
    past = before ++ .entered enter :: inside ∧ enter.place = call.place ∧
    ∀ mark ∈ inside, mark.place ≠ call.place

theorem Matched.before (h : Matched l) (hl : l' <+: l) : Matched l' := by
  obtain ⟨later, rfl⟩ := hl
  intro past call rest hsplit
  apply h past call (rest ++ later)
  rw [hsplit, List.append_assoc, List.cons_append]

theorem not_mem_leftPlaces {q : Place} (h : ∀ mark ∈ l, mark.place ≠ q) : q ∉ leftPlaces l := by
  intro hq
  obtain ⟨call, hcall, hplace⟩ := List.mem_map.1 hq
  obtain ⟨mark, hmark, hleft⟩ := List.mem_filterMap.1 hcall
  cases mark with
  | entered other => cases hleft
  | left other =>
    cases hleft
    exact h _ hmark hplace

theorem Matched.left_count_le (h : Matched l) (q : Place) :
    (leftPlaces l).count q ≤ (enteredPlaces l).count q := by
  induction hlength : l.length using Nat.strong_induction_on generalizing l with
  | _ length ih =>
    have hshorter : ∀ first, first <+: l → first ≠ l →
        (leftPlaces first).count q ≤ (enteredPlaces first).count q := by
      intro first hfirst hne
      have hlt : first.length ≠ l.length := fun heq => hne (hfirst.eq_of_length heq)
      have hle := hfirst.length_le
      exact ih first.length (by omega) (h.before hfirst) rfl
    rcases List.eq_nil_or_concat' l with rfl | ⟨past, mark, rfl⟩
    · exact Nat.le_refl 0
    · have hpast := hshorter past (List.prefix_append past [mark]) (by simp)
      cases mark with
      | entered call =>
        rw [leftPlaces_append, enteredPlaces_append, List.count_append, List.count_append]
        exact hpast.trans (Nat.le_add_right _ _)
      | left call =>
        by_cases hq : call.place = q
        · obtain ⟨before, enter, inside, rfl, hplace, hinside⟩ := h past call [] rfl
          have hbefore := hshorter before (by simp) (by simp)
          rw [hq] at hplace hinside
          have hnone : (leftPlaces inside).count q = 0 :=
            List.count_eq_zero.2 (not_mem_leftPlaces hinside)
          have hleft : (leftPlaces (before ++ .entered enter :: inside ++ [.left call])).count q =
              (leftPlaces before).count q + 1 := by
            simp [hnone, hq]
          have hentered : (enteredPlaces before).count q + 1 ≤
              (enteredPlaces (before ++ .entered enter :: inside ++ [.left call])).count q := by
            simp only [enteredPlaces_append, List.count_append, enteredPlaces_entered, hplace,
              List.count_cons_self]
            omega
          omega
        · simpa [List.count_cons, hq] using hpast

theorem marks_matched (v : Visitor σ ε) (keys : VisitorKeys) (fuel : Nat) (tree : Node)
    (parent : Option Parent) (s : σ) : Matched (marks v keys fuel tree parent s) := by
  intro past call rest hsplit
  have hshown := track_shown v keys parent fuel [] tree parent s [] (.root keys parent tree)
  obtain ⟨before, enter, inside, hpast, hplace, -, hinside⟩ :=
    (hshown.events past (.left call) rest hsplit).paired call rfl
  exact ⟨before, enter, inside, hpast, hplace, fun mark hmark => (hinside mark hmark).2.symm⟩

end Counts

theorem Visitor.Reads.ok_of_covered {v : Visitor σ ε} (hv : v.Reads) {keys : VisitorKeys}
    {tree t : Node} (hcovered : tree.Covered keys) {fuel : Nat} {parent : Option Parent} {s s' : σ}
    {verdict : Except (WalkError ε) Unit}
    (h : walkNode v keys fuel tree parent s = some ⟨t, s', verdict⟩) : verdict = .ok () := by
  cases verdict with
  | ok u => rfl
  | error e =>
    have ho := (track_outcome v keys fuel [] tree parent s).trans h
    obtain ⟨q, m, -, hcut⟩ := track_cuts hv keys fuel [] tree parent s t s' e ho
    have hleads : Leads keys tree q m := hcut.leads (Laid.root keys tree).leads
    cases hleads.covered hcovered with
    | mk known _ _ =>
      rw [hcut.unknown] at known
      cases known

/-- A walk ends within the count of its tree when no entry makes a node larger, and a visitor that
only looks on is shown that many nodes where the table covers the tree. -/
theorem walk_within_count {v : Visitor σ ε} {keys : VisitorKeys} (hv : v.NeverGrows keys)
    (hkeys : keys.Distinct) (tree : Tree) {fuel : Nat}
    (hfuel : tree.root.count ≤ fuel) {parent : Option Parent} {s : σ}
    (hcalls : ∀ mark ∈ marks v keys fuel tree.root parent s, mark.Returned) :
    let l := marks v keys fuel tree.root parent s
    (∃ o, walkNode v keys fuel tree.root parent s = some o) ∧
    (enteredPlaces l).length ≤ tree.root.count ∧
    (∀ first, first <+: l → (leftPlaces first).Subperm (enteredPlaces first)) ∧
    (v.Reads → v.NeverSkips → tree.root.Covered keys →
      (∃ s', walkNode v keys fuel tree.root parent s = some ⟨tree.root, s', .ok ()⟩) ∧
      (enteredPlaces l).length = tree.root.count ∧ (leftPlaces l).length = tree.root.count) ∧
    tree.root.Covered (VisitorKeys.empty.withFallback .fields) := by
  intro l
  have hbounds := trackBy_bounded hv hkeys fuel [] tree.root parent s tree.ordered hfuel
  rw [trackBy_self] at hbounds
  have hends : ∃ o, walkNode v keys fuel tree.root parent s = some o := by
    rw [← track_outcome v keys fuel []]
    exact Option.isSome_iff_exists.1 (hbounds.ends hcalls)
  have hleft : ∀ first, first <+: l → (leftPlaces first).Subperm (enteredPlaces first) := by
    intro first hfirst
    have hmatched : Matched first := (marks_matched v keys fuel tree.root parent s).before hfirst
    exact List.subperm_ext_iff.2 fun q _ => hmatched.left_count_le q
  refine ⟨hends, hbounds.entered, hleft, fun hreads hskips hcovered => ?_,
    tree.root.covered_by_fields⟩
  obtain ⟨⟨t, s', verdict⟩, hwalk⟩ := hends
  rw [hreads.ok_of_covered hcovered hwalk] at hwalk
  have ho := (track_outcome v keys fuel [] tree.root parent s).trans hwalk
  obtain ⟨rfl, htour⟩ := track_tours hreads keys fuel [] tree.root parent s t s' ho
  have hentered := htour.entered_length hkeys tree.ordered hcovered
    (.root keys tree.root) (hskips.not_skipped keys fuel tree.root parent s)
  exact ⟨⟨s', hwalk⟩, hentered, htour.left_perm.length_eq.trans hentered⟩

/-- Puts a leaf in the place of a node of some kind when it enters it, and two of every node in its
place when it leaves it. -/
def collapsing (kind : String) : Visitor Unit Unit :=
  .plain (fun n _ s => ⟨if n.kind = kind then .new "Collapsed" else n, s, .ok .descend⟩)
    fun n _ s => ⟨(Node.new "Pair").withChildren "both" [n, n], s, .ok ()⟩

theorem collapsing_neverGrows (kind : String) (keys : VisitorKeys) :
    (collapsing kind).NeverGrows keys := by
  intro fuel n parent s o hn ho
  have hentered : o.subject = if n.kind = kind then .new "Collapsed" else n := by
    cases ho
    rfl
  rw [hentered]
  by_cases hkind : n.kind = kind
  · rw [if_pos hkind]
    exact ⟨.new "Collapsed", n.count_pos⟩
  · rw [if_neg hkind]
    exact ⟨hn, Nat.le_refl n.count⟩

/-- The visitor that collapses the function enters three of the four nodes, and what it leaves is
larger than the tree. The idle one enters and leaves all four. -/
theorem punctured_within_count :
    let keys := VisitorKeys.empty.withFallback .fields
    let idle : Visitor Unit Unit := .idle
    let collapsed := marks (collapsing "FunctionExpression") keys 4 punctured.root none ()
    let calls := marks idle keys 4 punctured.root none ()
    punctured.root.count = 4 ∧ keys.Distinct ∧
    ((collapsing "FunctionExpression").NeverGrows keys ∧ (∀ mark ∈ collapsed, mark.Returned) ∧
      enteredPlaces collapsed = [[], [⟨"body", some 0⟩], [⟨"body", some 2⟩]] ∧
      (enteredPlaces collapsed).length ≤ punctured.root.count ∧
      ∃ o, walkNode (collapsing "FunctionExpression") keys 4 punctured.root none () = some o ∧
        punctured.root.count < o.subject.count) ∧
    idle.NeverGrows keys ∧ (∀ mark ∈ calls, mark.Returned) ∧ idle.Reads ∧ idle.NeverSkips ∧
    punctured.root.Covered keys ∧ (enteredPlaces calls).length = punctured.root.count ∧
    (leftPlaces calls).length = punctured.root.count := by
  intro keys idle collapsed calls
  have hkeys : keys.Distinct := fun kind names h => by cases h
  have hanswers : ∀ {v : Visitor Unit Unit}, v.Answers →
      ∀ mark ∈ marks v keys 4 punctured.root none (), mark.Returned := by
    intro v hv
    have hreturned := hv.returned keys keys 4 [] punctured.root none ()
    rwa [trackBy_self] at hreturned
  have hgrows := collapsing_neverGrows "FunctionExpression" keys
  have hcollapsed : ∀ mark ∈ collapsed, mark.Returned :=
    hanswers ⟨fun _ _ _ _ => rfl, fun _ _ _ _ => rfl⟩
  have hcalls : ∀ mark ∈ calls, mark.Returned :=
    hanswers ⟨fun _ _ _ _ => rfl, fun _ _ _ _ => rfl⟩
  have hreads : idle.Reads :=
    ⟨fun _ n parent s o ho => ⟨s, .descend, by cases ho; rfl⟩,
      fun _ n parent s o ho => ⟨s, by cases ho; rfl⟩⟩
  have hskips : idle.NeverSkips := fun _ n parent s m s' control ho => by cases ho; rfl
  have hcovered : punctured.root.Covered keys := punctured.root.covered_by_fields
  obtain ⟨⟨o, ho⟩, hentered, -, -, -⟩ := walk_within_count hgrows hkeys punctured
    (Nat.le_refl 4) hcollapsed
  obtain ⟨-, -, -, hexact, -⟩ := walk_within_count (hreads.neverGrows keys) hkeys punctured
    (Nat.le_refl 4) hcalls
  obtain ⟨-, hall, hleft⟩ := hexact hreads hskips hcovered
  refine ⟨rfl, hkeys, ⟨hgrows, hcollapsed, rfl, hentered, o, ho, ?_⟩,
    hreads.neverGrows keys, hcalls, hreads, hskips, hcovered, hall, hleft⟩
  cases ho
  decide

end SyntaxWalk
