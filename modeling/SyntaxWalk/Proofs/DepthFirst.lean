import SyntaxWalk.Proofs.Tour
import Mathlib.Data.List.Induction
import Mathlib.Data.List.Nodup

/-!
# Depth-first walks

Which places a walk enters, in which order, and how the two calls of a visit enclose those between
them. All of it is read off the tour that the calls make, by induction on it, for any list of nodes
in order of which none is below another (`Laid`). The root of a tree alone is such a list
(`walk_depthFirst`).
-/

namespace SyntaxWalk

variable {σ ε : Type}

def enteredPlaces (l : List (Mark σ ε)) : List Place :=
  (l.filterMap Mark.entered?).map VisitorCall.place

def leftPlaces (l : List (Mark σ ε)) : List Place :=
  (l.filterMap Mark.left?).map VisitorCall.place

section Places

variable (enter : VisitorCall σ ε Control) (leave : VisitorCall σ ε Unit) (l l' : List (Mark σ ε))

@[simp] theorem enteredPlaces_nil : enteredPlaces ([] : List (Mark σ ε)) = [] := rfl

@[simp] theorem leftPlaces_nil : leftPlaces ([] : List (Mark σ ε)) = [] := rfl

@[simp] theorem enteredPlaces_entered :
    enteredPlaces (.entered enter :: l) = enter.place :: enteredPlaces l := rfl

@[simp] theorem enteredPlaces_left : enteredPlaces (.left leave :: l) = enteredPlaces l := rfl

@[simp] theorem leftPlaces_entered : leftPlaces (.entered enter :: l) = leftPlaces l := rfl

@[simp] theorem leftPlaces_left :
    leftPlaces (.left leave :: l) = leave.place :: leftPlaces l := rfl

@[simp] theorem enteredPlaces_append :
    enteredPlaces (l ++ l') = enteredPlaces l ++ enteredPlaces l' := by
  simp [enteredPlaces]

@[simp] theorem leftPlaces_append : leftPlaces (l ++ l') = leftPlaces l ++ leftPlaces l' := by
  simp [leftPlaces]

end Places

def Entered (l : List (Mark σ ε)) (place : Place) (n : Node) : Prop :=
  ∃ call, .entered call ∈ l ∧ call.place = place ∧ call.node = n

def Answered (l : List (Mark σ ε)) (place : Place) (n : Node) (control : Control) : Prop :=
  ∃ call, .entered call ∈ l ∧ call.place = place ∧ call.node = n ∧ call.answer? = some control

theorem Answered.mono {l l' : List (Mark σ ε)} {place : Place} {n : Node} {control : Control}
    (h : Answered l place n control) (hl : l ⊆ l') : Answered l' place n control :=
  h.imp fun _ hcall => ⟨hl hcall.1, hcall.2⟩

theorem Answered.answer_unique {l : List (Mark σ ε)} (hnodup : (enteredPlaces l).Nodup)
    {place : Place} {n m : Node} {control control' : Control} (h : Answered l place n control)
    (h' : Answered l place m control') : control = control' := by
  obtain ⟨call, hcall, hplace, -, hanswer⟩ := h
  obtain ⟨call', hcall', hplace', -, hanswer'⟩ := h'
  have hmem : ∀ {call : VisitorCall σ ε Control}, .entered call ∈ l →
      call ∈ l.filterMap Mark.entered? := fun hl => List.mem_filterMap.2 ⟨_, hl, rfl⟩
  have hsame : call = call' :=
    List.inj_on_of_nodup_map hnodup (hmem hcall) (hmem hcall') (hplace.trans hplace'.symm)
  rw [← hsame, hanswer] at hanswer'
  exact Option.some.inj hanswer'

variable {keys : VisitorKeys} {tree : Node} {items : List (Place × Node)} {l : List (Mark σ ε)}

/-- Nodes of the tree at their places, in the order of a depth-first walk and none below another. -/
structure Laid (keys : VisitorKeys) (tree : Node) (items : List (Place × Node)) : Prop where
  leads : ∀ item ∈ items, Leads keys tree item.1 item.2
  apart : items.Pairwise fun a b => Apart keys tree a.1 b.1

theorem Laid.tail {item : Place × Node} (h : Laid keys tree (item :: items)) :
    Laid keys tree items where
  leads other hother := h.leads other (List.mem_cons_of_mem _ hother)
  apart := (List.pairwise_cons.1 h.apart).2

theorem Laid.apart_of_mem {item other : Place × Node} (h : Laid keys tree (item :: items))
    (hother : other ∈ items) : Apart keys tree item.1 other.1 :=
  (List.pairwise_cons.1 h.apart).1 other hother

theorem Laid.root (keys : VisitorKeys) (tree : Node) : Laid keys tree [([], tree)] where
  leads item hitem := by
    rw [List.mem_singleton.1 hitem]
    exact .root
  apart := List.pairwise_singleton ..

namespace Beneath

variable {place : Place} {n : Node} {control : Control} {below : List (Place × Node)}

theorem place_eq (h : Beneath keys place n control below) :
    ∀ item ∈ below, ∃ step, item.1 = place ++ [step] := by
  cases h with
  | skip => exact fun item hitem => by cases hitem
  | descend known =>
    intro item hitem
    obtain ⟨⟨step, m⟩, -, rfl⟩ := List.mem_map.1 hitem
    exact ⟨step, rfl⟩

theorem laid (h : Beneath keys place n control below) (hkeys : keys.Distinct) (hn : n.Ordered)
    (hleads : Leads keys tree place n) : Laid keys tree below := by
  cases h with
  | skip => exact ⟨fun item hitem => (by cases hitem), List.Pairwise.nil⟩
  | @descend names known =>
    refine ⟨fun item hitem => ?_, ?_⟩
    · obtain ⟨⟨step, m⟩, hstep, rfl⟩ := List.mem_map.1 hitem
      obtain ⟨hlisted, hat⟩ := Node.mem_steps.1 hstep
      exact hleads.step known hlisted hat
    · refine List.pairwise_map.2 ((n.steps_pairwise (hkeys.childKeys? hn known)).imp ?_)
      intro a b hbefore
      exact ⟨place, n, names, a.1, b.1, hleads, known, hbefore, List.prefix_rfl, List.prefix_rfl⟩

theorem mem_iff {q : Place} {m : Node} (h : Beneath keys place n .descend below) :
    (q, m) ∈ below ↔ ∃ names step, keys.childKeys? n = some names ∧ step.key ∈ names ∧
      n.at? step = some m ∧ q = place ++ [step] := by
  cases h with
  | @descend names known =>
    constructor
    · intro hmem
      obtain ⟨⟨step, m'⟩, hstep, heq⟩ := List.mem_map.1 hmem
      cases heq
      obtain ⟨hlisted, hat⟩ := Node.mem_steps.1 hstep
      exact ⟨names, step, known, hlisted, hat, rfl⟩
    · rintro ⟨names', step, known', hlisted, hat, rfl⟩
      rw [known] at known'
      cases known'
      exact List.mem_map.2 ⟨(step, m), Node.mem_steps.2 ⟨hlisted, hat⟩, rfl⟩

theorem unique {below' : List (Place × Node)} (h : Beneath keys place n control below)
    (h' : Beneath keys place n control below') : below = below' := by
  cases h with
  | skip =>
    cases h'
    rfl
  | descend known =>
    cases h' with
    | descend known' =>
      rw [known] at known'
      cases known'
      rfl

end Beneath

theorem mem_enteredPlaces {q : Place} (h : q ∈ enteredPlaces l) : ∃ mark ∈ l, mark.place = q := by
  obtain ⟨call, hcall, rfl⟩ := List.mem_map.1 h
  obtain ⟨mark, hmark, hentered⟩ := List.mem_filterMap.1 hcall
  cases mark with
  | entered other =>
    cases hentered
    exact ⟨_, hmark, rfl⟩
  | left other => cases hentered

theorem enteredPlaces_visit (enter : VisitorCall σ ε Control) (leave : VisitorCall σ ε Unit)
    (inside after : List (Mark σ ε)) :
    enteredPlaces (.entered enter :: (inside ++ .left leave :: after)) =
      enter.place :: (enteredPlaces inside ++ enteredPlaces after) := by
  simp

theorem leftPlaces_visit (enter : VisitorCall σ ε Control) (leave : VisitorCall σ ε Unit)
    (inside after : List (Mark σ ε)) :
    leftPlaces (.entered enter :: (inside ++ .left leave :: after)) =
      leftPlaces inside ++ leave.place :: leftPlaces after := by
  simp

theorem entered_mem_visit {call enter : VisitorCall σ ε Control} {leave : VisitorCall σ ε Unit}
    {inside after : List (Mark σ ε)} :
    .entered call ∈ Mark.entered enter :: (inside ++ .left leave :: after) ↔
      call = enter ∨ .entered call ∈ inside ∨ .entered call ∈ after := by
  simp only [List.mem_cons, List.mem_append, Mark.entered.injEq, reduceCtorEq, false_or]

/-- The visit that begins with a call: it ends with a call for the same node, everything between the
two is below that node, nothing around them is, and nothing is between them if the node was
skipped. -/
def Bracketed (l : List (Mark σ ε)) (call : VisitorCall σ ε Control) : Prop :=
  ∃ before inside after leave, l = before ++ .entered call :: (inside ++ .left leave :: after) ∧
    leave.place = call.place ∧ leave.node = call.node ∧ leave.parent = call.parent ∧
    (∀ mark ∈ inside, call.place <+: mark.place ∧ call.place ≠ mark.place) ∧
    (∀ mark ∈ before ++ after, ¬ call.place <+: mark.place) ∧
    (call.answer? = some .skip → inside = [])

namespace Bracketed

variable {call : VisitorCall σ ε Control} {enter leave : Mark σ ε} {inside after : List (Mark σ ε)}

theorem amid (first last : List (Mark σ ε)) (h : Bracketed l call)
    (hfirst : ∀ mark ∈ first, ¬ call.place <+: mark.place)
    (hlast : ∀ mark ∈ last, ¬ call.place <+: mark.place) :
    Bracketed (first ++ (l ++ last)) call := by
  obtain ⟨before, inner, behind, leave, rfl, hplace, hnode, hparent, hinner, houter, hskip⟩ := h
  refine ⟨first ++ before, inner, behind ++ last, leave, by simp, hplace, hnode, hparent, hinner,
    fun mark hmark => ?_, hskip⟩
  simp only [List.mem_append] at hmark houter
  rcases hmark with (hmark | hmark) | hmark | hmark
  · exact hfirst mark hmark
  · exact houter mark (.inl hmark)
  · exact houter mark (.inr hmark)
  · exact hlast mark hmark

theorem of_inside (h : Bracketed inside call) (henter : ¬ call.place <+: enter.place)
    (hleave : ¬ call.place <+: leave.place) (hafter : ∀ mark ∈ after, ¬ call.place <+: mark.place) :
    Bracketed (enter :: (inside ++ leave :: after)) call := by
  refine h.amid [enter] (leave :: after) (fun mark hmark => ?_) fun mark hmark => ?_
  · rw [List.mem_singleton.1 hmark]
    exact henter
  · rcases List.mem_cons.1 hmark with rfl | hmark
    · exact hleave
    · exact hafter mark hmark

theorem of_after (h : Bracketed after call) (henter : ¬ call.place <+: enter.place)
    (hinside : ∀ mark ∈ inside, ¬ call.place <+: mark.place)
    (hleave : ¬ call.place <+: leave.place) :
    Bracketed (enter :: (inside ++ leave :: after)) call := by
  have hall := h.amid (enter :: (inside ++ [leave])) [] (fun mark hmark => ?_)
    fun mark hmark => (by cases hmark)
  · simpa using hall
  · simp only [List.mem_cons, List.mem_append, List.not_mem_nil, or_false] at hmark
    rcases hmark with rfl | hmark | rfl
    · exact henter
    · exact hinside mark hmark
    · exact hleave

end Bracketed

namespace Tour

theorem within (h : Tour keys items l) : ∀ mark ∈ l, ∃ item ∈ items, item.1 <+: mark.place := by
  induction h with
  | nil => exact fun mark hmark => by cases hmark
  | @visit place n parent s₁ s₂ s₃ s₄ control below rest inside after beneath _ _ ihd ihs =>
    intro mark hmark
    simp only [List.mem_cons, List.mem_append] at hmark
    rcases hmark with rfl | hmark | rfl | hmark
    · exact ⟨(place, n), List.mem_cons_self, List.prefix_rfl⟩
    · obtain ⟨item, hitem, hunder⟩ := ihd mark hmark
      obtain ⟨step, hstep⟩ := beneath.place_eq item hitem
      exact ⟨(place, n), List.mem_cons_self,
        (List.prefix_append place [step]).trans (hstep ▸ hunder)⟩
    · exact ⟨(place, n), List.mem_cons_self, List.prefix_rfl⟩
    · obtain ⟨item, hitem, hunder⟩ := ihs mark hmark
      exact ⟨item, List.mem_cons_of_mem _ hitem, hunder⟩

theorem strictly_below {place : Place} {n : Node} {control : Control} (h : Tour keys items l)
    (hbeneath : Beneath keys place n control items) :
    ∀ mark ∈ l, place <+: mark.place ∧ place ≠ mark.place := by
  intro mark hmark
  obtain ⟨item, hitem, hunder⟩ := h.within mark hmark
  obtain ⟨step, hstep⟩ := hbeneath.place_eq item hitem
  rw [hstep] at hunder
  exact strictly_below_of_step hunder

theorem left_perm (h : Tour keys items l) : (leftPlaces l).Perm (enteredPlaces l) := by
  induction h with
  | nil => exact .nil
  | @visit place n parent s₁ s₂ s₃ s₄ control below rest inside after _ _ _ ihd ihs =>
    rw [enteredPlaces_visit, leftPlaces_visit]
    exact List.perm_middle.trans ((ihd.append ihs).cons place)

theorem answered_visit {place q : Place} {n m : Node} {parent : Option Parent} {s₁ s₂ : σ}
    {control answer : Control} {inside after : List (Mark σ ε)} {leave : VisitorCall σ ε Unit} :
    Answered (.entered ⟨place, n, parent, s₁, some ⟨n, s₂, .ok control⟩⟩ ::
        (inside ++ .left leave :: after)) q m answer ↔
      (q = place ∧ m = n ∧ answer = control) ∨ Answered inside q m answer ∨
        Answered after q m answer := by
  constructor
  · rintro ⟨call, hcall, rfl, rfl, hanswer⟩
    rcases entered_mem_visit.1 hcall with rfl | hcall | hcall
    · cases hanswer
      exact .inl ⟨rfl, rfl, rfl⟩
    · exact .inr (.inl ⟨call, hcall, rfl, rfl, hanswer⟩)
    · exact .inr (.inr ⟨call, hcall, rfl, rfl, hanswer⟩)
  · rintro (⟨rfl, rfl, rfl⟩ | h | h)
    · exact ⟨_, List.mem_cons_self, rfl, rfl, rfl⟩
    · exact h.mono fun mark hmark => by simp [hmark]
    · exact h.mono fun mark hmark => by simp [hmark]

theorem entered_iff (h : Tour keys items l) (place : Place) (n : Node) :
    Entered l place n ↔ ∃ answer, Answered l place n answer := by
  have hanswer : ∀ call, .entered call ∈ l → ∃ answer, call.answer? = some answer := by
    induction h with
    | nil => exact fun call hcall => by cases hcall
    | visit _ _ _ ihd ihs =>
      intro call hcall
      rcases entered_mem_visit.1 hcall with rfl | hcall | hcall
      · exact ⟨_, rfl⟩
      · exact ihd call hcall
      · exact ihs call hcall
  constructor
  · rintro ⟨call, hcall, hplace, hnode⟩
    exact (hanswer call hcall).imp fun answer ha => ⟨call, hcall, hplace, hnode, ha⟩
  · rintro ⟨answer, call, hcall, hplace, hnode, -⟩
    exact ⟨call, hcall, hplace, hnode⟩

/-- A node is entered as one of those the tour starts with, or beneath one that it descends into. -/
theorem answered_iff (h : Tour keys items l) (q : Place) (m : Node) :
    (∃ answer, Answered l q m answer) ↔ (q, m) ∈ items ∨ ∃ place n below,
      Answered l place n .descend ∧ Beneath keys place n .descend below ∧ (q, m) ∈ below := by
  induction h with
  | nil =>
    constructor
    · rintro ⟨answer, call, hcall, -⟩
      cases hcall
    · rintro (hitem | ⟨place, n, below, ⟨call, hcall, -⟩, -⟩)
      · cases hitem
      · cases hcall
  | @visit place n parent s₁ s₂ s₃ s₄ control below rest inside after beneath _ _ ihd ihs =>
    simp only [answered_visit, List.mem_cons, Prod.mk.injEq]
    constructor
    · rintro ⟨answer, ⟨rfl, rfl, rfl⟩ | h | h⟩
      · exact .inl (.inl ⟨rfl, rfl⟩)
      · rcases ihd.1 ⟨answer, h⟩ with hbelow | ⟨place', n', below', hanswered, hbeneath, hmem⟩
        · cases beneath with
          | skip => cases hbelow
          | descend known =>
            exact .inr ⟨place, n, _, .inl ⟨rfl, rfl, rfl⟩, .descend known, hbelow⟩
        · exact .inr ⟨place', n', below', .inr (.inl hanswered), hbeneath, hmem⟩
      · rcases ihs.1 ⟨answer, h⟩ with hrest | ⟨place', n', below', hanswered, hbeneath, hmem⟩
        · exact .inl (.inr hrest)
        · exact .inr ⟨place', n', below', .inr (.inr hanswered), hbeneath, hmem⟩
    · rintro ((⟨rfl, rfl⟩ | hrest) | ⟨place', n', below', hanswered, hbeneath, hmem⟩)
      · exact ⟨control, .inl ⟨rfl, rfl, rfl⟩⟩
      · exact (ihs.2 (.inl hrest)).imp fun answer h => .inr (.inr h)
      · rcases hanswered with ⟨rfl, rfl, rfl⟩ | hanswered | hanswered
        · rw [hbeneath.unique beneath] at hmem
          exact (ihd.2 (.inl hmem)).imp fun answer h => .inr (.inl h)
        · exact (ihd.2 (.inr ⟨place', n', below', hanswered, hbeneath, hmem⟩)).imp
            fun answer h => .inr (.inl h)
        · exact (ihs.2 (.inr ⟨place', n', below', hanswered, hbeneath, hmem⟩)).imp
            fun answer h => .inr (.inr h)

theorem answered_of_leads (h : Tour keys [([], tree)] l) {place : Place} {n : Node}
    (hleads : Leads keys tree place n)
    (hfree : ∀ above m, above <+: place → above ≠ place → ¬ Answered l above m .skip) :
    ∃ answer, Answered l place n answer := by
  induction hleads with
  | root => exact (h.answered_iff [] tree).2 (.inl (List.mem_singleton_self _))
  | @step place n m names step above known listed below ih =>
    obtain ⟨answer, hanswered⟩ := ih fun other m' hunder hne => by
      refine hfree other m' (hunder.trans (List.prefix_append _ _)) fun heq => hne ?_
      exact hunder.eq_of_length_le (by rw [heq]; simp)
    have hanswer : answer = .descend := by
      cases answer with
      | descend => rfl
      | skip => exact absurd hanswered (hfree place n (List.prefix_append _ _) (by simp))
    rw [hanswer] at hanswered
    have hbeneath : Beneath keys place n .descend _ := .descend known
    exact (h.answered_iff _ m).2 (.inr ⟨place, n, _, hanswered, hbeneath,
      hbeneath.mem_iff.2 ⟨names, step, known, listed, below, rfl⟩⟩)

theorem leads_of_answered (h : Tour keys [([], tree)] l) (hnodup : (enteredPlaces l).Nodup)
    {place : Place} {n : Node} (hanswered : ∃ answer, Answered l place n answer) :
    Leads keys tree place n ∧
      ∀ above m, above <+: place → above ≠ place → ¬ Answered l above m .skip := by
  induction place using List.reverseRecOn generalizing n with
  | nil =>
    rcases (h.answered_iff [] n).1 hanswered with hroot | ⟨place, m, below, -, hbeneath, hmem⟩
    · cases List.mem_singleton.1 hroot
      exact ⟨.root, fun above m hunder hne => absurd (List.prefix_nil.1 hunder) hne⟩
    · obtain ⟨names, step, -, -, -, hplace⟩ := hbeneath.mem_iff.1 hmem
      simp at hplace
  | append_singleton place step ih =>
    rcases (h.answered_iff _ n).1 hanswered with hroot | ⟨other, m, below, hdescend, hbeneath, hmem⟩
    · simp at hroot
    · obtain ⟨names, step', known, hlisted, hat, hplace⟩ := hbeneath.mem_iff.1 hmem
      obtain ⟨rfl, hstep⟩ := List.append_inj' hplace rfl
      cases hstep
      obtain ⟨hleads, hfree⟩ := ih ⟨_, hdescend⟩
      refine ⟨hleads.step known hlisted hat, fun above m' hunder hne hskip => ?_⟩
      -- The place right above is not skipped, since it was descended into.
      rcases List.prefix_concat_iff.1 hunder with heq | hunder
      · exact hne heq
      · by_cases hown : above = place
        · rw [hown] at hskip
          cases hdescend.answer_unique hnodup hskip
        · exact hfree above m' hunder hown hskip

section Laid

variable (hkeys : keys.Distinct) (htree : tree.Ordered)

include hkeys htree

theorem ordered (h : Tour keys items l) (hlaid : Laid keys tree items) :
    (enteredPlaces l).Pairwise (Precedes keys tree) := by
  induction h with
  | nil => exact List.Pairwise.nil
  | @visit place n parent s₁ s₂ s₃ s₄ control below rest inside after beneath descent siblings ihd
      ihs =>
    have hleads : Leads keys tree place n := hlaid.leads _ List.mem_cons_self
    have hbelow := beneath.laid hkeys (hleads.ordered htree) hleads
    have hinside : ∀ q ∈ enteredPlaces inside, place <+: q ∧ place ≠ q := by
      intro q hq
      obtain ⟨mark, hmark, rfl⟩ := mem_enteredPlaces hq
      exact descent.strictly_below beneath mark hmark
    have hafter : ∀ a, place <+: a → ∀ q ∈ enteredPlaces after, Precedes keys tree a q := by
      intro a ha q hq
      obtain ⟨mark, hmark, rfl⟩ := mem_enteredPlaces hq
      obtain ⟨item, hitem, hunder⟩ := siblings.within mark hmark
      exact .inr ((hlaid.apart_of_mem hitem).mono ha hunder)
    rw [enteredPlaces_visit]
    refine List.Pairwise.cons (fun q hq => ?_) (List.pairwise_append.2 ⟨ihd hbelow, ihs hlaid.tail,
      fun a ha b hb => hafter a (hinside a ha).1 b hb⟩)
    rcases List.mem_append.1 hq with hq | hq
    · exact .inl (hinside q hq)
    · exact hafter place List.prefix_rfl q hq

/-- Between the two calls of a visit are the calls for what is below its node, and no others. -/
theorem bracketed (h : Tour keys items l) (hlaid : Laid keys tree items) :
    ∀ call, .entered call ∈ l → Bracketed l call := by
  induction h with
  | nil => exact fun call hcall => by cases hcall
  | @visit place n parent s₁ s₂ s₃ s₄ control below rest inside after beneath descent siblings ihd
      ihs =>
    have hleads : Leads keys tree place n := hlaid.leads _ List.mem_cons_self
    have hbelow := beneath.laid hkeys (hleads.ordered htree) hleads
    have hinside := descent.strictly_below beneath
    have hafter : ∀ mark ∈ after, ∀ a, place <+: a → ¬ a <+: mark.place := by
      intro mark hmark a ha hunder
      obtain ⟨item, hitem, hbelow⟩ := siblings.within mark hmark
      exact (hlaid.apart_of_mem hitem).not_below (ha.trans hunder) hbelow
    intro call hcall
    rcases entered_mem_visit.1 hcall with rfl | hcall | hcall
    · refine ⟨[], inside, after, _, rfl, rfl, rfl, rfl, hinside,
        fun mark hmark => hafter mark hmark place List.prefix_rfl, fun hskip => ?_⟩
      cases hskip
      cases beneath
      cases descent
      rfl
    · obtain ⟨hunder, hne⟩ := hinside _ hcall
      have hown : ¬ call.place <+: place := fun h =>
        hne (hunder.eq_of_length (Nat.le_antisymm hunder.length_le h.length_le))
      exact (ihd hbelow call hcall).of_inside hown hown fun mark hmark =>
        hafter mark hmark call.place hunder
    · obtain ⟨item, hitem, hunder⟩ := siblings.within _ hcall
      have hother : ∀ a, place <+: a → ¬ call.place <+: a := fun a ha h =>
        (hlaid.apart_of_mem hitem).not_below ha (hunder.trans h)
      exact (ihs hlaid.tail call hcall).of_after (hother place List.prefix_rfl)
        (fun mark hmark => hother _ (hinside mark hmark).1) (hother place List.prefix_rfl)

end Laid

end Tour

/-- The calls of a depth-first walk: where it goes, in which order, and how its visits nest. -/
structure DepthFirst (keys : VisitorKeys) (tree : Node) (l : List (Mark σ ε)) : Prop where
  reached : ∀ place n, Entered l place n ↔ Leads keys tree place n ∧
    ∀ above m, above <+: place → above ≠ place → ¬ Answered l above m .skip
  once : (enteredPlaces l).Nodup
  left : (leftPlaces l).Perm (enteredPlaces l)
  ordered : (enteredPlaces l).Pairwise (Precedes keys tree)
  bracketed : ∀ call, .entered call ∈ l → Bracketed l call

/-- A walk that succeeds enters just the nodes that the table leads to without going below a skipped
one, each once and in depth-first order, and leaves each when it is done with what is below it. -/
theorem walk_depthFirst {v : Visitor σ ε} (hv : v.Reads) (hkeys : keys.Distinct) (tree : Tree)
    {fuel : Nat} {parent : Option Parent} {s s' : σ} {m : Node}
    (hwalk : walkNode v keys fuel tree.root parent s = some ⟨m, s', .ok ()⟩) :
    DepthFirst keys tree.root (marks v keys fuel tree.root parent s) := by
  rw [← track_outcome v keys fuel []] at hwalk
  have htour : Tour keys [([], tree.root)] (marks v keys fuel tree.root parent s) :=
    (track_tours hv keys fuel [] tree.root parent s m s' hwalk).2
  have hordered := htour.ordered hkeys tree.ordered (.root keys tree.root)
  have honce : (enteredPlaces (marks v keys fuel tree.root parent s)).Nodup :=
    hordered.imp Precedes.ne
  refine ⟨fun place n => ?_, honce, htour.left_perm, hordered,
    htour.bracketed hkeys tree.ordered (.root keys tree.root)⟩
  rw [htour.entered_iff]
  exact ⟨htour.leads_of_answered honce, fun h => htour.answered_of_leads h.1 h.2⟩

def skipping (kind : String) : Visitor Unit Unit :=
  .plain (fun n _ s => ⟨n, s, .ok (if n.kind = kind then .skip else .descend)⟩)
    fun n _ s => ⟨n, s, .ok ()⟩

def punctured : Tree :=
  (Tree.leaf "Program").withItems "body" [some (.leaf "Identifier"), none,
    some ((Tree.leaf "FunctionExpression").withChild "body" (.leaf "BlockStatement"))]

theorem skipping_reads (kind : String) : (skipping kind).Reads where
  enter walk n parent s o ho := by
    cases ho
    exact ⟨_, _, rfl⟩
  leave walk n parent s o ho := by
    cases ho
    exact ⟨_, rfl⟩

theorem depthFirst_punctured :
    (skipping "FunctionExpression").Reads ∧
    (VisitorKeys.empty.withFallback .fields).Distinct ∧
    walkNode (skipping "FunctionExpression") (.withFallback .empty .fields) 2 punctured.root none
      () = some ⟨punctured.root, (), .ok ()⟩ ∧
    enteredPlaces (marks (skipping "FunctionExpression") (.withFallback .empty .fields) 2
      punctured.root none ()) = [[], [⟨"body", some 0⟩], [⟨"body", some 2⟩]] ∧
    DepthFirst (.withFallback .empty .fields) punctured.root (marks (skipping "FunctionExpression")
      (.withFallback .empty .fields) 2 punctured.root none ()) := by
  have hreads := skipping_reads "FunctionExpression"
  have hkeys : (VisitorKeys.empty.withFallback .fields).Distinct := fun kind names h => by cases h
  have hwalk : walkNode (skipping "FunctionExpression") (.withFallback .empty .fields) 2
      punctured.root none () = some ⟨punctured.root, (), .ok ()⟩ := rfl
  exact ⟨hreads, hkeys, hwalk, rfl, walk_depthFirst hreads hkeys punctured hwalk⟩

end SyntaxWalk
