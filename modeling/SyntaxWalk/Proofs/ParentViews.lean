import SyntaxWalk.Proofs.Tracks

/-!
# Parent views

What a visitor is shown of the parent, whatever it writes. While a field is walked, the parent lacks
that field, holds in the fields before it what the visits of their nodes left there, and in all
others what it held when the walk of its children began (`ParentView`). The calls made so far
determine all of it: the visit of the parent is the last one entered above (`Descending`), and what
a visit left at a step is what its last call returned (`latest`).
-/

namespace SyntaxWalk

variable {σ ε : Type}

namespace Mark

def parent : Mark σ ε → Option Parent
  | .entered call => call.parent
  | .left call => call.parent

def leaves? (above : Place) (step : Step) : Mark σ ε → Option Node
  | .entered _ => none
  | .left call => if call.place = above ++ [step] then call.outcome.map Outcome.subject else none

end Mark

/-- What the last visit at a step below a place left there. -/
def latest (above : Place) (l : List (Mark σ ε)) (step : Step) : Option Node :=
  l.reverse.findSome? (Mark.leaves? above step)

def Field.rewritten (result : Option Nat → Option Node) : Field Node → Field Node
  | .node n => .node ((result none).getD n)
  | .list items => .list (items.mapIdx fun i item => item.map fun n => (result (some i)).getD n)
  | .value v => .value v

/-- The last visit entered at a place descended into `p`, and `inside` is what happened since. -/
def Descending (keys : VisitorKeys) (past : List (Mark σ ε)) (above : Place) (p : Node)
    (names : List String) (inside : List (Mark σ ε)) : Prop :=
  ∃ before enter s, past = before ++ .entered enter :: inside ∧ enter.place = above ∧
    enter.outcome = some ⟨p, s, .ok .descend⟩ ∧ keys.childKeys? p = some names ∧
    ∀ mark ∈ inside, above <+: mark.place ∧ above ≠ mark.place

/-- The view of `p` while a node at a step below it is visited. The fields `walked` are those that
the table gives before the one of the step. -/
structure ParentView (p : Node) (names : List String) (result : Step → Option Node) (step : Step)
    (view : Node) : Prop where
  kind : view.kind = p.kind
  loc : view.loc = p.loc
  fields : view.fields.names = p.fields.names.filter (· ≠ step.key)
  detached : view.field? step.key = none
  others : ∃ walked rest, names = walked ++ step.key :: rest ∧
    (∀ key ∈ walked, key ≠ step.key →
      view.field? key = (p.field? key).map (Field.rewritten fun index => result ⟨key, index⟩)) ∧
    (∀ other m, other.key ∈ walked → other.key ≠ step.key → p.at? other = some m →
      (result other).isSome) ∧
    ∀ key, key ∉ walked → key ≠ step.key → view.field? key = p.field? key

section Latest

variable {above : Place} {step : Step} {l l' : List (Mark σ ε)}

theorem latest_append : latest above (l ++ l') step =
    (latest above l' step).or (latest above l step) := by
  simp [latest, List.reverse_append, List.findSome?_append]

theorem latest_eq_none (h : ∀ mark ∈ l, mark.place ≠ above ++ [step]) :
    latest above l step = none := by
  simp only [latest, List.findSome?_eq_none_iff, List.mem_reverse]
  intro mark hmark
  cases mark with
  | entered call => rfl
  | left call => exact if_neg (h _ hmark)

theorem latest_left {call : VisitorCall σ ε Unit} {m : Node} {s : σ} {u : Unit}
    (hplace : call.place = above ++ [step]) (houtcome : call.outcome = some ⟨m, s, .ok u⟩) :
    latest above (l ++ [.left call]) step = some m := by
  simp [latest, Mark.leaves?, hplace, houtcome]

end Latest

namespace Field

variable {result result' : Option Nat → Option Node} {field : Field Node}

theorem rewritten_of_none (h : ∀ index, result index = none) : field.rewritten result = field := by
  cases field with
  | node n => simp [rewritten, h]
  | list items =>
    have hsame : items.mapIdx (fun _ item => item) = items := List.ext_getElem (by simp) (by simp)
    simp [rewritten, h, hsame]
  | value v => rfl

theorem rewritten_rewritten : (field.rewritten result).rewritten result' =
    field.rewritten fun index => (result' index).or (result index) := by
  cases field with
  | node n => cases hr : result' none <;> simp [rewritten, hr]
  | list items =>
    simp only [rewritten, List.mapIdx_mapIdx]
    congr 1
    refine List.mapIdx_eq_mapIdx_iff.2 fun i hi => ?_
    cases items[i] with
    | none => rfl
    | some n => cases result' (some i) <;> simp
  | value v => rfl

end Field

theorem Node.at?_rewritten {n p : Node} {result : Step → Option Node} {step : Step}
    (h : n.field? step.key =
      (p.field? step.key).map (Field.rewritten fun index => result ⟨step.key, index⟩)) :
    n.at? step = (p.at? step).map fun m => (result step).getD m := by
  obtain ⟨key, index⟩ := step
  unfold Node.at?
  rw [h]
  rcases p.field? key with _ | child | items | v
  · rfl
  · cases index <;> rfl
  · cases index with
    | none => rfl
    | some i =>
      simp only [Option.map_some, Field.rewritten, List.getElem?_mapIdx]
      rcases items[i]? with _ | _ | m <;> rfl
  · cases index <;> rfl

section Descending

variable {keys : VisitorKeys} {past l inside : List (Mark σ ε)} {above : Place} {p : Node}
  {names : List String} {step : Step}

theorem step_eq_of_under {other : Step} (h : above ++ [step] <+: above ++ [other]) :
    step = other := by
  simpa using h

theorem Descending.extend (h : Descending keys past above p names inside)
    (hl : ∀ mark ∈ l, above <+: mark.place ∧ above ≠ mark.place) :
    Descending keys (past ++ l) above p names (inside ++ l) := by
  obtain ⟨before, enter, s, rfl, hplace, houtcome, hnames, hinside⟩ := h
  refine ⟨before, enter, s, by simp, hplace, houtcome, hnames, fun mark hmark => ?_⟩
  exact (List.mem_append.1 hmark).elim (hinside mark) (hl mark)

theorem latest_extend {other : Step} (hl : ∀ mark ∈ l, mark.place ≠ above ++ [other]) :
    latest above (inside ++ l) other = latest above inside other := by
  rw [latest_append, latest_eq_none hl, Option.none_or]

theorem ParentView.congr {result result' : Step → Option Node} {view : Node}
    (h : ParentView p names result step view)
    (hsame : ∀ other, other.key ≠ step.key → result' other = result other) :
    ParentView p names result' step view := by
  obtain ⟨walked, rest, hnames, hfield, hsettled, hpending⟩ := h.others
  refine ⟨h.kind, h.loc, h.fields, h.detached, walked, rest, hnames, fun key hkey hne => ?_,
    fun other m hother hne hm => ?_, hpending⟩
  · have hresults : (fun index => result' ⟨key, index⟩) = fun index => result ⟨key, index⟩ :=
      funext fun index => hsame ⟨key, index⟩ hne
    rw [hresults]
    exact hfield key hkey hne
  · rw [hsame other hne]
    exact hsettled other m hother hne hm

end Descending

/-- The walk of the children of `p` is through with the fields `walked` and has `n` in hand. -/
structure Underway (above : Place) (p : Node) (inside : List (Mark σ ε)) (walked : List String)
    (n : Node) : Prop where
  kind : n.kind = p.kind
  loc : n.loc = p.loc
  fields : n.fields.names = p.fields.names
  field : ∀ key, n.field? key =
    (p.field? key).map (Field.rewritten fun index => latest above inside ⟨key, index⟩)
  settled : ∀ step m, step.key ∈ walked → p.at? step = some m → (latest above inside step).isSome
  pending : ∀ step, step.key ∉ walked → latest above inside step = none

structure FieldWalked (above : Place) (key : String) (field field' : Field Node)
    (own : List (Mark σ ε)) : Prop where
  under : ∀ mark ∈ own, ∃ index, above ++ [⟨key, index⟩] <+: mark.place
  rewritten : field' = field.rewritten fun index => latest above own ⟨key, index⟩
  settled : ∀ step m, (step, m) ∈ field.steps key → (latest above own step).isSome

namespace Underway

variable {above : Place} {p n : Node} {inside own : List (Mark σ ε)} {walked : List String}
  {key : String} {field : Field Node}

theorem start (above : Place) (p : Node) : Underway above p ([] : List (Mark σ ε)) [] p where
  kind := rfl
  loc := rfl
  fields := rfl
  field key := by
    cases p.field? key with
    | none => rfl
    | some field => exact congrArg some (Field.rewritten_of_none fun _ => rfl).symm
  settled step m h := by cases h
  pending step _ := rfl

theorem at? (h : Underway above p inside walked n) {step : Step} {m : Node}
    (hm : n.at? step = some m) :
    ∃ m', p.at? step = some m' ∧ m = (latest above inside step).getD m' := by
  rw [Node.at?_rewritten (h.field step.key)] at hm
  obtain ⟨m', hm', heq⟩ := Option.map_eq_some_iff.1 hm
  exact ⟨m', hm', heq.symm⟩

theorem view (h : Underway above p inside walked n) {names rest : List String} {step : Step}
    (hnames : names = walked ++ step.key :: rest) :
    ParentView p names (latest above inside) step (n.eraseField step.key) := by
  refine ⟨h.kind, h.loc, ?_, ?_, walked, rest, hnames, fun key _ hne => ?_,
    fun other m hother _ => h.settled other m hother, fun key hkey hne => ?_⟩
  · rw [Node.eraseField_names, h.fields]
  · rw [Node.field?_eraseField, if_pos rfl]
  · rw [Node.field?_eraseField, if_neg hne, h.field key]
  · rw [Node.field?_eraseField, if_neg hne, h.field key]
    cases p.field? key with
    | none => rfl
    | some field =>
      exact congrArg some (Field.rewritten_of_none fun index => h.pending ⟨key, index⟩ hkey)

theorem missing (h : Underway above p inside walked n) (hkey : n.field? key = none) :
    Underway above p inside (walked ++ [key]) n := by
  refine { h with settled := fun step m hstep hm => ?_, pending := fun step hstep => ?_ }
  · rcases List.mem_append.1 hstep with hstep | hstep
    · exact h.settled step m hstep hm
    · have hnone := h.field step.key
      rw [List.mem_singleton.1 hstep, hkey] at hnone
      rw [Node.at?, List.mem_singleton.1 hstep, Option.map_eq_none_iff.1 hnone.symm] at hm
      cases hm
  · exact h.pending step fun hmem => hstep (List.mem_append_left _ hmem)

theorem walk (h : Underway above p inside walked n) (hfield : n.field? key = some field)
    {field' : Field Node} (hwalked : FieldWalked above key field field' own) :
    Underway above p (inside ++ own) (walked ++ [key]) (n.replaceField key field') := by
  have hother : ∀ step : Step, step.key ≠ key →
      latest above (inside ++ own) step = latest above inside step := by
    intro step hne
    refine latest_extend fun mark hmark heq => ?_
    obtain ⟨index, hunder⟩ := hwalked.under mark hmark
    rw [heq] at hunder
    exact hne (congrArg Step.key (step_eq_of_under hunder)).symm
  refine ⟨h.kind, h.loc, (n.replaceField_names key field').trans h.fields, fun name => ?_,
    fun step m hstep hm => ?_, fun step hstep => ?_⟩
  · rw [Node.field?_replaceField]
    by_cases hname : name = key
    · subst hname
      have hp := h.field name
      rw [hfield] at hp
      obtain ⟨f, hf, heq⟩ := Option.map_eq_some_iff.1 hp.symm
      rw [if_pos rfl, hfield, hf, Option.map_some, Option.map_some, hwalked.rewritten, ← heq,
        Field.rewritten_rewritten]
      simp only [latest_append]
    · rw [if_neg hname, h.field name]
      simp only [hother ⟨name, _⟩ hname]
  · rw [latest_append, Option.isSome_or, Bool.or_eq_true]
    rcases List.mem_append.1 hstep with hstep | hstep
    · exact .inr (h.settled step m hstep hm)
    · have hat : n.at? step = some ((latest above inside step).getD m) := by
        rw [Node.at?_rewritten (h.field step.key), hm, Option.map_some]
      have hmem := mem_stepsUnder.2 ⟨List.mem_singleton.1 hstep, hat⟩
      rw [Node.stepsUnder, hfield] at hmem
      exact .inl (hwalked.settled step _ hmem)
  · have hkey : step.key ∉ walked ∧ step.key ≠ key := by simpa using hstep
    rw [hother step hkey.2]
    exact h.pending step hkey.1

end Underway

structure Shown (keys : VisitorKeys) (top : Option Parent) (past : List (Mark σ ε))
    (mark : Mark σ ε) : Prop where
  root : mark.place = [] → mark.parent = top
  child : ∀ above step, mark.place = above ++ [step] → ∃ p names inside view,
    Descending keys past above p names inside ∧
    mark.parent = some ⟨view, step.key, step.index⟩ ∧
    ParentView p names (latest above inside) step view ∧
    ∃ m, p.at? step = some m ∧
      ∀ call, mark = .entered call → call.node = (latest above inside step).getD m
  paired : ∀ leave, mark = .left leave → ∃ before enter inside,
    past = before ++ .entered enter :: inside ∧ enter.place = leave.place ∧
    enter.parent = leave.parent ∧
    ∀ other ∈ inside, leave.place <+: other.place ∧ leave.place ≠ other.place

def Awaited (keys : VisitorKeys) (top : Option Parent) (past : List (Mark σ ε)) (place : Place)
    (n : Node) (parent : Option Parent) : Prop :=
  (place = [] → parent = top) ∧
  ∀ above step, place = above ++ [step] → ∃ p names inside view,
    Descending keys past above p names inside ∧ parent = some ⟨view, step.key, step.index⟩ ∧
    ParentView p names (latest above inside) step view ∧
    ∃ m, p.at? step = some m ∧ n = (latest above inside step).getD m

structure Visited (place : Place) (m : Node) (own : List (Mark σ ε)) : Prop where
  under : ∀ mark ∈ own, place <+: mark.place
  left : ∀ above step, place = above ++ [step] → latest above own step = some m

structure ItemsWalked (above : Place) (key : String) (first : Nat)
    (items items' : List (Option Node)) (own : List (Mark σ ε)) : Prop where
  under : ∀ mark ∈ own, ∃ i, first ≤ i ∧ above ++ [⟨key, some i⟩] <+: mark.place
  rewritten : items' = items.mapIdx fun i item =>
    item.map fun n => (latest above own ⟨key, some (first + i)⟩).getD n
  settled : ∀ step m, (step, m) ∈ itemSteps key first items → (latest above own step).isSome

def Beside (above : Place) (step : Step) (own : List (Mark σ ε)) : Prop :=
  ∀ mark ∈ own, ∃ other, other.key = step.key ∧ other ≠ step ∧ above ++ [other] <+: mark.place

def Adds {τ α : Type} (past : List (Mark σ ε)) (P : τ → List (Mark σ ε) → Prop)
    (l : List (Mark σ ε)) (t : τ) (_ : σ) (_ : α) : Prop := ∃ own, l = past ++ own ∧ P t own

namespace ItemsWalked

variable {above : Place} {key : String} {first : Nat} {rest rest' : List (Option Node)}
  {own own' : List (Mark σ ε)}

theorem nil : ItemsWalked above key first [] [] ([] : List (Mark σ ε)) where
  under mark h := by cases h
  rewritten := rfl
  settled step m h := by cases h

theorem hole (h : ItemsWalked above key (first + 1) rest rest' own) :
    ItemsWalked above key first (none :: rest) (none :: rest') own where
  under mark hmark := by
    obtain ⟨i, hi, hunder⟩ := h.under mark hmark
    exact ⟨i, by omega, hunder⟩
  rewritten := by
    rw [h.rewritten, List.mapIdx_cons]
    simp only [Option.map_none, Nat.add_assoc, Nat.add_comm 1]
  settled := h.settled

theorem item {n m : Node} (hunder : ∀ mark ∈ own, above ++ [⟨key, some first⟩] <+: mark.place)
    (hleft : latest above own ⟨key, some first⟩ = some m)
    (h : ItemsWalked above key (first + 1) rest rest' own') :
    ItemsWalked above key first (some n :: rest) (some m :: rest') (own ++ own') := by
  have hfirst : latest above (own ++ own') ⟨key, some first⟩ = some m := by
    rw [latest_extend, hleft]
    intro mark hmark heq
    obtain ⟨i, hi, hprefix⟩ := h.under mark hmark
    rw [heq] at hprefix
    cases step_eq_of_under hprefix
    omega
  have hlater : ∀ step child, (step, child) ∈ itemSteps key (first + 1) rest →
      latest above (own ++ own') step = latest above own' step := by
    intro step child hstep
    obtain ⟨r, hr⟩ := Option.isSome_iff_exists.1 (h.settled step child hstep)
    rw [latest_append, hr, Option.some_or]
  refine ⟨fun mark hmark => ?_, ?_, fun step child hstep => ?_⟩
  · rcases List.mem_append.1 hmark with hmark | hmark
    · exact ⟨first, Nat.le_refl first, hunder mark hmark⟩
    · obtain ⟨i, hi, hprefix⟩ := h.under mark hmark
      exact ⟨i, by omega, hprefix⟩
  · rw [List.mapIdx_cons, h.rewritten]
    refine List.cons_eq_cons.2 ⟨by simp [hfirst], List.mapIdx_eq_mapIdx_iff.2 fun i hi => ?_⟩
    cases hitem : rest[i] with
    | none => rfl
    | some child =>
      have hstep : ((⟨key, some (first + 1 + i)⟩ : Step), child) ∈ itemSteps key (first + 1) rest :=
        mem_itemSteps.2 ⟨i, rfl, by rw [List.getElem?_eq_getElem hi, hitem]⟩
      have hsame := hlater _ child hstep
      rw [Option.map_some, Option.map_some, ← hsame, Nat.add_assoc, Nat.add_comm 1]
  · rcases List.mem_cons.1 hstep with heq | hstep
    · cases heq
      rw [hfirst]
      rfl
    · rw [hlater step child hstep]
      exact h.settled step child hstep

theorem field {items items' : List (Option Node)} (h : ItemsWalked above key 0 items items' own) :
    FieldWalked above key (.list items) (.list items') own where
  under mark hmark := by
    obtain ⟨i, -, hunder⟩ := h.under mark hmark
    exact ⟨some i, hunder⟩
  rewritten := by
    rw [h.rewritten]
    simp only [Field.rewritten, Nat.zero_add]
  settled := h.settled

end ItemsWalked

section Awaited

variable {keys : VisitorKeys} {top parent : Option Parent} {past inside : List (Mark σ ε)}
  {place : Place} {n : Node}

theorem Awaited.root (keys : VisitorKeys) (top : Option Parent) (tree : Node) :
    Awaited keys top ([] : List (Mark σ ε)) [] tree top :=
  ⟨fun _ => rfl, fun above step h => absurd h (by simp)⟩

theorem Awaited.entered (h : Awaited keys top past place n parent) (s : σ)
    (outcome : Option (Outcome Node σ ε Control)) :
    Shown keys top past (.entered ⟨place, n, parent, s, outcome⟩) where
  root := h.1
  child above step hplace := by
    obtain ⟨p, names, inside, view, hopen, hparent, hview, m, hm, hn⟩ := h.2 above step hplace
    refine ⟨p, names, inside, view, hopen, hparent, hview, m, hm, fun call hcall => ?_⟩
    cases hcall
    exact hn
  paired leave h := by cases h

theorem Awaited.left (h : Awaited keys top past place n parent)
    {call : VisitorCall σ ε Control} (hplace : call.place = place) (hparent : call.parent = parent)
    (hinside : ∀ mark ∈ inside, place <+: mark.place ∧ place ≠ mark.place) (m : Node) (s : σ)
    (outcome : Option (Outcome Node σ ε Unit)) :
    Shown keys top (past ++ .entered call :: inside) (.left ⟨place, m, parent, s, outcome⟩) where
  root := h.1
  child above step heq := by
    obtain ⟨p, names, before, view, hopen, hview, hright, child, hchild, -⟩ := h.2 above step heq
    have hown : ∀ mark ∈ Mark.entered call :: inside, above ++ [step] <+: mark.place := by
      rw [← heq]
      intro mark hmark
      rcases List.mem_cons.1 hmark with rfl | hmark
      · exact hplace ▸ List.prefix_rfl
      · exact (hinside mark hmark).1
    refine ⟨p, names, before ++ .entered call :: inside, view,
      hopen.extend fun mark hmark => strictly_below_of_step (hown mark hmark), hview,
      hright.congr fun other hne => latest_extend fun mark hmark hother => ?_, child, hchild,
      fun _ h => by cases h⟩
    have hunder := hown mark hmark
    rw [hother] at hunder
    exact hne (congrArg Step.key (step_eq_of_under hunder)).symm
  paired leave hleave := by
    cases hleave
    exact ⟨past, call, inside, rfl, hplace, hparent, hinside⟩

end Awaited

theorem Beside.append {above : Place} {step : Step} {own own' : List (Mark σ ε)}
    (h : Beside above step own) (h' : Beside above step own') : Beside above step (own ++ own') :=
  fun mark hmark => (List.mem_append.1 hmark).elim (h mark) (h' mark)

theorem Underway.awaited {above : Place} {p n : Node} {inside own : List (Mark σ ε)}
    {walked rest names : List String} {key : String} {field : Field Node} {past : List (Mark σ ε)}
    (h : Underway above p inside walked n) {keys : VisitorKeys} (top : Option Parent)
    (hnames : names = walked ++ key :: rest) (hopen : Descending keys past above p names inside)
    (hfield : n.field? key = some field) {step : Step} {m : Node}
    (hstep : (step, m) ∈ field.steps key) (hbeside : Beside above step own) :
    Awaited keys top (past ++ own) (above ++ [step]) m
      (some ⟨n.eraseField key, step.key, step.index⟩) := by
  obtain ⟨hkey, hat⟩ : step.key = key ∧ n.at? step = some m := by
    apply mem_stepsUnder.1
    rw [Node.stepsUnder, hfield]
    exact hstep
  subst hkey
  refine ⟨fun h => absurd h (by simp), fun above' step' heq => ?_⟩
  obtain ⟨rfl, hstep'⟩ := List.append_inj' heq rfl
  cases hstep'
  obtain ⟨m', hm', hm⟩ := h.at? hat
  have hown : ∀ other : Step, (other.key ≠ step.key ∨ other = step) →
      latest above (inside ++ own) other = latest above inside other := by
    intro other hother
    refine latest_extend fun mark hmark hplace => ?_
    obtain ⟨step', hkey', hne, hunder⟩ := hbeside mark hmark
    rw [hplace] at hunder
    cases step_eq_of_under hunder
    exact hother.elim (fun h => h hkey') hne
  have hopen' : Descending keys (past ++ own) above p names (inside ++ own) := by
    refine hopen.extend fun mark hmark => ?_
    obtain ⟨other, -, -, hunder⟩ := hbeside mark hmark
    exact strictly_below_of_step hunder
  refine ⟨p, names, inside ++ own, n.eraseField step.key, hopen', rfl,
    (h.view hnames).congr fun other hne => hown other (.inl hne), m', hm', ?_⟩
  rw [hown step (.inr rfl)]
  exact hm

section Children

variable {keys : VisitorKeys} {top : Option Parent} {track : Place → Track σ ε}
  (htrack : ∀ place n parent s past, Awaited keys top past place n parent →
    (track place n parent s).Meets (Shown keys top) (Adds past (Visited place)) (fun _ _ => True)
      past)
  {above : Place} {view : Node} {key : String}

include htrack

theorem recordItems_shown (first : Nat) (items : List (Option Node)) {past : List (Mark σ ε)}
    (hawaited : ∀ own step n, (step, n) ∈ itemSteps key first items → Beside above step own →
      Awaited keys top (past ++ own) (above ++ [step]) n (some ⟨view, step.key, step.index⟩))
    (s : σ) :
    (recordItems (Track.below track above) view key first items s).Meets (Shown keys top)
      (Adds past (ItemsWalked above key first items)) (fun _ _ => True) past := by
  induction items generalizing first past s with
  | nil => exact Recorded.meets_now ⟨[], (List.append_nil past).symm, .nil⟩
  | cons item rest ih =>
    cases item with
    | none =>
      refine (ih (first + 1) hawaited s).mapSubject fun l items' s' _ h => ?_
      obtain ⟨own, hl, hwalked⟩ := h
      exact ⟨own, hl, hwalked.hole⟩
    | some n =>
      have hn := hawaited [] ⟨key, some first⟩ n List.mem_cons_self (fun mark h => by cases h)
      rw [List.append_nil] at hn
      refine (htrack (above ++ [⟨key, some first⟩]) n _ s past hn).followed fun m s' _ hm => ?_
      obtain ⟨own, hl, hvisited⟩ := hm
      rw [hl]
      have hrest : ∀ own' step child, (step, child) ∈ itemSteps key (first + 1) rest →
          Beside above step own' → Awaited keys top (past ++ own ++ own') (above ++ [step]) child
            (some ⟨view, step.key, step.index⟩) := by
        intro own' step child hstep hbeside
        rw [List.append_assoc]
        refine hawaited _ step child (List.mem_cons_of_mem _ hstep) (Beside.append ?_ hbeside)
        intro mark hmark
        obtain ⟨i, rfl, -⟩ := mem_itemSteps.1 hstep
        refine ⟨⟨key, some first⟩, rfl, fun heq => ?_, hvisited.under mark hmark⟩
        have hindex := congrArg Step.index heq
        simp only [Option.some.injEq] at hindex
        omega
      refine (ih (first + 1) hrest s').mapSubject fun l rest' _ _ h => ?_
      obtain ⟨own', rfl, hwalked⟩ := h
      exact ⟨own ++ own', List.append_assoc .., hwalked.item hvisited.under (hvisited.left _ _ rfl)⟩

theorem recordField_shown (field : Field Node) {past : List (Mark σ ε)}
    (hawaited : ∀ own step n, (step, n) ∈ field.steps key → Beside above step own →
      Awaited keys top (past ++ own) (above ++ [step]) n (some ⟨view, step.key, step.index⟩))
    (s : σ) :
    (recordField (Track.below track above) view key field s).Meets (Shown keys top)
      (Adds past (FieldWalked above key field)) (fun _ _ => True) past := by
  cases field with
  | node n =>
    have hn := hawaited [] ⟨key, none⟩ n List.mem_cons_self (fun mark h => by cases h)
    rw [List.append_nil] at hn
    refine (htrack (above ++ [⟨key, none⟩]) n _ s past hn).mapSubject fun l m s' _ h => ?_
    obtain ⟨own, hl, hvisited⟩ := h
    have hleft := hvisited.left above ⟨key, none⟩ rfl
    refine ⟨own, hl, fun mark hmark => ⟨none, hvisited.under mark hmark⟩, ?_, fun step m' h => ?_⟩
    · rw [Field.rewritten, hleft, Option.getD_some]
    · cases List.mem_singleton.1 h
      rw [hleft]
      rfl
  | list items =>
    refine (recordItems_shown htrack 0 items hawaited s).mapSubject fun l items' s' _ h => ?_
    obtain ⟨own, hl, hwalked⟩ := h
    exact ⟨own, hl, hwalked.field⟩
  | value v =>
    refine Recorded.meets_now ⟨[], (List.append_nil past).symm, fun mark h => (by cases h), rfl,
      fun step m h => (by cases h)⟩

theorem recordFields_shown {p : Node} {names : List String} (walked rest : List String)
    (hnames : names = walked ++ rest) (n : Node) {past inside : List (Mark σ ε)}
    (hopen : Descending keys past above p names inside)
    (hwalked : Underway above p inside walked n) (s : σ) :
    (recordFields (Track.below track above) rest n s).Meets (Shown keys top)
      (Adds past fun _ own => ∀ mark ∈ own, above <+: mark.place ∧ above ≠ mark.place)
      (fun _ _ => True) past := by
  induction rest generalizing walked n past inside s with
  | nil =>
    exact Recorded.meets_now ⟨[], (List.append_nil past).symm, fun mark h => by cases h⟩
  | cons key rest ih =>
    have hnames' : names = (walked ++ [key]) ++ rest := by rw [hnames, List.append_assoc]; rfl
    rw [recordFields]
    cases hfield : n.field? key with
    | none => exact ih (walked ++ [key]) hnames' n hopen (hwalked.missing hfield) s
    | some field =>
      have hawaited : ∀ own step m, (step, m) ∈ field.steps key → Beside above step own →
          Awaited keys top (past ++ own) (above ++ [step]) m
            (some ⟨n.eraseField key, step.key, step.index⟩) :=
        fun own step m hstep hbeside => hwalked.awaited top hnames hopen hfield hstep hbeside
      have hput : ((recordField (Track.below track above) (n.eraseField key) key field s).mapSubject
          (n.replaceField key)).Meets (Shown keys top)
          (fun l m s u => ∃ field', m = n.replaceField key field' ∧
            Adds past (FieldWalked above key field) l field' s u) (fun _ _ => True) past :=
        (recordField_shown htrack field hawaited s).mapSubject fun l field' s' u h =>
          ⟨field', rfl, h⟩
      refine hput.followed fun m s' _ hm => ?_
      obtain ⟨field', rfl, own, hl, hdone⟩ := hm
      rw [hl]
      have hbelow : ∀ mark ∈ own, above <+: mark.place ∧ above ≠ mark.place := by
        intro mark hmark
        obtain ⟨index, hunder⟩ := hdone.under mark hmark
        exact strictly_below_of_step hunder
      refine (ih (walked ++ [key]) hnames' _ (hopen.extend hbelow) (hwalked.walk hfield hdone)
        s').imp (fun l m s'' _ h => ?_) fun _ _ h => h
      obtain ⟨own', rfl, hown'⟩ := h
      exact ⟨own ++ own', List.append_assoc ..,
        fun mark hmark => (List.mem_append.1 hmark).elim (hbelow mark) (hown' mark)⟩

theorem trackDescent_shown {call : VisitorCall σ ε Control} {p : Node} {s : σ} {control : Control}
    (houtcome : call.outcome = some ⟨p, s, .ok control⟩) (past : List (Mark σ ε)) :
    (trackDescent keys track call.place p s control).Meets (Shown keys top)
      (Adds (past ++ [.entered call]) fun _ own =>
        ∀ mark ∈ own, call.place <+: mark.place ∧ call.place ≠ mark.place)
      (fun _ _ => True) (past ++ [.entered call]) := by
  cases control with
  | skip =>
    exact Recorded.meets_now ⟨[], (List.append_nil _).symm, fun mark h => by cases h⟩
  | descend =>
    rw [trackDescent, recordChildren]
    cases hnames : keys.childKeys? p with
    | none => exact ⟨fun _ _ _ h => by simp [Recorded.now] at h, fun _ _ _ h => (by cases h),
        fun _ _ _ _ => trivial⟩
    | some names =>
      have hopen : Descending keys (past ++ [.entered call]) call.place p names [] :=
        ⟨past, call, s, rfl, rfl, houtcome, hnames, fun mark h => by cases h⟩
      exact recordFields_shown htrack [] names rfl p hopen (.start call.place p) s

theorem trackVisit_shown (v : Visitor σ ε) (walk : Descent σ ε) {place : Place} {n : Node}
    {parent : Option Parent} {past : List (Mark σ ε)} (h : Awaited keys top past place n parent)
    (s : σ) : (trackVisit v keys walk track place n parent s).Meets (Shown keys top)
      (Adds past (Visited place)) (fun _ _ => True) past := by
  let call : VisitorCall σ ε Control := ⟨place, n, parent, s, v.enter walk n parent s⟩
  have hentered : (⟨[.entered call], call.outcome⟩ : Recorded (Mark σ ε) Node σ ε Control).Meets
      (Shown keys top)
      (fun l m s' control => l = past ++ [.entered call] ∧ call.outcome = some ⟨m, s', .ok control⟩)
      (fun _ _ => True) past :=
    ⟨Recorded.events_singleton (h.entered s call.outcome), fun m s' control ho => ⟨rfl, ho⟩,
      fun _ _ _ _ => trivial⟩
  refine hentered.followed fun p s₁ control hp => ?_
  obtain ⟨hpast, houtcome⟩ := hp
  rw [hpast]
  refine (trackDescent_shown htrack houtcome past).followed fun m s₂ _ hm => ?_
  obtain ⟨inside, hl, hinside⟩ := hm
  rw [hl, List.append_assoc, List.singleton_append]
  refine ⟨Recorded.events_singleton (h.left rfl rfl hinside m s₂ _), fun m' s₃ u ho => ?_,
    fun _ _ _ _ => trivial⟩
  refine ⟨.entered call :: inside ++ [.left ⟨place, m, parent, s₂, v.leave walk m parent s₂⟩],
    by simp, fun mark hmark => ?_, fun above step hplace => latest_left hplace ho⟩
  simp only [List.mem_append, List.mem_cons, List.not_mem_nil, or_false] at hmark
  rcases hmark with (rfl | hmark) | rfl
  · exact List.prefix_rfl
  · exact (hinside mark hmark).1
  · exact List.prefix_rfl

end Children

theorem track_shown (v : Visitor σ ε) (keys : VisitorKeys) (top : Option Parent) (fuel : Nat)
    (place : Place) (n : Node) (parent : Option Parent) (s : σ) (past : List (Mark σ ε))
    (h : Awaited keys top past place n parent) :
    (track v keys fuel place n parent s).Meets (Shown keys top) (Adds past (Visited place))
      (fun _ _ => True) past := by
  induction fuel generalizing place n parent s past with
  | zero => exact ⟨fun _ _ _ he => by simp [track] at he, fun _ _ _ ho => (by cases ho),
      fun _ _ _ _ => trivial⟩
  | succ fuel ih => exact trackVisit_shown ih v (walkNode v keys fuel) h s

/-- Whatever the visitor writes, and whether the walk succeeds or not, every call is shown the right
parent, the two calls of a visit the same one, and the calls for the root the one that the walk was
given. -/
theorem walk_showsParents (v : Visitor σ ε) (keys : VisitorKeys) (fuel : Nat) (tree : Node)
    (top : Option Parent) (s : σ) (past rest : List (Mark σ ε)) (mark : Mark σ ε)
    (h : marks v keys fuel tree top s = past ++ mark :: rest) : Shown keys top past mark :=
  (track_shown v keys top fuel [] tree top s [] (.root keys top tree)).events past mark rest h

def marking : Visitor Unit Unit :=
  .plain (fun n _ s => ⟨n.withValue "seen" .null, s, .ok .descend⟩)
    fun n _ s => ⟨n.withKind "Done", s, .ok ()⟩

def invocation : Node :=
  ((Node.new "CallExpression").withChild "callee" (Node.new "Identifier")).setField "arguments"
    (.list [some (Node.new "Super"), none, some (Node.new "ThisExpression")])

def invocationKeys : VisitorKeys :=
  (VisitorKeys.empty.withFallback .fields).register "CallExpression" ["callee", "arguments"]

/-- The sixth call enters the argument behind the hole. It is shown the field that the entry of the
parent added and the callee as its visit left it. -/
theorem marking_showsParent :
    let calls := marks marking invocationKeys 2 invocation none ()
    ∃ mark view, calls = calls.take 5 ++ mark :: calls.drop 6 ∧
      mark.place = [⟨"arguments", some 2⟩] ∧ mark.parent = some ⟨view, "arguments", some 2⟩ ∧
      view.fields.names = ["callee", "seen"] ∧
      (view.child? "callee").map Node.kind = some "Done" ∧
      Shown invocationKeys none (calls.take 5) mark :=
  ⟨_, _, rfl, rfl, rfl, rfl, rfl,
    walk_showsParents marking invocationKeys 2 invocation none () _ _ _ rfl⟩

end SyntaxWalk
