import SyntaxWalk.Proofs.OpenScopes

/-!
# Torn visits

A handler that changes the kind of a node between entry and exit tears its visit: the exit handler
of the new kind does not match the entry handler of the old one. So does one that goes on after a
walk that failed with scopes open. As long as no visit is torn the scopes stay balanced, and a run
that succeeds is balanced only if none is torn (`balanced_iff_untorn`).
-/

namespace SyntaxWalk

variable {υ : Type}

def Handler.ScopeFree (h : Handler υ) : Prop := ∀ n parent, (h n parent).ScopeFree

def Moment.opened (m : Moment υ) : Option Scope.Info := m.path.head?.join.bind Entry.scope?

/-- The exit handler closes a scope that the visit did not open, or leaves the one that it did. -/
def Moment.Torn (m : Moment υ) : Prop :=
  ∃ kind, m.key = .node kind .exit ∧
    ((OpensScope kind ∧ m.opened = none ∧ m.engine.scopes.frames ≠ []) ∨
      (¬ OpensScope kind ∧ m.opened ≠ none))

def Event.Torn : Event υ → Prop
  | .reached m => m.Torn
  | .failed before after => before.scopes.depth ≠ after.scopes.depth

instance (m : Moment υ) : Decidable m.Torn :=
  match hkey : m.key with
  | .node kind .exit =>
    decidable_of_iff ((OpensScope kind ∧ m.opened = none ∧ m.engine.scopes.frames ≠ []) ∨
      (¬ OpensScope kind ∧ m.opened ≠ none))
      ⟨fun h => ⟨kind, hkey, h⟩, fun ⟨_, h, hm⟩ => by cases hkey.symm.trans h; exact hm⟩
  | .node _ .enter | .around _ | .scopeEnter | .scopeExit =>
    .isFalse fun ⟨_, h, _⟩ => by cases hkey.symm.trans h

instance : (event : Event υ) → Decidable event.Torn
  | .reached m => inferInstanceAs (Decidable m.Torn)
  | .failed before after => inferInstanceAs (Decidable (before.scopes.depth ≠ after.scopes.depth))

/-- A frame that the baseline closes lies on top of the frames that were there when the visit was
entered, and records the scope that the visit opened. -/
def Moment.ClosesOwn (m : Moment υ) : Prop :=
  ∀ kind, m.key = .node kind .exit → OpensScope kind → m.engine.scopes.frames ≠ [] →
    ∃ entry below scope context, m.path = some entry :: below ∧ entry.scope? = some scope ∧
      m.engine.scopes.frames = ⟨scope, context⟩ :: entry.engine.scopes.frames

structure Moment.Balanced (m : Moment υ) : Prop where
  own : m.ClosesOwn
  count : m.key = .around .beforeEnter → m.engine.scopes.depth = (openScopes m.path).length
  context : ∀ root, m.path.getLast? = some (some root) → root.node.kind = programKind →
    m.engine.scopes.context?.isSome

namespace ScopeTears

def Untorn (past : List (Event υ)) : Prop := ∀ event ∈ past, ¬ event.Torn

def AllOwn (past : List (Event υ)) : Prop := ∀ m, .reached m ∈ past → m.ClosesOwn

/-- While every closed frame is the visit's own, no open visit lacks its frame; once a visit was
torn there is a frame too many. -/
structure Bounded (past : List (Event υ)) (path : Path υ) (e : Engine υ) : Prop where
  count : AllOwn past → (openScopes path).length ≤ e.scopes.depth
  excess : AllOwn past → ¬ Untorn past → (openScopes path).length < e.scopes.depth

structure Holds (past : List (Event υ)) (path : Path υ) (e : Engine υ) : Prop where
  mirrors : Untorn past → Mirrors path e.scopes.frames
  bounded : Bounded past path e

structure Left (past : List (Event υ)) (path : Path υ) (e : Engine υ) : Prop where
  mirrors : Untorn past → ∃ above, Mirrors (above ++ path) e.scopes.frames
  bounded : Bounded past path e

def Seen (past : List (Event υ)) : Event υ → Prop
  | .reached m => Untorn past → Mirrors m.path m.engine.scopes.frames
  | .failed _ _ => True

theorem untorn_append {first second : List (Event υ)} :
    Untorn (first ++ second) ↔ Untorn first ∧ Untorn second := List.forall_mem_append

theorem untorn_singleton {event : Event υ} : Untorn [event] ↔ ¬ event.Torn :=
  List.forall_mem_singleton

theorem AllOwn.of_append {first second : List (Event υ)} (h : AllOwn (first ++ second)) :
    AllOwn first := fun m hm => h m (List.mem_append_left second hm)

theorem not_torn_of_key {m : Moment υ} (h : ∀ kind, m.key ≠ .node kind .exit) : ¬ m.Torn :=
  fun ⟨kind, hkey, _⟩ => h kind hkey

abbrev leaving (n : Node) (parent : Option Parent) (e : Engine υ) (entry : Entry υ)
    (path : Path υ) : Moment υ := ⟨.node n.kind .exit, n, parent, e, some entry :: path⟩

theorem torn_leaving_iff {n : Node} {parent : Option Parent} {e : Engine υ} {entry : Entry υ}
    {path : Path υ} : Event.Torn (.reached (leaving n parent e entry path)) ↔
      (OpensScope n.kind ∧ entry.scope? = none ∧ e.scopes.frames ≠ []) ∨
        (¬ OpensScope n.kind ∧ entry.scope? ≠ none) := by
  constructor
  · rintro ⟨kind, hkey, htorn⟩
    cases hkey
    exact htorn
  · intro htorn
    exact ⟨n.kind, rfl, htorn⟩

namespace Bounded

variable {past : List (Event υ)} {path : Path υ} {e e' : Engine υ}

theorem of_depth (h : Bounded past path e) (hdepth : e'.scopes.depth = e.scopes.depth) :
    Bounded past path e' := by
  refine ⟨fun hown => ?_, fun hown htorn => ?_⟩
  · rw [hdepth]
    exact h.count hown
  · rw [hdepth]
    exact h.excess hown htorn

theorem of_path {path' : Path υ} (h : Bounded past path e)
    (hlength : (openScopes path').length ≤ (openScopes path).length) : Bounded past path' e := by
  refine ⟨fun hown => ?_, fun hown htorn => ?_⟩
  · exact Nat.le_trans hlength (h.count hown)
  · exact Nat.lt_of_le_of_lt hlength (h.excess hown htorn)

theorem quiet (h : Bounded past path e) {event : Event υ} (hevent : ¬ event.Torn) :
    Bounded (past ++ [event]) path e := by
  refine ⟨fun hown => h.count hown.of_append, fun hown htorn => ?_⟩
  apply h.excess hown.of_append
  intro hpast
  exact htorn (untorn_append.2 ⟨hpast, untorn_singleton.2 hevent⟩)

end Bounded

theorem Left.outer {past : List (Event υ)} {path : Path υ} {visit : Option (Entry υ)}
    {e : Engine υ} (h : Left past (visit :: path) e) : Left past path e := by
  refine ⟨fun hpast => ?_, h.bounded.of_path (length_openScopes_le visit path)⟩
  obtain ⟨above, habove⟩ := h.mirrors hpast
  refine ⟨above ++ [visit], ?_⟩
  rwa [List.append_assoc]

theorem touches_depth {e e' : Engine υ} (ht : e.Touches e') :
    e'.scopes.depth = e.scopes.depth := by
  obtain ⟨-, edit, hscopes⟩ := ht
  rw [hscopes, Scope.Stack.depth_mapContext]

namespace Holds

variable {past : List (Event υ)} {path : Path υ} {e e' : Engine υ} {m : Moment υ}

theorem touches (h : Holds past path e) (ht : e.Touches e') : Holds past path e' :=
  ⟨fun hpast => (h.mirrors hpast).touches ht, h.bounded.of_depth (touches_depth ht)⟩

theorem of_scopes (h : Holds past path e) (hscopes : e'.scopes = e.scopes) :
    Holds past path e' := by
  refine ⟨fun hpast => ?_, h.bounded.of_depth (by rw [hscopes])⟩
  rw [hscopes]
  exact h.mirrors hpast

theorem quiet (h : Holds past path e) {event : Event υ} (hevent : ¬ event.Torn) :
    Holds (past ++ [event]) path e :=
  ⟨fun hpast => h.mirrors (untorn_append.1 hpast).1, h.bounded.quiet hevent⟩

theorem outside (h : Holds past path e) : Holds past (none :: path) e :=
  ⟨h.mirrors, h.bounded.of_path (Nat.le_refl _)⟩

theorem inside (h : Holds past (none :: path) e) : Holds past path e :=
  ⟨h.mirrors, h.bounded.of_path (Nat.le_refl _)⟩

theorem left (h : Holds past path e) : Left past path e :=
  ⟨fun hpast => ⟨[], h.mirrors hpast⟩, h.bounded⟩

/-- A handler goes on after a walk that failed. Without a tear before, the frames were those of
`path` when the walk started, so as many of them now are the same ones. -/
theorem resume {rest : List (Event υ)} {before after : Engine υ} (h : Holds past path before)
    (hleft : Left (past ++ rest) path after) :
    Holds (past ++ rest ++ [.failed before after]) path after := by
  refine ⟨fun hall => ?_, fun hown => hleft.bounded.count hown.of_append, fun hown htorn => ?_⟩
  · obtain ⟨hrest, hevent⟩ := untorn_append.1 hall
    obtain ⟨above, habove⟩ := hleft.mirrors hrest
    have hbefore := (h.mirrors (untorn_append.1 hrest).1).length_eq
    have hsame : before.scopes.depth = after.scopes.depth :=
      Classical.not_not.1 (untorn_singleton.1 hevent)
    apply habove.of_length_le
    rw [← hbefore]
    exact Nat.le_of_eq hsame.symm
  · by_cases hrest : Untorn (past ++ rest)
    · have hevent : ¬ Untorn [Event.failed before after] := fun hevent =>
        htorn (untorn_append.2 ⟨hrest, hevent⟩)
      have hdiffer : before.scopes.depth ≠ after.scopes.depth := fun hsame =>
        hevent (untorn_singleton.2 (Classical.not_not.2 hsame))
      have hbefore : before.scopes.depth = (openScopes path).length :=
        (h.mirrors (untorn_append.1 hrest).1).length_eq
      have hcount := hleft.bounded.count hown.of_append
      omega
    · exact hleft.bounded.excess hown.of_append hrest

theorem opened {entry : Entry υ} {scope : Scope.Info} (h : Holds past (none :: path) entry.engine)
    (hscope : entry.scope? = some scope)
    (hframes : ∃ context, e.scopes.frames = ⟨scope, context⟩ :: entry.engine.scopes.frames) :
    Holds past (some entry :: path) e := by
  obtain ⟨context, hframes⟩ := hframes
  have hdepth : e.scopes.depth = entry.engine.scopes.depth + 1 := by
    rw [Scope.Stack.depth, hframes]
    rfl
  refine ⟨fun hpast => ?_, fun hown => ?_, fun hown htorn => ?_⟩
  · exact (Mirrors.some_iff_of_scope hscope).2 ⟨h.mirrors hpast, context, hframes⟩
  · rw [openScopes_of_some hscope, hdepth]
    exact Nat.succ_le_succ (h.bounded.count hown)
  · rw [openScopes_of_some hscope, hdepth]
    exact Nat.succ_lt_succ (h.bounded.excess hown htorn)

theorem unopened {entry : Entry υ} (h : Holds past (none :: path) e)
    (hscope : entry.scope? = none) : Holds past (some entry :: path) e := by
  refine ⟨fun hpast => (Mirrors.some_iff_of_none hscope).2 (h.mirrors hpast), ?_⟩
  apply h.bounded.of_path
  exact Nat.le_of_eq (congrArg List.length (openScopes_of_none hscope))

theorem unclosed {entry : Entry υ} {n : Node} (parent : Option Parent)
    (hkind : ¬ OpensScope n.kind) (h : Holds past (some entry :: path) e) :
    Holds (past ++ [.reached (leaving n parent e entry path)]) (none :: path) e := by
  cases hscope : entry.scope? with
  | none =>
    have hsame : Holds past (none :: path) e :=
      ⟨fun hpast => (Mirrors.some_iff_of_none hscope).1 (h.mirrors hpast),
        h.bounded.of_path (length_openScopes_le (some entry) path)⟩
    apply hsame.quiet
    rw [torn_leaving_iff, hscope]
    simp [hkind]
  | some scope =>
    -- The visit leaves the scope that it opened, and so is torn here.
    have htorn : Event.Torn (.reached (leaving n parent e entry path)) := by
      rw [torn_leaving_iff, hscope]
      simp [hkind]
    have hcount : AllOwn past → (openScopes path).length < e.scopes.depth := by
      intro hown
      have hall := h.bounded.count hown
      rwa [openScopes_of_some hscope] at hall
    refine ⟨fun hall => ?_, fun hown => ?_, fun hown _ => hcount hown.of_append⟩
    · exact absurd htorn (untorn_singleton.1 (untorn_append.1 hall).2)
    · exact Nat.le_of_lt (hcount hown.of_append)

section Pop

variable {entry : Entry υ} {edit : Context → Context}
  (hpop : e'.scopes = (⟨e.scopes.frames.tail⟩ : Scope.Stack).mapContext edit)

include hpop

theorem depth_of_pop : e'.scopes.depth = e.scopes.depth - 1 := by
  rw [hpop, Scope.Stack.depth_mapContext]
  exact List.length_tail

theorem closed_own {scope : Scope.Info} (h : Holds past (some entry :: path) e)
    (hscope : entry.scope? = some scope) : Holds past (none :: path) e' := by
  have hdepth := depth_of_pop hpop
  have hlength : (openScopes (some entry :: path)).length = (openScopes path).length + 1 := by
    rw [openScopes_of_some hscope, List.length_cons]
  refine ⟨fun hpast => ?_, fun hown => ?_, fun hown htorn => ?_⟩
  · obtain ⟨hbelow, context, hframes⟩ := (Mirrors.some_iff_of_scope hscope).1 (h.mirrors hpast)
    rw [hpop, hframes]
    exact Mirrors.mapContext (s := ⟨entry.engine.scopes.frames⟩) hbelow edit
  · have hcount := h.bounded.count hown
    rw [openScopes_none]
    omega
  · have hexcess := h.bounded.excess hown htorn
    rw [openScopes_none]
    omega

theorem closed_nothing (h : Holds past (some entry :: path) e) (hempty : e.scopes.frames = []) :
    Holds past (none :: path) e' := by
  have hsame : e'.scopes = e.scopes := by
    obtain ⟨depth, current, skip, ⟨frames⟩, warnings, memory⟩ := e
    cases (show frames = [] from hempty)
    exact hpop
  refine Holds.of_scopes ⟨fun hpast => ?_, ?_⟩ hsame
  · have hframes := h.mirrors hpast
    cases hscope : entry.scope? with
    | none => exact (Mirrors.some_iff_of_none hscope).1 hframes
    | some scope =>
      obtain ⟨-, context, hcons⟩ := (Mirrors.some_iff_of_scope hscope).1 hframes
      rw [hempty] at hcons
      cases hcons
  · exact h.bounded.of_path (length_openScopes_le (some entry) path)

theorem closed {n : Node} {parent : Option Parent} (hkind : OpensScope n.kind)
    (h : Holds past (some entry :: path) e) :
    Holds (past ++ [.reached (leaving n parent e entry path)]) (none :: path) e' := by
  by_cases hempty : e.scopes.frames = []
  · have hquiet : ¬ Event.Torn (.reached (leaving n parent e entry path)) := by
      rw [torn_leaving_iff]
      simp [hkind, hempty]
    exact (h.quiet hquiet).closed_nothing hpop hempty
  · cases hscope : entry.scope? with
    | none =>
      -- The frame belongs to a visit further out: torn here, and not the visit's own.
      have htorn : Event.Torn (.reached (leaving n parent e entry path)) :=
        torn_leaving_iff.2 (.inl ⟨hkind, hscope, hempty⟩)
      have hnever : ¬ AllOwn (past ++ [.reached (leaving n parent e entry path)]) := by
        intro hown
        obtain ⟨other, below, scope, context, hpath, hother, -⟩ :=
          hown _ (List.mem_append_right past (List.mem_singleton_self _)) n.kind rfl hkind hempty
        cases hpath
        rw [hscope] at hother
        cases hother
      refine ⟨fun hall => ?_, fun hown => absurd hown hnever, fun hown => absurd hown hnever⟩
      exact absurd htorn (untorn_singleton.1 (untorn_append.1 hall).2)
    | some scope =>
      have hquiet : ¬ Event.Torn (.reached (leaving n parent e entry path)) := by
        rw [torn_leaving_iff, hscope]
        simp [hkind]
      exact (h.quiet hquiet).closed_own hpop hscope

end Pop

end Holds

theorem handler_meets {walk : Path υ → RecordedVisit υ}
    (hwalk : Kept Seen Holds Left (fun _ _ => True) walk) {handler : Handler υ}
    (hfree : handler.ScopeFree) (s : Surroundings υ) {path : Path υ} {past : List (Event υ)}
    (n : Node) (parent : Option Parent) {e : Engine υ} (he : Holds past path e) :
    (settled ((handler n parent).record s (walk path) e)).Meets Seen
      (fun l _ e _ => Holds l path e) (fun l e => Left l path e) past := by
  refine Script.record_free (fun _ _ _ ht h => h.touches ht) (fun _ _ _ => trivial)
    (fun _ _ h => h.left) (fun _ _ _ _ hbefore hleft => hbefore.resume hleft) ?_
    (.inl (hfree n parent)) he
  intro past m parent e he
  exact (hwalk past path m parent e he).imp (fun _ _ _ _ h => h.2) fun _ _ h => h

variable {p : Pass υ}

theorem invariant (hbase : p.handlers.OnBaseline Handler.ScopeFree) :
    p.Invariant Seen Holds Left (fun _ _ => True) where
  kind _ := trivial
  trans _ _ := trivial
  touch skip current h := h.of_scopes rfl
  arrive n h := h.outside.of_scopes rfl
  depart n h := h.inside.of_scopes rfl
  spoil h := h.left
  widen h := h.outer
  around hwalk past path e hook n parent he := by
    have hquiet : ¬ Event.Torn (.reached ⟨.around hook, n, parent, e, path⟩) :=
      not_torn_of_key fun kind h => by cases h
    have hreached := he.quiet hquiet
    refine Pass.recordDispatch_meets he.mirrors ⟨trivial, hreached⟩ fun handler hlookup => ?_
    have hfree := hbase.hooks hook handler hlookup
    exact (handler_meets hwalk hfree _ n parent hreached).imp (fun _ _ _ _ h => ⟨trivial, h⟩)
      fun _ _ h => h
  enter hwalk past path e n parent he := by
    have hquiet : ¬ Event.Torn (.reached ⟨.node n.kind .enter, n, parent, e, none :: path⟩) :=
      not_torn_of_key fun kind h => by cases h
    have hreached := he.quiet hquiet
    by_cases hkind : OpensScope n.kind
    · rw [Pass.recordDispatch_opens hbase _ _ n parent e hkind]
      have hopened : Holds _ (some ⟨n, e⟩ :: path) _ :=
        hreached.opened (Entry.scope?_of_opens hkind)
          (Engine.pushScope_frames p.handlers.scopeEnter (scopeNode n).info e)
      exact Recorded.meets_single he.mirrors ⟨trivial, hopened⟩
    · have hscope : Entry.scope? ⟨n, e⟩ = none := Entry.scope?_of_not hkind
      refine Pass.recordDispatch_meets he.mirrors ⟨trivial, hreached.unopened hscope⟩
        fun handler hlookup => ?_
      have hfree := hbase.others n.kind .enter handler hkind hlookup
      exact (handler_meets hwalk hfree _ n parent hreached).imp
        (fun _ _ _ _ h => ⟨trivial, h.unopened hscope⟩) fun _ _ h => h
  exit hwalk past path entry e n parent _ he := by
    by_cases hkind : OpensScope n.kind
    · rw [Pass.recordDispatch_closes hbase _ _ n parent e hkind]
      obtain ⟨edit, hpop⟩ := Engine.popScope_scopes p.handlers.scopeExit e
      exact Recorded.meets_single he.mirrors ⟨trivial, he.closed hpop hkind⟩
    · have houtside := he.unclosed parent hkind
      refine Pass.recordDispatch_meets he.mirrors ⟨trivial, houtside⟩ fun handler hlookup => ?_
      have hfree := hbase.others n.kind .exit handler hkind hlookup
      exact (handler_meets hwalk hfree _ n parent houtside).imp (fun _ _ _ _ h => ⟨trivial, h⟩)
        fun _ _ h => h

theorem fresh (memory : υ) : Holds [] [] (.fresh memory) :=
  ⟨fun _ => rfl, fun _ => Nat.le_refl _, fun _ htorn => absurd (fun _ h => by cases h) htorn⟩

theorem balanced {m : Moment υ} (hframes : Mirrors m.path m.engine.scopes.frames)
    (htorn : ¬ m.Torn) : m.Balanced where
  own kind hkey hkind hframe := by
    cases hopened : m.opened with
    | none => exact absurd ⟨kind, hkey, .inl ⟨hkind, hopened, hframe⟩⟩ htorn
    | some scope =>
      obtain ⟨key, n, parent, e, path⟩ := m
      rcases path with _ | ⟨_ | entry, below⟩
      · cases hopened
      · cases hopened
      · obtain ⟨-, context, hcons⟩ := (Mirrors.some_iff_of_scope hopened).1 hframes
        exact ⟨entry, below, scope, context, rfl, hopened, hcons⟩
  count _ := hframes.length_eq
  context root hroot hkind := by
    have hscope := Entry.scope?_of_opens (.inl hkind)
    obtain ⟨above, habove⟩ := List.getLast?_eq_some_iff.1 hroot
    have hlength := hframes.length_eq
    rw [habove, openScopes_append, openScopes_of_some hscope, List.length_append,
      List.length_cons] at hlength
    rw [Scope.Stack.context?]
    cases hframe : m.engine.scopes.frames with
    | nil =>
      rw [hframe, List.length_nil] at hlength
      omega
    | cons frame rest => rfl

/-- The scopes are balanced as long as no visit is torn, and in a run that succeeds only then. -/
theorem balanced_iff_untorn {sets : List (HandlerSet υ)}
    (hsets : ∀ set ∈ sets, set.SparesBaseline Handler.ScopeFree) (options : Options) (fuel : Nat)
    (tree : Node) (memory : υ) :
    (∀ first rest, (Pass.mk options (.compose sets)).journal fuel tree memory = first ++ rest →
      Untorn first → ∀ m, .reached m ∈ first → m.Balanced) ∧
    ∀ n e, (Pass.mk options (.compose sets)).walk fuel tree none (.fresh memory) =
      some ⟨n, e, .ok ()⟩ →
      (((∀ m, .reached m ∈ (Pass.mk options (.compose sets)).journal fuel tree memory →
          m.Balanced) ∧ e.scopes.isEmpty) ↔
        Untorn ((Pass.mk options (.compose sets)).journal fuel tree memory)) := by
  have hbase := HandlerSet.compose_onBaseline hsets
  obtain ⟨hevents, hend⟩ := (invariant (p := ⟨options, .compose sets⟩) hbase).run fuel tree memory
    (fresh memory)
  have hupto : ∀ first rest,
      (Pass.mk options (.compose sets)).journal fuel tree memory = first ++ rest →
      Untorn first → ∀ m, .reached m ∈ first → m.Balanced := by
    intro first rest hsplit huntorn m hm
    obtain ⟨before, after, rfl⟩ := List.append_of_mem hm
    have hbefore := untorn_append.1 huntorn
    have hseen := hevents before (.reached m) (after ++ rest) (by rw [hsplit]; simp)
    have htorn : ¬ Event.Torn (.reached m) := hbefore.2 _ List.mem_cons_self
    exact balanced (hseen hbefore.1) htorn
  refine ⟨hupto, fun n e hwalk => ?_⟩
  have hlast := hend n e hwalk
  constructor
  · rintro ⟨hall, hempty⟩
    -- Every frame that was closed was the visit's own, so a tear would have left one too many.
    apply Classical.byContradiction
    intro htorn
    have hexcess := hlast.bounded.excess (fun m hm => (hall m hm).own) htorn
    rw [Scope.Stack.isEmpty, List.isEmpty_iff] at hempty
    rw [Scope.Stack.depth, hempty] at hexcess
    exact Nat.not_lt_zero _ hexcess
  · intro huntorn
    refine ⟨hupto _ [] (List.append_nil _).symm huntorn, ?_⟩
    have hclosed : e.scopes.frames = [] := hlast.mirrors huntorn
    rw [Scope.Stack.isEmpty, hclosed]
    rfl

def retyping (kind other : String) : HandlerSet Unit :=
  HandlerSet.empty.withEnter kind fun n _ => .done (.replace n (n.withKind other))

theorem retyping_spares {kind other : String} (hkind : ¬ OpensScope kind) :
    (retyping kind other).SparesBaseline Handler.ScopeFree := by
  apply HandlerSet.empty_sparesBaseline.add (HandlerSet.lookup_withEnter _ _ _)
  · rw [HandlerSet.baseline_contains_iff]
    exact hkind
  · exact fun n parent => trivial

def sibling (kind : String) : Node :=
  (Node.new "Program").withChildren "body" [Node.new kind, Node.new "Identifier"]

abbrev retyped (kind other : String) : Pass Unit := ⟨.sourceless, .compose [retyping kind other]⟩

theorem balanced_of_retyped_name :
    (∀ set ∈ [retyping "Identifier" "ThisExpression"], set.SparesBaseline Handler.ScopeFree) ∧
    ∃ n e, (retyped "Identifier" "ThisExpression").walk 3 (sibling "FunctionExpression") none
        (.fresh ()) = some ⟨n, e, .ok ()⟩ ∧
      (∀ m, .reached m ∈ (retyped "Identifier" "ThisExpression").journal 3
        (sibling "FunctionExpression") () → m.Balanced) ∧
      e.scopes.isEmpty := by
  have hsets : ∀ set ∈ [retyping "Identifier" "ThisExpression"],
      set.SparesBaseline Handler.ScopeFree := by
    simpa using retyping_spares (by decide)
  obtain ⟨n, e, hwalk⟩ : ∃ n e, (retyped "Identifier" "ThisExpression").walk 3
      (sibling "FunctionExpression") none (.fresh ()) = some ⟨n, e, .ok ()⟩ := ⟨_, _, rfl⟩
  have huntorn : Untorn ((retyped "Identifier" "ThisExpression").journal 3
      (sibling "FunctionExpression") ()) := by
    unfold Untorn
    decide
  have hexact := (balanced_iff_untorn hsets .sourceless 3 (sibling "FunctionExpression") ()).2
  exact ⟨hsets, n, e, hwalk, (hexact n e hwalk).2 huntorn⟩

/-- An arrow function turned into a function on entry closes the scope of the program, and the name
after it is visited without one, in a run that succeeds. -/
theorem unbalanced_of_retyped_arrow :
    (∀ set ∈ [retyping "ArrowFunctionExpression" "FunctionExpression"],
      set.SparesBaseline Handler.ScopeFree) ∧
    (∃ n e, (retyped "ArrowFunctionExpression" "FunctionExpression").walk 3
      (sibling "ArrowFunctionExpression") none (.fresh ()) = some ⟨n, e, .ok ()⟩) ∧
    (∃ m, .reached m ∈ (retyped "ArrowFunctionExpression" "FunctionExpression").journal 3
      (sibling "ArrowFunctionExpression") () ∧ ¬ m.ClosesOwn) ∧
    ∃ m root, .reached m ∈ (retyped "ArrowFunctionExpression" "FunctionExpression").journal 3
        (sibling "ArrowFunctionExpression") () ∧
      m.key = .around .beforeEnter ∧ m.node.kind = "Identifier" ∧
      m.path.getLast? = some (some root) ∧ root.node.kind = programKind ∧
      (openScopes m.path).length = 1 ∧ m.engine.scopes.depth = 0 ∧
      m.engine.scopes.context? = none := by
  have hsets : ∀ set ∈ [retyping "ArrowFunctionExpression" "FunctionExpression"],
      set.SparesBaseline Handler.ScopeFree := by
    simpa using retyping_spares (by decide)
  refine ⟨hsets, ⟨_, _, rfl⟩, ?_, ?_⟩
  · refine ⟨_, List.mem_of_getElem? (i := 7) rfl, fun hown => ?_⟩
    obtain ⟨entry, below, scope, context, hpath, hscope, -⟩ :=
      hown "FunctionExpression" rfl (.inr rfl) (fun h => by cases h)
    cases hpath
    cases hscope
  · exact ⟨_, _, List.mem_of_getElem? (i := 9) rfl, rfl, rfl, rfl, rfl, rfl, rfl, rfl⟩

end ScopeTears

end SyntaxWalk
