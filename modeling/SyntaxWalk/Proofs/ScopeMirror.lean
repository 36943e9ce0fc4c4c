import SyntaxWalk.Proofs.OpenScopes

/-!
# The scope stack mirrors the open visits

Handlers on top of the baseline that leave the scopes alone, keep the kinds of their nodes and pass
errors on cannot disturb the scopes: whenever a handler is called, the frames are those of the
visits that are open then, and a run that succeeds closes every scope.
-/

namespace SyntaxWalk

variable {υ : Type}

def SameKind (n m : Node) : Prop := m.kind = n.kind

structure Handler.Modest (h : Handler υ) : Prop where
  scopeFree : ∀ n parent, (h n parent).ScopeFree
  passesOn : ∀ n parent, (h n parent).PassesOn
  keepsKind : ∀ n parent, (h n parent).Respects SameKind n

namespace ScopeMirror

structure Holds (path : Path υ) (e : Engine υ) : Prop where
  frames : Mirrors path e.scopes.frames
  depth : e.depth = path.length
  entries : ∀ above entry below, path = above ++ some entry :: below →
    entry.engine.depth = below.length + 1

def Seen : Event υ → Prop
  | .reached m => Holds m.path m.engine
  | .failed _ _ => True

namespace Holds

variable {path : Path υ} {entry : Entry υ} {e e' : Engine υ}

theorem fresh (memory : υ) : Holds ([] : Path υ) (.fresh memory) where
  frames := rfl
  depth := rfl
  entries above entry below h := by simp at h

theorem touches (h : Holds path e) (ht : e.Touches e') : Holds path e' :=
  ⟨h.frames.touches ht, ht.1.trans h.depth, h.entries⟩

theorem arrive (h : Holds path e) (n : Node) : Holds (none :: path) (Pass.arrive n e) where
  frames := h.frames
  depth := congrArg (· + 1) h.depth
  entries above entry below hpath := by
    cases above with
    | nil => cases hpath
    | cons visit above => exact h.entries above entry below (List.cons.inj hpath).2

theorem depart (h : Holds (none :: path) e) (n : Node) : Holds path (Pass.depart n e).state where
  frames := h.frames
  depth := by
    show e.depth - 1 = _
    rw [h.depth, List.length_cons, Nat.add_sub_cancel]
  entries above entry below hpath := by
    apply h.entries (none :: above)
    rw [hpath]
    rfl

theorem enter (h : Holds (none :: path) entry.engine) (hdepth : e.depth = entry.engine.depth)
    (hframes : Mirrors (some entry :: path) e.scopes.frames) : Holds (some entry :: path) e where
  frames := hframes
  depth := hdepth.trans h.depth
  entries above other below hpath := by
    cases above with
    | nil =>
      cases hpath
      exact h.depth
    | cons visit above =>
      apply h.entries (none :: above)
      rw [(List.cons.inj hpath).2]
      rfl

theorem exit (h : Holds (some entry :: path) e) (hdepth : e'.depth = e.depth)
    (hframes : Mirrors path e'.scopes.frames) : Holds (none :: path) e' where
  frames := hframes
  depth := hdepth.trans h.depth
  entries above other below hpath := by
    cases above with
    | nil => cases hpath
    | cons visit above =>
      apply h.entries (some entry :: above)
      rw [(List.cons.inj hpath).2]
      rfl

end Holds

variable {p : Pass υ}

theorem handler_meets {walk : Path υ → RecordedVisit υ}
    (hwalk : Kept (fun _ => Seen) (fun _ => Holds) (fun _ _ _ => True) SameKind walk)
    {handler : Handler υ} (hm : handler.Modest) (s : Surroundings υ) {path : Path υ}
    {past : List (Event υ)} (n : Node) (parent : Option Parent) {e : Engine υ} (he : Holds path e) :
    (settled ((handler n parent).record s (walk path) e)).Meets (fun _ => Seen)
      (fun _ m e _ => SameKind n m ∧ Holds path e) (fun _ _ => True) past := by
  have htouch : ∀ (_ : List (Event υ)) (e e' : Engine υ), e.Touches e' → Holds path e →
      Holds path e' := fun _ _ _ ht h => h.touches ht
  exact Script.record_passing (fun h => h) htouch (fun _ _ _ => trivial) (fun _ _ => trivial)
    (fun past m parent e he => hwalk past path m parent e he) (.inl (hm.scopeFree n parent))
    (hm.passesOn n parent) (hm.keepsKind n parent) he

theorem invariant (hbase : p.handlers.OnBaseline Handler.Modest) :
    p.Invariant (fun _ => Seen) (fun _ => Holds) (fun _ _ _ => True) SameKind where
  kind h := h
  trans h₁ h₂ := h₂.trans h₁
  touch skip current h := h.touches (Engine.touches_of_eq rfl rfl)
  arrive n h := h.arrive n
  depart n h := h.depart n
  spoil _ := trivial
  widen _ := trivial
  around hwalk past path e hook n parent he := by
    refine Pass.recordDispatch_meets he ⟨rfl, he⟩ fun handler hlookup => ?_
    exact handler_meets hwalk (hbase.hooks hook handler hlookup) _ n parent he
  enter hwalk past path e n parent he := by
    by_cases hkind : OpensScope n.kind
    · -- The baseline opens the scope of the visit.
      rw [Pass.recordDispatch_opens hbase _ _ n parent e hkind]
      obtain ⟨context, hframes⟩ :=
        Engine.pushScope_frames p.handlers.scopeEnter (scopeNode n).info e
      have hopen : Mirrors (some ⟨n, e⟩ :: path) _ :=
        (Mirrors.some_iff_of_scope (Entry.scope?_of_opens hkind)).2 ⟨he.frames, context, hframes⟩
      have hinside := he.enter (Engine.pushScope_depth _ _ e) hopen
      exact Recorded.meets_single he ⟨rfl, hinside⟩
    · have hscope : Entry.scope? ⟨n, e⟩ = none := Entry.scope?_of_not hkind
      have hinside : ∀ {e' : Engine υ}, Holds (none :: path) e' →
          Holds (some ⟨n, e⟩ :: path) e' := fun h =>
        he.enter (h.depth.trans he.depth.symm) ((Mirrors.some_iff_of_none hscope).2 h.frames)
      refine Pass.recordDispatch_meets he ⟨rfl, hinside he⟩ fun handler hlookup => ?_
      have hgood := hbase.others n.kind .enter handler hkind hlookup
      exact (handler_meets hwalk hgood _ n parent he).imp (fun _ _ _ _ h => ⟨h.1, hinside h.2⟩)
        fun _ _ h => h
  exit hwalk past path entry e n parent hsame he := by
    by_cases hkind : OpensScope n.kind
    · rw [Pass.recordDispatch_closes hbase _ _ n parent e hkind]
      -- The node still has the kind it was entered with, so its frame is the innermost.
      have hscope := Entry.scope?_of_opens (hsame ▸ hkind)
      obtain ⟨hbelow, context, hframes⟩ := (Mirrors.some_iff_of_scope hscope).1 he.frames
      obtain ⟨edit, hpop⟩ := Engine.popScope_scopes p.handlers.scopeExit e
      have hclosed : Mirrors path (e.popScope p.handlers.scopeExit).2.scopes.frames := by
        rw [hpop, hframes]
        exact Mirrors.mapContext (s := ⟨entry.engine.scopes.frames⟩) hbelow edit
      exact Recorded.meets_single he ⟨rfl, he.exit (Engine.popScope_depth _ e) hclosed⟩
    · have hscope : entry.scope? = none := Entry.scope?_of_not (hsame ▸ hkind)
      have houtside := he.exit rfl ((Mirrors.some_iff_of_none hscope).1 he.frames)
      refine Pass.recordDispatch_meets he ⟨rfl, houtside⟩ fun handler hlookup => ?_
      have hgood := hbase.others n.kind .exit handler hkind hlookup
      exact handler_meets hwalk hgood _ n parent houtside

/-- At every handler call the frames, outermost first, are the scopes of the open visits, each with
the depth of its visit; a run that succeeds leaves no scope open. -/
theorem frames_mirror_open_visits {sets : List (HandlerSet υ)}
    (hsets : ∀ set ∈ sets, set.SparesBaseline Handler.Modest) (options : Options) (fuel : Nat)
    (tree : Node) (memory : υ) :
    (∀ m, .reached m ∈ (Pass.mk options (.compose sets)).journal fuel tree memory →
      m.engine.scopes.outermostFirst.map Scope.Frame.scope = (openScopes m.path).reverse ∧
      m.engine.depth = m.path.length ∧
      ∀ above entry below, m.path = above ++ some entry :: below →
        entry.engine.depth = below.length + 1) ∧
    ∀ n e, (Pass.mk options (.compose sets)).walk fuel tree none (.fresh memory) =
      some ⟨n, e, .ok ()⟩ → e.scopes.isEmpty := by
  have hbase := HandlerSet.compose_onBaseline hsets
  obtain ⟨hevents, hend⟩ := (invariant (p := ⟨options, .compose sets⟩) hbase).run fuel tree memory
    (.fresh memory)
  refine ⟨fun m hm => ?_, fun n e hwalk => ?_⟩
  · obtain ⟨first, rest, hsplit⟩ := List.append_of_mem hm
    have hseen : Holds m.path m.engine := hevents first _ rest hsplit
    refine ⟨?_, hseen.depth, hseen.entries⟩
    rw [Scope.Stack.outermostFirst, List.map_reverse, hseen.frames.scopes]
  · have hclosed : e.scopes.frames = [] := (hend n e hwalk).frames
    rw [Scope.Stack.isEmpty, hclosed]
    rfl

def byHand : HandlerSet Unit :=
  HandlerSet.empty.withEnter "ExpressionStatement" fun n _ =>
    .setSkip true (.traverseChildren n fun n r => .done ⟨n, r.map fun _ => none⟩)

def callback : Node :=
  (Node.new "Program").withChildren "body" [(Node.new "ExpressionStatement").withChild "expression"
    ((Node.new "FunctionExpression").withChild "body" (Node.new "BlockStatement"))]

theorem byHand_spares : byHand.SparesBaseline Handler.Modest := by
  apply HandlerSet.empty_sparesBaseline.add (HandlerSet.lookup_withEnter _ _ _)
  · rw [HandlerSet.baseline_contains_iff]
    decide
  · refine ⟨fun n parent m r => trivial, fun n parent m => ⟨trivial, fun err => rfl⟩, ?_⟩
    intro n parent m hm new hnew
    cases hnew
    exact hm

theorem frames_mirror_callback :
    (∀ set ∈ [byHand], set.SparesBaseline Handler.Modest) ∧
    (∃ m, .reached m ∈ (Pass.mk .sourceless (.compose [byHand])).journal 5 callback () ∧
      (openScopes m.path).map Scope.Info.kind = ["BlockStatement", "Program"] ∧
      m.engine.scopes.outermostFirst.map Scope.Frame.scope = (openScopes m.path).reverse) ∧
    ∃ n e, (Pass.mk .sourceless (.compose [byHand])).walk 5 callback none (.fresh ()) =
      some ⟨n, e, .ok ()⟩ ∧ e.scopes.isEmpty := by
  have hsets : ∀ set ∈ [byHand], set.SparesBaseline Handler.Modest := by
    simpa using byHand_spares
  obtain ⟨hframes, hend⟩ := frames_mirror_open_visits hsets .sourceless 5 callback ()
  obtain ⟨m, hm, hopen⟩ : ∃ m,
      .reached m ∈ (Pass.mk .sourceless (.compose [byHand])).journal 5 callback () ∧
        (openScopes m.path).map Scope.Info.kind = ["BlockStatement", "Program"] :=
    ⟨_, List.mem_of_getElem? (i := 11) rfl, rfl⟩
  obtain ⟨n, e, hwalk⟩ : ∃ n e, (Pass.mk .sourceless (.compose [byHand])).walk 5 callback none
      (.fresh ()) = some ⟨n, e, .ok ()⟩ := ⟨_, _, rfl⟩
  exact ⟨hsets, ⟨m, hm, hopen, (hframes m hm).1⟩, n, e, hwalk, hend n e hwalk⟩

end ScopeMirror

end SyntaxWalk
