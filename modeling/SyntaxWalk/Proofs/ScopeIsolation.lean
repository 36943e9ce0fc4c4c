import SyntaxWalk.Proofs.ScopeMirror

/-!
# What is written in a scope stays in it

A visit of a program or a function expression leaves the scopes as it found them: its exit handler
leaves every frame, the context included, as its entry handler found it, whatever was written in
between. It takes that every open visit was seen at its entry handler (`Announced`) and that its
frame lies on exactly the stack found there (`Mirrors`).
-/

namespace SyntaxWalk

variable {υ : Type}

theorem Recorded.Meets.keeping {ω τ σ ε α : Type} {Q : List ω → ω → Prop}
    {J : List ω → τ → σ → α → Prop} {K : List ω → σ → Prop} {past : List ω}
    {c : Recorded ω τ σ ε α} {P : List ω → Prop} (h : c.Meets Q J K past)
    (hmore : ∀ more, P (past ++ more)) : c.Meets Q (fun l n s a => J l n s a ∧ P l) K past :=
  ⟨h.events, fun n s a ho => ⟨h.success n s a ho, hmore _⟩, h.failure⟩

theorem HandlerSet.compose_scopeExit {sets : List (HandlerSet υ)}
    (hsets : ∀ set ∈ sets, set.scopeExit = none) : (compose sets).scopeExit = none := by
  refine List.foldlRecOn (motive := fun h : HandlerSet υ => h.scopeExit = none) sets merge rfl
    fun h hh set hset => ?_
  rw [merge, hsets set hset, hh]
  rfl

theorem Engine.popScope_unseen (e : Engine υ) :
    (e.popScope none).2.scopes.frames = e.scopes.frames.tail := by
  obtain ⟨depth, current, skip, ⟨frames⟩, warnings, memory⟩ := e
  cases frames <;> rfl

namespace ScopeIsolation

/-- Every visit of the path that shows its entry was at its entry handler before, with the visits
around it that are open now. -/
def Announced (past : List (Event υ)) (path : Path υ) : Prop :=
  ∀ above entry below, path = above ++ some entry :: below → ∃ parent,
    .reached ⟨.node entry.node.kind .enter, entry.node, parent, entry.engine, none :: below⟩ ∈ past

namespace Announced

variable {past : List (Event υ)} {path : Path υ}

theorem later (h : Announced past path) (more : List (Event υ)) : Announced (past ++ more) path :=
  fun above entry below hpath =>
    (h above entry below hpath).imp fun _ hm => List.mem_append_left more hm

theorem arrive (h : Announced past path) : Announced past (none :: path) := by
  intro above entry below hpath
  cases above with
  | nil => cases hpath
  | cons visit above => exact h above entry below (List.cons.inj hpath).2

theorem outside {visit : Option (Entry υ)} (h : Announced past (visit :: path)) :
    Announced past path := by
  intro above entry below hpath
  apply h (visit :: above)
  rw [hpath]
  rfl

theorem enter (h : Announced past path) (n : Node) (parent : Option Parent) (e : Engine υ) :
    Announced (past ++ [.reached ⟨.node n.kind .enter, n, parent, e, none :: path⟩])
      (some ⟨n, e⟩ :: path) := by
  intro above entry below hpath
  cases above with
  | nil =>
    cases hpath
    exact ⟨parent, by simp⟩
  | cons visit above => exact h.later _ above entry below (List.cons.inj hpath).2

end Announced

/-- What a moment shows of its visit: the entries were announced, and an exit handler is looked up
for the kind of which the visit's entry was. -/
structure Traced (past : List (Event υ)) (m : Moment υ) : Prop where
  path : Announced past m.path
  exit : ∀ kind, m.key = .node kind .exit → ∃ entry below, m.path = some entry :: below ∧
    entry.node.kind = kind ∧ m.node.kind = kind

def Seen (past : List (Event υ)) : Event υ → Prop
  | .reached m => Traced past m
  | .failed _ _ => True

variable {p : Pass υ}

theorem handler_meets {walk : Path υ → RecordedVisit υ}
    (hwalk : Kept Seen (fun l path _ => Announced l path) (fun _ _ _ => True) SameKind walk)
    {handler : Handler υ} (hm : handler.Modest) (s : Surroundings υ) {path : Path υ}
    {past : List (Event υ)} (n : Node) (parent : Option Parent) (e : Engine υ)
    (hpath : Announced past path) :
    (settled ((handler n parent).record s (walk path) e)).Meets Seen
      (fun _ m _ _ => SameKind n m) (fun _ _ => True) past := by
  have hmeets : (settled ((handler n parent).record s (walk path) e)).Meets Seen
      (fun l m _ _ => SameKind n m ∧ Announced l path) (fun _ _ => True) past :=
    Script.record_passing (I := fun l _ => Announced l path) (fun h => h) (fun _ _ _ _ h => h)
      (fun _ _ _ => trivial) (fun _ _ => trivial)
      (fun past m parent e he => hwalk past path m parent e he) (.inl (hm.scopeFree n parent))
      (hm.passesOn n parent) (hm.keepsKind n parent) hpath
  exact hmeets.imp (fun _ _ _ _ h => h.1) fun _ _ h => h

theorem invariant (hbase : p.handlers.OnBaseline Handler.Modest) :
    p.Invariant Seen (fun l path _ => Announced l path) (fun _ _ _ => True) SameKind where
  kind h := h
  trans h₁ h₂ := h₂.trans h₁
  touch _ _ h := h
  arrive _ h := h.arrive
  depart _ h := h.outside
  spoil _ := trivial
  widen _ := trivial
  around hwalk past path e hook n parent he := by
    refine Pass.recordDispatch_meets ⟨he, fun kind h => (by cases h)⟩ ⟨rfl, he.later _⟩
      fun handler hlookup => ?_
    have hgood := hbase.hooks hook handler hlookup
    exact (handler_meets hwalk hgood _ n parent e (he.later _)).keeping
      fun more => (he.later _).later more
  enter hwalk past path e n parent he := by
    have htraced : Traced past ⟨.node n.kind .enter, n, parent, e, none :: path⟩ :=
      ⟨he, fun kind h => (by cases h)⟩
    have hinside := he.outside.enter n parent e
    by_cases hkind : OpensScope n.kind
    · rw [Pass.recordDispatch_opens hbase _ _ n parent e hkind]
      exact Recorded.meets_single htraced ⟨rfl, hinside⟩
    · refine Pass.recordDispatch_meets htraced ⟨rfl, hinside⟩ fun handler hlookup => ?_
      have hgood := hbase.others n.kind .enter handler hkind hlookup
      exact (handler_meets hwalk hgood _ n parent e (he.later _)).keeping hinside.later
  exit hwalk past path entry e n parent hsame he := by
    have htraced : Traced past ⟨.node n.kind .exit, n, parent, e, some entry :: path⟩ := by
      refine ⟨he, fun kind h => ?_⟩
      cases h
      exact ⟨entry, path, rfl, hsame.symm, rfl⟩
    have houtside : Announced past (none :: path) := he.outside.arrive
    by_cases hkind : OpensScope n.kind
    · rw [Pass.recordDispatch_closes hbase _ _ n parent e hkind]
      exact Recorded.meets_single htraced ⟨rfl, houtside.later _⟩
    · refine Pass.recordDispatch_meets htraced ⟨rfl, houtside.later _⟩ fun handler hlookup => ?_
      have hgood := hbase.others n.kind .exit handler hkind hlookup
      exact (handler_meets hwalk hgood _ n parent e (houtside.later _)).keeping
        fun more => (houtside.later _).later more

theorem dispatch_closes (hbase : p.handlers.OnBaseline Handler.Modest)
    (hexit : p.handlers.scopeExit = none) {kind : String} (hkind : OpensScope kind)
    (walk : Descent (Engine υ) SyntaxError) (n : Node) (parent : Option Parent) (e : Engine υ) :
    p.dispatch walk (p.handlers.lookup (.node kind .exit)) n parent e =
      some ⟨n, (e.popScope none).2, .ok ()⟩ := by
  rw [hbase.baseline kind .exit hkind, HandlerSet.baseline_exit, if_pos hkind, ← hexit]
  rfl

/-- Every exit handler is called for the kind its visit was entered with. One that closes a scope
leaves the scope stack, frame by frame with its context, as the entry handler of its visit found
it. -/
theorem exit_restores_scopes {sets : List (HandlerSet υ)}
    (hsets : ∀ set ∈ sets, set.SparesBaseline Handler.Modest)
    (hexit : ∀ set ∈ sets, set.scopeExit = none) (options : Options) (fuel : Nat) (tree : Node)
    (memory : υ) {before after : List (Event υ)} {m : Moment υ} {kind : String}
    (hjournal : (Pass.mk options (.compose sets)).journal fuel tree memory =
      before ++ .reached m :: after) (hkey : m.key = .node kind .exit) :
    ∃ entry below, m.path = some entry :: below ∧ entry.node.kind = kind ∧
      (∃ parent, .reached ⟨.node kind .enter, entry.node, parent, entry.engine, none :: below⟩ ∈
        before) ∧
      (OpensScope kind → ∀ walk, ∃ e,
        (Pass.mk options (.compose sets)).dispatch walk ((HandlerSet.compose sets).lookup m.key)
          m.node m.parent m.engine = some ⟨m.node, e, .ok ()⟩ ∧
        e.scopes = entry.engine.scopes) := by
  have hbase := HandlerSet.compose_onBaseline hsets
  have hclosed := HandlerSet.compose_scopeExit hexit
  obtain ⟨htraced, -⟩ := (invariant (p := ⟨options, .compose sets⟩) hbase).run fuel tree memory
    fun above entry below hpath => by simp at hpath
  obtain ⟨hholds, -⟩ := (ScopeMirror.invariant (p := ⟨options, .compose sets⟩) hbase).run fuel tree
    memory (.fresh memory)
  have hm : Traced before m := htraced before _ after hjournal
  obtain ⟨entry, below, hpath, rfl, -⟩ := hm.exit kind hkey
  refine ⟨entry, below, hpath, rfl, hm.path [] entry below hpath, fun hkind walk => ?_⟩
  refine ⟨(m.engine.popScope none).2, ?_, ?_⟩
  · rw [hkey]
    exact dispatch_closes hbase hclosed hkind walk m.node m.parent m.engine
  · -- The visit's own frame lies on the stack of its entry, and the pop takes just that frame away.
    have hframes : Mirrors m.path m.engine.scopes.frames :=
      (hholds before _ after hjournal : ScopeMirror.Holds m.path m.engine).frames
    rw [hpath] at hframes
    have hscope := Entry.scope?_of_opens hkind
    obtain ⟨-, context, hopen⟩ := (Mirrors.some_iff_of_scope hscope).1 hframes
    have htail := Engine.popScope_unseen m.engine
    rw [hopen] at htail
    exact congrArg Scope.Stack.mk htail

def scribbling : HandlerSet Unit :=
  (HandlerSet.empty.withEnter "Identifier" fun n _ =>
    .editContext (·.insert "written" (.bool true)) (.done (.keep n))).withScopeEnter
      fun t _ => (t.context.map (·.insert "opened" (.bool true)), ())

theorem scribbling_spares : scribbling.SparesBaseline Handler.Modest := by
  have hnames : ∀ key, scribbling.lookup key = if key = .node "Identifier" .enter then
      scribbling.lookup (.node "Identifier" .enter) else HandlerSet.empty.lookup key :=
    HandlerSet.lookup_withEnter HandlerSet.empty "Identifier" _
  apply HandlerSet.empty_sparesBaseline.add hnames
  · rw [HandlerSet.baseline_contains_iff]
    decide
  · refine ⟨fun n parent => trivial, fun n parent => trivial, fun n parent new hnew => ?_⟩
    cases hnew
    rfl

def nested : Node :=
  (Node.new "Program").withChildren "body" [(Node.new "FunctionExpression").withChild "body"
    ((Node.new "BlockStatement").withChildren "body" [Node.new "Identifier"])]

theorem exit_restores_scribbled :
    (∀ set ∈ [scribbling], set.SparesBaseline Handler.Modest) ∧
    (∀ set ∈ [scribbling], set.scopeExit = none) ∧
    ∃ before m after entry below,
      (Pass.mk .sourceless (.compose [scribbling])).journal 5 nested () =
        before ++ .reached m :: after ∧
      m.key = .node functionExpressionKind .exit ∧ m.path = some entry :: below ∧
      m.engine.scopes.context?.map NameMap.names = some ["opened", "written"] ∧
      entry.engine.scopes.context?.map NameMap.names = some ["opened"] ∧
      ∀ walk, ∃ e, (Pass.mk .sourceless (.compose [scribbling])).dispatch walk
        ((HandlerSet.compose [scribbling]).lookup m.key) m.node m.parent m.engine =
          some ⟨m.node, e, .ok ()⟩ ∧ e.scopes = entry.engine.scopes := by
  have hsets : ∀ set ∈ [scribbling], set.SparesBaseline Handler.Modest := by
    simpa using scribbling_spares
  have hexit : ∀ set ∈ [scribbling], set.scopeExit = none := by
    simp [scribbling, HandlerSet.withScopeEnter, HandlerSet.withEnter, HandlerSet.empty]
  obtain ⟨before, m, after, entry, below, hjournal, hkey, hpath, hinside, houtside⟩ :
      ∃ before m after entry below,
        (Pass.mk .sourceless (.compose [scribbling])).journal 5 nested () =
          before ++ .reached m :: after ∧
        m.key = .node functionExpressionKind .exit ∧ m.path = some entry :: below ∧
        m.engine.scopes.context?.map NameMap.names = some ["opened", "written"] ∧
        entry.engine.scopes.context?.map NameMap.names = some ["opened"] := by
    refine ⟨((Pass.mk .sourceless (.compose [scribbling])).journal 5 nested ()).take 19, _,
      ((Pass.mk .sourceless (.compose [scribbling])).journal 5 nested ()).drop 20, _, _, rfl, rfl,
      rfl, rfl, rfl⟩
  obtain ⟨own, outer, hown, -, -, hrestores⟩ :=
    exit_restores_scopes hsets hexit .sourceless 5 nested () hjournal hkey
  obtain ⟨hentry, -⟩ := List.cons.inj (hpath.symm.trans hown)
  cases hentry
  exact ⟨hsets, hexit, before, m, after, entry, below, hjournal, hkey, hpath, hinside, houtside,
    hrestores (.inr rfl)⟩

end ScopeIsolation

end SyntaxWalk
