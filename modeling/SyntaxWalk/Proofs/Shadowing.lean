import SyntaxWalk.Lint
import SyntaxWalk.Proofs.OnBaseline
import SyntaxWalk.Proofs.Visits

/-!
# What the shadowing lint reports

`scan` goes through a tree in walking order with one set of names for each open scope, and notes
the identifiers that are bound where a set further out has their name. The lint, which keeps its
names in the contexts of the scopes, warns of just these, in that order (`warnings_eq_scan`).
-/

namespace SyntaxWalk.Lint.Shadowing

def subpatterns (pattern : Node) : List Node :=
  if pattern.kind = "AssignmentPattern" then (pattern.child? "left").toList
  else if pattern.kind = "RestElement" then (pattern.child? "argument").toList
  else if pattern.kind = "ArrayPattern" then pattern.children "elements"
  else if pattern.kind = "ObjectPattern" then
    (pattern.children "properties").map fun property => (property.child? "value").getD property
  else []

theorem count_lt_of_mem_subpatterns {pattern p : Node} (h : p ∈ subpatterns pattern) :
    p.count < pattern.count := by
  unfold subpatterns at h
  split at h
  · exact Node.count_lt_of_child? (Option.mem_toList.1 h)
  · split at h
    · exact Node.count_lt_of_child? (Option.mem_toList.1 h)
    · split at h
      · exact Node.count_lt_of_mem_children h
      · split at h
        · obtain ⟨property, hproperty, rfl⟩ := List.mem_map.1 h
          have hlt := Node.count_lt_of_mem_children hproperty
          cases hvalue : property.child? "value" with
          | none => exact hlt
          | some v => exact Nat.lt_trans (Node.count_lt_of_child? hvalue) hlt
        · cases h

def bound (pattern : Node) : List Node :=
  if pattern.kind = "Identifier" then
    if (pattern.string? "name").isSome then [pattern] else []
  else (subpatterns pattern).attach.flatMap fun ⟨p, _⟩ => bound p
termination_by pattern.count
decreasing_by exact count_lt_of_mem_subpatterns ‹_›

theorem flatMap_attach_congr {α β : Type} {items : List α} {f : {a // a ∈ items} → List β}
    {g : α → List β} (h : ∀ a ha, f ⟨a, ha⟩ = g a) : items.attach.flatMap f = items.flatMap g := by
  rw [List.flatMap_subtype h, List.unattach_attach]

theorem bound_of_ne {pattern : Node} (h : pattern.kind ≠ "Identifier") :
    bound pattern = (subpatterns pattern).flatMap bound := by
  rw [bound, if_neg h]
  exact flatMap_attach_congr fun p hp => rfl

theorem bindings_eq_bound (pattern : Node) : bindings pattern = bound pattern := by
  fun_induction bindings pattern with
  | case1 pattern hkind hname => rw [bound, if_pos hkind, if_pos hname]
  | case2 pattern hkind hname => rw [bound, if_pos hkind, if_neg hname]
  | case3 pattern hid hkind left hleft ih =>
    rw [ih, bound_of_ne hid, subpatterns, if_pos hkind, hleft]
    simp
  | case4 pattern hid hkind hleft =>
    rw [bound_of_ne hid, subpatterns, if_pos hkind, hleft]
    rfl
  | case5 pattern hid h₁ hkind argument hargument ih =>
    rw [ih, bound_of_ne hid, subpatterns, if_neg h₁, if_pos hkind, hargument]
    simp
  | case6 pattern hid h₁ hkind hargument =>
    rw [bound_of_ne hid, subpatterns, if_neg h₁, if_pos hkind, hargument]
    rfl
  | case7 pattern hid h₁ h₂ hkind ih =>
    rw [bound_of_ne hid, subpatterns, if_neg h₁, if_neg h₂, if_pos hkind]
    exact flatMap_attach_congr ih
  | case8 pattern hid h₁ h₂ h₃ hkind ihvalue ih =>
    rw [bound_of_ne hid, subpatterns, if_neg h₁, if_neg h₂, if_neg h₃, if_pos hkind,
      List.flatMap_map]
    refine flatMap_attach_congr fun property hproperty => ?_
    dsimp only
    split
    · rename_i v hvalue
      rw [hvalue]
      exact ihvalue property hproperty v hvalue
    · rename_i hvalue
      rw [hvalue]
      exact ih property hproperty
  | case9 pattern hid h₁ h₂ h₃ h₄ =>
    rw [bound_of_ne hid, subpatterns, if_neg h₁, if_neg h₂, if_neg h₃, if_neg h₄]
    rfl

def IsFunction (kind : String) : Prop :=
  kind = "FunctionDeclaration" ∨ kind = functionExpressionKind ∨ kind = "ArrowFunctionExpression"

instance (kind : String) : Decidable (IsFunction kind) := inferInstanceAs (Decidable (_ ∨ _))

/-- The names bound so far in every open scope, innermost first, and the identifiers to report. -/
structure Tally where
  scopes : List (List String) := []
  reported : List Node := []

namespace Tally

def bind (t : Tally) (identifier : Node) : Tally :=
  match identifier.string? "name", t.scopes with
  | some name, own :: around =>
    ⟨(name :: own) :: around,
      if ∃ names ∈ around, name ∈ names then t.reported ++ [identifier] else t.reported⟩
  | _, _ => t

def bindAll (t : Tally) (identifiers : List Node) : Tally := identifiers.foldl bind t

def openScope (t : Tally) : Tally := ⟨[] :: t.scopes, t.reported⟩

def closeScope (t : Tally) : Tally := ⟨t.scopes.tail, t.reported⟩

/-- The id of a declaration is bound in the scope around it, the parameters of a function in its
own. -/
def enter (n : Node) (t : Tally) : Tally :=
  let t := if n.kind = "VariableDeclarator" ∨ n.kind = "FunctionDeclaration" then
    t.bindAll ((n.child? "id").toList.flatMap bound) else t
  let t := if n.kind = programKind ∨ IsFunction n.kind then t.openScope else t
  if IsFunction n.kind then t.bindAll ((n.children "params").flatMap bound) else t

def leave (n : Node) (t : Tally) : Tally :=
  if n.kind = programKind ∨ IsFunction n.kind then t.closeScope else t

end Tally

def scan (keys : VisitorKeys) (n : Node) (t : Tally) : Tally :=
  .leave n (((keys.childKeys? n).getD []).foldl (fun t name =>
    (n.children name).attach.foldl (fun t ⟨child, _⟩ => scan keys child t) t) (t.enter n))
termination_by n.count
decreasing_by exact Node.count_lt_of_mem_children ‹_›

theorem scan_eq (keys : VisitorKeys) (n : Node) (t : Tally) :
    scan keys n t =
      .leave n (foldChildren (scan keys) n ((keys.childKeys? n).getD []) (t.enter n)) := by
  rw [scan, foldChildren]
  congr 2
  funext t name
  rw [foldNodes, List.foldl_subtype (fun _ _ _ => rfl), List.unattach_attach]

section Contexts

variable {context : Context} {own : List String} {around : List (List String)} {name : String}

theorem namesUnder_withNames_of_ne {key other : String} (h : other ≠ key) (context : Context)
    (names : List String) :
    namesUnder (withNames context key names) other = namesUnder context other := by
  simp only [namesUnder, withNames, Context.getAs, NameMap.get?_insert, if_neg h]

theorem mem_foldl_addName {added names : List String} {other : String} :
    other ∈ added.foldl addName names ↔ other ∈ names ∨ other ∈ added := by
  induction added generalizing names with
  | nil => simp
  | cons name rest ih => rw [List.foldl_cons, ih, mem_addName, List.mem_cons, or_assoc]

structure Fits (context : Context) (own : List String) (around : List (List String)) : Prop where
  own : ∀ name, name ∈ namesUnder context localKey ↔ name ∈ own
  around : ∀ name, name ∈ namesUnder context outerKey ↔ ∃ names ∈ around, name ∈ names

theorem fits_empty : Fits (enterScope .empty) [] [] := by
  have hlocal : namesUnder .empty localKey = [] := rfl
  have houter : namesUnder .empty outerKey = [] := rfl
  have hne : outerKey ≠ localKey := by decide
  refine ⟨fun name => ?_, fun name => ?_⟩
  · rw [enterScope, namesUnder_withNames_self]
  · rw [enterScope, namesUnder_withNames_of_ne hne, namesUnder_withNames_self, hlocal, houter]
    simp

theorem Fits.enterScope (h : Fits context own around) :
    Fits (enterScope context) [] (own :: around) := by
  have hne : outerKey ≠ localKey := by decide
  refine ⟨fun name => ?_, fun name => ?_⟩
  · rw [Shadowing.enterScope, namesUnder_withNames_self]
  · rw [Shadowing.enterScope, namesUnder_withNames_of_ne hne, namesUnder_withNames_self,
      mem_foldl_addName, h.own, h.around]
    simp [or_comm]

theorem Fits.bind (h : Fits context own around) (name : String) :
    Fits (bind context name) (name :: own) around := by
  have hne : outerKey ≠ localKey := by decide
  unfold Shadowing.bind
  by_cases hbound : name ∈ namesUnder context localKey
  · simp only [List.contains_iff_mem.2 hbound, if_true]
    refine ⟨fun other => ?_, h.around⟩
    rw [h.own, List.mem_cons, or_iff_right_of_imp]
    rintro rfl
    exact (h.own other).1 hbound
  · have hcontains : (namesUnder context localKey).contains name = false := by
      simpa using hbound
    simp only [hcontains, Bool.false_eq_true, if_false]
    refine ⟨fun other => ?_, fun other => ?_⟩
    · rw [namesUnder_withNames_self, List.mem_append, List.mem_singleton, h.own, List.mem_cons,
        or_comm]
    · rw [namesUnder_withNames_of_ne hne, h.around]

theorem Fits.isShadowing_iff (h : Fits context own around) (name : String) :
    isShadowing context name ↔ ∃ names ∈ around, name ∈ names := by
  rw [isShadowing, List.contains_iff_mem, h.around]

end Contexts

def FramesFit : List Scope.Frame → List (List String) → Prop
  | [], [] => True
  | frame :: frames, own :: around => Fits frame.context own around ∧ FramesFit frames around
  | [], _ :: _ | _ :: _, [] => False

def warning (filename : String) (identifier : Node) : Warning :=
  ⟨identifier.loc, filename, message ((identifier.string? "name").getD "")⟩

variable {υ : Type}

structure Records (filename : String) (e : Engine υ) (t : Tally) : Prop where
  scopes : FramesFit e.scopes.frames t.scopes
  warnings : e.warnings = t.reported.map (warning filename)
  skip : e.skip = false

namespace Records

variable {filename : String} {e e' : Engine υ} {t : Tally}

theorem of_eq (h : Records filename e t) (hscopes : e'.scopes = e.scopes)
    (hwarnings : e'.warnings = e.warnings) (hskip : e'.skip = false) : Records filename e' t := by
  refine ⟨?_, hwarnings.trans h.warnings, hskip⟩
  rw [hscopes]
  exact h.scopes

theorem pushScope (h : Records filename e t) (node : NodeInfo) :
    Records filename (e.pushScope (some scopeHook) node) t.openScope := by
  obtain ⟨depth, current, skip, ⟨frames⟩, warnings, memory⟩ := e
  obtain ⟨scopes, reported⟩ := t
  refine ⟨?_, h.warnings, h.skip⟩
  have hframes := h.scopes
  rcases frames with _ | ⟨frame, frames⟩ <;> rcases scopes with _ | ⟨own, around⟩
  · exact ⟨fits_empty, trivial⟩
  · exact hframes.elim
  · exact hframes.elim
  · exact ⟨hframes.1.enterScope, hframes⟩

theorem popScope (h : Records filename e t) :
    Records filename (e.popScope none).2 t.closeScope := by
  obtain ⟨depth, current, skip, ⟨frames⟩, warnings, memory⟩ := e
  obtain ⟨scopes, reported⟩ := t
  have hframes := h.scopes
  rcases frames with _ | ⟨frame, frames⟩ <;> rcases scopes with _ | ⟨own, around⟩
  · exact ⟨trivial, h.warnings, h.skip⟩
  · exact hframes.elim
  · exact hframes.elim
  · exact ⟨hframes.2, h.warnings, h.skip⟩

end Records

section Scripts

variable {s : Surroundings υ} {e : Engine υ} {t : Tally}

theorem run_of_run {α β : Type} {first : Script υ α} {a : α} {e' : Engine υ}
    (h : first.run s e = some (a, e')) (next : α → Script υ β) :
    (first >>= next).run s e = (next a).run s e' := by
  have hbind := Script.run_bind s first next e
  rw [h] at hbind
  exact hbind

theorem declare_of_context {identifier : Node} {name : String} {frame : Scope.Frame}
    {frames : List Scope.Frame} (hname : identifier.string? "name" = some name)
    (hframes : e.scopes.frames = frame :: frames) :
    (declare identifier).run s e =
      (if isShadowing frame.context name then Script.addWarning identifier (message name)
        else return ()).run s
        { e with scopes := ⟨⟨frame.scope, bind frame.context name⟩ :: frames⟩ } := by
  obtain ⟨depth, current, skip, ⟨frames'⟩, warnings, memory⟩ := e
  cases (show frames' = frame :: frames from hframes)
  simp only [declare, hname]
  rfl

theorem Tally.bind_of_scopes {identifier : Node} {name : String} {own : List String}
    {around : List (List String)} {reported : List Node}
    (hname : identifier.string? "name" = some name) :
    Tally.bind ⟨own :: around, reported⟩ identifier = ⟨(name :: own) :: around,
      if ∃ names ∈ around, name ∈ names then reported ++ [identifier] else reported⟩ := by
  simp only [Tally.bind, hname]

theorem declare_of_no_scope (identifier : Node) (hframes : e.scopes.frames = []) :
    (declare identifier).run s e = some ((), e) := by
  obtain ⟨depth, current, skip, ⟨frames⟩, warnings, memory⟩ := e
  cases (show frames = [] from hframes)
  unfold declare
  cases identifier.string? "name" <;> rfl

theorem declare_run (h : Records s.options.filename e t) (identifier : Node) :
    ∃ e', (declare identifier).run s e = some ((), e') ∧
      Records s.options.filename e' (t.bind identifier) := by
  obtain ⟨scopes, reported⟩ := t
  have hfit := h.scopes
  cases hframes : e.scopes.frames with
  | nil =>
    rw [hframes] at hfit
    cases scopes with
    | cons own around => exact hfit.elim
    | nil =>
      refine ⟨e, declare_of_no_scope identifier hframes, ?_⟩
      unfold Tally.bind
      cases identifier.string? "name" <;> exact h
  | cons frame frames =>
    rw [hframes] at hfit
    cases scopes with
    | nil => exact hfit.elim
    | cons own around =>
      cases hname : identifier.string? "name" with
      | none =>
        refine ⟨e, ?_, ?_⟩
        · simp only [declare, hname]
          rfl
        · simp only [Tally.bind, hname]
          exact h
      | some name =>
        have hiff := hfit.1.isShadowing_iff name
        have hbound : FramesFit (⟨frame.scope, bind frame.context name⟩ :: frames)
          ((name :: own) :: around) := ⟨hfit.1.bind name, hfit.2⟩
        rw [declare_of_context hname hframes, Tally.bind_of_scopes hname]
        by_cases hshadow : isShadowing frame.context name
        · rw [if_pos hshadow, if_pos (hiff.1 hshadow)]
          refine ⟨_, rfl, hbound, ?_, h.skip⟩
          rw [List.map_append, ← h.warnings, List.map_singleton, warning, hname]
          rfl
        · rw [if_neg hshadow, if_neg (fun hmem => hshadow (hiff.2 hmem))]
          exact ⟨_, rfl, hbound, h.warnings, h.skip⟩

theorem declareAll_run (h : Records s.options.filename e t) (identifiers : List Node) :
    ∃ e', (declareAll identifiers).run s e = some ((), e') ∧
      Records s.options.filename e' (t.bindAll identifiers) := by
  induction identifiers generalizing e t with
  | nil => exact ⟨e, rfl, h⟩
  | cons identifier rest ih =>
    obtain ⟨e₁, hfirst, h₁⟩ := declare_run h identifier
    obtain ⟨e₂, hrest, h₂⟩ := ih h₁
    exact ⟨e₂, (run_of_run hfirst fun _ => declareAll rest).trans hrest, h₂⟩

theorem declareId_run (h : Records s.options.filename e t) (n : Node) :
    ∃ e', (declareId n).run s e = some ((), e') ∧
      Records s.options.filename e' (t.bindAll ((n.child? "id").toList.flatMap bound)) := by
  unfold declareId
  cases n.child? "id" with
  | none => exact ⟨e, rfl, h⟩
  | some id =>
    have hid := declareAll_run h (bindings id)
    rw [bindings_eq_bound] at hid
    simpa [declarePattern, bindings_eq_bound] using hid

end Scripts

abbrev pass (options : Options) : Pass υ := ⟨options, .compose [handlers .shadowing]⟩

def Does (handler : Handler υ) (g : Node → Tally → Tally) : Prop :=
  ∀ n parent s e t, s.scopeEnter = some scopeHook → s.scopeExit = none →
    Records s.options.filename e t → ∃ e', (handler n parent).run s e = some (.keep n, e') ∧
      Records s.options.filename e' (g n t)

theorem openProgram_does : Does (Baseline.openProgram : Handler υ) fun _ t => t.openScope := by
  intro n parent s e t hscope _ h
  refine ⟨_, rfl, ?_⟩
  rw [hscope]
  exact h.pushScope n.info

theorem close_does : Does (Baseline.close : Handler υ) fun _ t => t.closeScope := by
  intro n parent s e t _ hscope h
  refine ⟨_, rfl, ?_⟩
  rw [hscope]
  exact h.popScope

theorem enterDeclarator_does : Does (enterDeclarator : Handler υ) fun n t =>
    t.bindAll ((n.child? "id").toList.flatMap bound) := by
  intro n parent s e t _ _ h
  obtain ⟨e', hrun, h'⟩ := declareId_run h n
  exact ⟨e', run_of_run hrun _, h'⟩

theorem enterFunction_does : Does (enterFunction : Handler υ) fun n t =>
    t.openScope.bindAll ((n.children "params").flatMap bound) := by
  intro n parent s e t hscope _ h
  have hopen : (Script.openScope (functionScope n)).run s e =
      some ((), e.pushScope (some scopeHook) (functionScope n).info) := by
    rw [← hscope]
    rfl
  obtain ⟨e', hrun, h'⟩ := declareAll_run (h.pushScope (functionScope n).info)
    ((n.children "params").flatMap bindings)
  rw [funext bindings_eq_bound] at h'
  exact ⟨e', (run_of_run hopen _).trans (run_of_run hrun _), h'⟩

theorem enterDeclaration_does : Does (enterDeclaration : Handler υ) fun n t =>
    (t.bindAll ((n.child? "id").toList.flatMap bound)).openScope.bindAll
      ((n.children "params").flatMap bound) := by
  intro n parent s e t hscope hexit h
  obtain ⟨e₁, hid, h₁⟩ := declareId_run h n
  obtain ⟨e₂, hfunction, h₂⟩ := enterFunction_does n parent s e₁ _ hscope hexit h₁
  exact ⟨e₂, (run_of_run hid _).trans hfunction, h₂⟩

theorem lookup_compose (key : DispatchKey) :
    (HandlerSet.compose [handlers .shadowing] : HandlerSet υ).lookup key =
      ((handlers .shadowing).lookup key).or (HandlerSet.baseline.lookup key) :=
  HandlerSet.lookup_merge _ _ key

theorem kind_cases (kind : String) :
    kind = "VariableDeclarator" ∨ kind = programKind ∨ IsFunction kind ∨
      (kind ≠ "VariableDeclarator" ∧ kind ≠ programKind ∧ ¬ IsFunction kind) := by
  by_cases hdeclarator : kind = "VariableDeclarator"
  · exact .inl hdeclarator
  · by_cases hprogram : kind = programKind
    · exact .inr (.inl hprogram)
    · by_cases hfunction : IsFunction kind
      · exact .inr (.inr (.inl hfunction))
      · exact .inr (.inr (.inr ⟨hdeclarator, hprogram, hfunction⟩))

theorem lookup_of_other {kind : String} (phase : Phase) (hdeclarator : kind ≠ "VariableDeclarator")
    (hprogram : kind ≠ programKind) (hfunction : ¬ IsFunction kind) :
    (HandlerSet.compose [handlers .shadowing] : HandlerSet υ).lookup (.node kind phase) = none := by
  obtain ⟨hdeclaration, hrest⟩ := not_or.1 hfunction
  obtain ⟨hexpression, harrow⟩ := not_or.1 hrest
  have hopens : ¬ OpensScope kind := not_or.2 ⟨hprogram, hexpression⟩
  rw [lookup_compose]
  cases phase with
  | enter =>
    rw [HandlerSet.baseline_enter, if_neg hexpression, if_neg hprogram, Option.or_none]
    simp only [handlers, HandlerSet.lookup_withEnter, HandlerSet.lookup_withExit,
      DispatchKey.node.injEq, harrow, hexpression, hdeclaration, hdeclarator, reduceCtorEq,
      and_false, false_and, if_false]
    rfl
  | exit =>
    rw [HandlerSet.baseline_exit, if_neg hopens, Option.or_none]
    simp only [handlers, HandlerSet.lookup_withEnter, HandlerSet.lookup_withExit,
      DispatchKey.node.injEq, harrow, hexpression, hdeclaration, reduceCtorEq, and_false, false_and,
      if_false]
    rfl

section Visit

variable {options : Options} {e : Engine υ} {t : Tally}

theorem dispatch_of_does {handler : Handler υ} {g : Node → Tally → Tally} (hdoes : Does handler g)
    (walk : Descent (Engine υ) SyntaxError) (n : Node) (parent : Option Parent)
    (h : Records options.filename e t) :
    ∃ e', (pass options).dispatch walk (some handler) n parent e = some ⟨n, e', .ok ()⟩ ∧
      Records options.filename e' (g n t) := by
  obtain ⟨e', hrun, h'⟩ := hdoes n parent ((pass options).surroundings walk) e t rfl rfl h
  refine ⟨e', ?_, h'⟩
  rw [Pass.dispatch, hrun]
  rfl

theorem dispatch_enter (walk : Descent (Engine υ) SyntaxError) (n : Node) (parent : Option Parent)
    (h : Records options.filename e t) :
    ∃ e', (pass options).dispatch walk ((pass options).handlers.lookup (.node n.kind .enter)) n
        parent e = some ⟨n, e', .ok ()⟩ ∧ Records options.filename e' (t.enter n) := by
  obtain hkind | hkind | (hkind | hkind | hkind) | ⟨hdeclarator, hprogram, hfunction⟩ :=
    kind_cases n.kind
  · have hlookup : (pass options : Pass υ).handlers.lookup (.node n.kind .enter) =
        some enterDeclarator := by
      rw [hkind]
      rfl
    have henter : t.enter n = t.bindAll ((n.child? "id").toList.flatMap bound) := by
      simp [Tally.enter, IsFunction, hkind, programKind, functionExpressionKind]
    rw [hlookup, henter]
    exact dispatch_of_does enterDeclarator_does walk n parent h
  · have hlookup : (pass options : Pass υ).handlers.lookup (.node n.kind .enter) =
        some Baseline.openProgram := by
      rw [hkind]
      rfl
    have henter : t.enter n = t.openScope := by
      simp [Tally.enter, IsFunction, hkind, programKind, functionExpressionKind]
    rw [hlookup, henter]
    exact dispatch_of_does openProgram_does walk n parent h
  · have hlookup : (pass options : Pass υ).handlers.lookup (.node n.kind .enter) =
        some enterDeclaration := by
      rw [hkind]
      rfl
    have henter : t.enter n = (t.bindAll ((n.child? "id").toList.flatMap bound)).openScope.bindAll
        ((n.children "params").flatMap bound) := by
      simp [Tally.enter, IsFunction, hkind]
    rw [hlookup, henter]
    exact dispatch_of_does enterDeclaration_does walk n parent h
  · have hlookup : (pass options : Pass υ).handlers.lookup (.node n.kind .enter) =
        some enterFunction := by
      rw [hkind]
      rfl
    have henter : t.enter n = t.openScope.bindAll ((n.children "params").flatMap bound) := by
      simp [Tally.enter, IsFunction, hkind, functionExpressionKind]
    rw [hlookup, henter]
    exact dispatch_of_does enterFunction_does walk n parent h
  · have hlookup : (pass options : Pass υ).handlers.lookup (.node n.kind .enter) =
        some enterFunction := by
      rw [hkind]
      rfl
    have henter : t.enter n = t.openScope.bindAll ((n.children "params").flatMap bound) := by
      simp [Tally.enter, IsFunction, hkind]
    rw [hlookup, henter]
    exact dispatch_of_does enterFunction_does walk n parent h
  · have hdeclaration : n.kind ≠ "FunctionDeclaration" := fun hkind => hfunction (.inl hkind)
    have henter : t.enter n = t := by
      simp only [Tally.enter, hdeclarator, hdeclaration, hprogram, hfunction, or_self, if_false]
    rw [lookup_of_other .enter hdeclarator hprogram hfunction, henter]
    exact ⟨e, rfl, h⟩

theorem dispatch_exit (walk : Descent (Engine υ) SyntaxError) (n : Node) (parent : Option Parent)
    (h : Records options.filename e t) :
    ∃ e', (pass options).dispatch walk ((pass options).handlers.lookup (.node n.kind .exit)) n
        parent e = some ⟨n, e', .ok ()⟩ ∧ Records options.filename e' (t.leave n) := by
  by_cases hcloses : n.kind = programKind ∨ IsFunction n.kind
  · have hlookup : (pass options : Pass υ).handlers.lookup (.node n.kind .exit) =
        some Baseline.close := by
      obtain hkind | hkind | hkind | hkind := hcloses <;> rw [hkind] <;> rfl
    rw [hlookup, Tally.leave, if_pos hcloses]
    exact dispatch_of_does close_does walk n parent h
  · have hlookup : (pass options : Pass υ).handlers.lookup (.node n.kind .exit) = none := by
      obtain ⟨hprogram, hfunction⟩ := not_or.1 hcloses
      by_cases hdeclarator : n.kind = "VariableDeclarator"
      · rw [hdeclarator]
        rfl
      · exact lookup_of_other .exit hdeclarator hprogram hfunction
    rw [hlookup, Tally.leave, if_neg hcloses]
    exact ⟨e, rfl, h⟩

theorem dispatchSide_of_dispatch {walk : Descent (Engine υ) SyntaxError} {phase : Phase} {n : Node}
    {parent : Option Parent} {e e' : Engine υ} (before after : Hook)
    (h : (pass options).dispatch walk ((pass options).handlers.lookup (.node n.kind phase)) n
      parent e = some ⟨n, e', .ok ()⟩) :
    (pass options).dispatchSide walk before phase after n parent e = some ⟨n, e', .ok ()⟩ := by
  have hside : (pass options).dispatchSide walk before phase after n parent e =
      ((pass options).dispatch walk ((pass options).handlers.lookup (.node n.kind phase)) n parent
        e).bind fun o => o.andThen fun n e _ => some ⟨n, e, .ok ()⟩ := rfl
  rw [hside, h]
  rfl

theorem walk_leaves (fuel : Nat) (n : Node) (parent : Option Parent) (e : Engine υ) (t : Tally)
    (h : Records options.filename e t) :
    Leaves (Records options.filename) n (scan options.keys n t)
      ((pass options).walk fuel n parent e) := by
  -- `Records` ties the contexts to the tally at every point; the tree itself is left as it was.
  induction fuel generalizing n parent e t with
  | zero =>
    intro m e' ho
    cases ho
  | succ fuel ih =>
    have harrive : Records options.filename (Pass.arrive n e) t := h.of_eq rfl rfl h.skip
    obtain ⟨e₁, henter, h₁⟩ := dispatch_enter
      ((pass options).walk fuel) n parent harrive
    have hentered := dispatchSide_of_dispatch .beforeEnter .afterEnter henter
    have hbegin : Records options.filename { e₁ with skip := false } (t.enter n) :=
      h₁.of_eq rfl rfl rfl
    have hchildren := walkChildren_leaves ih options.keys n hbegin
    rw [Pass.walk_of_enter hentered h₁.skip, scan_eq]
    refine hchildren.andThen fun e₂ _ h₂ => ?_
    have hturn : Records options.filename { e₂ with current := some n.info } _ :=
      h₂.of_eq rfl rfl h₂.skip
    obtain ⟨e₃, hexit, h₃⟩ := dispatch_exit
      ((pass options).walk fuel) n parent hturn
    have hleft := dispatchSide_of_dispatch .beforeExit .afterExit hexit
    intro m e' ho
    rw [Pass.leave_of_exit hleft] at ho
    cases ho
    exact ⟨rfl, h₃.of_eq rfl rfl rfl⟩

end Visit

/-- A run of the lint that succeeds warns of the identifiers that the scan reports, one by one. -/
theorem warnings_eq_scan {options : Options} {fuel : Nat} {tree : Node} {memory : υ}
    {output : Pass.Output} {memory' : υ}
    (h : (pass options).run fuel tree memory =
      some ⟨.ok output, memory'⟩) :
    output.warnings =
      (scan options.keys tree {}).reported.map fun identifier => ⟨identifier.loc, options.filename,
        message ((identifier.string? "name").getD "")⟩ := by
  obtain ⟨⟨m, e, verdict⟩, hwalk, hfinished⟩ := Option.map_eq_some_iff.1 h
  cases verdict with
  | error err => cases hfinished
  | ok u =>
    cases hfinished
    have hfresh : Records options.filename (Engine.fresh memory) {} := ⟨trivial, rfl, rfl⟩
    exact (walk_leaves fuel tree none (.fresh memory) {} hfresh m e hwalk).2.warnings

def shadowed : Node :=
  let x := (Node.new "Identifier").withValue "name" (.string "x")
  (Node.new "Program").withChildren "body" [(Node.new "VariableDeclarator").withChild "id" x,
    (Node.new "ArrowFunctionExpression").withChildren "params" [x]]

theorem warnings_of_shadowed :
    ∃ output memory', (pass .sourceless).run 3 shadowed () = some ⟨.ok output, memory'⟩ ∧
      output.warnings = [⟨none, "", message "x"⟩] ∧
      output.warnings = (scan Options.sourceless.keys shadowed {}).reported.map fun identifier =>
        ⟨identifier.loc, "", message ((identifier.string? "name").getD "")⟩ := by
  have hrun : ((pass .sourceless).run 3 shadowed ()).map
      (fun finished => finished.result.toOption.map Pass.Output.warnings) =
        some (some [⟨none, "", message "x"⟩]) := by
    decide +kernel
  obtain ⟨⟨result, memory'⟩, hfinished, hresult⟩ := Option.map_eq_some_iff.1 hrun
  cases result with
  | error err => cases hresult
  | ok output =>
    have hwarnings : output.warnings = [⟨none, "", message "x"⟩] := Option.some.inj hresult
    exact ⟨output, memory', hfinished, hwarnings, warnings_eq_scan hfinished⟩

end SyntaxWalk.Lint.Shadowing
