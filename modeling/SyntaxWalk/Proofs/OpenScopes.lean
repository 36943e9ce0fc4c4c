import SyntaxWalk.Proofs.Conduct
import SyntaxWalk.Proofs.OnBaseline

/-!
# Open visits and open scopes

Under the baseline a visit opens a scope when its entry handler is looked up for one of two kinds.
`Mirrors` says that the frames are those of the open visits: each lies on exactly the stack that its
visit found on entry, and only the context of the innermost one may have changed since.
-/

namespace SyntaxWalk

variable {υ : Type}

def scopeNode (n : Node) : Node := if n.kind = programKind then n else functionScope n

def Entry.scope? (entry : Entry υ) : Option Scope.Info :=
  if OpensScope entry.node.kind then
    some ⟨(scopeNode entry.node).kind, (scopeNode entry.node).loc, entry.engine.depth⟩
  else none

theorem Entry.scope?_of_opens {entry : Entry υ} (h : OpensScope entry.node.kind) :
    entry.scope? =
      some ⟨(scopeNode entry.node).kind, (scopeNode entry.node).loc, entry.engine.depth⟩ := if_pos h

theorem Entry.scope?_of_not {entry : Entry υ} (h : ¬ OpensScope entry.node.kind) :
    entry.scope? = none := if_neg h

def openScopes (path : Path υ) : List Scope.Info :=
  path.filterMap fun visit => visit.bind Entry.scope?

theorem openScopes_none (path : Path υ) : openScopes (none :: path) = openScopes path := rfl

theorem openScopes_of_none {path : Path υ} {entry : Entry υ} (h : entry.scope? = none) :
    openScopes (some entry :: path) = openScopes path := by
  simp [openScopes, h]

theorem openScopes_of_some {path : Path υ} {entry : Entry υ} {scope : Scope.Info}
    (h : entry.scope? = some scope) :
    openScopes (some entry :: path) = scope :: openScopes path := by
  simp [openScopes, h]

theorem openScopes_append (above path : Path υ) :
    openScopes (above ++ path) = openScopes above ++ openScopes path := List.filterMap_append

def Mirrors : Path υ → List Scope.Frame → Prop
  | [], frames => frames = []
  | none :: path, frames => Mirrors path frames
  | some entry :: path, frames =>
    match entry.scope? with
    | none => Mirrors path frames
    | some scope => Mirrors path entry.engine.scopes.frames ∧
        ∃ context, frames = ⟨scope, context⟩ :: entry.engine.scopes.frames

theorem length_openScopes_le (visit : Option (Entry υ)) (path : Path υ) :
    (openScopes path).length ≤ (openScopes (visit :: path)).length := by
  cases hscope : visit.bind Entry.scope? with
  | none => simp [openScopes, hscope]
  | some scope => simp [openScopes, hscope]

namespace Mirrors

variable {path : Path υ} {frames : List Scope.Frame} {entry : Entry υ}

theorem some_iff_of_scope {scope : Scope.Info} (h : entry.scope? = some scope) :
    Mirrors (some entry :: path) frames ↔ Mirrors path entry.engine.scopes.frames ∧
      ∃ context, frames = ⟨scope, context⟩ :: entry.engine.scopes.frames := by
  simp only [Mirrors, h]

theorem some_iff_of_none (h : entry.scope? = none) :
    Mirrors (some entry :: path) frames ↔ Mirrors path frames := by
  simp only [Mirrors, h]

theorem scopes (h : Mirrors path frames) : frames.map Scope.Frame.scope = openScopes path := by
  induction path generalizing frames with
  | nil =>
    rw [show frames = [] from h]
    rfl
  | cons visit path ih =>
    cases visit with
    | none => exact ih h
    | some entry =>
      cases hscope : entry.scope? with
      | none =>
        rw [openScopes_of_none hscope]
        exact ih ((some_iff_of_none hscope).1 h)
      | some scope =>
        obtain ⟨hbelow, context, rfl⟩ := (some_iff_of_scope hscope).1 h
        rw [openScopes_of_some hscope, List.map_cons, ih hbelow]

theorem length_eq (h : Mirrors path frames) : frames.length = (openScopes path).length := by
  rw [← h.scopes, List.length_map]

theorem mapContext {s : Scope.Stack} (h : Mirrors path s.frames) (edit : Context → Context) :
    Mirrors path (s.mapContext edit).frames := by
  obtain ⟨frames⟩ := s
  induction path with
  | nil =>
    rw [show frames = [] from h]
    rfl
  | cons visit path ih =>
    cases visit with
    | none => exact ih h
    | some entry =>
      cases hscope : entry.scope? with
      | none => exact (some_iff_of_none hscope).2 (ih ((some_iff_of_none hscope).1 h))
      | some scope =>
        obtain ⟨hbelow, context, rfl⟩ := (some_iff_of_scope hscope).1 h
        exact (some_iff_of_scope hscope).2 ⟨hbelow, edit context, rfl⟩

theorem touches {e e' : Engine υ} (h : Mirrors path e.scopes.frames) (ht : e.Touches e') :
    Mirrors path e'.scopes.frames := by
  obtain ⟨-, edit, hscopes⟩ := ht
  rw [hscopes]
  exact h.mapContext edit

theorem of_length_le {extra : Path υ} (h : Mirrors (extra ++ path) frames)
    (hlength : frames.length ≤ (openScopes path).length) : Mirrors path frames := by
  induction extra generalizing frames with
  | nil => exact h
  | cons visit extra ih =>
    cases visit with
    | none => exact ih h hlength
    | some entry =>
      cases hscope : entry.scope? with
      | none => exact ih ((some_iff_of_none hscope).1 h) hlength
      | some scope =>
        -- This visit has a frame on top of all those of `path`, which are too many already.
        have hall := h.length_eq
        rw [List.cons_append, openScopes_of_some hscope, openScopes_append, List.length_cons,
          List.length_append] at hall
        omega

end Mirrors

namespace Engine

theorem pushScope_frames (hook : Option (ScopeHook υ)) (node : NodeInfo) (e : Engine υ) :
    ∃ context, (e.pushScope hook node).scopes.frames =
      ⟨⟨node.kind, node.loc, e.depth⟩, context⟩ :: e.scopes.frames := by
  obtain ⟨-, edit, hscopes⟩ := callHook_touches hook
    ((e.scopes.push node e.depth).transition e.scopes)
    { e with scopes := e.scopes.push node e.depth }
  simp only [pushScope, hscopes]
  exact ⟨_, rfl⟩

theorem popScope_scopes (hook : Option (ScopeHook υ)) (e : Engine υ) :
    ∃ edit, (e.popScope hook).2.scopes =
      (⟨e.scopes.frames.tail⟩ : Scope.Stack).mapContext edit := by
  obtain ⟨depth, current, skip, ⟨frames⟩, warnings, memory⟩ := e
  cases frames with
  | nil => exact ⟨id, rfl⟩
  | cons frame rest =>
    obtain ⟨-, edit, hscopes⟩ := callHook_touches hook
      ((⟨rest⟩ : Scope.Stack).transition ⟨frame :: rest⟩)
      (⟨depth, current, skip, ⟨rest⟩, warnings, memory⟩ : Engine υ)
    exact ⟨edit, hscopes⟩

end Engine

namespace Pass

variable {p : Pass υ} {good : Handler υ → Prop} (hbase : p.handlers.OnBaseline good)
  (walk : RecordedVisit υ) (path : Path υ) (n : Node) (parent : Option Parent) (e : Engine υ)

include hbase

theorem recordDispatch_opens (hkind : OpensScope n.kind) :
    p.recordDispatch walk path (.node n.kind .enter) n parent e =
      ⟨[.reached ⟨.node n.kind .enter, n, parent, e, path⟩],
        some ⟨n, e.pushScope p.handlers.scopeEnter (scopeNode n).info, .ok ()⟩⟩ := by
  have hlookup := hbase.baseline n.kind .enter hkind
  rw [HandlerSet.baseline_enter] at hlookup
  by_cases hf : n.kind = functionExpressionKind
  · have hp : n.kind ≠ programKind := by
      rw [hf]
      decide
    rw [if_pos hf] at hlookup
    rw [p.recordDispatch_of_some hlookup, scopeNode, if_neg hp]
    rfl
  · have hp : n.kind = programKind := hkind.resolve_right hf
    rw [if_neg hf, if_pos hp] at hlookup
    rw [p.recordDispatch_of_some hlookup, scopeNode, if_pos hp]
    rfl

theorem recordDispatch_closes (hkind : OpensScope n.kind) :
    p.recordDispatch walk path (.node n.kind .exit) n parent e =
      ⟨[.reached ⟨.node n.kind .exit, n, parent, e, path⟩],
        some ⟨n, (e.popScope p.handlers.scopeExit).2, .ok ()⟩⟩ := by
  have hlookup := hbase.baseline n.kind .exit hkind
  rw [HandlerSet.baseline_exit, if_pos hkind] at hlookup
  rw [p.recordDispatch_of_some hlookup]
  rfl

end Pass

end SyntaxWalk
