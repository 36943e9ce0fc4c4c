import SyntaxWalk.VisitorKeys

/-!
# The walk

A depth-first walk that enters and leaves every node it reaches. The visitor may change the node it
is given, on the way in and on the way out; the children walked are those of the node as `enter`
left it. A field is out of its parent while it is walked and is put back in its place, also when the
walk fails. `walkNode` recurses on fuel, which bounds how deep visits nest, so `none` is a walk that
went deeper.
-/

namespace SyntaxWalk

inductive Control where
  | descend
  | skip
  deriving DecidableEq, Inhabited

inductive WalkError (ε : Type) where
  | unknownKind (node : NodeInfo)
  | failed (e : ε)
  deriving DecidableEq

/-- What a visit leaves behind: the subject and the state as they then are, and how it ended. -/
structure Outcome (τ σ ε α : Type) where
  subject : τ
  state : σ
  verdict : Except (WalkError ε) α

namespace Outcome

variable {τ τ' σ ε α β : Type}

def mapSubject (f : τ → τ') (o : Outcome τ σ ε α) : Outcome τ' σ ε α :=
  ⟨f o.subject, o.state, o.verdict⟩

def andThen (o : Outcome τ σ ε α) (next : τ → σ → α → Option (Outcome τ σ ε β)) :
    Option (Outcome τ σ ε β) :=
  match o.verdict with
  | .ok a => next o.subject o.state a
  | .error e => some ⟨o.subject, o.state, .error e⟩

theorem andThen_ok (n : τ) (s : σ) (a : α) (next : τ → σ → α → Option (Outcome τ σ ε β)) :
    andThen ⟨n, s, .ok a⟩ next = next n s a := rfl

theorem andThen_error (n : τ) (s : σ) (e : WalkError ε)
    (next : τ → σ → α → Option (Outcome τ σ ε β)) :
    andThen ⟨n, s, .error e⟩ next = some ⟨n, s, .error e⟩ := rfl

end Outcome

abbrev Descent (σ ε : Type) :=
  Node → Option Parent → σ → Option (Outcome Node σ ε Unit)

/-- Called on both ends of every visit. A visitor is given the walk so that it can walk nodes of its
own accord. -/
structure Visitor (σ ε : Type) where
  enter : Descent σ ε → Node → Option Parent → σ → Option (Outcome Node σ ε Control)
  leave : Descent σ ε → Node → Option Parent → σ → Option (Outcome Node σ ε Unit)

def Visitor.plain {σ ε : Type} (enter : Node → Option Parent → σ → Outcome Node σ ε Control)
    (leave : Node → Option Parent → σ → Outcome Node σ ε Unit) : Visitor σ ε where
  enter _ n parent s := some (enter n parent s)
  leave _ n parent s := some (leave n parent s)

def Visitor.idle {σ ε : Type} : Visitor σ ε :=
  .plain (fun n _ s => ⟨n, s, .ok .descend⟩) (fun n _ s => ⟨n, s, .ok ()⟩)

variable {σ ε : Type}

/-- The nodes of a list in order; `view` is the parent without the list. -/
def walkItems (walk : Descent σ ε) (view : Node) (key : String) :
    Nat → List (Option Node) → σ → Option (Outcome (List (Option Node)) σ ε Unit)
  | _, [], s => some ⟨[], s, .ok ()⟩
  | index, none :: rest, s =>
    (walkItems walk view key (index + 1) rest s).map (Outcome.mapSubject (none :: ·))
  | index, some n :: rest, s => do
    let o ← walk n (some ⟨view, key, some index⟩) s
    match o.verdict with
    | .ok () =>
      (walkItems walk view key (index + 1) rest o.state).map
        (Outcome.mapSubject (some o.subject :: ·))
    | .error e => some ⟨some o.subject :: rest, o.state, .error e⟩

def walkField (walk : Descent σ ε) (view : Node) (key : String) :
    Field Node → σ → Option (Outcome (Field Node) σ ε Unit)
  | .node n, s => (walk n (some ⟨view, key, none⟩) s).map (Outcome.mapSubject Field.node)
  | .list items, s => (walkItems walk view key 0 items s).map (Outcome.mapSubject Field.list)
  | .value v, s => some ⟨.value v, s, .ok ()⟩

def walkFields (walk : Descent σ ε) : List String → Node → σ → Option (Outcome Node σ ε Unit)
  | [], n, s => some ⟨n, s, .ok ()⟩
  | key :: keys, n, s =>
    match n.field? key with
    | none => walkFields walk keys n s
    | some field => do
      let o ← walkField walk (n.eraseField key) key field s
      (o.mapSubject (n.replaceField key)).andThen fun n s _ => walkFields walk keys n s

def walkChildren (keys : VisitorKeys) (walk : Descent σ ε) (n : Node) (s : σ) :
    Option (Outcome Node σ ε Unit) :=
  match keys.childKeys? n with
  | some names => walkFields walk names n s
  | none => some ⟨n, s, .error (.unknownKind n.info)⟩

def visit (v : Visitor σ ε) (keys : VisitorKeys) (walk : Descent σ ε) (n : Node)
    (parent : Option Parent) (s : σ) : Option (Outcome Node σ ε Unit) := do
  let entered ← v.enter walk n parent s
  let walked ← entered.andThen fun n s control =>
    match control with
    | .descend => walkChildren keys walk n s
    | .skip => some ⟨n, s, .ok ()⟩
  walked.andThen fun n s _ => v.leave walk n parent s

def walkNode (v : Visitor σ ε) (keys : VisitorKeys) : Nat → Descent σ ε
  | 0, _, _, _ => none
  | fuel + 1, n, parent, s => visit v keys (walkNode v keys fuel) n parent s

/-- Fuel that no tree in memory exhausts by its depth alone. -/
def ampleFuel : Nat := 0x4000000000000000

theorem walkFields_nil (walk : Descent σ ε) (n : Node) (s : σ) :
    walkFields walk [] n s = some ⟨n, s, .ok ()⟩ := rfl

theorem walkChildren_unknown {keys : VisitorKeys} {n : Node} (h : keys.childKeys? n = none)
    (walk : Descent σ ε) (s : σ) :
    walkChildren keys walk n s = some ⟨n, s, .error (.unknownKind n.info)⟩ := by
  simp [walkChildren, h]

end SyntaxWalk
