import SyntaxWalk.Proofs.DescentByHand
import SyntaxWalk.Proofs.InStep

/-!
# The chronicle of a run

What a run does that can be seen from outside, in order: each handler call from its start to its
answer, the calls of the scope hooks, the warnings given and the nodes whose children are walked. It
is kept beside the engine by a visitor that does what the pass does. What every handler call is
shown to keep true of the chronicle then holds when the run is over (`Pass.Narrates.run`).
-/

namespace SyntaxWalk

inductive Deed (υ : Type) where
  | began (call : Call υ)
  | ended (call : Call υ) (answer : Except PassError (Option Node))
  | hooked (key : DispatchKey)
  | warned (loc : Option Loc) (description : String)
  | descended (n : Node)

structure Chronicled (υ : Type) where
  engine : Engine υ
  deeds : List (Deed υ)

variable {υ α β : Type}

namespace Chronicled

def act (c : Chronicled υ) (e : Engine υ) (told : List (Deed υ)) : Chronicled υ :=
  ⟨e, c.deeds ++ told⟩

def nested (walk : Chronicled υ → Option (Outcome Node (Chronicled υ) SyntaxError Unit))
    (c : Chronicled υ) : Option (Outcome Node (Chronicled υ) SyntaxError Unit) := do
  let o ← walk (c.act { c.engine with skip := false } [])
  match o.verdict with
  | .ok () =>
    let e := { o.state.engine with skip := c.engine.skip, current := c.engine.current }
    some { o with state := o.state.act e [] }
  | .error _ => some o

end Chronicled

def hookDeeds (hook : Option (ScopeHook υ)) (key : DispatchKey) : List (Deed υ) :=
  if hook.isSome then [.hooked key] else []

def Script.chronicle (p : Pass υ) (walk : Descent (Chronicled υ) SyntaxError) :
    Script υ α → Chronicled υ → Option (α × Chronicled υ)
  | .done a, c => some (a, c)
  | .observe next, c => (next p.options c.engine).chronicle p walk c
  | .setSkip skip next, c => next.chronicle p walk (c.act { c.engine with skip } [])
  | .warn loc description next, c =>
    next.chronicle p walk (c.act (c.engine.warn ⟨loc, p.options.filename, description⟩)
      [.warned loc description])
  | .pushScope node next, c =>
    next.chronicle p walk (c.act (c.engine.pushScope p.handlers.scopeEnter node)
      (hookDeeds p.handlers.scopeEnter .scopeEnter))
  | .popScope next, c =>
    let closed := c.engine.popScope p.handlers.scopeExit
    (next closed.1).chronicle p walk (c.act closed.2
      (if closed.1.isSome then hookDeeds p.handlers.scopeExit .scopeExit else []))
  | .editContext edit next, c =>
    next.chronicle p walk (c.act { c.engine with scopes := c.engine.scopes.mapContext edit } [])
  | .remember memory next, c => next.chronicle p walk (c.act { c.engine with memory } [])
  | .traverse n parent next, c => do
    let o ← c.nested (walk n parent)
    (next o.subject o.verdict).chronicle p walk o.state
  | .traverseChildren n next, c => do
    let o ← c.nested fun c =>
      walkChildren p.options.keys walk n (c.act c.engine [.descended n])
    (next o.subject o.verdict).chronicle p walk o.state

abbrev ChronicledVisit (υ : Type) := Outcome Node (Chronicled υ) SyntaxError Unit

namespace Pass

def chronicleDispatch (p : Pass υ) (walk : Descent (Chronicled υ) SyntaxError) (key : DispatchKey)
    (n : Node) (parent : Option Parent) (c : Chronicled υ) : Option (ChronicledVisit υ) :=
  match p.handlers.lookup key with
  | none => some ⟨n, c, .ok ()⟩
  | some handler =>
    let call : Call υ := ⟨key, n, parent, c.engine⟩
    ((handler n parent).chronicle p walk (c.act c.engine [.began call])).map fun (h, c) =>
      let o := settle h c.engine
      ⟨o.subject, c.act o.state [.ended call h.verdict], o.verdict⟩

def chronicleSide (p : Pass υ) (walk : Descent (Chronicled υ) SyntaxError) (before : Hook)
    (phase : Phase) (after : Hook) (n : Node) (parent : Option Parent) (c : Chronicled υ) :
    Option (ChronicledVisit υ) := do
  let o ← p.chronicleDispatch walk (.around before) n parent c
  let o ← o.andThen fun n c _ => p.chronicleDispatch walk (.node n.kind phase) n parent c
  o.andThen fun n c _ => p.chronicleDispatch walk (.around after) n parent c

def chronicler (p : Pass υ) : Visitor (Chronicled υ) SyntaxError where
  enter walk n parent c := do
    let o ← p.chronicleSide walk .beforeEnter .enter .afterEnter n parent
      (c.act (arrive n c.engine) [])
    o.andThen fun n c _ =>
      let taken := takeSkip n c.engine
      some ⟨n, c.act taken.state (if c.engine.skip then [] else [.descended n]), taken.verdict⟩
  leave walk n parent c := do
    let o ← p.chronicleSide walk .beforeExit .exit .afterExit n parent
      (c.act { c.engine with current := some n.info } [])
    o.andThen fun n c _ => some ⟨n, c.act (depart n c.engine).state [], .ok ()⟩

def chronicle (p : Pass υ) (fuel : Nat) (tree : Node) (memory : υ) : Option (ChronicledVisit υ) :=
  walkNode p.chronicler p.options.keys fuel tree none ⟨.fresh memory, []⟩

def deeds (p : Pass υ) (fuel : Nat) (tree : Node) (memory : υ) : List (Deed υ) :=
  (p.chronicle fuel tree memory).elim [] fun o => o.state.deeds

end Pass

/-- The chronicled script ends as the script does, with what is to be shown of the answer and the
chronicle. -/
inductive Accords (J : α → Chronicled υ → Prop) :
    Option (α × Chronicled υ) → Option (α × Engine υ) → Prop
  | exhausted : Accords J none none
  | done {a : α} {c : Chronicled υ} {e : Engine υ} (he : c.engine = e) (h : J a c) :
      Accords J (some (a, c)) (some (a, e))

/-- The chronicle is of this engine, and `P` holds of the deeds and of the warnings so far. -/
def Tells (P : List (Deed υ) → List Warning → Prop) (c : Chronicled υ) (e : Engine υ) : Prop :=
  c.engine = e ∧ P c.deeds e.warnings

def TellsError (Q : PassError → List (Deed υ) → List Warning → Prop) (c : Chronicled υ)
    (e : Engine υ) (err : PassError) : Prop :=
  c.engine = e ∧ Q err c.deeds e.warnings

section InStep

variable {P : List (Deed υ) → List Warning → Prop}
  {Q : PassError → List (Deed υ) → List Warning → Prop}
  {walk : Descent (Chronicled υ) SyntaxError} {walk' : Descent (Engine υ) SyntaxError}

abbrev WalksTell (P : List (Deed υ) → List Warning → Prop)
    (Q : PassError → List (Deed υ) → List Warning → Prop)
    (walk : Descent (Chronicled υ) SyntaxError) (walk' : Descent (Engine υ) SyntaxError) : Prop :=
  WalksInStep (Tells P) (TellsError Q) False walk walk'

abbrev VisitsTell (P : List (Deed υ) → List Warning → Prop)
    (Q : PassError → List (Deed υ) → List Warning → Prop) :
    Option (ChronicledVisit υ) → Option (Pass.Visited υ Unit) → Prop :=
  Outcome.InStep (Tells P) (TellsError Q) False

theorem Tells.act {c : Chronicled υ} {e : Engine υ} (h : Tells P c e) (e' : Engine υ)
    (hwarnings : e'.warnings = e.warnings) : Tells P (c.act e' []) e' := by
  refine ⟨rfl, ?_⟩
  rw [hwarnings]
  simpa [Chronicled.act] using h.2

theorem nested_accords {J : α → Chronicled υ → Prop} {c : Chronicled υ} {e : Engine υ}
    {first : Chronicled υ → Option (ChronicledVisit υ)}
    {first' : Engine υ → Option (Pass.Visited υ Unit)}
    {next : ChronicledVisit υ → Option (α × Chronicled υ)}
    {next' : Pass.Visited υ Unit → Option (α × Engine υ)} (hc : Tells P c e)
    (hfirst : ∀ c e, Tells P c e → VisitsTell P Q (first c) (first' e))
    (hok : ∀ n c, Tells P c c.engine →
      Accords J (next ⟨n, c, .ok ()⟩) (next' ⟨n, c.engine, .ok ()⟩))
    (herror : ∀ n c err, TellsError Q c c.engine err →
      Accords J (next ⟨n, c, .error err⟩) (next' ⟨n, c.engine, .error err⟩)) :
    Accords J ((c.nested first).bind next) ((e.nested first').bind next') := by
  obtain rfl : c.engine = e := hc.1
  have hbegin := hfirst _ _ (hc.act { c.engine with skip := false } rfl)
  simp only [Chronicled.nested, Engine.nested]
  generalize first (c.act { c.engine with skip := false } []) = o at hbegin ⊢
  generalize first' { c.engine with skip := false } = o' at hbegin ⊢
  cases hbegin with
  | exhausted => exact .exhausted
  | @ok n c' e' _ h =>
    obtain rfl : c'.engine = e' := h.1
    exact hok n _ (h.act _ rfl)
  | @failed n c' e' err h =>
    obtain rfl : c'.engine = e' := h.1
    exact herror n c' err h
  | ahead h => exact h.elim

/-- What is to be shown outlasts the descent into a node, and the failure at one whose children are
not known. -/
structure Descends (keys : VisitorKeys) (P : List (Deed υ) → List Warning → Prop)
    (Q : PassError → List (Deed υ) → List Warning → Prop) : Prop where
  known : ∀ {deeds warnings} (n : Node), P deeds warnings → P (deeds ++ [.descended n]) warnings
  unknown : ∀ {deeds warnings} {n : Node}, keys.childKeys? n = none → P deeds warnings →
    Q (.unknownKind n.info) (deeds ++ [.descended n]) warnings

theorem children_tell {keys : VisitorKeys} (hdescends : Descends keys P Q)
    (hwalk : WalksTell P Q walk walk') (n : Node) {c : Chronicled υ} {e : Engine υ}
    (h : Tells P c e) (e' : Engine υ) (hwarnings : e'.warnings = e.warnings) :
    VisitsTell P Q (walkChildren keys walk n (c.act e' [.descended n]))
      (walkChildren keys walk' n e') := by
  have hP : P c.deeds e'.warnings := by
    rw [hwarnings]
    exact h.2
  cases hkeys : keys.childKeys? n with
  | none =>
    rw [walkChildren_unknown hkeys, walkChildren_unknown hkeys]
    exact .failed ⟨rfl, hdescends.unknown hkeys hP⟩
  | some names =>
    simp only [walkChildren, hkeys]
    exact walkFields_inStep hwalk names n ⟨rfl, hdescends.known n hP⟩

theorem descent_tells {keys : VisitorKeys} (hdescends : Descends keys P Q)
    (hwalk : WalksTell P Q walk walk') (n : Node) (c : Chronicled υ) (e : Engine υ)
    (h : Tells P c e) :
    VisitsTell P Q (walkChildren keys walk n (c.act c.engine [.descended n]))
      (walkChildren keys walk' n e) := by
  obtain rfl : c.engine = e := h.1
  exact children_tell hdescends hwalk n h c.engine rfl

variable {p : Pass υ}

def DispatchTells (p : Pass υ) (P : List (Deed υ) → List Warning → Prop)
    (Q : PassError → List (Deed υ) → List Warning → Prop)
    (walk : Descent (Chronicled υ) SyntaxError) (walk' : Descent (Engine υ) SyntaxError) : Prop :=
  ∀ key n parent c e, Tells P c e → VisitsTell P Q (p.chronicleDispatch walk key n parent c)
    (p.dispatch walk' (p.handlers.lookup key) n parent e)

theorem side_tells (hdispatch : DispatchTells p P Q walk walk') (before : Hook) (phase : Phase)
    (after : Hook) (n : Node) (parent : Option Parent) {c : Chronicled υ} {e : Engine υ}
    (h : Tells P c e) :
    VisitsTell P Q (p.chronicleSide walk before phase after n parent c)
      (p.dispatchSide walk' before phase after n parent e) := by
  simp only [Pass.chronicleSide, Pass.dispatchSide, Option.bind_eq_bind, ← Option.bind_assoc]
  refine ((hdispatch (.around before) n parent c e h).andThen fun n c e _ h => ?_).andThen
    fun n c e _ h => hdispatch (.around after) n parent c e h
  exact hdispatch (.node n.kind phase) n parent c e h

theorem visit_tells (hdescends : Descends p.options.keys P Q) (hwalk : WalksTell P Q walk walk')
    (hdispatch : DispatchTells p P Q walk walk') :
    WalksTell P Q (visit p.chronicler p.options.keys walk)
      (visit p.visitor p.options.keys walk') := by
  intro n parent c e h
  obtain rfl : c.engine = e := h.1
  simp only [visit, Pass.chronicler, Pass.visitor, Option.bind_eq_bind, ← Option.bind_assoc,
    Outcome.bind_andThen_assoc]
  have harrive := h.act (Pass.arrive n c.engine) rfl
  refine (side_tells hdispatch .beforeEnter .enter .afterEnter n parent harrive).andThen
    fun n c e _ h => ?_
  obtain rfl : c.engine = e := h.1
  have hleave : ∀ n c e, Tells P c e → VisitsTell P Q
      ((p.chronicleSide walk .beforeExit .exit .afterExit n parent
        (c.act { c.engine with current := some n.info } [])).bind fun o => o.andThen fun n c _ =>
          some ⟨n, c.act (Pass.depart n c.engine).state [], .ok ()⟩)
      ((p.dispatchSide walk' .beforeExit .exit .afterExit n parent
        { e with current := some n.info }).bind fun o => o.andThen fun n e _ =>
          some (Pass.depart n e)) := by
    intro n c e h
    obtain rfl : c.engine = e := h.1
    have hturn := h.act { c.engine with current := some n.info } rfl
    refine (side_tells hdispatch .beforeExit .exit .afterExit n parent hturn).andThen
      fun n c e _ h => ?_
    obtain rfl : c.engine = e := h.1
    exact .ok (h.act _ rfl)
  cases hskip : c.engine.skip with
  | true =>
    simp only [Pass.takeSkip, hskip, Option.bind_some, Outcome.andThen_ok, if_true]
    exact hleave n _ _ (h.act { c.engine with skip := false } rfl)
  | false =>
    simp only [Pass.takeSkip, hskip, Option.bind_some, Outcome.andThen_ok, Bool.false_eq_true,
      if_false]
    have hchildren := children_tell hdescends hwalk n h { c.engine with skip := false } rfl
    exact hchildren.andThen fun n c e _ h => hleave n c e h

end InStep

section Run

variable {ι : Type} {P : ι → List (Deed υ) → List Warning → Prop}
  {Q : ι → PassError → List (Deed υ) → List Warning → Prop} {p : Pass υ}

structure Closes (P : List (Deed υ) → List Warning → Prop)
    (Q : PassError → List (Deed υ) → List Warning → Prop) (call : Call υ) (h : Handled)
    (c : Chronicled υ) : Prop where
  ok : ∀ answer, h.verdict = .ok answer →
    P (c.deeds ++ [.ended call (.ok answer)]) c.engine.warnings
  error : ∀ err, h.verdict = .error err →
    Q err (c.deeds ++ [.ended call (.error err)]) c.engine.warnings

/-- What is to be shown where the calls around are known by `i` is shown of every handler call, if
it is of the walks that the handler starts. -/
structure Pass.Narrates (p : Pass υ) (P : ι → List (Deed υ) → List Warning → Prop)
    (Q : ι → PassError → List (Deed υ) → List Warning → Prop) : Prop where
  descends : ∀ i, Descends p.options.keys (P i) (Q i)
  calls : ∀ {walk walk'}, (∀ i, WalksTell (P i) (Q i) walk walk') → ∀ i key handler,
    p.handlers.lookup key = some handler → ∀ n parent c e, Tells (P i) c e →
      Accords (Closes (P i) (Q i) ⟨key, n, parent, e⟩)
        ((handler n parent).chronicle p walk (c.act e [.began ⟨key, n, parent, e⟩]))
        ((handler n parent).run (p.surroundings walk') e)

namespace Pass.Narrates

theorem dispatch (h : p.Narrates P Q) {walk : Descent (Chronicled υ) SyntaxError}
    {walk' : Descent (Engine υ) SyntaxError} (hwalk : ∀ i, WalksTell (P i) (Q i) walk walk')
    (i : ι) : DispatchTells p (P i) (Q i) walk walk' := by
  intro key n parent c e hc
  obtain rfl : c.engine = e := hc.1
  unfold chronicleDispatch Pass.dispatch
  cases hlookup : p.handlers.lookup key with
  | none => exact .ok hc
  | some handler =>
    have hcalled := h.calls hwalk i key handler hlookup n parent c c.engine hc
    dsimp only
    generalize (handler n parent).chronicle p walk _ = told at hcalled ⊢
    generalize (handler n parent).run _ _ = plain at hcalled ⊢
    cases hcalled with
    | exhausted => exact .exhausted
    | @done handled c' e' he hcloses =>
      obtain rfl : c'.engine = e' := he
      obtain ⟨m, verdict⟩ := handled
      rcases verdict with err | answer
      · exact .failed ⟨rfl, hcloses.error err rfl⟩
      · cases answer with
        | none => exact .ok ⟨rfl, hcloses.ok none rfl⟩
        | some new => exact .ok ⟨rfl, hcloses.ok (some new) rfl⟩

theorem walk (h : p.Narrates P Q) (fuel : Nat) (i : ι) :
    WalksTell (P i) (Q i) (walkNode p.chronicler p.options.keys fuel) (p.walk fuel) := by
  induction fuel generalizing i with
  | zero => exact fun _ _ _ _ _ => .exhausted
  | succ fuel ih => exact visit_tells (h.descends i) (ih i) (h.dispatch ih i)

theorem run (h : p.Narrates P Q) {i : ι} (hstart : P i [] []) {fuel : Nat} {tree : Node}
    {memory : υ} {finished : Finished υ} (hrun : p.run fuel tree memory = some finished) :
    (∀ output, finished.result = .ok output →
        P i (p.deeds fuel tree memory) output.warnings) ∧
      ∀ err, finished.result = .error err →
        ∃ warnings, Q i err (p.deeds fuel tree memory) warnings := by
  have hwalk := h.walk fuel i tree none ⟨.fresh memory, []⟩ (.fresh memory) ⟨rfl, hstart⟩
  rw [Pass.run] at hrun
  unfold deeds chronicle
  generalize walkNode p.chronicler p.options.keys fuel tree none ⟨.fresh memory, []⟩ = told
    at hwalk ⊢
  generalize p.walk fuel tree none (.fresh memory) = plain at hwalk hrun
  cases hwalk with
  | exhausted => cases hrun
  | ok hP =>
    cases hrun
    refine ⟨fun output hok => ?_, fun err herr => (by cases herr)⟩
    cases hok
    exact hP.2
  | failed hQ =>
    cases hrun
    refine ⟨fun output hok => (by cases hok), fun err herr => ?_⟩
    cases herr
    exact ⟨_, hQ.2⟩
  | ahead h => exact h.elim

end Pass.Narrates

end Run

end SyntaxWalk
