import SyntaxWalk.Proofs.Chronicle

/-!
# Warnings of several runs

The engine holds one warning for each time a handler gave one, in the order in which that was done,
whatever the handlers are and at whatever depth. The warnings that several runs share are those from
before and then those of the successful runs, run by run (`runAll_warnings`).
-/

namespace SyntaxWalk

variable {υ α : Type}

def Deed.warning? (filename : String) : Deed υ → Option Warning
  | .warned loc description => some ⟨loc, filename, description⟩
  | _ => none

def given (filename : String) (deeds : List (Deed υ)) : List Warning :=
  deeds.filterMap (Deed.warning? filename)

theorem given_append (filename : String) (deeds told : List (Deed υ)) :
    given filename (deeds ++ told) = given filename deeds ++ given filename told :=
  List.filterMap_append

theorem given_hookDeeds (filename : String) (hook : Option (ScopeHook υ)) (key : DispatchKey) :
    given filename (hookDeeds hook key) = [] := by
  unfold hookDeeds
  split <;> rfl

namespace Engine

theorem callHook_warnings (hook : Option (ScopeHook υ)) (t : Scope.Transition) (e : Engine υ) :
    (callHook hook t e).warnings = e.warnings := by
  cases hook with
  | none => rfl
  | some hook =>
    simp only [callHook]
    split <;> rfl

theorem popScope_warnings (hook : Option (ScopeHook υ)) (e : Engine υ) :
    (e.popScope hook).2.warnings = e.warnings := by
  unfold popScope
  split
  · rfl
  · exact callHook_warnings ..

end Engine

def Warns (filename : String) (deeds : List (Deed υ)) (warnings : List Warning) : Prop :=
  warnings = given filename deeds

section Scripts

variable {p : Pass υ} {walk : Descent (Chronicled υ) SyntaxError}
  {walk' : Descent (Engine υ) SyntaxError} {filename : String} {c : Chronicled υ} {e : Engine υ}

theorem Warns.append {deeds told : List (Deed υ)} {warnings warnings' more : List Warning}
    (h : Warns filename deeds warnings) (htold : given filename told = more)
    (hwarnings : warnings' = warnings ++ more) : Warns filename (deeds ++ told) warnings' := by
  rw [Warns, given_append, htold, hwarnings, h]

theorem descends_warns (keys : VisitorKeys) (filename : String) :
    Descends keys (Warns filename : List (Deed υ) → List Warning → Prop)
      (fun _ => Warns filename) where
  known _ h := h.append rfl (List.append_nil _).symm
  unknown _ h := h.append rfl (List.append_nil _).symm

theorem Script.chronicle_warns {script : Script υ Handled} {call : Call υ}
    (hwalk : WalksTell (Warns p.options.filename) (fun _ => Warns p.options.filename) walk walk')
    (h : Tells (Warns p.options.filename) c e) :
    Accords (Closes (Warns p.options.filename) (fun _ => Warns p.options.filename) call)
      (script.chronicle p walk c) (script.run (p.surroundings walk') e) := by
  obtain rfl : c.engine = e := h.1
  induction script generalizing c with
  | done handled =>
    exact .done rfl ⟨fun _ _ => h.2.append rfl (List.append_nil _).symm,
      fun _ _ => h.2.append rfl (List.append_nil _).symm⟩
  | observe next ih => exact ih _ _ h
  | setSkip skip next ih => exact ih (h.act _ rfl)
  | warn loc description next ih => exact ih ⟨rfl, h.2.append rfl rfl⟩
  | pushScope node next ih =>
    refine ih ⟨rfl, h.2.append (given_hookDeeds _ _ _) ?_⟩
    rw [List.append_nil]
    exact Engine.callHook_warnings ..
  | popScope next ih =>
    have hgiven : given p.options.filename (if
        (c.engine.popScope p.handlers.scopeExit).1.isSome
          then hookDeeds p.handlers.scopeExit .scopeExit else []) = [] := by
      split
      · exact given_hookDeeds ..
      · rfl
    refine ih _ ⟨rfl, h.2.append hgiven ?_⟩
    rw [List.append_nil]
    exact Engine.popScope_warnings ..
  | editContext edit next ih => exact ih (h.act _ rfl)
  | remember memory next ih => exact ih (h.act _ rfl)
  | traverse n parent next ih =>
    exact nested_accords h (fun c e h => hwalk n parent c e h) (fun m c h => ih m _ h)
      fun m c err h => ih m _ h
  | traverseChildren n next ih =>
    have hchildren := descent_tells (descends_warns p.options.keys p.options.filename) hwalk n
    exact nested_accords h hchildren (fun m c h => ih m _ h) fun m c err h => ih m _ h

end Scripts

theorem Pass.narrates_warnings (p : Pass υ) :
    p.Narrates (fun _ : Unit => Warns p.options.filename)
      (fun _ _ => Warns p.options.filename) where
  descends _ := descends_warns p.options.keys p.options.filename
  calls := by
    intro walk walk' hwalk _ key handler _ n parent c e h
    have hbegan : Tells (Warns p.options.filename) (c.act e [.began ⟨key, n, parent, e⟩]) e :=
      ⟨rfl, h.2.append rfl (List.append_nil _).symm⟩
    exact Script.chronicle_warns (hwalk ()) hbegan

theorem Pass.chronicle_walk (p : Pass υ) (fuel : Nat) (tree : Node) (memory : υ) :
    ((p.chronicle fuel tree memory).map fun o =>
      (⟨o.subject, o.state.engine, o.verdict⟩ : Visited υ Unit)) =
      p.walk fuel tree none (.fresh memory) := by
  have hwalk := p.narrates_warnings.walk fuel () tree none ⟨.fresh memory, []⟩ (.fresh memory)
    ⟨rfl, rfl⟩
  unfold chronicle
  generalize walkNode p.chronicler p.options.keys fuel tree none ⟨.fresh memory, []⟩ = told
    at hwalk ⊢
  generalize p.walk fuel tree none (.fresh memory) = plain at hwalk ⊢
  cases hwalk with
  | exhausted => rfl
  | ok h =>
    obtain ⟨rfl, -⟩ := h
    rfl
  | failed h =>
    obtain ⟨rfl, -⟩ := h
    rfl
  | ahead h => exact h.elim

theorem Pass.run_warnings {p : Pass υ} {fuel : Nat} {tree : Node} {memory memory' : υ}
    {output : Output} (hrun : p.run fuel tree memory = some ⟨.ok output, memory'⟩) :
    output.warnings = given p.options.filename (p.deeds fuel tree memory) :=
  (p.narrates_warnings.run (i := ()) rfl hrun).1 output rfl

structure SharedRun (υ : Type) where
  fuel : Nat
  tree : Node
  options : Options
  sets : List (HandlerSet υ)

structure MadeRun (υ : Type) where
  run : SharedRun υ
  memory : υ
  tree : Except PassError Node

def SharedRun.given (r : SharedRun υ) (memory : υ) : List Warning :=
  SyntaxWalk.given r.options.filename
    (Pass.deeds ⟨r.options, .compose r.sets⟩ r.fuel r.tree memory)

def MadeRun.adds (m : MadeRun υ) : List Warning :=
  match m.tree with
  | .error _ => []
  | .ok _ => m.run.given m.memory

/-- Makes runs one after the other, failed ones included, on the same results and memory. -/
def runAll : List (SharedRun υ) → Pass.Results → υ →
    Option (List (MadeRun υ) × Pass.Results × υ)
  | [], results, memory => some ([], results, memory)
  | r :: rest, results, memory => do
    let pooled ← runPasses r.fuel r.tree r.options r.sets results memory
    let (made, results, after) ← runAll rest pooled.results pooled.memory
    return (⟨r, memory, pooled.tree⟩ :: made, results, after)

theorem runPasses_warnings {r : SharedRun υ} {results : Pass.Results} {memory : υ}
    {pooled : Pass.Pooled υ}
    (h : runPasses r.fuel r.tree r.options r.sets results memory = some pooled) :
    pooled.results.warnings = results.warnings ++ (MadeRun.mk r memory pooled.tree).adds := by
  obtain ⟨⟨result, after⟩, hrun, rfl⟩ := Option.map_eq_some_iff.1 h
  cases result with
  | error err => exact (List.append_nil _).symm
  | ok output => exact congrArg (results.warnings ++ ·) (Pass.run_warnings hrun)

theorem runAll_warnings {runs : List (SharedRun υ)} {results results' : Pass.Results}
    {memory memory' : υ} {made : List (MadeRun υ)}
    (h : runAll runs results memory = some (made, results', memory')) :
    made.map MadeRun.run = runs ∧
      results'.warnings = results.warnings ++ made.flatMap MadeRun.adds := by
  induction runs generalizing results memory made with
  | nil =>
    cases h
    exact ⟨rfl, (List.append_nil _).symm⟩
  | cons r rest ih =>
    obtain ⟨pooled, hpooled, hrest⟩ := Option.bind_eq_some_iff.1 h
    obtain ⟨⟨others, results₂, memory₂⟩, hothers, heq⟩ := Option.bind_eq_some_iff.1 hrest
    cases heq
    obtain ⟨hmap, hwarnings⟩ := ih hothers
    refine ⟨congrArg (r :: ·) hmap, ?_⟩
    rw [hwarnings, runPasses_warnings hpooled, List.append_assoc]
    rfl

def reporting : HandlerSet Nat :=
  HandlerSet.empty
    |>.withEnter programKind (fun n _ => .traverseChildren n fun n r =>
      .done ⟨n, r.map fun _ => none⟩)
    |>.withEnter "Identifier" (fun n _ => do
      Script.modifyMemory (· + 1)
      Script.addWarning n "name"
      return .keep n)
    |>.withEnter "WithStatement" fun n _ => .done (.fail n (.failed ⟨none, "no", "", ""⟩))

def reported (filename : String) (children : List Node) : SharedRun Nat :=
  ⟨3, (Node.new "Program").withChildren "body" children,
    { Options.sourceless with filename }, [reporting]⟩

def namedAt (line : UInt64) : Node :=
  (Node.new "Identifier").withLoc ⟨⟨line, 0, none⟩, ⟨line, 1, none⟩⟩

def reportedRuns : List (SharedRun Nat) :=
  [reported "a" [namedAt 1, namedAt 2], reported "b" [namedAt 3, Node.new "WithStatement"],
    reported "c" [namedAt 4]]

def earlierResults : Pass.Results := ⟨[⟨none, "before", "kept"⟩]⟩

theorem runAll_warnings_reported :
    ∃ made results, runAll reportedRuns earlierResults 0 = some (made, results, 7) ∧
      results.warnings = earlierResults.warnings ++ made.flatMap MadeRun.adds ∧
      (made.flatMap MadeRun.adds).map (fun w => (w.filename, w.loc.map (·.start.line))) =
        [("a", some 1), ("a", some 2), ("a", some 1), ("a", some 2), ("c", some 4),
          ("c", some 4)] := by
  obtain ⟨made, results, hmade, hadds⟩ : ∃ made results,
      runAll reportedRuns earlierResults 0 = some (made, results, 7) ∧
      (made.flatMap MadeRun.adds).map (fun w => (w.filename, w.loc.map (·.start.line))) =
        [("a", some 1), ("a", some 2), ("a", some 1), ("a", some 2), ("c", some 4),
          ("c", some 4)] := ⟨_, _, rfl, rfl⟩
  exact ⟨made, results, hmade, (runAll_warnings hmade).2, hadds⟩

end SyntaxWalk
