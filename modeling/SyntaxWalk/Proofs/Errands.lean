import SyntaxWalk.Proofs.OpenVisits

/-!
# Errands

The walks that handlers ask for. One that succeeds gives the handler its current node and its
pending skip request back, and its depth too unless a handler inside went on after a walk of its own
that failed (`ok_restores`). One that fails gives nothing back: the visits that it leaves open stay
counted, and the skip request is lost even where no visit was begun (`error_restores_iff`).
-/

namespace SyntaxWalk

inductive Errand where
  | subtree (n : Node) (parent : Option Parent)
  | children (n : Node)

namespace Errand

variable {υ : Type}

def script : Errand → Script υ (Node × Except PassError Unit)
  | .subtree n parent => .traverse n parent fun n r => .done (n, r)
  | .children n => .traverseChildren n fun n r => .done (n, r)

def record (p : Pass υ) (fuel : Nat) : Errand → Engine υ → RecordedDispatch υ
  | .subtree n parent, e => p.recordWalk fuel [] n parent e
  | .children n, e => recordChildren p.options.keys (p.recordWalk fuel []) n e

def run (p : Pass υ) (fuel : Nat) (errand : Errand) (e : Engine υ) :
    Option ((Node × Except PassError Unit) × Engine υ) :=
  errand.script.run (p.surroundings (p.walk fuel)) e

variable {p : Pass υ} {fuel : Nat} {errand : Errand} {e e' : Engine υ} {n : Node}

theorem run_eq_nested (p : Pass υ) (fuel : Nat) (errand : Errand) (e : Engine υ) :
    errand.run p fuel e = (e.nested fun e => (errand.record p fuel e).outcome).bind fun o =>
      some ((o.subject, o.verdict), o.state) := by
  cases errand with
  | subtree n parent =>
    simp only [record, p.recordWalk_outcome]
    rfl
  | children n =>
    simp only [record, recordChildren_outcome, p.recordWalk_forget]
    rfl

theorem of_run_ok (h : errand.run p fuel e = some ((n, .ok ()), e')) :
    ∃ after, (errand.record p fuel { e with skip := false }).outcome = some ⟨n, after, .ok ()⟩ ∧
      e' = { after with skip := e.skip, current := e.current } := by
  rw [run_eq_nested, Engine.nested] at h
  rcases ho : (errand.record p fuel { e with skip := false }).outcome with _ | ⟨m, after, err | a⟩
  · rw [ho] at h
    cases h
  · rw [ho] at h
    cases h
  · rw [ho] at h
    cases h
    exact ⟨after, rfl, rfl⟩

theorem of_run_error {err : PassError} (h : errand.run p fuel e = some ((n, .error err), e')) :
    (errand.record p fuel { e with skip := false }).outcome = some ⟨n, e', .error err⟩ := by
  rw [run_eq_nested, Engine.nested] at h
  rcases ho : (errand.record p fuel { e with skip := false }).outcome with _ | ⟨m, after, err' | a⟩
  · rw [ho] at h
    cases h
  · rw [ho] at h
    cases h
    rfl
  · rw [ho] at h
    cases h

open OpenVisits

theorem record_counts (p : Pass υ) (fuel : Nat) (errand : Errand) (e : Engine υ) :
    (errand.record p fuel e).Meets (Seen e.depth) (fun l _ e' _ => Counts e.depth l e')
      (fun l e' => Bounds e.depth l e') [] := by
  have hwalk : ∀ past n parent e', Counts e.depth past e' →
      (p.recordWalk fuel [] n parent e').Meets (Seen e.depth)
        (fun l _ e' _ => Counts e.depth l e') (fun l e' => Bounds e.depth l e') past :=
    fun past n parent e' he =>
      (walk_counts p fuel n parent he).imp (fun _ _ _ _ h => h) fun _ _ h => h.outer
  cases errand with
  | subtree n parent => exact hwalk [] n parent e (Counts.start e)
  | children n =>
    exact (recordChildren_meets (fun _ _ h => h.bounds) hwalk p.options.keys n
      (Counts.start e)).imp (fun _ _ _ _ h => h.2) fun _ _ h => h

theorem record_calm (hp : p.handlers.PassesOn) (fuel : Nat) (errand : Errand) (e : Engine υ) :
    (errand.record p fuel e).Meets CalledCalmly (fun l _ _ _ => Unfailed l) (fun _ _ => True)
      [] := by
  cases errand with
  | subtree n parent => exact walk_calm hp fuel n parent e unfailed_nil
  | children n =>
    exact (recordChildren_meets (I := fun l _ => Unfailed l) (fun _ _ _ => trivial)
      (fun _ m parent e => walk_calm hp fuel m parent e) p.options.keys n unfailed_nil).imp
      (fun _ _ _ _ h => h.2) fun _ _ h => h

def Opens (depth : Nat) : Event υ → Prop
  | .reached m =>
    m.key = .around .beforeEnter ∧ m.engine.skip = false ∧ m.engine.depth = depth + 1
  | .failed _ _ => False

theorem recordWalk_begins (p : Pass υ) (fuel : Nat) (path : Path υ) (n : Node)
    (parent : Option Parent) (e : Engine υ) :
    ∃ rest, (p.recordWalk (fuel + 1) path n parent e).events =
      .reached ⟨.around .beforeEnter, n, parent, Pass.arrive n e, none :: path⟩ :: rest := by
  obtain ⟨called, hcalled⟩ := p.recordDispatch_begins (p.recordWalk fuel (none :: path))
    (none :: path) (.around .beforeEnter) n parent (Pass.arrive n e)
  rw [Pass.recordWalk, Pass.recordVisit]
  obtain ⟨rest, hrest⟩ := Recorded.followed_events
  exact ⟨called ++ rest, by rw [hrest, hcalled, List.cons_append]⟩

theorem recordWalk_opens (p : Pass υ) (fuel : Nat) {depth : Nat} {past : List (Event υ)} (n : Node)
    (parent : Option Parent) (he : past = [] → e.skip = false ∧ e.depth = depth) :
    (p.recordWalk fuel [] n parent e).Meets (fun past event => past = [] → Opens depth event)
      (fun l _ e _ => l = [] → e.skip = false ∧ e.depth = depth) (fun _ _ => True) past := by
  cases fuel with
  | zero => exact p.recordWalk_zero_meets [] n parent e
  | succ fuel =>
    obtain ⟨later, hbegins⟩ := recordWalk_begins p fuel [] n parent e
    refine ⟨fun first event rest hsplit hnil => ?_, fun m e' a _ hnil => ?_, fun _ _ _ _ => trivial⟩
    · obtain ⟨hpast, rfl⟩ := List.append_eq_nil_iff.1 hnil
      obtain ⟨rfl, -⟩ := List.cons.inj (hbegins.symm.trans hsplit)
      obtain ⟨hskip, hdepth⟩ := he hpast
      exact ⟨rfl, hskip, congrArg (· + 1) hdepth⟩
    · rw [hbegins] at hnil
      exact absurd (List.append_eq_nil_iff.1 hnil).2 (List.cons_ne_nil _ _)

theorem record_opens (p : Pass υ) (fuel : Nat) (errand : Errand) (he : e.skip = false)
    {event : Event υ} {rest : List (Event υ)}
    (hevents : (errand.record p fuel e).events = event :: rest) : Opens e.depth event := by
  let Unmoved (l : List (Event υ)) (e' : Engine υ) : Prop :=
    l = [] → e'.skip = false ∧ e'.depth = e.depth
  have hstart : Unmoved [] e := fun _ => ⟨he, rfl⟩
  cases errand with
  | subtree n parent =>
    exact (recordWalk_opens p fuel n parent hstart).events [] event rest hevents rfl
  | children n =>
    have hchildren := recordChildren_meets (I := Unmoved) (K := fun _ _ => True)
      (fun _ _ _ => trivial) (fun _ m parent _ he => recordWalk_opens p fuel m parent he)
      p.options.keys n hstart
    exact hchildren.events [] event rest hevents rfl

/-- A walk of unknown children fails at once and leaves all but the skip request as it was; any
other walk that fails leaves a visit open. -/
theorem record_error {err : PassError}
    (h : (errand.record p fuel e).outcome = some ⟨n, e', .error err⟩) :
    (errand = .children n ∧ p.options.keys.childKeys? n = none ∧ err = .unknownKind n.info ∧
      e' = e) ∨ e.depth < e'.depth := by
  have hwalk : ∀ past n parent e', e.depth ≤ e'.depth →
      (p.recordWalk fuel [] n parent e').Meets (fun _ _ => True)
        (fun _ _ e' _ => e.depth ≤ e'.depth) (fun _ e' => e.depth < e'.depth) past := by
    intro past n parent e' he
    have hcounts := walk_counts p fuel n parent (Counts.start e')
    refine ⟨fun _ _ _ _ => trivial, fun m after a ho => ?_, fun m after err ho => ?_⟩
    · exact Nat.le_trans he (hcounts.success m after a ho).le
    · exact Nat.lt_of_le_of_lt he (hcounts.failure m after err ho).le
  cases errand with
  | subtree m parent =>
    exact .inr ((hwalk [] m parent e (Nat.le_refl _)).failure n e' err h)
  | children m =>
    rw [record, recordChildren] at h
    split at h
    · rename_i names _
      have hfields : (recordFields (p.recordWalk fuel []) names m e).Meets (fun _ _ => True)
          (fun _ m' e' _ => m'.kind = m.kind ∧ e.depth ≤ e'.depth) (fun _ e' => e.depth < e'.depth)
          [] := recordFields_meets hwalk names m (Nat.le_refl _)
      exact .inr (hfields.failure n e' err h)
    · rename_i hkeys
      cases h
      exact .inl ⟨rfl, hkeys, rfl, rfl⟩

/-- A walk that a handler asks for starts with no skip request pending. Where it succeeds, the
current node and the pending request are as they were, and so is the depth unless a handler inside
went on after a walk that failed and left another depth; then it is greater. -/
theorem ok_restores (p : Pass υ) (fuel : Nat) (errand : Errand) (e : Engine υ) :
    let inside := (errand.record p fuel { e with skip := false }).events
    (∀ event rest, inside = event :: rest → Opens e.depth event) ∧
    ∀ n e', errand.run p fuel e = some ((n, .ok ()), e') →
      e'.current = e.current ∧ e'.skip = e.skip ∧ e.depth ≤ e'.depth ∧
      (e'.depth = e.depth ↔ AllEven inside) ∧ (p.handlers.PassesOn → e'.depth = e.depth) := by
  refine ⟨fun event rest hevents => ?_, fun n e' hrun => ?_⟩
  · exact record_opens (e := { e with skip := false }) p fuel errand rfl hevents
  · obtain ⟨after, ho, rfl⟩ := of_run_ok hrun
    have hcounts := (record_counts p fuel errand { e with skip := false }).success n after () ho
    refine ⟨rfl, rfl, hcounts.le, hcounts.eq_iff, fun hp => ?_⟩
    have hunfailed := (record_calm hp fuel errand { e with skip := false }).success n after () ho
    exact hcounts.eq_iff.2 hunfailed.allEven

theorem ok_restores_reentrant :
    reentrantPass.handlers.PassesOn ∧
    (∃ n e', (children oneName).run reentrantPass 3
        { Engine.fresh () with depth := 1, skip := true } = some ((n, .ok ()), e') ∧
      e'.current = none ∧ e'.skip = true ∧ e'.depth = 1) ∧
    ∃ m rest, ((children oneName).record reentrantPass 3
        { Engine.fresh () with depth := 1 }).events = .reached m :: rest ∧
      m.node.kind = "Identifier" ∧ m.engine.skip = false ∧ m.engine.depth = 2 := by
  have hpasses : reentrantPass.handlers.PassesOn :=
    HandlerSet.compose_passesOn (by simpa using reentrant_passesOn)
  obtain ⟨hopens, hok⟩ := ok_restores reentrantPass 3 (children oneName)
    { Engine.fresh () with depth := 1, skip := true }
  have hrun : (children oneName).run reentrantPass 3
      { Engine.fresh () with depth := 1, skip := true } = some ((_, .ok ()), _) := rfl
  obtain ⟨hcurrent, hskip, -, -, hdepth⟩ := hok _ _ hrun
  obtain ⟨-, hfree, hone⟩ := hopens _ _ rfl
  exact ⟨hpasses, ⟨_, _, hrun, hcurrent, hskip, hdepth hpasses⟩, _, _, rfl, rfl, hfree, hone⟩

def strict : Options :=
  ⟨"", "", (VisitorKeys.empty.register programKind ["body"]).registerLeaf "Identifier"⟩

def swallowing : HandlerSet Nat :=
  HandlerSet.empty
    |>.withEnter programKind (fun n _ => .setSkip true (.traverseChildren n fun n r =>
      .observe fun _ e => .remember e.depth (.done ⟨n, r.map fun _ => none⟩)))
    |>.withEnter "Identifier" fun n _ => .traverse (Node.new "Mystery") none fun _ _ =>
      .done (.keep n)

def swallowingPass : Pass Nat := ⟨strict, .compose [swallowing]⟩

/-- In a run that succeeds, a walk that succeeds leaves its handler with the depth of a visit that
nobody is in. -/
theorem ok_leaves_depth_of_swallowed :
    (∃ output, swallowingPass.run 4 oneName 0 = some ⟨.ok output, 2⟩) ∧
    ∃ m n e', .reached m ∈ swallowingPass.journal 4 oneName 0 ∧ m.key = .node programKind .enter ∧
      (children m.node).run swallowingPass 3 { m.engine with skip := true } =
        some ((n, .ok ()), e') ∧ m.engine.depth = 1 ∧ e'.depth = 2 :=
  ⟨⟨_, rfl⟩, _, _, _, List.mem_of_getElem? (i := 1) rfl, rfl, rfl, rfl, rfl⟩

/-- A walk that fails leaves the handler with a greater depth, unless it was that of unknown
children and failed at once. So depth, current node and skip request are as they were only in that
case, and if there was no request. -/
theorem error_restores_iff {err : PassError}
    (hrun : errand.run p fuel e = some ((n, .error err), e')) :
    ((e'.depth = e.depth ∧ e'.current = e.current ∧ e'.skip = e.skip) ↔
      errand = .children n ∧ p.options.keys.childKeys? n = none ∧ e.skip = false) ∧
    ((errand = .children n ∧ p.options.keys.childKeys? n = none ∧ err = .unknownKind n.info ∧
      e' = { e with skip := false }) ∨ e.depth < e'.depth) := by
  have hcases := record_error (of_run_error hrun)
  refine ⟨⟨fun ⟨hdepth, _, hskip⟩ => ?_, fun ⟨herrand, hkeys, hskip⟩ => ?_⟩, hcases⟩
  · rcases hcases with ⟨herrand, hkeys, -, rfl⟩ | hlt
    · exact ⟨herrand, hkeys, hskip.symm⟩
    · exact absurd hdepth (Nat.ne_of_gt hlt)
  · subst herrand
    have hfails := of_run_error hrun
    rw [record, recordChildren, hkeys] at hfails
    cases hfails
    exact ⟨rfl, rfl, hskip.symm⟩

theorem error_restores_unknown_children :
    (∃ n err e', (children (Node.new "Mystery")).run swallowingPass 3 (.fresh 0) =
        some ((n, .error err), e') ∧
      e'.depth = 0 ∧ e'.current = none ∧ e'.skip = false) ∧
    ∃ n err e', (subtree (Node.new "Mystery") none).run swallowingPass 3 (.fresh 0) =
        some ((n, .error err), e') ∧ 0 < e'.depth := by
  have hchildren : (children (Node.new "Mystery")).run swallowingPass 3 (.fresh 0) =
      some ((_, .error _), _) := rfl
  have hsubtree : (subtree (Node.new "Mystery") none).run swallowingPass 3 (.fresh 0) =
      some ((_, .error _), _) := rfl
  obtain ⟨hdepth, hcurrent, hskip⟩ := (error_restores_iff hchildren).1.2 ⟨rfl, rfl, rfl⟩
  have hlt := (error_restores_iff hsubtree).2.resolve_left fun h => by cases h.1
  exact ⟨⟨_, _, _, hchildren, hdepth, hcurrent, hskip⟩, _, _, _, hsubtree, hlt⟩

def carryingOn : HandlerSet (Nat × Option NodeInfo × Bool) :=
  HandlerSet.empty.withEnter programKind fun n _ =>
    .setSkip true (.traverse (Node.new "Mystery") none fun _ _ =>
      .observe fun _ e => .remember (e.depth, e.current, e.skip) (.done (.keep n)))

def carryingOnPass : Pass (Nat × Option NodeInfo × Bool) := ⟨strict, .compose [carryingOn]⟩

/-- In a run that succeeds, a walk that fails leaves its handler with the depth and the node of the
visit that failed, and without the skip request from before. -/
theorem error_restores_nothing :
    (∃ output, carryingOnPass.run 3 (Node.new programKind) (0, none, false) =
      some ⟨.ok output, 2, some (Node.new "Mystery").info, false⟩) ∧
    ∃ m n err e', .reached m ∈ carryingOnPass.journal 3 (Node.new programKind) (0, none, false) ∧
      m.key = .node programKind .enter ∧
      (subtree (Node.new "Mystery") none).run carryingOnPass 2 { m.engine with skip := true } =
        some ((n, .error err), e') ∧
      m.engine.depth = 1 ∧ e'.depth = 2 ∧ m.engine.current = some (Node.new programKind).info ∧
      e'.current = some (Node.new "Mystery").info ∧ e'.skip = false :=
  ⟨⟨_, rfl⟩, _, _, _, _, List.mem_of_getElem? (i := 1) rfl, rfl, rfl, rfl, rfl, rfl, rfl, rfl⟩

end Errand

end SyntaxWalk
