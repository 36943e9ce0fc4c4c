import SyntaxWalk.Proofs.OrderedTree
import SyntaxWalk.Proofs.Slots
import SyntaxWalk.Proofs.PlainHandlers

/-!
# Trees that no handler writes to

A handler may walk its node, the children of it or any other node again, to any depth. If it gives
its node back as it was given the node, whenever those walks leave what they walk as it was, then a
run that succeeds returns its tree (`run_unwritten`). The nodes are taken to be ordered, so that a
handler may also take a field out of its node and put it back.
-/

namespace SyntaxWalk

abbrev Node.Kept (n m : Node) : Prop := n.Ordered → m = n

section Refilled

theorem items_of_kept {items items' : List (Option Node)}
    (h : List.Forall₂ (Option.Rel Node.Kept) items items')
    (hitems : ∀ n, some n ∈ items → n.Ordered) : items = items' := by
  induction h with
  | nil => rfl
  | @cons item item' rest rest' hitem _ ih =>
    rw [ih fun n hn => hitems n (List.mem_cons_of_mem _ hn)]
    cases hitem with
    | none => rfl
    | some h => rw [h (hitems _ List.mem_cons_self)]

theorem Field.Refilled.eq_of_kept {f g : Field Node} (h : f.Refilled Node.Kept g)
    (hf : ∀ child ∈ f.nodes, child.Ordered) : f = g := by
  cases h with
  | node h => rw [h (hf _ (List.mem_singleton_self _))]
  | list h =>
    rw [items_of_kept h fun n hn => hf n (List.mem_filterMap.2 ⟨some n, hn, rfl⟩)]
  | value v => rfl

theorem entries_of_kept {names : List String} {entries entries' : List (String × Field Node)}
    (h : List.Forall₂ (EntryRefilled Node.Kept names) entries entries')
    (hentries : ∀ entry ∈ entries, ∀ child ∈ entry.2.nodes, child.Ordered) :
    entries = entries' := by
  induction h with
  | nil => rfl
  | @cons a b rest rest' hab _ ih =>
    obtain ⟨ha, hrest⟩ := List.forall_mem_cons.1 hentries
    rw [ih hrest, Prod.ext hab.name (hab.field.eq_of_kept ha)]

theorem Node.Refilled.eq_of_kept {names : List String} {n m : Node}
    (h : n.Refilled Node.Kept names m) (hn : n.Ordered) : m = n := by
  have hentries := entries_of_kept h.entries hn.children
  obtain ⟨hkind, hloc, -⟩ := h
  obtain ⟨kind, loc, ⟨entries⟩⟩ := n
  obtain ⟨kind', loc', ⟨entries'⟩⟩ := m
  cases hkind
  cases hloc
  cases hentries
  rfl

end Refilled

variable {σ ε υ α : Type}

def KeepsOrdered (walk : Descent σ ε) : Prop :=
  ∀ n parent s, n.Ordered → EndsIn (· = n) (walk n parent s)

theorem walkChildren_kept {walk : Descent σ ε} (hwalk : KeepsOrdered walk) (keys : VisitorKeys)
    {n : Node} (hn : n.Ordered) (s : σ) : EndsIn (· = n) (walkChildren keys walk n s) := by
  intro o ho
  have hkept : ∀ n parent s, EndsIn n.Kept (walk n parent s) :=
    fun n parent s x hx hn => hwalk n parent s hn x hx
  have htrans : ∀ a b c : Node, a.Kept b → b.Kept c → a.Kept c := by
    intro a b c hab hbc ha
    obtain rfl := hab ha
    exact hbc ha
  exact (walkChildren_refills (fun _ _ => rfl) hkept htrans keys n s o ho).eq_of_kept hn

/-- Gives the node back, and no other in its place, if the nested walks leave their nodes as they
are. What the walks end with, and what the engine then is, is open. -/
def Script.GivesBack (n : Node) : Script υ Handled → Prop
  | .done h => h.Spares n
  | .observe next => ∀ options e, (next options e).GivesBack n
  | .setSkip _ next | .warn _ _ next | .pushScope _ next | .editContext _ next
  | .remember _ next => next.GivesBack n
  | .popScope next => ∀ frame, (next frame).GivesBack n
  | .traverse m _ next | .traverseChildren m next => m.Ordered ∧ ∀ r, (next m r).GivesBack n

def Handler.GivesBack (handler : Handler υ) : Prop :=
  ∀ n parent, n.Ordered → (handler n parent).GivesBack n

def HandlerSet.GivesBack (h : HandlerSet υ) : Prop :=
  ∀ key handler, h.lookup key = some handler → handler.GivesBack

theorem HandlerSet.compose_givesBack {sets : List (HandlerSet υ)}
    (hsets : ∀ set ∈ sets, set.GivesBack) : (compose sets).GivesBack := by
  have hkeep : ∀ n : Node, (Handled.keep n).Spares n := fun n => ⟨rfl, fun new h => by cases h⟩
  exact compose_handlers (baseline_handlers (fun n _ _ => hkeep n) (fun n _ _ => hkeep n)
    fun n _ _ _ => hkeep n) hsets

theorem Engine.nested_subject {τ : Type} {R : τ → Prop}
    {walk : Engine υ → Option (Outcome τ (Engine υ) SyntaxError Unit)} {e : Engine υ}
    (h : EndsIn R (walk { e with skip := false })) : EndsIn R (e.nested walk) := by
  intro o ho
  unfold nested at ho
  generalize walk { e with skip := false } = walked at h ho
  rcases walked with _ | ⟨t, after, err | a⟩
  · cases ho
  · cases ho
    exact h _ rfl
  · have ht : R t := h ⟨t, after, .ok a⟩ rfl
    cases ho
    exact ht

theorem Script.run_givesBack {s : Surroundings υ} (hwalk : KeepsOrdered s.walk) {n : Node}
    {script : Script υ Handled} (hscript : script.GivesBack n) {e e' : Engine υ} {h : Handled}
    (hrun : script.run s e = some (h, e')) : h.Spares n := by
  induction script generalizing e with
  | done handled =>
    cases hrun
    exact hscript
  | observe next ih => exact ih _ _ (hscript _ _) hrun
  | setSkip skip next ih => exact ih hscript hrun
  | warn loc description next ih => exact ih hscript hrun
  | pushScope node next ih => exact ih hscript hrun
  | popScope next ih => exact ih _ (hscript _) hrun
  | editContext edit next ih => exact ih hscript hrun
  | remember memory next ih => exact ih hscript hrun
  | traverse m parent next ih =>
    obtain ⟨o, ho, hrest⟩ := Option.bind_eq_some_iff.1 hrun
    have hm : o.subject = m := Engine.nested_subject (hwalk m parent _ hscript.1) o ho
    rw [hm] at hrest
    exact ih _ _ (hscript.2 _) hrest
  | traverseChildren m next ih =>
    obtain ⟨o, ho, hrest⟩ := Option.bind_eq_some_iff.1 hrun
    have hm : o.subject = m :=
      Engine.nested_subject (walkChildren_kept hwalk s.options.keys hscript.1 _) o ho
    rw [hm] at hrest
    exact ih _ _ (hscript.2 _) hrest

namespace Pass

variable {p : Pass υ} (hp : p.handlers.GivesBack) {walk : Descent (Engine υ) SyntaxError}
  (hwalk : KeepsOrdered walk) {n : Node} (hn : n.Ordered)

include hp hwalk hn

theorem dispatch_givesBack (key : DispatchKey) (parent : Option Parent) (e : Engine υ) :
    EndsIn (· = n) (p.dispatch walk (p.handlers.lookup key) n parent e) := by
  unfold dispatch
  cases hlookup : p.handlers.lookup key with
  | none => exact .now (R := (· = n)) rfl e _
  | some handler =>
    intro o ho
    obtain ⟨⟨h, e'⟩, hrun, rfl⟩ := Option.map_eq_some_iff.1 ho
    obtain ⟨verdict, hsettle⟩ := settle_spares
      (Script.run_givesBack (s := p.surroundings walk) hwalk (hp key handler hlookup n parent hn)
        hrun) e'
    dsimp only
    rw [hsettle]

theorem dispatchSide_givesBack (before : Hook) (phase : Phase) (after : Hook)
    (parent : Option Parent) (e : Engine υ) :
    EndsIn (· = n) (p.dispatchSide walk before phase after n parent e) := by
  simp only [dispatchSide, Option.bind_eq_bind, ← Option.bind_assoc]
  refine ((dispatch_givesBack hp hwalk hn (.around before) parent e).andThen (fun m h => h)
    fun m e _ hm => ?_).andThen (fun m h => h) fun m e _ hm => ?_
  · rw [hm]
    exact dispatch_givesBack hp hwalk hn (.node n.kind phase) parent e
  · rw [hm]
    exact dispatch_givesBack hp hwalk hn (.around after) parent e

theorem enter_givesBack (parent : Option Parent) (e : Engine υ) :
    EndsIn (· = n) (p.visitor.enter walk n parent e) := by
  simp only [visitor, Option.bind_eq_bind]
  exact (dispatchSide_givesBack hp hwalk hn .beforeEnter .enter .afterEnter parent _).andThen
    (fun m h => h) fun m e _ hm => .now (R := (· = n)) hm _ _

theorem leave_givesBack (parent : Option Parent) (e : Engine υ) :
    EndsIn (· = n) (p.visitor.leave walk n parent e) := by
  simp only [visitor, Option.bind_eq_bind]
  exact (dispatchSide_givesBack hp hwalk hn .beforeExit .exit .afterExit parent _).andThen
    (fun m h => h) fun m e _ hm => .now (R := (· = n)) hm _ _

omit hwalk hn in
theorem walk_givesBack (fuel : Nat) : KeepsOrdered (p.walk fuel) := by
  induction fuel with
  | zero =>
    intro n parent e _ x hx
    cases hx
  | succ fuel ih =>
    intro n parent e hn
    have hvisit : p.walk (fuel + 1) n parent e =
        visit p.visitor p.options.keys (p.walk fuel) n parent e := rfl
    rw [hvisit]
    simp only [visit, Option.bind_eq_bind, ← Option.bind_assoc]
    refine ((enter_givesBack hp ih hn parent e).andThen (fun m h => h)
      fun m e control hm => ?_).andThen (fun m h => h) fun m e _ hm => ?_
    · rw [hm]
      cases control with
      | descend => exact walkChildren_kept ih p.options.keys hn e
      | skip => exact .now (R := (· = n)) rfl e _
    · rw [hm]
      exact leave_givesBack hp ih hn parent e

end Pass

theorem run_unwritten {sets : List (HandlerSet υ)} (hsets : ∀ set ∈ sets, set.GivesBack)
    {options : Options} {fuel : Nat} (tree : Tree) {memory memory' : υ}
    {output : Pass.Output}
    (hrun : (Pass.mk options (.compose sets)).run fuel tree.root memory =
      some ⟨.ok output, memory'⟩) : output.tree = tree.root := by
  let p : Pass υ := ⟨options, .compose sets⟩
  have hp : p.handlers.GivesBack := HandlerSet.compose_givesBack hsets
  obtain ⟨⟨t, e, verdict⟩, hwalk, hfinished⟩ := Option.map_eq_some_iff.1 hrun
  have ht : t = tree.root :=
    Pass.walk_givesBack hp fuel tree.root none (.fresh memory) tree.ordered _ hwalk
  cases verdict with
  | error err => cases hfinished
  | ok a =>
    cases hfinished
    exact ht

theorem NameMap.put_of_find {name : String} {value : α} {entries : List (String × α)}
    (hsorted : (NameMap.mk entries).Sorted) (h : find name entries = some value) :
    put name value entries = entries := by
  induction entries with
  | nil => cases h
  | cons entry rest ih =>
    obtain ⟨other, v⟩ := entry
    obtain ⟨hfirst, hrest⟩ := List.pairwise_cons.1 hsorted
    rw [find] at h
    rw [put]
    split at h
    · rename_i heq
      cases h
      rw [if_pos heq, heq]
    · rename_i hne
      have hlater : other < name :=
        hfirst name (List.mem_map.2 ⟨(name, value), mem_of_find h, rfl⟩)
      have hnot : ¬ name < other := fun hlt => String.lt_irrefl _ (String.lt_trans hlt hlater)
      rw [if_neg hne, if_neg hnot, ih hrest h]

theorem Node.Ordered.setField_self {n : Node} (hn : n.Ordered) {key : String} {field : Field Node}
    (h : n.field? key = some field) : n.setField key field = n := by
  obtain ⟨kind, loc, fields⟩ := n
  have hput : fields.insert key field = fields :=
    congrArg NameMap.mk (NameMap.put_of_find hn.names h)
  rw [Node.setField, hput]

def Script.andGiveBack (n : Node) (r : Except PassError Unit) : Script υ Handled :=
  .done ⟨n, r.map fun _ => none⟩

theorem Script.andGiveBack_givesBack (n : Node) (r : Except PassError Unit) :
    (andGiveBack (υ := υ) n r).GivesBack n := by
  cases r <;> exact ⟨rfl, fun new h => by cases h⟩

def revisitChild (key : String) : Handler υ := fun n _ =>
  match n.child? key with
  | none => .done (.keep n)
  | some child => .traverse child (some ⟨n, key, none⟩) fun child r =>
      .andGiveBack (n.withChild key child) r

def revisit : Handler υ := fun n parent => .observe fun _ e =>
  if e.depth < 3 then .traverse n parent .andGiveBack else .done (.keep n)

def revisitInScope : Handler υ := fun n _ =>
  .pushScope n.info (.traverseChildren n fun n r => .popScope fun _ =>
    .warn n.loc "again" (.setSkip true (.andGiveBack n r)))

theorem revisitChild_givesBack (key : String) : (revisitChild (υ := υ) key).GivesBack := by
  intro n _ hn
  unfold revisitChild
  split
  · exact ⟨rfl, fun new h => by cases h⟩
  · rename_i child hchild
    obtain ⟨field, hfield, hnode⟩ := Option.bind_eq_some_iff.1 hchild
    cases field with
    | node m =>
      cases hnode
      refine ⟨hn.of_field? hfield _ (List.mem_singleton_self _), fun r => ?_⟩
      have hput : n.withChild key child = n := hn.setField_self hfield
      dsimp only
      rw [hput]
      exact Script.andGiveBack_givesBack n r
    | list items => cases hnode
    | value v => cases hnode

theorem revisit_givesBack : (revisit (υ := υ)).GivesBack := by
  intro n parent hn options e
  dsimp only
  split
  · exact ⟨hn, Script.andGiveBack_givesBack n⟩
  · exact ⟨rfl, fun new h => by cases h⟩

theorem revisitInScope_givesBack : (revisitInScope (υ := υ)).GivesBack :=
  fun n _ hn => ⟨hn, fun r _ => Script.andGiveBack_givesBack (υ := υ) n r⟩

def revisiting : HandlerSet Unit :=
  HandlerSet.empty
    |>.withEnter "UnaryExpression" (revisitChild "argument")
    |>.withExit "Identifier" revisit
    |>.withEnter "BlockStatement" revisitInScope

theorem revisiting_givesBack : revisiting.GivesBack := by
  refine HandlerSet.added_handlers (HandlerSet.added_handlers (HandlerSet.added_handlers
    HandlerSet.empty_handlers (HandlerSet.lookup_withEnter _ _ _) ?_)
    (HandlerSet.lookup_withExit _ _ _) ?_) (HandlerSet.lookup_withEnter _ _ _) ?_
  · exact revisitChild_givesBack "argument"
  · exact revisit_givesBack
  · exact revisitInScope_givesBack

def negation : Tree :=
  (Tree.leaf "BlockStatement").withItems "body"
    [some (.leaf "Identifier"),
      some ((Tree.leaf "UnaryExpression").withChild "argument" (.leaf "Identifier"))]

theorem run_unwritten_negation :
    revisiting.GivesBack ∧
      ∃ output, (Pass.mk .sourceless (.compose [revisiting])).run 6 negation.root () =
          some ⟨.ok output, ()⟩ ∧
        output.warnings = [⟨none, "", "again"⟩] ∧ output.tree = negation.root := by
  obtain ⟨output, hrun, hwarnings⟩ : ∃ output,
      (Pass.mk .sourceless (.compose [revisiting])).run 6 negation.root () =
          some ⟨.ok output, ()⟩ ∧
        output.warnings = [⟨none, "", "again"⟩] := ⟨_, rfl, rfl⟩
  have htree : output.tree = negation.root :=
    run_unwritten (by simpa using revisiting_givesBack) negation hrun
  exact ⟨revisiting_givesBack, output, hrun, hwarnings, htree⟩

end SyntaxWalk
