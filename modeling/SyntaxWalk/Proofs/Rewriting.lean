import SyntaxWalk.Proofs.OnBaseline
import SyntaxWalk.Proofs.OrderedTree
import SyntaxWalk.Proofs.Visits

/-!
# Rewriting

Handlers that answer with a node computed from their own, and do nothing else that the walk heeds,
make a run the rewriting of its tree: top down by the entry handlers, bottom up by the exit
handlers. `rewrite` says which tree that is, with all fields of a node rewritten at once; the walk,
which takes the fields out and puts them back one after the other, gives the same
(`run_tree_iff_rewrite`). How much fuel there is beyond what it takes does not matter
(`rewrite_succ`).
-/

namespace SyntaxWalk

/-- The replacement that the handler of a key computes from a node, if it has one. -/
abbrev Replacements := DispatchKey → Node → Option Node

def replaced (r : Replacements) (key : DispatchKey) (n : Node) : Node := (r key n).getD n

/-- The node as one side of a visit leaves it. The handler of its kind is the one for the kind that
it has when the first hook has answered. -/
def side (r : Replacements) (before : Hook) (phase : Phase) (after : Hook) (n : Node) : Node :=
  let n := replaced r (.around before) n
  let n := replaced r (.node n.kind phase) n
  replaced r (.around after) n

def down (r : Replacements) : Node → Node := side r .beforeEnter .enter .afterEnter

def up (r : Replacements) : Node → Node := side r .beforeExit .exit .afterExit

def mapField (f : Node → Option Node) : Field Node → Option (Field Node)
  | .node n => (f n).map .node
  | .list items => (items.mapM (Option.mapM f)).map .list
  | .value v => some (.value v)

def mapEntry (f : Node → Option Node) (names : List String) :
    String × Field Node → Option (String × Field Node)
  | (name, field) =>
    if name ∈ names then (mapField f field).map fun field => (name, field) else some (name, field)

def mapEntries (f : Node → Option Node) (names : List String)
    (entries : List (String × Field Node)) : Option (List (String × Field Node)) :=
  entries.mapM (mapEntry f names)

def mapFields (f : Node → Option Node) (names : List String) (n : Node) : Option Node :=
  (mapEntries f names n.fields.entries).map fun entries => { n with fields := ⟨entries⟩ }

/-- None for a tree in which an unknown kind is met or the fuel is used up. -/
def rewrite (r : Replacements) (keys : VisitorKeys) : Nat → Node → Option Node
  | 0, _ => none
  | fuel + 1, n => do
    let names ← keys.childKeys? (down r n)
    let m ← mapFields (rewrite r keys fuel) names (down r n)
    return up r m

variable {υ : Type}

/-- Gives the answer `f` for every node, without error or nested walk, and asks for no skip. -/
def Handler.Computes (h : Handler υ) (f : Node → Option Node) : Prop :=
  ∀ n parent s e, ∃ e', (h n parent).run s e = some (⟨n, .ok (f n)⟩, e') ∧ e'.skip = e.skip

def HandlerSet.Computes (h : HandlerSet υ) (r : Replacements) : Prop :=
  ∀ key, match h.lookup key with
    | some handler => handler.Computes (r key)
    | none => ∀ n, r key n = none

section MapEntries

variable {f : Node → Option Node} {key : String} {names : List String}
  {entries : List (String × Field Node)}

theorem mapEntries_cons (entry : String × Field Node) :
    mapEntries f names (entry :: entries) =
      (mapEntry f names entry).bind fun first => (mapEntries f names entries).map (first :: ·) := by
  rw [mapEntries, mapEntries, List.mapM_cons]
  cases mapEntry f names entry with
  | none => rfl
  | some first => cases entries.mapM (mapEntry f names) <;> rfl

theorem mapEntries_nil : mapEntries f [] entries = some entries := by
  induction entries with
  | nil => rfl
  | cons entry rest ih =>
    rw [mapEntries_cons, ih]
    rfl

theorem mapEntry_cons_of_ne {entry : String × Field Node} (hne : entry.1 ≠ key) :
    mapEntry f (key :: names) entry = mapEntry f names entry := by
  simp [mapEntry, hne]

theorem mapEntries_cons_of_notMem (hkey : key ∉ entries.map Prod.fst) :
    mapEntries f (key :: names) entries = mapEntries f names entries := by
  induction entries with
  | nil => rfl
  | cons entry rest ih =>
    rw [List.map_cons, List.mem_cons, not_or] at hkey
    rw [mapEntries_cons, mapEntries_cons, mapEntry_cons_of_ne (Ne.symm hkey.1), ih hkey.2]

/-- Rewriting one field first and the others then is rewriting them at once. -/
theorem mapEntries_cons_of_find {field : Field Node} (hkey : key ∉ names)
    (hentries : (entries.map Prod.fst).Nodup) (hfind : NameMap.find key entries = some field) :
    mapEntries f (key :: names) entries = (mapField f field).bind fun field' =>
      mapEntries f names (NameMap.overwrite key field' entries) := by
  induction entries with
  | nil => cases hfind
  | cons entry rest ih =>
    obtain ⟨name, other⟩ := entry
    obtain ⟨hfirst, hrest⟩ := List.nodup_cons.1 hentries
    by_cases hname : name = key
    · subst hname
      have hfield : other = field := by simpa [NameMap.find] using hfind
      subst hfield
      have hfirstkey : mapEntry f (name :: names) (name, other) =
          (mapField f other).map fun field => (name, field) := if_pos List.mem_cons_self
      rw [mapEntries_cons, mapEntries_cons_of_notMem hfirst, hfirstkey]
      cases mapField f other with
      | none => rfl
      | some field' =>
        have hput : mapEntry f names (name, field') = some (name, field') := if_neg hkey
        rw [Option.bind_some, NameMap.overwrite, if_pos rfl, mapEntries_cons, hput]
        rfl
    · have hrestfind : NameMap.find key rest = some field := by
        simpa [NameMap.find, hname] using hfind
      rw [mapEntries_cons, mapEntry_cons_of_ne hname, ih hrest hrestfind]
      simp only [NameMap.overwrite, hname, if_false, mapEntries_cons]
      -- Both rewritings have to succeed, in whichever order they are made.
      cases mapField f field with
      | none => simp
      | some field' => rfl

end MapEntries

theorem mapFields_nil (f : Node → Option Node) (n : Node) : mapFields f [] n = some n := by
  obtain ⟨kind, loc, fields⟩ := n
  rw [mapFields, mapEntries_nil]
  rfl

theorem mapFields_cons {f : Node → Option Node} {key : String} {names : List String} {n : Node}
    (hkey : key ∉ names) (hn : n.fields.names.Nodup) :
    mapFields f (key :: names) n =
      match n.field? key with
      | none => mapFields f names n
      | some field =>
        (mapField f field).bind fun field => mapFields f names (n.replaceField key field) := by
  unfold mapFields
  cases hfield : n.field? key with
  | none => rw [mapEntries_cons_of_notMem (NameMap.find_eq_none.1 hfield)]
  | some field =>
    rw [mapEntries_cons_of_find hkey hn hfield, Option.map_bind]
    rfl

section More

variable {f g : Node → Option Node} (h : ∀ n m, f n = some m → g n = some m)

theorem mapM_mono {α β : Type} {f g : α → Option β} (h : ∀ a b, f a = some b → g a = some b)
    {items : List α} {mapped : List β} (hmap : items.mapM f = some mapped) :
    items.mapM g = some mapped := by
  induction items generalizing mapped with
  | nil => exact hmap
  | cons item rest ih =>
    rw [List.mapM_cons] at hmap ⊢
    obtain ⟨first, hfirst, hrest⟩ := Option.bind_eq_some_iff.1 hmap
    obtain ⟨others, hothers, hmapped⟩ := Option.bind_eq_some_iff.1 hrest
    rw [h item first hfirst, ih hothers]
    exact hmapped

include h

theorem mapField_mono {field mapped : Field Node} (hmap : mapField f field = some mapped) :
    mapField g field = some mapped := by
  cases field with
  | node n =>
    obtain ⟨m, hm, hmapped⟩ := Option.map_eq_some_iff.1 hmap
    exact Option.map_eq_some_iff.2 ⟨m, h n m hm, hmapped⟩
  | list items =>
    obtain ⟨others, hothers, hmapped⟩ := Option.map_eq_some_iff.1 hmap
    refine Option.map_eq_some_iff.2
      ⟨others, mapM_mono (fun item other hitem => ?_) hothers, hmapped⟩
    cases item with
    | none => exact hitem
    | some n =>
      obtain ⟨m, hm, hother⟩ := Option.map_eq_some_iff.1 hitem
      exact Option.map_eq_some_iff.2 ⟨m, h n m hm, hother⟩
  | value v => exact hmap

theorem mapFields_mono {names : List String} {n m : Node} (hmap : mapFields f names n = some m) :
    mapFields g names n = some m := by
  obtain ⟨entries, hentries, hm⟩ := Option.map_eq_some_iff.1 hmap
  refine Option.map_eq_some_iff.2 ⟨entries, mapM_mono (fun entry mapped hentry => ?_) hentries, hm⟩
  obtain ⟨name, field⟩ := entry
  by_cases hname : name ∈ names
  · rw [mapEntry, if_pos hname] at hentry ⊢
    obtain ⟨field', hfield, hmapped⟩ := Option.map_eq_some_iff.1 hentry
    exact Option.map_eq_some_iff.2 ⟨field', mapField_mono h hfield, hmapped⟩
  · rwa [mapEntry, if_neg hname] at hentry ⊢

end More

theorem rewrite_succ (r : Replacements) (keys : VisitorKeys) {fuel : Nat} {n t : Node}
    (h : rewrite r keys fuel n = some t) : rewrite r keys (fuel + 1) n = some t := by
  induction fuel generalizing n t with
  | zero => cases h
  | succ fuel ih =>
    obtain ⟨names, hnames, hrest⟩ := Option.bind_eq_some_iff.1 h
    obtain ⟨m, hm, ht⟩ := Option.bind_eq_some_iff.1 hrest
    have hmore := mapFields_mono (fun n t => ih) hm
    exact Option.bind_eq_some_iff.2 ⟨names, hnames, Option.bind_eq_some_iff.2 ⟨m, hmore, ht⟩⟩

/-- The outcome of a walk against the tree that it should leave: a success leaves that tree with no
skip asked for, and where there is none the walk does not succeed. -/
inductive Yields {τ : Type} (good : τ → Prop) :
    Option (Outcome τ (Engine υ) SyntaxError Unit) → Option τ → Prop
  | done {t : τ} {e : Engine υ} (hgood : good t) (hskip : e.skip = false) :
    Yields good (some ⟨t, e, .ok ()⟩) (some t)
  | failed (t : τ) (e : Engine υ) (err : PassError) : Yields good (some ⟨t, e, .error err⟩) none
  | exhausted : Yields good none none

namespace Yields

variable {τ τ' : Type} {good : τ → Prop} {good' : τ' → Prop}
  {o : Option (Outcome τ (Engine υ) SyntaxError Unit)} {x : Option τ}

theorem mapSubject (h : Yields good o x) {f : τ → τ'} (hf : ∀ t, good t → good' (f t)) :
    Yields good' (o.map (Outcome.mapSubject f)) (x.map f) := by
  cases h with
  | done hgood hskip => exact .done (hf _ hgood) hskip
  | failed t e err => exact .failed (f t) e err
  | exhausted => exact .exhausted

theorem andThen (h : Yields good o x)
    {next : τ → Engine υ → Unit → Option (Outcome τ (Engine υ) SyntaxError Unit)}
    {k : τ → Option τ} (hnext : ∀ t e a, good t → e.skip = false → Yields good (next t e a) (k t)) :
    Yields good (o.bind fun o => o.andThen next) (x.bind k) := by
  cases h with
  | done hgood hskip => exact hnext _ _ () hgood hskip
  | failed t e err => exact .failed t e err
  | exhausted => exact .exhausted

end Yields

section Children

variable {walk : Descent (Engine υ) SyntaxError} {f : Node → Option Node}
  (hwalk : ∀ n parent e, n.Ordered → e.skip = false → Yields Node.Ordered (walk n parent e) (f n))

include hwalk

theorem walkItems_yields (view : Node) (key : String) (index : Nat) (items : List (Option Node))
    (hitems : ∀ n, some n ∈ items → n.Ordered) {e : Engine υ} (he : e.skip = false) :
    Yields (fun items => ∀ n, some n ∈ items → n.Ordered) (walkItems walk view key index items e)
      (items.mapM (Option.mapM f)) := by
  induction items generalizing index e with
  | nil => exact .done hitems he
  | cons item rest ih =>
    have hrest : ∀ n, some n ∈ rest → n.Ordered := fun n hn => hitems n (List.mem_cons_of_mem _ hn)
    cases item with
    | none =>
      have hmap : (none :: rest).mapM (Option.mapM f) =
          (rest.mapM (Option.mapM f)).map (none :: ·) := by
        rw [List.mapM_cons]
        cases rest.mapM (Option.mapM f) <;> rfl
      rw [hmap, walkItems]
      refine (ih (index + 1) hrest he).mapSubject fun items hi n hn => ?_
      rcases List.mem_cons.1 hn with h | h
      · cases h
      · exact hi n h
    | some n =>
      have hmap : (some n :: rest).mapM (Option.mapM f) =
          (f n).bind fun m => (rest.mapM (Option.mapM f)).map (some m :: ·) := by
        rw [List.mapM_cons, Option.mapM_some]
        cases f n with
        | none => rfl
        | some m => cases rest.mapM (Option.mapM f) <;> rfl
      rw [hmap, walkItems]
      have hn := hwalk n (some ⟨view, key, some index⟩) e (hitems n List.mem_cons_self) he
      generalize walk n (some ⟨view, key, some index⟩) e = o at hn ⊢
      generalize f n = x at hn ⊢
      cases hn with
      | failed m e err => exact .failed (some m :: rest) e err
      | exhausted => exact .exhausted
      | done hm he =>
        refine (ih (index + 1) hrest he).mapSubject fun items hi k hk => ?_
        rcases List.mem_cons.1 hk with h | h
        · cases h
          exact hm
        · exact hi k h

theorem walkField_yields (view : Node) (key : String) (field : Field Node)
    (hfield : ∀ n ∈ field.nodes, n.Ordered) {e : Engine υ} (he : e.skip = false) :
    Yields (fun field => ∀ n ∈ field.nodes, Node.Ordered n) (walkField walk view key field e)
      (mapField f field) := by
  cases field with
  | node n =>
    have hn := hwalk n (some ⟨view, key, none⟩) e (hfield n (List.mem_singleton_self n)) he
    refine hn.mapSubject fun m hm k hk => ?_
    rw [List.mem_singleton.1 hk]
    exact hm
  | list items =>
    have hitems : ∀ n, some n ∈ items → n.Ordered := fun n hn =>
      hfield n (List.mem_filterMap.2 ⟨some n, hn, rfl⟩)
    refine (walkItems_yields hwalk view key 0 items hitems he).mapSubject fun items hi k hk => ?_
    obtain ⟨item, hitem, hk⟩ := List.mem_filterMap.1 hk
    cases hk
    exact hi k hitem
  | value v => exact .done hfield he

theorem walkFields_yields (names : List String) (hnames : names.Nodup) (n : Node) (hn : n.Ordered)
    {e : Engine υ} (he : e.skip = false) :
    Yields Node.Ordered (walkFields walk names n e) (mapFields f names n) := by
  induction names generalizing n e with
  | nil =>
    rw [mapFields_nil]
    exact .done hn he
  | cons key names ih =>
    obtain ⟨hkey, hnames⟩ := List.nodup_cons.1 hnames
    rw [mapFields_cons hkey hn.names.nodup, walkFields]
    cases hfield : n.field? key with
    | none => exact ih hnames n hn he
    | some field =>
      have hwalked := walkField_yields hwalk (n.eraseField key) key field (hn.of_field? hfield) he
      have hput := hwalked.mapSubject (f := n.replaceField key)
        fun field hfield => hn.replaceField hfield
      -- The other fields are rewritten in the node that the first one was put back into.
      have hrest := hput.andThen fun m e _ hm he => ih hnames m hm he
      simp only [Option.bind_map] at hrest
      exact hrest

end Children

def Replacements.Ordered (r : Replacements) : Prop :=
  ∀ key n m, n.Ordered → r key n = some m → m.Ordered

namespace Replacements.Ordered

variable {r : Replacements} (h : r.Ordered)

include h

theorem replaced {n : Node} (hn : n.Ordered) (key : DispatchKey) :
    (replaced r key n).Ordered := by
  rw [SyntaxWalk.replaced]
  cases hr : r key n with
  | none => exact hn
  | some m => exact h key n m hn hr

theorem side {n : Node} (hn : n.Ordered) (before : Hook) (phase : Phase) (after : Hook) :
    (side r before phase after n).Ordered :=
  h.replaced (h.replaced (h.replaced hn _) _) _

end Replacements.Ordered

namespace Pass

variable {p : Pass υ} {r : Replacements} (hr : p.handlers.Computes r)

include hr

theorem dispatch_computes (walk : Descent (Engine υ) SyntaxError) (key : DispatchKey) (n : Node)
    (parent : Option Parent) (e : Engine υ) :
    ∃ e', p.dispatch walk (p.handlers.lookup key) n parent e = some ⟨replaced r key n, e', .ok ()⟩ ∧
      e'.skip = e.skip := by
  have hkey := hr key
  unfold dispatch
  cases hlookup : p.handlers.lookup key with
  | none =>
    rw [hlookup] at hkey
    refine ⟨e, ?_, rfl⟩
    rw [replaced, hkey n]
    rfl
  | some handler =>
    rw [hlookup] at hkey
    obtain ⟨e', hrun, hskip⟩ := hkey n parent (p.surroundings walk) e
    simp only [hrun, Option.map_some]
    cases hanswer : r key n with
    | none =>
      refine ⟨e', ?_, hskip⟩
      rw [replaced, hanswer]
      rfl
    | some m =>
      refine ⟨{ e' with current := some m.info }, ?_, hskip⟩
      rw [replaced, hanswer]
      rfl

theorem dispatchSide_computes (walk : Descent (Engine υ) SyntaxError) (before : Hook)
    (phase : Phase) (after : Hook) (n : Node) (parent : Option Parent) (e : Engine υ) :
    ∃ e', p.dispatchSide walk before phase after n parent e =
      some ⟨side r before phase after n, e', .ok ()⟩ ∧ e'.skip = e.skip := by
  obtain ⟨e₁, h₁, hskip₁⟩ := dispatch_computes hr walk (.around before) n parent e
  obtain ⟨e₂, h₂, hskip₂⟩ := dispatch_computes hr walk
    (.node (replaced r (.around before) n).kind phase) (replaced r (.around before) n) parent e₁
  obtain ⟨e₃, h₃, hskip₃⟩ := dispatch_computes hr walk (.around after)
    (replaced r (.node (replaced r (.around before) n).kind phase)
      (replaced r (.around before) n)) parent e₂
  refine ⟨e₃, ?_, hskip₃.trans (hskip₂.trans hskip₁)⟩
  simp only [HandlerSet.lookup] at h₁ h₂ h₃
  simp only [dispatchSide, h₁, h₂, h₃, Outcome.andThen_ok, Option.bind_eq_bind, Option.bind_some,
    side]

theorem enter_computes (walk : Descent (Engine υ) SyntaxError) (n : Node) (parent : Option Parent)
    (e : Engine υ) :
    ∃ e', p.dispatchSide walk .beforeEnter .enter .afterEnter n parent e =
      some ⟨down r n, e', .ok ()⟩ ∧ e'.skip = e.skip :=
  dispatchSide_computes hr walk .beforeEnter .enter .afterEnter n parent e

theorem exit_computes (walk : Descent (Engine υ) SyntaxError) (n : Node) (parent : Option Parent)
    (e : Engine υ) :
    ∃ e', p.dispatchSide walk .beforeExit .exit .afterExit n parent e =
      some ⟨up r n, e', .ok ()⟩ ∧ e'.skip = e.skip :=
  dispatchSide_computes hr walk .beforeExit .exit .afterExit n parent e

theorem walk_yields (hordered : r.Ordered) (hkeys : p.options.keys.Distinct) (fuel : Nat) (n : Node)
    (parent : Option Parent) (e : Engine υ) (hn : n.Ordered) (he : e.skip = false) :
    Yields Node.Ordered (p.walk fuel n parent e) (rewrite r p.options.keys fuel n) := by
  -- The walk and the rewriting go down with the same fuel. That no skip is asked for holds at every
  -- visit again, since each one ends with the request taken back.
  induction fuel generalizing n parent e with
  | zero => exact .exhausted
  | succ fuel ih =>
    obtain ⟨e₁, henter, hskip⟩ := enter_computes hr (p.walk fuel) n parent (arrive n e)
    have hdown : (down r n).Ordered := hordered.side hn _ _ _
    rw [walk_of_enter henter (hskip.trans he), rewrite]
    cases hnames : p.options.keys.childKeys? (down r n) with
    | none =>
      rw [walkChildren_unknown hnames]
      exact .failed _ _ _
    | some names =>
      have hfields := walkFields_yields ih names (hkeys.childKeys? hdown hnames) (down r n) hdown
        (e := { e₁ with skip := false }) rfl
      rw [walkChildren, hnames]
      refine hfields.andThen fun m e' _ hm _ => ?_
      obtain ⟨e₂, hexit, -⟩ := exit_computes hr (p.walk fuel) m parent
        { e' with current := some m.info }
      rw [leave_of_exit hexit]
      exact .done (hordered.side hm _ _ _) rfl

end Pass

/-- A run succeeds with a tree just when that tree is the rewriting of the one it was given. -/
theorem run_tree_iff_rewrite {p : Pass υ} {r : Replacements} (hr : p.handlers.Computes r)
    (hordered : r.Ordered) (hkeys : p.options.keys.Distinct) (tree : Tree) (fuel : Nat)
    (memory : υ) (t : Node) :
    (∃ warnings memory', p.run fuel tree.root memory = some ⟨.ok ⟨t, warnings⟩, memory'⟩) ↔
      rewrite r p.options.keys fuel tree.root = some t := by
  have hwalk :=
    Pass.walk_yields hr hordered hkeys fuel tree.root none (.fresh memory) tree.ordered rfl
  unfold Pass.run
  generalize p.walk fuel tree.root none (.fresh memory) = o at hwalk ⊢
  generalize rewrite r p.options.keys fuel tree.root = x at hwalk ⊢
  cases hwalk with
  | @done m e hm he =>
    constructor
    · rintro ⟨warnings, memory', hrun⟩
      cases hrun
      rfl
    · intro ht
      cases ht
      exact ⟨e.warnings, e.memory, rfl⟩
  | failed m e err =>
    constructor
    · rintro ⟨warnings, memory', hrun⟩
      cases hrun
    · intro ht
      cases ht
  | exhausted =>
    constructor
    · rintro ⟨warnings, memory', hrun⟩
      cases hrun
    · intro ht
      cases ht

theorem HandlerSet.Computes.add {h h' : HandlerSet υ} {r : Replacements} (hh : h.Computes r)
    {added : DispatchKey} {handler : Handler υ} {f : Node → Option Node}
    (hlookup : ∀ key, h'.lookup key = if key = added then some handler else h.lookup key)
    (hf : handler.Computes f) : h'.Computes fun key => if key = added then f else r key := by
  intro key
  rw [hlookup]
  by_cases hkey : key = added
  · simpa only [hkey, if_true] using hf
  · simpa only [hkey, if_false] using hh key

theorem HandlerSet.baseline_computes : (baseline : HandlerSet υ).Computes fun _ _ => none := by
  have hopen : Handler.Computes (Baseline.openProgram : Handler υ) fun _ => none :=
    fun n parent s e => ⟨_, rfl, Engine.callHook_skip _ _ _⟩
  have hfunction : Handler.Computes (Baseline.openFunction : Handler υ) fun _ => none :=
    fun n parent s e => ⟨_, rfl, Engine.callHook_skip _ _ _⟩
  have hclose : Handler.Computes (Baseline.close : Handler υ) fun _ => none :=
    fun n parent s e => ⟨_, rfl, Engine.popScope_skip _ _⟩
  have hempty : (HandlerSet.empty : HandlerSet υ).Computes fun _ _ => none := by
    intro key
    rw [lookup_empty]
    exact fun n => rfl
  have hall : baseline.Computes _ := (((hempty.add (lookup_withEnter _ programKind _) hopen).add
    (lookup_withExit _ programKind _) hclose).add
    (lookup_withEnter _ functionExpressionKind _) hfunction).add
    (lookup_withExit _ functionExpressionKind _) hclose
  simpa only [ite_self] using hall

theorem replace_computes (m : Node) :
    Handler.Computes (fun n _ => .done (.replace n m) : Handler υ) fun _ => some m :=
  fun _ _ _ e => ⟨e, rfl, rfl⟩

def calling : HandlerSet Unit :=
  HandlerSet.baseline
    |>.withEnter "DebuggerStatement" (fun n _ => .done (.replace n
      ((Node.new "CallExpression").withChild "callee" (Node.new "Identifier"))))
    |>.withExit "Identifier" fun n _ => .done (.replace n (Node.new "Super"))

def calls : Replacements := fun key =>
  if key = .node "Identifier" .exit then fun _ => some (Node.new "Super")
  else if key = .node "DebuggerStatement" .enter then
    fun _ => some ((Node.new "CallExpression").withChild "callee" (Node.new "Identifier"))
  else fun _ => none

theorem calling_computes : calling.Computes calls :=
  (HandlerSet.baseline_computes.add (HandlerSet.lookup_withEnter _ _ _) (replace_computes _)).add
    (HandlerSet.lookup_withExit _ _ _) (replace_computes _)

theorem calls_ordered : calls.Ordered := by
  intro key n m _ hm
  unfold calls at hm
  split at hm
  · cases hm
    exact .new _
  · split at hm
    · cases hm
      exact (Node.Ordered.new _).withChild (.new _)
    · cases hm

def debugging : Tree := (Tree.leaf "Program").withChild "body" (.leaf "DebuggerStatement")

theorem run_tree_of_calling :
    calling.Computes calls ∧ calls.Ordered ∧ Options.sourceless.keys.Distinct ∧
    ∃ warnings memory, (Pass.mk .sourceless calling).run 3 debugging.root () = some
      ⟨.ok ⟨(Node.new "Program").withChild "body"
        ((Node.new "CallExpression").withChild "callee" (Node.new "Super")), warnings⟩,
        memory⟩ := by
  have hkeys : Options.sourceless.keys.Distinct := fun _ _ h => by cases h
  have hrewrite : rewrite calls Options.sourceless.keys 3 debugging.root =
      some ((Node.new "Program").withChild "body"
        ((Node.new "CallExpression").withChild "callee" (Node.new "Super"))) := rfl
  exact ⟨calling_computes, calls_ordered, hkeys,
    (run_tree_iff_rewrite (p := ⟨.sourceless, calling⟩) calling_computes calls_ordered hkeys
      debugging 3 () _).2 hrewrite⟩

end SyntaxWalk
