import SyntaxWalk.Proofs.AskedLints
import SyntaxWalk.Proofs.CheckInputs
import SyntaxWalk.Proofs.LintsApart
import SyntaxWalk.Proofs.PrettyJson
import SyntaxWalk.Proofs.WordArithmetic

/-!
# What a check reports

The exit code of a check says what it found. It is 2 when there was nothing to run on, which is then
reported by its first reason, otherwise 1 when the run of the selected lints fails, and otherwise 0
with all the warnings of the run on the standard output. A run is told like this just when the
report shows no column that is the greatest one; else the check is stopped on the way
(`execute_reports`).
-/

namespace SyntaxWalk

namespace CommandLine

def listed (w : Warning) : Json :=
  .ofEntries [("loc", .ofOption (w.loc.map Loc.toJson)), ("filename", .string w.filename),
    ("description", .string w.description)]

/-- The output has every warning once and in order: as text one after the other, each with its
excerpt if there is a source, and as JSON in a list. -/
def Lists (source : Option String) (warnings : List Warning) (stdout : String) : Format → Prop
  | .text => ∃ items : List String, stdout = String.join items ∧
      items.map some = warnings.map fun w =>
        match source with
        | some source => some (w.render source)
        | none => w.text?.map (· ++ "\n")
  | .json => Json.read stdout = .ok (.ofEntries [("warnings", .array (warnings.map listed))])

section Listing

theorem warningJson_inOrder (w : Warning) : w.toJson.inOrder = listed w := by
  have hloc : (locJson w.loc).inOrder = .ofOption (w.loc.map Loc.toJson) := by
    cases w.loc with
    | none => rfl
    | some loc => exact loc.document_inOrder
  rw [listed, ← hloc]
  rfl

theorem warningsJson_inOrder (warnings : List Warning) :
    (warningsJson warnings).inOrder = .ofEntries [("warnings", .array (warnings.map listed))] := by
  have hitems : Json.inOrderItems (warnings.map Warning.toJson) = warnings.map listed := by
    induction warnings with
    | nil => rfl
    | cons w more ih =>
      rw [List.map_cons, Json.inOrderItems, ih, warningJson_inOrder, List.map_cons]
  rw [← hitems]
  rfl

theorem warningsJson_integral (warnings : List Warning) : (warningsJson warnings).Integral := by
  have hwarning : ∀ w : Warning, w.toJson.Integral := by
    intro w
    have hloc : (locJson w.loc).Integral := by
      cases w.loc with
      | none => exact .null
      | some loc => exact loc.document_integral
    exact .object (by simp [hloc, Json.Integral.string])
  have hlist : (Json.array (warnings.map Warning.toJson)).Integral := by
    refine .array fun v hv => ?_
    obtain ⟨w, -, rfl⟩ := List.mem_map.1 hv
    exact hwarning w
  exact .object (by simp [hlist])

theorem json_lists (source : Option String) (warnings : List Warning) :
    Lists source warnings ((warningsJson warnings).pretty ++ "\n") .json := by
  have hread := Json.read_pretty (warningsJson_integral warnings)
  rwa [warningsJson_inOrder] at hread

theorem listed_injective {w w' : Warning} (h : listed w = listed w') : w = w' := by
  have hshape : ∀ w : Warning, listed w = .object ⟨[("description", .string w.description),
      ("filename", .string w.filename), ("loc", .ofOption (w.loc.map Loc.toJson))]⟩ := fun _ => rfl
  have hread : ∀ w : Warning,
      Node.readLoc (some (.ofOption (w.loc.map Loc.toJson))) = .ok w.loc := by
    intro w
    cases w.loc with
    | none => rfl
    | some loc => exact congrArg (Except.map some) loc.ofJson_toJson
  simp only [hshape, Json.object.injEq, NameMap.mk.injEq, List.cons.injEq, Prod.mk.injEq,
    Json.string.injEq, true_and, and_true] at h
  obtain ⟨hdescription, hfilename, hloc⟩ := h
  have hloc : w.loc = w'.loc := by
    have hboth := hread w
    rw [hloc, hread w'] at hboth
    exact (Except.ok.inj hboth).symm
  cases w
  cases w'
  simp_all

theorem Lists.unique {source source' : Option String} {warnings warnings' : List Warning}
    {stdout : String} (h : Lists source warnings stdout .json)
    (h' : Lists source' warnings' stdout .json) : warnings = warnings' := by
  have hsame := Except.ok.inj (h.symm.trans h')
  have hshape : ∀ v, Json.ofEntries [("warnings", v)] = .object ⟨[("warnings", v)]⟩ := fun _ => rfl
  simp only [hshape, Json.object.injEq, NameMap.mk.injEq, List.cons.injEq, Prod.mk.injEq,
    Json.array.injEq, true_and, and_true] at hsame
  exact List.map_inj_right (fun _ _ => listed_injective) |>.1 hsame

end Listing

section Selection

variable {files : Files Id} {a : CheckArguments} {c : Config}

def selectedNames (asked : List String) (c : Config) : List String :=
  if asked ≠ [] then asked
  else if c.lints.enabled ≠ [] then c.lints.enabled
  else Lint.all.map Lint.name

theorem map_name_injective {lints lints' : List Lint}
    (h : lints.map Lint.name = lints'.map Lint.name) : lints = lints' := by
  have hback := congrArg (List.filterMap Lint.ofName?) h
  simpa [List.filterMap_map, Function.comp_def, Lint.ofName?_name] using hback

theorem Configured.known (h : Configured files a c) :
    ∀ name ∈ c.lints.enabled, (Lint.ofName? name).isSome := by
  cases h with
  | absent place =>
    intro name hname
    cases hname
  | read place read valid known => exact known

theorem selectLints_names (h : Configured files a c) :
    (selectLints a.lints c).map Lint.name = selectedNames (a.lints.map Lint.name) c := by
  have hall : ∀ names : List String, (∀ name ∈ names, (Lint.ofName? name).isSome) →
      (names.filterMap Lint.ofName?).map Lint.name = names := by
    intro names hknown
    induction names with
    | nil => rfl
    | cons name rest ih =>
      obtain ⟨hname, hrest⟩ := List.forall_mem_cons.1 hknown
      obtain ⟨lint, hlint⟩ := Option.isSome_iff_exists.1 hname
      rw [List.filterMap_cons_some hlint, List.map_cons, ih hrest, name_of_ofName? hlint]
  simp only [selectLints, selectedNames, ne_eq, List.map_eq_nil_iff]
  split
  · rfl
  · split
    · exact hall _ h.known
    · rfl

end Selection

section Run

variable (files : Files Id) (a : CheckArguments) (asked : List String)

/-- The run of a check: that of the selected lints over the tree, with the keys of the
configuration, down to its end. -/
inductive RunIs : String → Pass.Pooled Unit → Prop
  | mk {c : Config} {tree : Node} {source filename : String} {lints : List Lint}
      {pooled : Pass.Pooled Unit} (configured : Configured files a c)
      (there : TreeIs files a tree) (given : SourceIs files a source filename)
      (selected : lints.map Lint.name = selectedNames asked c)
      (run : runPasses tree.count tree ⟨source, filename, c.visitorKeys⟩
        (lints.map Lint.handlers) {} () = some pooled) : RunIs source pooled

def excerptSource (source : String) : Option String := if a.source.isSome then some source else none

variable {files a asked}

theorem runPasses_finishes (options : Options) (lints : List Lint) (tree : Node) :
    ∃ pooled, runPasses tree.count tree options (lints.map Lint.handlers) {} () = some pooled := by
  obtain ⟨e, verdict, hwalk⟩ := Pass.run_spares (Lint.pass_spares options lints) tree.count tree
    (Nat.le_refl _) ()
  cases verdict with
  | ok u => exact ⟨_, Lint.runPasses_of_ok {} hwalk⟩
  | error err => exact ⟨_, Lint.runPasses_of_error {} hwalk⟩

def reportOf (a : CheckArguments) (source : String) (pooled : Pass.Pooled Unit) :
    Except CheckError Report :=
  match pooled.tree with
  | .error e => .error (.failed e a.source.isSome)
  | .ok _ => .ok ⟨pooled.results.warnings, excerptSource a source⟩

theorem RunIs.outcome {source : String} {pooled : Pass.Pooled Unit}
    (h : RunIs files a asked source pooled) (hasked : a.lints.map Lint.name = asked) :
    (prepare files a).run >>= Job.run = reportOf a source pooled := by
  obtain ⟨configured, there, given, selected, run⟩ := h
  rw [← hasked, ← selectLints_names configured] at selected
  rw [map_name_injective selected] at run
  rw [prepare_eq_ok.2 ⟨_, _, _, _, configured, there, given, rfl⟩]
  simp only [bind, Except.bind, Job.run, jobOf, run]
  rfl

theorem runIs_of_prepare (hasked : a.lints.map Lint.name = asked) {job : Job}
    (h : (prepare files a).run = .ok job) : ∃ source pooled, RunIs files a asked source pooled := by
  obtain ⟨c, tree, source, filename, configured, there, given, -⟩ := prepare_eq_ok.1 h
  obtain ⟨pooled, run⟩ := runPasses_finishes ⟨source, filename, c.visitorKeys⟩
    (selectLints a.lints c) tree
  have selected := selectLints_names configured
  rw [hasked] at selected
  exact ⟨source, pooled, .mk configured there given selected run⟩

theorem NothingToRun.code {e : CheckError} (h : NothingToRun files a e) : e.code = 2 := by
  cases h with
  | config fails => rfl
  | tree configured fails => cases fails <;> rfl
  | source configured there fails =>
    obtain ⟨path, reason, -, -, rfl⟩ := fails
    rfl

end Run

section Places

/-- The places that the report of a run shows: those of the warnings where they are listed as lines,
and that of a failure unless it is drawn. -/
def shownPlaces (a : CheckArguments) (pooled : Pass.Pooled Unit) : List (Option Loc) :=
  match pooled.tree with
  | .ok _ =>
    if a.format = .text ∧ a.source = none then pooled.results.warnings.map Warning.loc else []
  | .error (.failed e) => if a.source = none then [e.loc] else []
  | .error (.unknownKind node) => if a.source = none then [] else [node.loc]

def ColumnsFit (a : CheckArguments) (pooled : Pass.Pooled Unit) : Prop :=
  ∀ loc ∈ shownPlaces a pooled, ColumnFits loc

instance (a : CheckArguments) (pooled : Pass.Pooled Unit) : Decidable (ColumnsFit a pooled) :=
  inferInstanceAs (Decidable (∀ loc ∈ shownPlaces a pooled, ColumnFits loc))

variable {a : CheckArguments} {pooled : Pass.Pooled Unit}

theorem failed_text?_eq_none {err : PassError} (herr : pooled.tree = .error err) :
    (CheckError.failed err a.source.isSome).text? = none ↔ ¬ColumnsFit a pooled := by
  simp only [ColumnsFit, shownPlaces, herr]
  cases err with
  | failed e =>
    cases a.source with
    | none => simpa [CheckError.text?, PassError.text?] using e.text?_showsPlace.eq_none_iff
    | some path => simp [CheckError.text?, PassError.render?]
  | unknownKind node =>
    cases a.source with
    | none => simp [CheckError.text?, PassError.text?]
    | some path => simpa [CheckError.text?] using (unknownKind_showsPlace node).eq_none_iff

theorem warningText?_eq_none {source : Option String} {w : Warning} :
    warningText? source w = none ↔ source = none ∧ ¬ColumnFits w.loc := by
  cases source with
  | none => simpa [warningText?] using w.text?_showsPlace.eq_none_iff
  | some source => simp [warningText?]

theorem columnsFit_of_ok {tree : Node} (htree : pooled.tree = .ok tree) (source : String) :
    ColumnsFit a pooled ↔ (a.format = .text →
      ∀ w ∈ pooled.results.warnings, warningText? (excerptSource a source) w ≠ none) := by
  simp only [ColumnsFit, shownPlaces, htree, ne_eq, warningText?_eq_none, excerptSource]
  cases a.format <;> cases a.source <;> simp

end Places

section Texts

@[simp] theorem joinMade_made (items : List String) :
    joinMade (items.map some) = String.join items := by
  induction items with
  | nil => rfl
  | cons item rest ih => rw [List.map_cons, joinMade, ih, String.join_cons]

@[simp] theorem joinMade_stopped (items : List String) (rest : List (Option String)) :
    joinMade (items.map some ++ none :: rest) = String.join items := by
  induction items with
  | nil => rfl
  | cons item more ih => rw [List.map_cons, List.cons_append, joinMade, ih, String.join_cons]

theorem exists_made {α : Type} (text? : α → Option String) {things : List α}
    (h : ∀ thing ∈ things, text? thing ≠ none) :
    ∃ items : List String, items.map some = things.map text? := by
  induction things with
  | nil => exact ⟨[], rfl⟩
  | cons thing rest ih =>
    obtain ⟨hthing, hrest⟩ := List.forall_mem_cons.1 h
    obtain ⟨item, hitem⟩ := Option.ne_none_iff_exists'.1 hthing
    obtain ⟨items, hitems⟩ := ih hrest
    exact ⟨item :: items, by rw [List.map_cons, List.map_cons, hitem, hitems]⟩

theorem exists_first_unmade {α : Type} (text? : α → Option String) {things : List α}
    (h : ¬∀ thing ∈ things, text? thing ≠ none) :
    ∃ before thing after, things = before ++ thing :: after ∧
      (∀ other ∈ before, text? other ≠ none) ∧ text? thing = none := by
  obtain ⟨thing, hfirst⟩ : ∃ thing, things.find? (fun thing => (text? thing).isNone) =
      some thing := by
    rw [← Option.isSome_iff_exists, List.find?_isSome]
    simpa using h
  obtain ⟨hnone, before, after, hsplit, hbefore⟩ := List.find?_eq_some_iff_append.1 hfirst
  exact ⟨before, thing, after, hsplit, by simpa [Option.isSome_iff_ne_none] using hbefore,
    by simpa using hnone⟩

end Texts

section Exit

variable {files : Files Id} {arguments : List String} {a : CheckArguments}

def exitOn (files : Files Id) (arguments : List String) : Exit := (execute files arguments).run

theorem exitOn_check (h : readArguments arguments = .ok (.check a)) :
    exitOn files arguments = exitOf a.format ((prepare files a).run >>= Job.run) := by
  simp only [exitOn, execute, h, Id.run_bind]
  cases (prepare files a).run <;> rfl

theorem NothingToRun.exit {e : CheckError} (h : NothingToRun files a e) :
    ∃ text, e.text? = some text ∧ e.exit = ⟨2, "", text⟩ := by
  obtain ⟨text, htext⟩ : ∃ text, e.text? = some text := by
    cases h with
    | config fails => exact ⟨_, rfl⟩
    | tree configured fails => cases fails <;> exact ⟨_, rfl⟩
    | source configured there fails =>
      obtain ⟨path, reason, -, -, rfl⟩ := fails
      exact ⟨_, rfl⟩
  exact ⟨text, htext, by rw [CheckError.exit, htext, h.code]⟩

theorem exitOn_of_nothingToRun (h : readArguments arguments = .ok (.check a)) {e : CheckError}
    (he : NothingToRun files a e) :
    ∃ text, e.text? = some text ∧ exitOn files arguments = ⟨2, "", text⟩ := by
  rw [exitOn_check h, prepare_eq_error.2 he]
  exact he.exit

theorem NothingToRun.anyFormat {e : CheckError} (h : NothingToRun files a e) (format : Format) :
    NothingToRun files { a with format } e := by
  have hprepare : (prepare files { a with format }).run = .error e :=
    (prepare_eq_error (a := a)).2 h
  exact prepare_eq_error.1 hprepare

theorem exitOn_of_runIs (h : readArguments arguments = .ok (.check a)) {source : String}
    {pooled : Pass.Pooled Unit} (hrun : RunIs files a (askedNames arguments) source pooled)
    {arguments' : List String} {format : Format}
    (h' : readArguments arguments' = .ok (.check { a with format })) :
    exitOn files arguments' = exitOf format (reportOf a source pooled) := by
  have houtcome : (prepare files { a with format }).run >>= Job.run = reportOf a source pooled :=
    hrun.outcome (lints_of_readArguments h)
  rw [exitOn_check h', houtcome]

theorem nothingToRun_or_runIs (files : Files Id) (h : readArguments arguments = .ok (.check a)) :
    (∃ e, NothingToRun files a e) ∨
      ∃ source pooled, RunIs files a (askedNames arguments) source pooled := by
  cases hprepare : (prepare files a).run with
  | error e => exact .inl ⟨e, prepare_eq_error.1 hprepare⟩
  | ok job => exact .inr (runIs_of_prepare (lints_of_readArguments h) hprepare)

/-- The exit tells of a run: a failure by the code 1, and a success by the code 0 and the list of
the warnings, which is all the output there is. -/
structure Tells (a : CheckArguments) (source : String) (pooled : Pass.Pooled Unit) (exit : Exit) :
    Prop where
  failed : exit.code = 1 ↔ ∃ e, pooled.tree = .error e
  succeeded : exit.code = 0 ↔ ∃ tree, pooled.tree = .ok tree
  lists : exit.code = 0 →
    Lists (excerptSource a source) pooled.results.warnings exit.stdout a.format
  quiet : exit.code ≠ 0 → exit.stdout = ""

/-- The check is stopped while it tells of a run: at once if that failed, and otherwise when it has
come to the first warning with the greatest column, with those before it listed. -/
structure BreaksOff (pooled : Pass.Pooled Unit) (exit : Exit) : Prop where
  code : exit.code = 101
  failed : ∀ e, pooled.tree = .error e → exit.stdout = ""
  succeeded : ∀ tree, pooled.tree = .ok tree → ∃ before w after,
    pooled.results.warnings = before ++ w :: after ∧ (∀ v ∈ before, ColumnFits v.loc) ∧
      ¬ColumnFits w.loc ∧ Lists none before exit.stdout .text

theorem exitOf_tells {pooled : Pass.Pooled Unit} (hfit : ColumnsFit a pooled) (source : String) :
    Tells a source pooled (exitOf a.format (reportOf a source pooled)) := by
  have hcodes : (1 : UInt8) ≠ 0 ∧ (0 : UInt8) ≠ 1 := by decide
  cases htree : pooled.tree with
  | error err =>
    obtain ⟨text, htext⟩ := Option.ne_none_iff_exists'.1
      (mt (failed_text?_eq_none htree).1 (not_not_intro hfit))
    have hexit : exitOf a.format (reportOf a source pooled) = ⟨1, "", text⟩ := by
      simp only [reportOf, htree, exitOf, CheckError.exit, htext]
      rfl
    rw [hexit]
    exact ⟨by simp [htree], by simp [htree, hcodes.1], fun h => absurd h hcodes.1, fun _ => rfl⟩
  | ok tree =>
    have hmade := (columnsFit_of_ok htree source).1 hfit
    obtain ⟨stdout, stderr, hexit, hlists⟩ : ∃ stdout stderr,
        exitOf a.format (reportOf a source pooled) = ⟨0, stdout, stderr⟩ ∧
          Lists (excerptSource a source) pooled.results.warnings stdout a.format := by
      simp only [reportOf, htree, exitOf]
      cases hformat : a.format with
      | json => exact ⟨_, _, rfl, json_lists _ _⟩
      | text =>
        obtain ⟨items, hitems⟩ := exists_made _ (hmade hformat)
        have hall : (items.map some).all Option.isSome = true := by simp
        simp only [Report.exit, ← hitems, hall, if_true, joinMade_made]
        exact ⟨_, _, rfl, items, rfl, hitems⟩
    rw [hexit]
    exact ⟨by simp [htree, hcodes.2], by simp [htree], fun _ => hlists, fun h => absurd rfl h⟩

theorem exitOf_breaksOff {pooled : Pass.Pooled Unit} (hfit : ¬ColumnsFit a pooled)
    (source : String) : BreaksOff pooled (exitOf a.format (reportOf a source pooled)) := by
  cases htree : pooled.tree with
  | error err =>
    have hexit : exitOf a.format (reportOf a source pooled) = .stopped "" := by
      simp only [reportOf, htree, exitOf, CheckError.exit, (failed_text?_eq_none htree).2 hfit]
    rw [hexit]
    exact ⟨rfl, fun _ _ => rfl, fun tree hok => nomatch htree.symm.trans hok⟩
  | ok tree =>
    rw [columnsFit_of_ok htree source, Classical.not_imp] at hfit
    obtain ⟨hformat, hunmade⟩ := hfit
    obtain ⟨before, w, after, hsplit, hbefore, hw⟩ := exists_first_unmade _ hunmade
    obtain ⟨hsource, hcolumn⟩ := warningText?_eq_none.1 hw
    obtain ⟨items, hitems⟩ := exists_made _ hbefore
    have hexit : exitOf a.format (reportOf a source pooled) = .stopped (String.join items) := by
      simp [reportOf, htree, exitOf, hformat, Report.exit, hsplit, hw, ← hitems]
    rw [hexit]
    refine ⟨rfl, fun e herr => (nomatch htree.symm.trans herr), fun _ _ =>
      ⟨before, w, after, hsplit, fun v hv => ?_, hcolumn, items, rfl, ?_⟩⟩
    · exact not_not.1 fun hnot => hbefore v hv (warningText?_eq_none.2 ⟨hsource, hnot⟩)
    · rw [hitems, hsource]
      rfl

theorem exitOf_code (a : CheckArguments) (source : String) (pooled : Pass.Pooled Unit) :
    (exitOf a.format (reportOf a source pooled)).code =
      if ColumnsFit a pooled then (if pooled.tree.isOk then 0 else 1) else 101 := by
  split
  · rename_i hfit
    have htells := exitOf_tells hfit source
    cases htree : pooled.tree with
    | error e => exact htells.failed.2 ⟨e, htree⟩
    | ok tree => exact htells.succeeded.2 ⟨tree, htree⟩
  · rename_i hfit
    exact (exitOf_breaksOff hfit source).code

end Exit

section Sample

def textFiles (entries : List (String × String)) : Files Id where
  read path :=
    match entries.lookup path with
    | some text => .ok text
    | none => .error .notFound
  isFile path := (entries.lookup path).isSome

def sampleArguments : List String := ["check", "--lint=no-debugger", "tree.json"]

def sampleCheck : CheckArguments := { ast := "tree.json", lints := [.noDebugger] }

def faultyFiles : Files Id :=
  textFiles [("tree.json", "[lints]"),
    ("./treepass.toml", "[lints]\nenabled = ['no-with', 'no-such']")]

def debuggerFiles : Files Id :=
  textFiles [("tree.json",
    "\x7b\"type\": \"Program\", \"body\": [\x7b\"type\": \"DebuggerStatement\"\x7d]\x7d")]

def farLoc : Loc := ⟨⟨1, 0xffffffffffffffff, none⟩, ⟨1, 0xffffffffffffffff, none⟩⟩

def farFiles : Files Id := textFiles [("tree.json", (located farLoc).text)]

end Sample

end CommandLine

end SyntaxWalk
