import SyntaxWalk.CommandLine
import SyntaxWalk.Proofs.OrderedJson

/-!
# What a check reads

A check reads its configuration, its tree and its source, in this order, each from a file that may
be missing or wrong. Either all three are there or one of them is the first fault, and which it is
depends on nothing but the files (`prepare_eq_error`, `prepare_eq_ok`).
-/

namespace SyntaxWalk.CommandLine

section Inputs

variable (files : Files Id) (a : CheckArguments)

/-- The file that the configuration is read from: the one asked for, or else one of the usual name
next to the tree, if there is one. -/
def configPath? : Option String :=
  match a.config with
  | some path => some path
  | none =>
    let path := Config.pathIn (directoryOf a.ast) Config.fileName
    if (files.isFile path).run then some path else none

inductive ConfigFails : ConfigError → Prop
  | unreadable {path : String} {e : FileError} (place : configPath? files a = some path)
      (read : (files.read path).run = .error e) : ConfigFails (.unreadable path e)
  | invalid {path text : String} {fault : ConfigFault} (place : configPath? files a = some path)
      (read : (files.read path).run = .ok text) (fails : Config.read text = .error fault) :
      ConfigFails (.invalid (some path) fault)
  | unknownLint {path text name : String} {c : Config} {before after : List String}
      (place : configPath? files a = some path) (read : (files.read path).run = .ok text)
      (valid : Config.read text = .ok c) (enabled : c.lints.enabled = before ++ name :: after)
      (first : ∀ other ∈ before, (Lint.ofName? other).isSome)
      (unknown : Lint.ofName? name = none) : ConfigFails (.unknownLint name)

inductive Configured : Config → Prop
  | absent (place : configPath? files a = none) : Configured {}
  | read {path text : String} {c : Config} (place : configPath? files a = some path)
      (read : (files.read path).run = .ok text) (valid : Config.read text = .ok c)
      (known : ∀ name ∈ c.lints.enabled, (Lint.ofName? name).isSome) : Configured c

inductive TreeFails : CheckError → Prop
  | unreadable {e : FileError} (read : (files.read a.ast).run = .error e) :
      TreeFails (.unreadable a.ast e)
  | invalid {text : String} {e : ParseError} (read : (files.read a.ast).run = .ok text)
      (fails : parseTree text = .error e) : TreeFails (.invalidTree a.ast e)

def TreeIs (tree : Node) : Prop :=
  ∃ text, (files.read a.ast).run = .ok text ∧ parseTree text = .ok tree

def SourceFails (e : CheckError) : Prop :=
  ∃ path reason, a.source = some path ∧ (files.read path).run = .error reason ∧
    e = .unreadable path reason

inductive SourceIs : String → String → Prop
  | given {path text : String} (asked : a.source = some path)
      (read : (files.read path).run = .ok text) : SourceIs text path
  | absent (asked : a.source = none) : SourceIs "" a.ast

/-- There is no run, and this is the first reason for it. -/
inductive NothingToRun : CheckError → Prop
  | config {e : ConfigError} (fails : ConfigFails files a e) : NothingToRun (.config e)
  | tree {c : Config} {e : CheckError} (configured : Configured files a c)
      (fails : TreeFails files a e) : NothingToRun e
  | source {c : Config} {tree : Node} {e : CheckError} (configured : Configured files a c)
      (there : TreeIs files a tree) (fails : SourceFails files a e) : NothingToRun e

end Inputs

section Faults

variable {ε ε' α : Type} (f : ε → ε')

@[simp] theorem mapError_ok (a : α) : (Except.ok a : Except ε α).mapError f = .ok a := rfl

@[simp] theorem mapError_error (e : ε) :
    (Except.error e : Except ε α).mapError f = .error (f e) := rfl

end Faults

section Config

variable {c d : Config} {e : ConfigError}

theorem validate_eq_ok :
    c.validate = .ok d ↔ d = c ∧ ∀ name ∈ c.lints.enabled, (Lint.ofName? name).isSome := by
  refine ⟨Config.validate_ok, ?_⟩
  rintro ⟨rfl, hknown⟩
  have hnone : (d.lints.enabled.find? fun name => (Lint.ofName? name).isNone) = none := by
    simpa [Option.isSome_iff_ne_none] using hknown
  rw [Config.validate, hnone]

theorem validate_eq_error :
    c.validate = .error e ↔ ∃ before name after, c.lints.enabled = before ++ name :: after ∧
      (∀ other ∈ before, (Lint.ofName? other).isSome) ∧ Lint.ofName? name = none ∧
      e = .unknownLint name := by
  constructor
  · intro h
    unfold Config.validate at h
    split at h
    · rename_i name hfind
      cases h
      obtain ⟨hunknown, before, after, henabled, hfirst⟩ := List.find?_eq_some_iff_append.1 hfind
      exact ⟨before, name, after, henabled, by simpa [Option.isSome_iff_ne_none] using hfirst,
        by simpa using hunknown, rfl⟩
    · cases h
  · rintro ⟨before, name, after, henabled, hfirst, hunknown, rfl⟩
    have hfind : (c.lints.enabled.find? fun name => (Lint.ofName? name).isNone) = some name := by
      refine List.find?_eq_some_iff_append.2 ⟨by simp [hunknown], before, after, henabled, ?_⟩
      simpa [Option.isSome_iff_ne_none] using hfirst
    rw [Config.validate, hfind]

end Config

section Loading

variable {files : Files Id} {a : CheckArguments}

theorem load_eq (files : Files Id) (path : String) :
    (Config.load files path).run = match (files.read path).run with
      | .error e => .error (.unreadable path e)
      | .ok text => Config.parse text (some path) := rfl

theorem discover_eq (files : Files Id) (directory : String) :
    (Config.discover files directory).run =
      if (files.isFile (Config.pathIn directory Config.fileName)).run then
        (Config.load files (Config.pathIn directory Config.fileName)).run.map some
      else .ok none := by
  simp only [Config.discover, Id.run_bind]
  split <;> rfl

theorem loadConfig_eq (files : Files Id) (a : CheckArguments) :
    (loadConfig files a).run = match configPath? files a with
      | none => .ok {}
      | some path => (Config.load files path).run.mapError .config := by
  unfold configPath?
  cases hasked : a.config with
  | some path =>
    rw [loadConfig, hasked]
    rfl
  | none =>
    have hload : (loadConfig files a).run =
        ((Config.discover files (directoryOf a.ast)).run.map (·.getD {})).mapError .config := by
      rw [loadConfig, hasked]
      rfl
    have hdefault : ∀ x : Except ConfigError Config,
        ((x.map some).map (·.getD {})).mapError CheckError.config = x.mapError .config := by
      intro x
      cases x <;> rfl
    rw [hload, discover_eq]
    dsimp only
    split
    · exact hdefault _
    · rfl

variable {c : Config}

theorem parse_eq_ok {text : String} {path : Option String} :
    Config.parse text path = .ok c ↔
      Config.read text = .ok c ∧ ∀ name ∈ c.lints.enabled, (Lint.ofName? name).isSome := by
  rw [Config.parse]
  cases Config.read text with
  | error fault => simp [bind, Except.bind]
  | ok d =>
    simp only [mapError_ok, bind, Except.bind, validate_eq_ok, Except.ok.injEq]
    constructor
    · rintro ⟨rfl, hknown⟩
      exact ⟨rfl, hknown⟩
    · rintro ⟨rfl, hknown⟩
      exact ⟨rfl, hknown⟩

theorem configured_iff : Configured files a c ↔ (loadConfig files a).run = .ok c := by
  rw [loadConfig_eq]
  constructor
  · rintro (place | ⟨place, read, valid, known⟩)
    · rw [place]
    · simp [place, load_eq, read, parse_eq_ok.2 ⟨valid, known⟩]
  · intro h
    split at h
    · rename_i hplace
      cases h
      exact .absent hplace
    · rename_i path hplace
      have hload := of_mapError_eq_ok h
      rw [load_eq] at hload
      split at hload
      · cases hload
      · rename_i text hread
        obtain ⟨hvalid, hknown⟩ := parse_eq_ok.1 hload
        exact .read hplace hread hvalid hknown

theorem configFails_iff {e : CheckError} :
    (∃ reason, e = .config reason ∧ ConfigFails files a reason) ↔
      (loadConfig files a).run = .error e := by
  rw [loadConfig_eq]
  constructor
  · rintro ⟨reason, rfl, fails⟩
    cases fails with
    | unreadable place read => simp [place, load_eq, read]
    | invalid place read fails =>
      simp [place, load_eq, read, Config.parse, fails, bind, Except.bind]
    | unknownLint place read valid enabled first unknown =>
      have hvalidate := validate_eq_error.2 ⟨_, _, _, enabled, first, unknown, rfl⟩
      simp [place, load_eq, read, Config.parse, valid, hvalidate, bind, Except.bind]
  · intro h
    split at h
    · cases h
    · rename_i path hplace
      rw [load_eq] at h
      split at h
      · rename_i reason hread
        cases h
        exact ⟨_, rfl, .unreadable hplace hread⟩
      · rename_i text hread
        rw [Config.parse] at h
        cases hvalid : Config.read text with
        | error fault =>
          rw [hvalid] at h
          cases h
          exact ⟨_, rfl, .invalid hplace hread hvalid⟩
        | ok c =>
          rw [hvalid] at h
          cases hvalidate : c.validate with
          | ok d =>
            simp [bind, Except.bind, hvalidate] at h
          | error reason =>
            simp [bind, Except.bind, hvalidate] at h
            obtain ⟨before, name, after, henabled, hfirst, hunknown, rfl⟩ :=
              validate_eq_error.1 hvalidate
            exact ⟨_, h.symm, .unknownLint hplace hread hvalid henabled hfirst hunknown⟩

theorem loadTree_eq (files : Files Id) (path : String) :
    (loadTree files path).run = match (files.read path).run with
      | .error e => .error (.unreadable path e)
      | .ok text => (parseTree text).mapError (.invalidTree path) := by
  simp only [loadTree, readFile, Id.run_bind]
  cases (files.read path).run <;> rfl

theorem treeIs_iff {tree : Node} : TreeIs files a tree ↔ (loadTree files a.ast).run = .ok tree := by
  rw [loadTree_eq]
  constructor
  · rintro ⟨text, hread, htree⟩
    simp [hread, htree]
  · intro h
    split at h
    · cases h
    · rename_i text hread
      exact ⟨text, hread, of_mapError_eq_ok h⟩

theorem treeFails_iff {e : CheckError} :
    TreeFails files a e ↔ (loadTree files a.ast).run = .error e := by
  rw [loadTree_eq]
  constructor
  · rintro (read | ⟨read, fails⟩)
    · simp [read]
    · simp [read, fails]
  · intro h
    split at h
    · rename_i hread
      cases h
      exact .unreadable hread
    · rename_i text hread
      cases htree : parseTree text with
      | ok tree => simp [htree] at h
      | error reason =>
        rw [htree] at h
        cases h
        exact .invalid hread htree

theorem loadSource_eq (files : Files Id) (a : CheckArguments) :
    (loadSource files a).run = match a.source with
      | none => .ok ("", a.ast)
      | some path => ((files.read path).run.mapError (.unreadable path)).map (·, path) := by
  unfold loadSource
  cases a.source <;> rfl

theorem sourceIs_iff {source filename : String} :
    SourceIs files a source filename ↔ (loadSource files a).run = .ok (source, filename) := by
  rw [loadSource_eq]
  constructor
  · rintro (⟨asked, read⟩ | asked)
    · simp [asked, read, Except.map]
    · simp [asked]
  · intro h
    split at h
    · rename_i hasked
      cases h
      exact .absent hasked
    · rename_i path hasked
      obtain ⟨text, hread, heq⟩ := of_map_eq_ok h
      cases heq
      exact .given hasked (of_mapError_eq_ok hread)

theorem sourceFails_iff {e : CheckError} :
    SourceFails files a e ↔ (loadSource files a).run = .error e := by
  rw [loadSource_eq]
  constructor
  · rintro ⟨path, reason, asked, read, rfl⟩
    simp [asked, read, Except.map]
  · intro h
    split at h
    · cases h
    · rename_i path hasked
      cases hread : (files.read path).run with
      | ok text => simp [hread, Except.map] at h
      | error reason =>
        rw [hread] at h
        cases h
        exact ⟨path, reason, hasked, hread, rfl⟩

end Loading

section Preparing

variable {files : Files Id} {a : CheckArguments}

theorem bind_eq_error {ε α β : Type} {x : Except ε α} {f : α → Except ε β} {e : ε} :
    x >>= f = .error e ↔ x = .error e ∨ ∃ a, x = .ok a ∧ f a = .error e := by
  cases x <;> simp [bind, Except.bind]

def jobOf (a : CheckArguments) (c : Config) (tree : Node) (source filename : String) : Job :=
  ⟨tree, ⟨source, filename, c.visitorKeys⟩, selectLints a.lints c, a.source.isSome⟩

theorem prepare_eq (files : Files Id) (a : CheckArguments) :
    (prepare files a).run = (loadConfig files a).run >>= fun c =>
      (loadTree files a.ast).run >>= fun tree =>
        (loadSource files a).run >>= fun source => .ok (jobOf a c tree source.1 source.2) := by
  simp only [prepare, Id.run_bind]
  cases (loadConfig files a).run with
  | error e => rfl
  | ok c =>
    simp only [Id.run_bind]
    cases (loadTree files a.ast).run with
    | error e => rfl
    | ok tree =>
      simp only [Id.run_bind]
      cases (loadSource files a).run <;> rfl

theorem prepare_eq_ok {job : Job} :
    (prepare files a).run = .ok job ↔ ∃ c tree source filename, Configured files a c ∧
      TreeIs files a tree ∧ SourceIs files a source filename ∧
      job = jobOf a c tree source filename := by
  rw [prepare_eq]
  constructor
  · intro h
    obtain ⟨c, hconfig, h⟩ := of_bind_eq_ok h
    obtain ⟨tree, htree, h⟩ := of_bind_eq_ok h
    obtain ⟨⟨source, filename⟩, hsource, h⟩ := of_bind_eq_ok h
    exact ⟨c, tree, source, filename, configured_iff.2 hconfig, treeIs_iff.2 htree,
      sourceIs_iff.2 hsource, (Except.ok.inj h).symm⟩
  · rintro ⟨c, tree, source, filename, hconfig, htree, hsource, rfl⟩
    rw [configured_iff.1 hconfig, treeIs_iff.1 htree, sourceIs_iff.1 hsource]
    rfl

theorem prepare_eq_error {e : CheckError} :
    (prepare files a).run = .error e ↔ NothingToRun files a e := by
  rw [prepare_eq, bind_eq_error, ← configFails_iff]
  simp only [bind_eq_error, ← configured_iff, ← treeFails_iff, ← treeIs_iff, ← sourceFails_iff,
    reduceCtorEq, and_false, exists_false, or_false]
  constructor
  · rintro (⟨reason, rfl, fails⟩ | ⟨c, hconfig, fails | ⟨tree, htree, fails⟩⟩)
    · exact .config fails
    · exact .tree hconfig fails
    · exact .source hconfig htree fails
  · intro h
    cases h with
    | config fails => exact .inl ⟨_, rfl, fails⟩
    | tree configured fails => exact .inr ⟨_, configured, .inl fails⟩
    | source configured there fails => exact .inr ⟨_, configured, .inr ⟨_, there, fails⟩⟩

end Preparing

end SyntaxWalk.CommandLine
