import SyntaxWalk.Proofs.Journal

/-!
# Sets on the baseline

A set that defines none of the keys of the baseline leaves the four baseline handlers in place, and
so does any list of such sets (`compose_onBaseline`).
-/

namespace SyntaxWalk

variable {υ : Type}

def Options.sourceless : Options := ⟨"", "", .withFallback .empty .fields⟩

def OpensScope (kind : String) : Prop := kind = programKind ∨ kind = functionExpressionKind

instance (kind : String) : Decidable (OpensScope kind) := inferInstanceAs (Decidable (_ ∨ _))

namespace HandlerSet

structure SparesBaseline (good : Handler υ → Prop) (h : HandlerSet υ) : Prop where
  spares : ∀ key, (baseline : HandlerSet υ).contains key → ¬ h.contains key
  handlers : ∀ key handler, h.lookup key = some handler → good handler

structure OnBaseline (good : Handler υ → Prop) (h : HandlerSet υ) : Prop where
  baseline : ∀ kind phase, OpensScope kind →
    h.lookup (.node kind phase) = (HandlerSet.baseline : HandlerSet υ).lookup (.node kind phase)
  others : ∀ kind phase handler, ¬ OpensScope kind → h.lookup (.node kind phase) = some handler →
    good handler
  hooks : ∀ hook handler, h.lookup (.around hook) = some handler → good handler

theorem baseline_enter (kind : String) :
    (baseline : HandlerSet υ).lookup (.node kind .enter) =
      if kind = functionExpressionKind then some Baseline.openFunction
      else if kind = programKind then some Baseline.openProgram else none := by
  simp only [baseline, lookup, handler?, withEnter, withExit, NameMap.get?_insert]
  split
  · rfl
  · split
    · rfl
    · rfl

theorem baseline_exit (kind : String) :
    (baseline : HandlerSet υ).lookup (.node kind .exit) =
      if OpensScope kind then some Baseline.close else none := by
  simp only [baseline, lookup, handler?, withEnter, withExit, NameMap.get?_insert, OpensScope]
  by_cases hf : kind = functionExpressionKind
  · simp [hf]
  · by_cases hp : kind = programKind
    · simp [hp]
    · simp only [hf, hp, if_false, or_self]
      rfl

theorem contains_node (h : HandlerSet υ) (kind : String) (phase : Phase) :
    h.contains (.node kind phase) = (h.lookup (.node kind phase)).isSome := rfl

theorem lookup_merge (h upper : HandlerSet υ) (key : DispatchKey) :
    (h.merge upper).lookup key = (upper.lookup key).or (h.lookup key) := by
  cases key with
  | node kind phase => exact handler?_merge h upper phase kind
  | around hook => rfl
  | scopeEnter => rfl
  | scopeExit => rfl

theorem baseline_contains_iff (kind : String) (phase : Phase) :
    (baseline : HandlerSet υ).contains (.node kind phase) ↔ OpensScope kind := by
  rw [contains_node]
  cases phase with
  | enter =>
    rw [baseline_enter, OpensScope]
    by_cases hf : kind = functionExpressionKind
    · simp [hf]
    · rw [if_neg hf]
      by_cases hp : kind = programKind <;> simp [hf, hp]
  | exit =>
    rw [baseline_exit]
    by_cases h : OpensScope kind <;> simp [h]

variable {good : Handler υ → Prop}

theorem baseline_onBaseline : (baseline : HandlerSet υ).OnBaseline good where
  baseline _ _ _ := rfl
  others kind phase handler hkind h := by
    have hc : (baseline : HandlerSet υ).contains (.node kind phase) := by
      rw [contains_node, h]
      rfl
    exact absurd ((baseline_contains_iff kind phase).1 hc) hkind
  hooks hook handler h := by
    have hnone : (baseline : HandlerSet υ).lookup (.around hook) = none := rfl
    rw [hnone] at h
    cases h

theorem SparesBaseline.lookup_eq_none {h : HandlerSet υ} (hh : h.SparesBaseline good)
    {kind : String} (hkind : OpensScope kind) (phase : Phase) :
    h.lookup (.node kind phase) = none := by
  have hspares := hh.spares (.node kind phase) ((baseline_contains_iff kind phase).2 hkind)
  simpa [contains_node] using hspares

theorem merge_onBaseline {h upper : HandlerSet υ} (hh : h.OnBaseline good)
    (hu : upper.SparesBaseline good) : (h.merge upper).OnBaseline good := by
  have hor : ∀ key handler, (∀ h', h.lookup key = some h' → good h') →
      (h.merge upper).lookup key = some handler → good handler := by
    intro key handler hgood hl
    rw [lookup_merge] at hl
    cases hup : upper.lookup key with
    | none =>
      rw [hup] at hl
      exact hgood handler hl
    | some other =>
      rw [hup] at hl
      cases hl
      exact hu.handlers key _ hup
  refine ⟨fun kind phase hkind => ?_, fun kind phase handler hkind => ?_, fun hook handler => ?_⟩
  · rw [lookup_merge, hu.lookup_eq_none hkind phase]
    exact hh.baseline kind phase hkind
  · exact hor _ handler fun h' => hh.others kind phase h' hkind
  · exact hor _ handler (hh.hooks hook)

theorem compose_onBaseline {sets : List (HandlerSet υ)}
    (hsets : ∀ set ∈ sets, set.SparesBaseline good) : (compose sets).OnBaseline good :=
  List.foldlRecOn sets merge baseline_onBaseline fun _ hh set hset =>
    merge_onBaseline hh (hsets set hset)

theorem lookup_empty (key : DispatchKey) : (empty : HandlerSet υ).lookup key = none := by
  rcases key with ⟨kind, phase⟩ | hook | _ | _
  · cases phase <;> rfl
  all_goals rfl

theorem lookup_withEnter (h : HandlerSet υ) (kind : String) (handler : Handler υ)
    (key : DispatchKey) : (h.withEnter kind handler).lookup key =
      if key = .node kind .enter then some handler else h.lookup key := by
  rcases key with ⟨other, phase⟩ | hook | _ | _
  · cases phase with
    | enter => simp [lookup, handler?_withEnter]
    | exit =>
      rw [if_neg (by simp)]
      rfl
  all_goals rfl

theorem lookup_withExit (h : HandlerSet υ) (kind : String) (handler : Handler υ)
    (key : DispatchKey) : (h.withExit kind handler).lookup key =
      if key = .node kind .exit then some handler else h.lookup key := by
  rcases key with ⟨other, phase⟩ | hook | _ | _
  · cases phase with
    | enter =>
      rw [if_neg (by simp)]
      rfl
    | exit => simp [lookup, handler?_withExit]
  all_goals rfl

theorem lookup_withHook (h : HandlerSet υ) (hook : Hook) (handler : Handler υ)
    (key : DispatchKey) : (h.withHook hook handler).lookup key =
      if key = .around hook then some handler else h.lookup key := by
  rcases key with ⟨kind, phase⟩ | other | _ | _
  · cases phase <;> rfl
  · simp [lookup, withHook]
  all_goals rfl

theorem added_handlers {h h' : HandlerSet υ} {added : DispatchKey} {handler : Handler υ}
    (hh : ∀ key other, h.lookup key = some other → good other)
    (hlookup : ∀ key, h'.lookup key = if key = added then some handler else h.lookup key)
    (hgood : good handler) : ∀ key other, h'.lookup key = some other → good other := by
  intro key other h
  rw [hlookup] at h
  split at h
  · cases h
    exact hgood
  · exact hh key other h

theorem empty_handlers :
    ∀ key handler, (empty : HandlerSet υ).lookup key = some handler → good handler := by
  intro key handler h
  rw [lookup_empty] at h
  cases h

theorem spares_of_lookup {h : HandlerSet υ}
    (hlookup : ∀ kind phase, OpensScope kind → h.lookup (.node kind phase) = none) :
    ∀ key, (baseline : HandlerSet υ).contains key → ¬ h.contains key := by
  intro key hkey
  rcases key with ⟨kind, phase⟩ | hook | _ | _
  · rw [contains_node, hlookup kind phase ((baseline_contains_iff kind phase).1 hkey)]
    exact Bool.false_ne_true
  all_goals cases hkey

/-- Whatever the handlers of the baseline and of every set have, those of the composed set have. -/
theorem compose_handlers {sets : List (HandlerSet υ)}
    (hbase : ∀ key handler, (baseline : HandlerSet υ).lookup key = some handler → good handler)
    (hsets : ∀ set ∈ sets, ∀ key handler, set.lookup key = some handler → good handler) :
    ∀ key handler, (compose sets).lookup key = some handler → good handler := by
  refine List.foldlRecOn
    (motive := fun h : HandlerSet υ => ∀ key handler, h.lookup key = some handler → good handler)
    sets merge hbase fun h hh set hset key handler hl => ?_
  rw [lookup_merge] at hl
  rcases Option.or_eq_some_iff.1 hl with hl | ⟨-, hl⟩
  · exact hsets set hset key handler hl
  · exact hh key handler hl

theorem baseline_handlers (hprogram : good Baseline.openProgram)
    (hfunction : good Baseline.openFunction) (hclose : good Baseline.close) :
    ∀ key handler, (baseline : HandlerSet υ).lookup key = some handler → good handler := by
  intro key handler h
  rcases key with ⟨kind, phase⟩ | hook | _ | _
  · cases phase with
    | enter =>
      rw [baseline_enter] at h
      split at h
      · cases h
        exact hfunction
      · split at h
        · cases h
          exact hprogram
        · cases h
    | exit =>
      rw [baseline_exit] at h
      split at h
      · cases h
        exact hclose
      · cases h
  all_goals cases h

theorem empty_sparesBaseline : (empty : HandlerSet υ).SparesBaseline good where
  spares := spares_of_lookup fun kind phase _ => lookup_empty (.node kind phase)
  handlers := empty_handlers

theorem SparesBaseline.add {h h' : HandlerSet υ} (hh : h.SparesBaseline good)
    {added : DispatchKey} {handler : Handler υ}
    (hlookup : ∀ key, h'.lookup key = if key = added then some handler else h.lookup key)
    (hadded : ¬ (baseline : HandlerSet υ).contains added) (hgood : good handler) :
    h'.SparesBaseline good where
  spares := by
    refine spares_of_lookup fun kind phase hkind => ?_
    rw [hlookup, if_neg]
    · exact hh.lookup_eq_none hkind phase
    · rintro rfl
      exact hadded ((baseline_contains_iff kind phase).2 hkind)
  handlers := added_handlers hh.handlers hlookup hgood

end HandlerSet

end SyntaxWalk
