import SyntaxWalk.Proofs.Composition
import SyntaxWalk.Proofs.OrderedTree
import Mathlib.Data.List.Nodup

/-!
# The inventory of a handler set

The keys that a set lists, those it has something under, and their number are read off its tables in
different ways. For every set that is built up from the empty one they agree, and the keys stand in
one strict order, however the set was built (`keys_inventory`).
-/

namespace SyntaxWalk

namespace NameMap

variable {α : Type} {name : String}

theorem isSome_get? {m : NameMap α} : (m.get? name).isSome ↔ name ∈ m.names := by
  rw [← Option.ne_none_iff_isSome, Ne, get?, find_eq_none, Classical.not_not, names]

theorem sorted_overlay {m : NameMap α} (h : m.Sorted) (upper : NameMap α) :
    (m.overlay upper).Sorted := by
  obtain ⟨entries⟩ := upper
  simp only [overlay]
  induction entries with
  | nil => exact h
  | cons entry rest ih => exact sorted_insert ih entry.1 entry.2

end NameMap

namespace DispatchKey

def Precedes : DispatchKey → DispatchKey → Prop
  | .node kind phase, .node kind' phase' =>
    kind < kind' ∨ (kind = kind' ∧ phase = .enter ∧ phase' = .exit)
  | key, key' => key.rank < key'.rank

variable {a b c : DispatchKey}

theorem precedes_iff : Precedes a b ↔ a.rank < b.rank ∨ ∃ kind phase kind' phase',
    a = .node kind phase ∧ b = .node kind' phase' ∧
      (kind < kind' ∨ (kind = kind' ∧ phase = .enter ∧ phase' = .exit)) := by
  cases a <;> cases b <;> simp [Precedes, rank]

theorem Precedes.trans (hab : Precedes a b) (hbc : Precedes b c) : Precedes a c := by
  rw [precedes_iff] at *
  rcases hab with hab | ⟨kind, phase, kind', phase', rfl, rfl, hab⟩
  · rcases hbc with hbc | ⟨_, _, _, _, rfl, rfl, -⟩
    · exact .inl (Nat.lt_trans hab hbc)
    · exact absurd hab (Nat.not_lt_zero _)
  · rcases hbc with hbc | ⟨_, _, kind'', phase'', hb, rfl, hbc⟩
    · exact .inl hbc
    · obtain ⟨rfl, rfl⟩ := DispatchKey.node.inj hb
      refine .inr ⟨kind, phase, kind'', phase'', rfl, rfl, ?_⟩
      rcases hab with hab | ⟨rfl, rfl, rfl⟩
      · rcases hbc with hbc | ⟨rfl, -, -⟩
        · exact .inl (String.lt_trans hab hbc)
        · exact .inl hab
      · rcases hbc with hbc | ⟨-, hphase, -⟩
        · exact .inl hbc
        · cases hphase

theorem Precedes.ne (h : Precedes a b) : a ≠ b := by
  rintro rfl
  rcases precedes_iff.1 h with hlt | ⟨kind, phase, kind', phase', rfl, hsame, hnode⟩
  · exact Nat.lt_irrefl _ hlt
  · obtain ⟨rfl, rfl⟩ := DispatchKey.node.inj hsame
    rcases hnode with hlt | ⟨-, rfl, hexit⟩
    · exact String.lt_irrefl kind hlt
    · cases hexit

theorem le_iff : a.le b ↔ Precedes a b ∨ a = b := by
  rcases a with ⟨kind, _ | _⟩ | (_ | _ | _ | _) | _ | _ <;>
    rcases b with ⟨kind', _ | _⟩ | (_ | _ | _ | _) | _ | _ <;>
    simp [le, Precedes, rank]

theorem le_trans (a b c : DispatchKey) (hab : a.le b) (hbc : b.le c) : a.le c := by
  rw [le_iff] at *
  rcases hab with hab | rfl
  · rcases hbc with hbc | rfl
    · exact .inl (hab.trans hbc)
    · exact .inl hab
  · exact hbc

theorem le_total (a b : DispatchKey) : a.le b || b.le a := by
  have hnodes (kind kind' : String) (phase phase' : Phase) :
      (node kind phase).le (node kind' phase') || (node kind' phase').le (node kind phase) := by
    by_cases hkind : kind = kind'
    · subst hkind
      cases phase <;> cases phase' <;> simp [le]
    · by_cases hlt : kind < kind'
      · simp [le, hlt]
      · have hgt : kind' < kind :=
          String.not_le.1 fun hle => hkind (String.le_antisymm hle (String.not_lt.1 hlt))
        simp [le, hgt]
  cases a with
  | node kind phase =>
    cases b with
    | node kind' phase' => exact hnodes kind kind' phase phase'
    | around hook => simp [le, Nat.le_total]
    | scopeEnter => rfl
    | scopeExit => rfl
  | around hook => cases b <;> simp [le, Nat.le_total]
  | scopeEnter => cases b <;> simp [le, Nat.le_total]
  | scopeExit => cases b <;> simp [le, Nat.le_total]

end DispatchKey

namespace HandlerSet

variable {υ : Type}

/-- Put together from nothing, by handlers and scope hooks added one at a time and by other such
sets laid on top. -/
inductive Built : HandlerSet υ → Prop
  | empty : Built .empty
  | withEnter {h : HandlerSet υ} (hh : Built h) (kind : String) (handler : Handler υ) :
      Built (h.withEnter kind handler)
  | withExit {h : HandlerSet υ} (hh : Built h) (kind : String) (handler : Handler υ) :
      Built (h.withExit kind handler)
  | withHook {h : HandlerSet υ} (hh : Built h) (hook : Hook) (handler : Handler υ) :
      Built (h.withHook hook handler)
  | withScopeEnter {h : HandlerSet υ} (hh : Built h) (hook : ScopeHook υ) :
      Built (h.withScopeEnter hook)
  | withScopeExit {h : HandlerSet υ} (hh : Built h) (hook : ScopeHook υ) :
      Built (h.withScopeExit hook)
  | merge {h upper : HandlerSet υ} (hh : Built h) (hupper : Built upper) : Built (h.merge upper)

variable {h : HandlerSet υ} {key : DispatchKey}

theorem Built.sorted (hh : h.Built) : h.onEnter.Sorted ∧ h.onExit.Sorted := by
  induction hh with
  | empty => exact ⟨List.Pairwise.nil, List.Pairwise.nil⟩
  | withEnter _ kind handler ih => exact ⟨NameMap.sorted_insert ih.1 kind handler, ih.2⟩
  | withExit _ kind handler ih => exact ⟨ih.1, NameMap.sorted_insert ih.2 kind handler⟩
  | withHook _ hook handler ih => exact ih
  | withScopeEnter _ hook ih => exact ih
  | withScopeExit _ hook ih => exact ih
  | merge _ _ ih => exact ⟨NameMap.sorted_overlay ih.1 _, NameMap.sorted_overlay ih.2 _⟩

theorem contains_node_iff {kind : String} {phase : Phase} :
    h.contains (.node kind phase) ↔
      kind ∈ match phase with
        | .enter => h.onEnter.names
        | .exit => h.onExit.names := by
  cases phase <;> exact NameMap.isSome_get?

theorem mem_tabled : key ∈ h.tabled ↔ h.contains key := by
  rcases key with ⟨kind, _ | _⟩ | hook | _ | _
  · simp [tabled, contains_node_iff]
  · simp [tabled, contains_node_iff]
  · cases hook <;> simp [tabled, contains, Hook.all]
  · cases hscope : h.scopeEnter <;> simp [tabled, contains, hscope]
  · cases hscope : h.scopeExit <;> simp [tabled, contains, hscope]

theorem tabled_nodup (hh : h.Built) : h.tabled.Nodup := by
  have henter : (h.onEnter.names.map (DispatchKey.node · .enter)).Nodup :=
    List.Nodup.map (fun _ _ heq => (DispatchKey.node.inj heq).1) hh.sorted.1.nodup
  have hexit : (h.onExit.names.map (DispatchKey.node · .exit)).Nodup :=
    List.Nodup.map (fun _ _ heq => (DispatchKey.node.inj heq).1) hh.sorted.2.nodup
  have hhooks : ((Hook.all.filter fun hook => (h.hooks hook).isSome).map
      DispatchKey.around).Nodup :=
    List.Nodup.map (fun _ _ => DispatchKey.around.inj) (List.Nodup.filter _ (by decide))
  have hscopes : ((h.scopeEnter.toList.map fun _ => DispatchKey.scopeEnter) ++
      h.scopeExit.toList.map fun _ => DispatchKey.scopeExit).Nodup := by
    cases h.scopeEnter <;> cases h.scopeExit <;> simp
  refine List.nodup_append.2 ⟨henter, List.nodup_append.2 ⟨hexit, List.nodup_append.2
    ⟨hhooks, hscopes, ?hooks⟩, ?exits⟩, ?enters⟩
  case hooks =>
    rintro _ hkey _ hother rfl
    obtain ⟨hook, -, rfl⟩ := List.mem_map.1 hkey
    simp at hother
  case exits =>
    rintro _ hkey _ hother rfl
    obtain ⟨kind, -, rfl⟩ := List.mem_map.1 hkey
    simp at hother
  case enters =>
    rintro _ hkey _ hother rfl
    obtain ⟨kind, -, rfl⟩ := List.mem_map.1 hkey
    simp at hother

theorem keys_perm_tabled (h : HandlerSet υ) : h.keys.Perm h.tabled := List.mergeSort_perm ..

theorem mem_keys : key ∈ h.keys ↔ h.contains key := (keys_perm_tabled h).mem_iff.trans mem_tabled

theorem keys_nodup (hh : h.Built) : h.keys.Nodup :=
  (keys_perm_tabled h).nodup_iff.mpr (tabled_nodup hh)

theorem keys_sorted (h : HandlerSet υ) : h.keys.Pairwise fun key key' => key.le key' :=
  List.pairwise_mergeSort DispatchKey.le_trans DispatchKey.le_total h.tabled

theorem keys_pairwise (hh : h.Built) : h.keys.Pairwise DispatchKey.Precedes :=
  (keys_sorted h).imp₂ (fun _ _ hle hne => (DispatchKey.le_iff.1 hle).resolve_right hne)
    (keys_nodup hh)

theorem keys_eq_of_perm {keys : List DispatchKey} (hperm : h.tabled.Perm keys)
    (hordered : keys.Pairwise fun key key' => key.le key') : h.keys = keys := by
  refine List.Perm.eq_of_pairwise (fun key key' _ _ hle hge => ?_) (keys_sorted h) hordered
    ((keys_perm_tabled h).trans hperm)
  rcases DispatchKey.le_iff.1 hle with hlt | heq
  · rcases DispatchKey.le_iff.1 hge with hgt | heq
    · exact absurd rfl (hlt.trans hgt).ne
    · exact heq.symm
  · exact heq

theorem length_tabled (h : HandlerSet υ) : h.tabled.length = h.size := by
  simp only [tabled, size, NameMap.names, NameMap.size, List.length_append, List.length_map]
  cases h.scopeEnter <;> cases h.scopeExit <;> simp <;> omega

theorem size_eq_length_keys (h : HandlerSet υ) : h.size = h.keys.length := by
  rw [(keys_perm_tabled h).length_eq, length_tabled]

theorem isEmpty_iff : h.isEmpty ↔ ∀ key, ¬ h.contains key := by
  rw [isEmpty, decide_eq_true_iff, size_eq_length_keys, List.length_eq_zero_iff,
    List.eq_nil_iff_forall_not_mem]
  simp only [mem_keys]

/-- The keys of a set that was built up stand in the order of dispatch keys, none of them twice.
They are those that the set contains and that a lookup finds something under, and the size of the
set is how many they are. -/
theorem keys_inventory (hh : h.Built) :
    h.keys.Pairwise DispatchKey.Precedes ∧ h.keys.Nodup ∧
    (∀ key, h.contains key ↔ key ∈ h.keys) ∧
    (∀ key, h.contains key ↔ ∃ d, h.definition? key = some d) ∧
    h.size = h.keys.length ∧
    (h.isEmpty ↔ ∀ key, ¬ h.contains key) := by
  refine ⟨keys_pairwise hh, keys_nodup hh, fun key => mem_keys.symm, fun key => ?_,
    size_eq_length_keys h, isEmpty_iff⟩
  rw [contains_eq, Option.isSome_iff_exists]

def looping : HandlerSet Unit :=
  merge (.withScopeExit (.withExit (.withEnter .empty "LoopExit" (saying "in")) "Loop"
      (saying "below")) fun _ memory => (none, memory))
    (.withHook (.withExit (.withEnter .empty "Loop" (saying "in")) "Loop" (saying "above"))
      .afterEnter (saying "after"))

theorem looping_built : looping.Built :=
  .merge (.withScopeExit (.withExit (.withEnter .empty _ _) _ _) _)
    (.withHook (.withExit (.withEnter .empty _ _) _ _) _ _)

theorem keys_inventory_looping :
    looping.Built ∧
    looping.keys = [.node "Loop" .enter, .node "Loop" .exit, .node "LoopExit" .enter,
      .around .afterEnter, .scopeExit] ∧
    looping.keys.Pairwise DispatchKey.Precedes ∧ looping.size = looping.keys.length ∧
    ¬ looping.isEmpty ∧
    looping.contains (.node "LoopExit" .enter) ∧ ¬ looping.contains (.node "LoopExit" .exit) ∧
    ∃ d, looping.definition? (.node "Loop" .exit) = some d := by
  obtain ⟨hordered, -, hcontains, hfound, hsize, hempty⟩ := keys_inventory looping_built
  have hkeys : looping.keys = [.node "Loop" .enter, .node "Loop" .exit, .node "LoopExit" .enter,
      .around .afterEnter, .scopeExit] :=
    keys_eq_of_perm (by decide) (by decide)
  refine ⟨looping_built, hkeys, hordered, hsize, ?_, ?_, ?_, ?_⟩
  · intro hnone
    refine hempty.1 hnone .scopeExit ?_
    rw [hcontains, hkeys]
    decide
  · rw [hcontains, hkeys]
    decide
  · rw [hcontains, hkeys]
    decide
  · rw [← hfound, hcontains, hkeys]
    decide

end HandlerSet

end SyntaxWalk
