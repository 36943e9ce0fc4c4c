import SyntaxWalk.Proofs.Conduct

/-!
# The points of a visit

A visit looks handlers up at six points and calls those that there are. With the calls of the visits
inside it left out, those of a visit are the six in order, or the first of them where it does not
succeed (`walk_calls`).
-/

namespace SyntaxWalk

namespace VisitPoints

variable {υ : Type} {p : Pass υ} {past : List (Event υ)}

def keysAt (level : Nat) (events : List (Event υ)) : List DispatchKey :=
  events.filterMap fun
    | .reached m => if m.path.length = level then some m.key else none
    | .failed _ _ => none

def exitKeys (kind : String) : List DispatchKey :=
  [.around .beforeExit, .node kind .exit, .around .afterExit]

def visitKeys (kind kind' : String) : List DispatchKey :=
  [.around .beforeEnter, .node kind .enter, .around .afterEnter] ++ exitKeys kind'

def Within (level : Nat) : Event υ → Prop
  | .reached m => level ≤ m.path.length
  | .failed _ _ => True

theorem Within.of_succ {level : Nat} {event : Event υ} (h : Within (level + 1) event) :
    Within level event := by
  cases event with
  | reached m => exact Nat.le_of_succ_le h
  | failed before after => trivial

theorem keysAt_append (level : Nat) (first second : List (Event υ)) :
    keysAt level (first ++ second) = keysAt level first ++ keysAt level second :=
  List.filterMap_append

theorem keysAt_of_within {level : Nat} {events : List (Event υ)}
    (h : ∀ event ∈ events, Within (level + 1) event) : keysAt level events = [] := by
  refine List.filterMap_eq_nil_iff.2 fun event hevent => ?_
  cases event with
  | reached m => exact if_neg (Nat.ne_of_gt (h _ hevent))
  | failed before after => rfl

/-- A part of a visit: the keys of the visit's own calls in it are these. -/
structure Part (level : Nat) (keys : List DispatchKey) (c : RecordedDispatch υ) : Prop where
  keys_eq : keysAt level c.events = keys
  within : ∀ event ∈ c.events, Within level event

/-- Makes the visit's own calls of these keys, up to the one at which it does not succeed. -/
structure Calls (level : Nat) (keys : List DispatchKey) (c : RecordedDispatch υ) : Prop where
  keys_le : keysAt level c.events <+: keys
  keys_eq : ∀ n e a, c.outcome = some ⟨n, e, .ok a⟩ → keysAt level c.events = keys
  within : ∀ event ∈ c.events, Within level event

theorem Part.followed {level : Nat} {ι κ : Type} [Nonempty ι] {first : List DispatchKey}
    {keys : κ → List DispatchKey} {c : RecordedDispatch υ}
    {next : Node → Engine υ → Unit → RecordedDispatch υ} (hc : Part level first c)
    (later : ι → List DispatchKey) (f : ι → κ) (hkeys : ∀ i, keys (f i) = first ++ later i)
    (hnext : ∀ n e a, ∃ i, Calls level (later i) (next n e a)) :
    ∃ k, Calls level (keys k) (c.followed id next) := by
  obtain ⟨events, outcome⟩ := c
  have hstopped : ∀ i, keysAt level events <+: keys (f i) := fun i => by
    rw [hkeys, hc.keys_eq]
    exact List.prefix_append _ _
  rcases outcome with _ | ⟨n, e, err | a⟩
  · obtain ⟨i⟩ := ‹Nonempty ι›
    exact ⟨f i, hstopped i, fun _ _ _ ho => (by cases ho), hc.within⟩
  · obtain ⟨i⟩ := ‹Nonempty ι›
    exact ⟨f i, hstopped i, fun _ _ _ ho => (by cases ho), hc.within⟩
  · obtain ⟨i, hrest⟩ := hnext n e a
    have happend : keysAt level (events ++ (next n e a).events) =
        first ++ keysAt level (next n e a).events := by
      rw [keysAt_append, hc.keys_eq]
    refine ⟨f i, ?_, fun m e' b ho => ?_, List.forall_mem_append.2 ⟨hc.within, hrest.within⟩⟩
    · rw [hkeys]
      have hle := (List.prefix_append_right_inj first).2 hrest.keys_le
      rwa [← happend] at hle
    · rw [hkeys, ← hrest.keys_eq m e' b ho]
      exact happend

section Levels

variable {level : Nat} {walk : RecordedVisit υ}
  (hwalk : ∀ n parent e, ∀ event ∈ (walk n parent e).events, Within (level + 1) event)

include hwalk

theorem call_within (s : Surroundings υ) (script : Script υ Handled) (e : Engine υ) :
    ∀ event ∈ (settled (script.record s walk e)).events, Within (level + 1) event :=
  Recorded.forall_of_meets (Script.record_free (I := fun _ _ => True) (K := fun _ _ => True)
    (fun _ _ _ _ h => h) (fun _ _ _ => trivial) (fun _ _ h => h) (fun _ _ _ _ _ _ => trivial)
    (fun _ n parent e _ => Recorded.meets_of_forall (hwalk n parent e)) (.inr fun _ h => h) trivial)

theorem dispatch_part (path : Path υ) (hlength : path.length = level) (key : DispatchKey)
    (n : Node) (parent : Option Parent) (e : Engine υ) :
    Part level [key] (p.recordDispatch walk path key n parent e) := by
  have hreached : keysAt level [.reached ⟨key, n, parent, e, path⟩] = [key] := by
    simp [keysAt, hlength]
  cases hlookup : p.handlers.lookup key with
  | none =>
    rw [p.recordDispatch_of_none hlookup]
    exact ⟨hreached, List.forall_mem_singleton.2 (Nat.le_of_eq hlength.symm)⟩
  | some handler =>
    rw [p.recordDispatch_of_some hlookup]
    have hcall := call_within hwalk (p.surroundings walk.forget) (handler n parent) e
    refine ⟨?_, List.forall_mem_cons.2
      ⟨Nat.le_of_eq hlength.symm, fun event hevent => (hcall event hevent).of_succ⟩⟩
    calc
      _ = keysAt level [.reached ⟨key, n, parent, e, path⟩] ++ [] := by
        rw [← keysAt_of_within hcall, ← keysAt_append]
        rfl
      _ = [key] := by rw [hreached, List.append_nil]

theorem descent_part (n : Node) (e : Engine υ) : Part level [] (p.recordDescent walk n e) := by
  have hbelow : ∀ event ∈ (p.recordDescent walk n e).events, Within (level + 1) event := by
    unfold Pass.recordDescent
    split
    · exact fun event hevent => absurd hevent List.not_mem_nil
    · exact forall_recordChildren hwalk p.options.keys n _
  exact ⟨keysAt_of_within hbelow, fun event hevent => (hbelow event hevent).of_succ⟩

end Levels

theorem calls_depart (level : Nat) (n : Node) (e : Engine υ) :
    ∃ _ : Unit, Calls level [] (.now (Pass.depart n e)) :=
  ⟨(), List.nil_prefix, fun _ _ _ _ => rfl, fun _ h => absurd h List.not_mem_nil⟩

theorem visit_calls {walk : Path υ → RecordedVisit υ}
    (hwalk : ∀ path n parent e, ∀ event ∈ (walk path n parent e).events,
      Within (path.length + 1) event) (path : Path υ) (n : Node) (parent : Option Parent)
    (e : Engine υ) : ∃ kinds : String × String,
      Calls (path.length + 1) (visitKeys kinds.1 kinds.2) (p.recordVisit walk path n parent e) := by
  have houtside := hwalk (none :: path)
  unfold Pass.recordVisit
  refine (dispatch_part houtside _ rfl _ n parent _).followed
    (fun kinds : String × String => .node kinds.1 .enter :: .around .afterEnter :: exitKeys kinds.2)
    id (fun _ => rfl) fun n₁ e₁ _ => ?_
  have hinside := hwalk (some ⟨n₁, e₁⟩ :: path)
  refine (dispatch_part houtside _ rfl _ n₁ parent e₁).followed
    (fun kind : String => .around .afterEnter :: exitKeys kind) (n₁.kind, ·) (fun _ => rfl)
    fun n₂ e₂ _ => ?_
  refine (dispatch_part hinside _ rfl _ n₂ parent e₂).followed exitKeys id (fun _ => rfl)
    fun n₃ e₃ _ => ?_
  refine (descent_part hinside n₃ e₃).followed exitKeys id (fun _ => rfl) fun n₄ e₄ _ => ?_
  refine (dispatch_part hinside _ rfl _ n₄ parent _).followed
    (fun kind : String => [.node kind .exit, .around .afterExit]) id (fun _ => rfl)
    fun n₅ e₅ _ => ?_
  refine (dispatch_part houtside (some ⟨n₁, e₁⟩ :: path) rfl _ n₅ parent e₅).followed
    (fun _ : Unit => [.around .afterExit]) (fun _ => n₅.kind) (fun _ => rfl) fun n₆ e₆ _ => ?_
  exact (dispatch_part houtside _ rfl _ n₆ parent e₆).followed (fun _ : Unit => []) id
    (fun _ => rfl) fun n₇ e₇ _ => calls_depart _ n₇ e₇

theorem walk_calls (p : Pass υ) (fuel : Nat) (path : Path υ) (n : Node) (parent : Option Parent)
    (e : Engine υ) : ∃ kinds : String × String,
      Calls (path.length + 1) (visitKeys kinds.1 kinds.2) (p.recordWalk fuel path n parent e) := by
  induction fuel generalizing path n parent e with
  | zero =>
    exact ⟨("", ""), List.nil_prefix, fun _ _ _ ho => (by cases ho),
      fun _ h => absurd h List.not_mem_nil⟩
  | succ fuel ih =>
    refine visit_calls (fun path n parent e => ?_) path n parent e
    obtain ⟨_, hcalls⟩ := ih path n parent e
    exact hcalls.within

end VisitPoints

end SyntaxWalk
