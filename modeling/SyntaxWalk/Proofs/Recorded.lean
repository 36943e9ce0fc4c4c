import SyntaxWalk.Walk

/-!
# Recorded walks

A walk that also lists what happens in it, in order. What was recorded stays when the walk fails and
when it goes deeper than its fuel. The recorded walk of a list, a field or the children of a node
ends as the walk itself does (`recordChildren_outcome`). What is promised of a recorded walk
(`Meets`) may speak of all events so far, those before the walk included.
-/

namespace SyntaxWalk

theorem Outcome.bind_andThen_assoc {τ σ ε α β γ : Type} (o : Option (Outcome τ σ ε α))
    (f : τ → σ → α → Option (Outcome τ σ ε β)) (g : τ → σ → β → Option (Outcome τ σ ε γ)) :
    ((o.bind fun o => o.andThen f).bind fun o => o.andThen g) =
      o.bind fun o => o.andThen fun n s a => (f n s a).bind fun o => o.andThen g := by
  rcases o with _ | ⟨n, s, e | a⟩ <;> rfl

/-- A computation with the events in it; no outcome is one that ran out of fuel. -/
structure Recorded (ω τ σ ε α : Type) where
  events : List ω
  outcome : Option (Outcome τ σ ε α)

abbrev RecordedDescent (ω σ ε : Type) := Node → Option Parent → σ → Recorded ω Node σ ε Unit

namespace Recorded

variable {ω τ τ' σ ε α β : Type}

def now (o : Outcome τ σ ε α) : Recorded ω τ σ ε α := ⟨[], some o⟩

def mapSubject (f : τ → τ') (c : Recorded ω τ σ ε α) : Recorded ω τ' σ ε α :=
  ⟨c.events, c.outcome.map (Outcome.mapSubject f)⟩

def followed (c : Recorded ω τ σ ε α) (stop : τ → τ')
    (next : τ → σ → α → Recorded ω τ' σ ε β) : Recorded ω τ' σ ε β :=
  match c.outcome with
  | none => ⟨c.events, none⟩
  | some ⟨n, s, .ok a⟩ => ⟨c.events ++ (next n s a).events, (next n s a).outcome⟩
  | some ⟨n, s, .error e⟩ => ⟨c.events, some ⟨stop n, s, .error e⟩⟩

theorem followed_outcome (c : Recorded ω τ σ ε α) (next : τ → σ → α → Recorded ω τ σ ε β) :
    (c.followed id next).outcome =
      c.outcome.bind fun o => o.andThen fun n s a => (next n s a).outcome := by
  obtain ⟨events, outcome⟩ := c
  rcases outcome with _ | ⟨n, s, e | a⟩ <;> rfl

theorem followed_events {c : Recorded ω τ σ ε α} {stop : τ → τ'}
    {next : τ → σ → α → Recorded ω τ' σ ε β} :
    ∃ rest, (c.followed stop next).events = c.events ++ rest := by
  obtain ⟨events, outcome⟩ := c
  rcases outcome with _ | ⟨n, s, e | a⟩
  · exact ⟨[], (List.append_nil _).symm⟩
  · exact ⟨[], (List.append_nil _).symm⟩
  · exact ⟨_, rfl⟩

theorem mapSubject_followed {τ'' : Type} (c : Recorded ω τ σ ε α) (f : τ → τ') (stop : τ' → τ'')
    (next : τ' → σ → α → Recorded ω τ'' σ ε β) :
    (c.mapSubject f).followed stop next =
      c.followed (fun t => stop (f t)) fun t s a => next (f t) s a := by
  obtain ⟨events, outcome⟩ := c
  rcases outcome with _ | ⟨n, s, e | a⟩ <;> rfl

theorem of_followed {c : Recorded ω τ σ ε α} {stop : τ → τ'}
    {next : τ → σ → α → Recorded ω τ' σ ε β} {t : τ'} {s : σ} {b : β}
    (h : (c.followed stop next).outcome = some ⟨t, s, .ok b⟩) :
    ∃ n s₁ a, c.outcome = some ⟨n, s₁, .ok a⟩ ∧ (next n s₁ a).outcome = some ⟨t, s, .ok b⟩ ∧
      (c.followed stop next).events = c.events ++ (next n s₁ a).events := by
  obtain ⟨events, outcome⟩ := c
  rcases outcome with _ | ⟨n, s₁, e | a⟩
  · cases h
  · cases h
  · exact ⟨n, s₁, a, rfl, h, rfl⟩

theorem of_followed_error {c : Recorded ω τ σ ε α} {stop : τ → τ'}
    {next : τ → σ → α → Recorded ω τ' σ ε β} {t : τ'} {s : σ} {e : WalkError ε}
    (h : (c.followed stop next).outcome = some ⟨t, s, .error e⟩) :
    (∃ n, c.outcome = some ⟨n, s, .error e⟩ ∧ (c.followed stop next).events = c.events) ∨
    ∃ n s₁ a, c.outcome = some ⟨n, s₁, .ok a⟩ ∧
      (next n s₁ a).outcome = some ⟨t, s, .error e⟩ ∧
      (c.followed stop next).events = c.events ++ (next n s₁ a).events := by
  obtain ⟨events, outcome⟩ := c
  rcases outcome with _ | ⟨n, s₁, e₁ | a⟩
  · cases h
  · cases h
    exact .inl ⟨n, rfl, rfl⟩
  · exact .inr ⟨n, s₁, a, rfl, h, rfl⟩

end Recorded

namespace Recorded

variable {ω τ τ' σ ε α β : Type}

/-- What is promised of a computation that starts when `past` has happened: `Q` of every event and
the ones before it, `J` of all events and the end where it succeeds, and `K` where it fails. -/
structure Meets (Q : List ω → ω → Prop) (J : List ω → τ → σ → α → Prop) (K : List ω → σ → Prop)
    (past : List ω) (c : Recorded ω τ σ ε α) : Prop where
  events : ∀ first event rest, c.events = first ++ event :: rest → Q (past ++ first) event
  success : ∀ n s a, c.outcome = some ⟨n, s, .ok a⟩ → J (past ++ c.events) n s a
  failure : ∀ n s e, c.outcome = some ⟨n, s, .error e⟩ → K (past ++ c.events) s

variable {Q : List ω → ω → Prop} {J : List ω → τ → σ → α → Prop} {J' : List ω → τ' → σ → β → Prop}
  {K : List ω → σ → Prop} {past : List ω}

theorem meets_now {n : τ} {s : σ} {a : α} (h : J past n s a) :
    (now ⟨n, s, .ok a⟩ : Recorded ω τ σ ε α).Meets Q J K past where
  events first event rest he := by simp [now] at he
  success n' s' a' ho := by
    cases ho
    simpa [now] using h
  failure n' s' e ho := by cases ho

theorem Meets.imp {J₂ : List ω → τ → σ → α → Prop} {K₂ : List ω → σ → Prop}
    {c : Recorded ω τ σ ε α} (h : c.Meets Q J K past)
    (hJ : ∀ past n s a, J past n s a → J₂ past n s a) (hK : ∀ past s, K past s → K₂ past s) :
    c.Meets Q J₂ K₂ past :=
  ⟨h.events, fun n s a ho => hJ _ n s a (h.success n s a ho),
    fun n s e ho => hK _ s (h.failure n s e ho)⟩

theorem Meets.mapSubject {J₂ : List ω → τ' → σ → α → Prop} {c : Recorded ω τ σ ε α} {f : τ → τ'}
    (h : c.Meets Q J K past) (hJ : ∀ past n s a, J past n s a → J₂ past (f n) s a) :
    (c.mapSubject f).Meets Q J₂ K past := by
  obtain ⟨events, outcome⟩ := c
  refine ⟨h.events, fun n s a ho => ?_, fun n s e ho => ?_⟩
  · obtain ⟨⟨m, s', v⟩, hm, heq⟩ := Option.map_eq_some_iff.1 ho
    cases heq
    exact hJ _ m s' a (h.success m s' a hm)
  · obtain ⟨⟨m, s', v⟩, hm, heq⟩ := Option.map_eq_some_iff.1 ho
    cases heq
    exact h.failure m s' e hm

theorem events_singleton {only : ω} (h : Q past only) :
    ∀ before event rest, [only] = before ++ event :: rest → Q (past ++ before) event := by
  intro before event rest he
  cases before with
  | nil =>
    obtain ⟨rfl, -⟩ := List.cons.inj he
    rwa [List.append_nil]
  | cons x before => simp at he

theorem meets_single {event : ω} {n : τ} {s : σ} {a : α} (hQ : Q past event)
    (hJ : J (past ++ [event]) n s a) :
    (⟨[event], some ⟨n, s, .ok a⟩⟩ : Recorded ω τ σ ε α).Meets Q J K past where
  events := events_singleton hQ
  success n' s' a' ho := by
    cases ho
    exact hJ
  failure n' s' e ho := by cases ho

theorem events_append {first second : List ω}
    (hfirst : ∀ before event rest, first = before ++ event :: rest → Q (past ++ before) event)
    (hsecond : ∀ before event rest, second = before ++ event :: rest →
      Q (past ++ first ++ before) event) :
    ∀ before event rest, first ++ second = before ++ event :: rest →
      Q (past ++ before) event := by
  intro before event rest he
  -- The event lies in the second list, or at the boundary, or in the first.
  rcases List.append_eq_append_iff.1 he with ⟨mid, rfl, hmid⟩ | ⟨mid, hmid, htail⟩
  · rw [← List.append_assoc]
    exact hsecond mid event rest hmid
  · cases mid with
    | nil =>
      rw [List.append_nil] at hmid
      have h := hsecond [] event rest htail.symm
      rwa [List.append_nil, hmid] at h
    | cons x mid =>
      obtain ⟨rfl, -⟩ := List.cons.inj htail
      exact hfirst before event mid hmid

theorem Meets.followed {c : Recorded ω τ σ ε α} {stop : τ → τ'}
    {next : τ → σ → α → Recorded ω τ' σ ε β} (h : c.Meets Q J K past)
    (hnext : ∀ n s a, J (past ++ c.events) n s a →
      (next n s a).Meets Q J' K (past ++ c.events)) :
    (c.followed stop next).Meets Q J' K past := by
  obtain ⟨events, outcome⟩ := c
  rcases outcome with _ | ⟨n, s, e | a⟩
  · exact ⟨h.events, fun _ _ _ ho => (by cases ho), fun _ _ _ ho => (by cases ho)⟩
  · refine ⟨h.events, fun _ _ _ ho => (by cases ho), fun n' s' e' ho => ?_⟩
    cases ho
    exact h.failure n s e rfl
  · have hn := hnext n s a (h.success n s a rfl)
    refine ⟨events_append h.events hn.events, fun n' s' b ho => ?_, fun n' s' e ho => ?_⟩
    · have hJ := hn.success n' s' b ho
      rwa [List.append_assoc] at hJ
    · have hK := hn.failure n' s' e ho
      rwa [List.append_assoc] at hK

theorem meets_of_forall {P : ω → Prop} {c : Recorded ω τ σ ε α} (h : ∀ event ∈ c.events, P event) :
    c.Meets (fun _ => P) (fun _ _ _ _ => True) (fun _ _ => True) past where
  events _ event _ hsplit := h event (by simp [hsplit])
  success _ _ _ _ := trivial
  failure _ _ _ _ := trivial

theorem forall_of_meets {P : ω → Prop} {c : Recorded ω τ σ ε α}
    (h : c.Meets (fun _ => P) J K []) : ∀ event ∈ c.events, P event := by
  intro event hevent
  obtain ⟨first, rest, hsplit⟩ := List.append_of_mem hevent
  exact h.events first event rest hsplit

end Recorded

variable {ω σ ε : Type}

def recordItems (walk : RecordedDescent ω σ ε) (view : Node) (key : String) :
    Nat → List (Option Node) → σ → Recorded ω (List (Option Node)) σ ε Unit
  | _, [], s => .now ⟨[], s, .ok ()⟩
  | index, none :: rest, s => (recordItems walk view key (index + 1) rest s).mapSubject (none :: ·)
  | index, some n :: rest, s =>
    (walk n (some ⟨view, key, some index⟩) s).followed (some · :: rest) fun n s _ =>
      (recordItems walk view key (index + 1) rest s).mapSubject (some n :: ·)

def recordField (walk : RecordedDescent ω σ ε) (view : Node) (key : String) :
    Field Node → σ → Recorded ω (Field Node) σ ε Unit
  | .node n, s => (walk n (some ⟨view, key, none⟩) s).mapSubject .node
  | .list items, s => (recordItems walk view key 0 items s).mapSubject .list
  | .value v, s => .now ⟨.value v, s, .ok ()⟩

def recordFields (walk : RecordedDescent ω σ ε) :
    List String → Node → σ → Recorded ω Node σ ε Unit
  | [], n, s => .now ⟨n, s, .ok ()⟩
  | key :: keys, n, s =>
    match n.field? key with
    | none => recordFields walk keys n s
    | some field =>
      ((recordField walk (n.eraseField key) key field s).mapSubject (n.replaceField key)).followed
        id fun n s _ => recordFields walk keys n s

theorem recordFields_of_none {walk : RecordedDescent ω σ ε} {key : String} {n : Node}
    (h : n.field? key = none) (keys : List String) :
    recordFields walk (key :: keys) n = recordFields walk keys n := by
  funext s
  rw [recordFields, h]

theorem recordFields_of_some {walk : RecordedDescent ω σ ε} {key : String} {n : Node}
    {field : Field Node} (h : n.field? key = some field) (keys : List String) :
    recordFields walk (key :: keys) n = fun s =>
      (recordField walk (n.eraseField key) key field s).followed (n.replaceField key)
        fun field s _ => recordFields walk keys (n.replaceField key field) s := by
  funext s
  rw [recordFields, h]
  exact Recorded.mapSubject_followed ..

def recordChildren (keys : VisitorKeys) (walk : RecordedDescent ω σ ε) (n : Node) (s : σ) :
    Recorded ω Node σ ε Unit :=
  match keys.childKeys? n with
  | some names => recordFields walk names n s
  | none => .now ⟨n, s, .error (.unknownKind n.info)⟩

def RecordedDescent.forget (walk : RecordedDescent ω σ ε) : Descent σ ε :=
  fun n parent s => (walk n parent s).outcome

theorem recordItems_outcome (walk : RecordedDescent ω σ ε) (view : Node) (key : String)
    (index : Nat) (items : List (Option Node)) (s : σ) :
    (recordItems walk view key index items s).outcome =
      walkItems walk.forget view key index items s := by
  induction items generalizing index s with
  | nil => rfl
  | cons item rest ih =>
    cases item with
    | none =>
      rw [recordItems, walkItems, ← ih]
      rfl
    | some n =>
      simp only [recordItems, walkItems, Recorded.followed, RecordedDescent.forget, ← ih]
      rcases (walk n (some ⟨view, key, some index⟩) s).outcome with _ | ⟨m, s', e | a⟩ <;> rfl

theorem recordField_outcome (walk : RecordedDescent ω σ ε) (view : Node) (key : String)
    (field : Field Node) (s : σ) :
    (recordField walk view key field s).outcome = walkField walk.forget view key field s := by
  cases field with
  | node n => rfl
  | list items =>
    rw [walkField, ← recordItems_outcome]
    rfl
  | value v => rfl

theorem recordFields_outcome (walk : RecordedDescent ω σ ε) (keys : List String) (n : Node)
    (s : σ) : (recordFields walk keys n s).outcome = walkFields walk.forget keys n s := by
  induction keys generalizing n s with
  | nil => rfl
  | cons key keys ih =>
    simp only [recordFields, walkFields]
    cases n.field? key with
    | none => exact ih n s
    | some field =>
      simp only [← ih, ← recordField_outcome, Recorded.followed_outcome, Recorded.mapSubject]
      rcases (recordField walk (n.eraseField key) key field s).outcome with _ | o <;> rfl

theorem recordChildren_outcome (keys : VisitorKeys) (walk : RecordedDescent ω σ ε) (n : Node)
    (s : σ) : (recordChildren keys walk n s).outcome = walkChildren keys walk.forget n s := by
  unfold recordChildren walkChildren
  cases keys.childKeys? n with
  | none => rfl
  | some names => exact recordFields_outcome walk names n s

end SyntaxWalk
