import SyntaxWalk.Proofs.NodePositions

/-!
# The grammar of the reader

A reader of trees looks at the locations of the node positions and at nothing else, in depth-first
order, and stops at the first that it cannot read (`Node.verdict_ofJson`). So it accepts exactly the
objects with a string `type` all of whose node positions have a location that is absent, null or
readable, and reports the first offence otherwise (`Node.ofJson_grammar`).
-/

namespace SyntaxWalk

section Verdict

variable {ε α β : Type}

def verdict (x : Except ε α) : Except ε Unit := x.map fun _ => ()

theorem verdict_eq_ok {x : Except ε α} : verdict x = .ok () ↔ ∃ a, x = .ok a := by
  cases x <;> simp [verdict, Except.map]

theorem verdict_eq_error {x : Except ε α} {e : ε} : verdict x = .error e ↔ x = .error e := by
  cases x <;> simp [verdict, Except.map]

theorem verdict_map (x : Except ε α) (f : α → β) : verdict (x.map f) = verdict x := by
  cases x <;> rfl

theorem verdict_both (x : Except ε α) (y : Except ε β) {γ : Type} (f : α → β → γ) :
    verdict (do return f (← x) (← y)) = verdict x >>= fun _ => verdict y := by
  cases x <;> cases y <;> rfl

theorem forM_flatMap (l : List α) (f : α → List β) (check : β → Except ε Unit) :
    forM (l.flatMap f) check = forM l fun a => forM (f a) check := by
  induction l with
  | nil => rfl
  | cons a l ih => rw [List.flatMap_cons, List.forM_append, List.forM_cons, ih]

theorem forM_congr {l : List α} {check check' : α → Except ε Unit}
    (h : ∀ a ∈ l, check a = check' a) : forM l check = forM l check' := by
  induction l with
  | nil => rfl
  | cons a l ih =>
    obtain ⟨ha, hl⟩ := List.forall_mem_cons.1 h
    rw [List.forM_cons, List.forM_cons, ha, ih hl]

theorem forM_eq_ok {l : List α} {check : α → Except ε Unit} :
    forM l check = .ok () ↔ ∀ a ∈ l, check a = .ok () := by
  induction l with
  | nil => simp [pure, Except.pure]
  | cons a l ih =>
    rw [List.forM_cons, List.forall_mem_cons, ← ih]
    cases check a <;> simp [bind, Except.bind]

/-- Where the elements are in order, the error is that of the first one that fails. -/
theorem forM_eq_error {r : α → α → Prop} (hr : ∀ a b, r a b → ¬ r b a) {l : List α}
    (hl : l.Pairwise r) {check : α → Except ε Unit} {e : ε} :
    forM l check = .error e ↔
      ∃ a ∈ l, check a = .error e ∧ ∀ b ∈ l, r b a → check b = .ok () := by
  induction l with
  | nil => simp [pure, Except.pure]
  | cons a l ih =>
    obtain ⟨hfirst, hrest⟩ := List.pairwise_cons.1 hl
    rw [List.forM_cons]
    cases hcheck : check a with
    | error e' =>
      simp only [bind, Except.bind, Except.error.injEq]
      constructor
      · rintro rfl
        refine ⟨a, List.mem_cons_self, hcheck, fun b hb hba => ?_⟩
        rcases List.mem_cons.1 hb with rfl | hb
        · exact absurd hba (hr b b hba)
        · exact absurd hba (hr a b (hfirst b hb))
      · rintro ⟨b, hb, hfails, hbefore⟩
        rcases List.mem_cons.1 hb with rfl | hb
        · simpa [hcheck] using hfails
        · simpa [hcheck] using hbefore a List.mem_cons_self (hfirst b hb)
    | ok u =>
      simp only [bind, Except.bind, ih hrest, List.forall_mem_cons]
      constructor
      · rintro ⟨b, hb, hfails, hbefore⟩
        exact ⟨b, List.mem_cons_of_mem a hb, hfails, fun _ => hcheck, hbefore⟩
      · rintro ⟨b, hb, hfails, -, hbefore⟩
        rcases List.mem_cons.1 hb with rfl | hb
        · simp [hcheck] at hfails
        · exact ⟨b, hb, hfails, hbefore⟩

end Verdict

namespace Node

open Json (NodeLike NodeAt nodeSteps stepsInto nodePositions itemStep?)

section Verdicts

def checkSteps (steps : List (Step × NameMap Json)) : Except DecodeError Unit :=
  forM steps fun step => verdict (ofJson (.object step.2))

theorem verdict_itemsOfJson {items : List Json} (h : items.all isNodeOrHole) (name : String)
    (first : Nat) :
    verdict (itemsOfJson items) = checkSteps ((items.zipIdx first).filterMap (itemStep? name)) := by
  induction items generalizing first with
  | nil => rfl
  | cons v rest ih =>
    simp only [List.all_cons, Bool.and_eq_true] at h
    have ih := ih h.2 (first + 1)
    rw [List.zipIdx_cons]
    cases v with
    | object members =>
      have hitems : itemsOfJson (.object members :: rest) = do
          return some (← ofJson (.object members)) :: (← itemsOfJson rest) := rfl
      rw [hitems, verdict_both, ih]
      rfl
    | null =>
      have hitems : itemsOfJson (.null :: rest) = (itemsOfJson rest).map (none :: ·) := by
        cases hrest : itemsOfJson rest <;> simp [itemsOfJson, hrest] <;> rfl
      rw [hitems, verdict_map, ih]
      rfl
    | _ => simp [isNodeOrHole] at h

theorem verdict_fieldOfJson (name : String) (v : Json) :
    verdict (fieldOfJson v) = checkSteps (stepsInto name v) := by
  cases v with
  | object members =>
    by_cases hnode : isNodeObject members
    · rw [fieldOfJson_object members hnode, verdict_map, stepsInto, if_pos hnode]
      simp only [checkSteps, List.forM_cons, List.forM_nil]
      cases verdict (ofJson (.object members)) <;> rfl
    · obtain ⟨entries⟩ := members
      rw [fieldOfJson, stepsInto, if_neg hnode, if_neg hnode]
      rfl
  | array items =>
    by_cases hall : items.all isNodeOrHole
    · rw [fieldOfJson, stepsInto, if_pos hall, if_pos hall, verdict_map,
        verdict_itemsOfJson hall name 0]
    · rw [fieldOfJson, stepsInto, if_neg hall, if_neg hall]
      rfl
  | _ => rfl

theorem verdict_fieldsOfJson (entries : List (String × Json)) :
    verdict (fieldsOfJson entries) = checkSteps (nodeSteps entries) := by
  induction entries with
  | nil => rfl
  | cons entry rest ih =>
    obtain ⟨name, v⟩ := entry
    have hsteps : nodeSteps ((name, v) :: rest) =
        (if isReserved name then [] else stepsInto name v) ++ nodeSteps rest := rfl
    rw [fieldsOfJson, hsteps]
    split
    · exact ih
    · rw [verdict_both (fieldOfJson v) (fieldsOfJson rest) fun field more => (name, field) :: more,
        verdict_fieldOfJson name, ih]
      simp only [checkSteps, List.forM_append]

theorem verdict_object {members : NameMap Json} (h : isNodeObject members) :
    verdict (ofJson (.object members)) = verdict (readLoc (members.get? "loc")) >>=
      fun _ => checkSteps (nodeSteps members.entries) := by
  obtain ⟨entries⟩ := members
  obtain ⟨kind, hkind⟩ := Json.nodeLike_object.1 (Json.nodeLike_object_iff.2 h)
  rw [← verdict_fieldsOfJson, ofJson, assemble, hkind]
  exact verdict_both (readLoc _) (fieldsOfJson entries) fun loc fields =>
    (⟨kind, loc, ⟨fields⟩⟩ : Node)

/-- Of a node the reader looks at the locations of the node positions, one after the other. -/
theorem verdict_ofJson (members : NameMap Json) (h : (Json.object members).NodeLike) :
    verdict (ofJson (.object members)) =
      forM (nodePositions members) fun position => verdict (readLoc (position.2.get? "loc")) := by
  rw [verdict_object (Json.nodeLike_object_iff.1 h), Json.nodePositions_eq, List.forM_cons,
    forM_flatMap]
  congr 1
  funext _
  refine forM_congr fun step hstep => ?_
  have hfirst := Json.mem_nodeSteps.1 hstep
  have hlt := Json.sizeOf_lt_of_nodeStep hfirst
  rw [verdict_ofJson step.2 hfirst.nodeLike, List.forM_map]
termination_by sizeOf members

end Verdicts

def LocReads (members : NameMap Json) : Prop :=
  members.get? "loc" = none ∨ members.get? "loc" = some .null ∨
    ∃ v l, members.get? "loc" = some v ∧ Loc.ofJson v = .ok l

def LocFails (members : NameMap Json) (e : DecodeError) : Prop :=
  ∃ v, members.get? "loc" = some v ∧ v ≠ .null ∧ Loc.ofJson v = .error e

/-- What is wrong with a value: the root is not an object, or has no string for a `type`, or a node
position has a location that cannot be read and is the first to have one. -/
inductive FirstOffence : Json → DecodeError → Prop
  | notObject {v : Json} (other : ∀ members, v ≠ .object members) : FirstOffence v .notANode
  | noType {root : NameMap Json} (missing : root.get? "type" = none) :
      FirstOffence (.object root) (.missingField "type")
  | typeNotString {root : NameMap Json} {v : Json} (present : root.get? "type" = some v)
      (other : ∀ kind, v ≠ .string kind) : FirstOffence (.object root) .kindNotString
  | location {root m : NameMap Json} {place : Place} {e : DecodeError}
      (node : (Json.object root).NodeLike) (here : NodeAt root place m) (fails : LocFails m e)
      (before : ∀ place' m', NodeAt root place' m' → place'.Earlier place → LocReads m') :
      FirstOffence (.object root) e

section Grammar

variable {members root : NameMap Json}

theorem verdict_readLoc_eq_ok :
    verdict (readLoc (members.get? "loc")) = .ok () ↔ LocReads members := by
  rw [verdict_eq_ok, LocReads]
  rcases members.get? "loc" with _ | v
  · simp [readLoc]
  · cases v with
    | null => simp [readLoc]
    | _ =>
      simp only [readLoc, reduceCtorEq, Option.some.injEq, exists_and_left, exists_eq_left',
        false_or]
      cases Loc.ofJson _ <;> simp [Except.map]

theorem verdict_readLoc_eq_error {e : DecodeError} :
    verdict (readLoc (members.get? "loc")) = .error e ↔ LocFails members e := by
  rw [verdict_eq_error, LocFails]
  rcases members.get? "loc" with _ | v
  · simp [readLoc]
  · cases v with
    | null => simp [readLoc]
    | _ =>
      simp only [readLoc, Option.some.injEq, exists_eq_left', ne_eq, reduceCtorEq,
        not_false_eq_true, true_and]
      cases Loc.ofJson _ <;> simp [Except.map]

theorem forall_nodePositions {P : Place → NameMap Json → Prop} :
    (∀ position ∈ nodePositions root, P position.1 position.2) ↔
      ∀ place m, NodeAt root place m → P place m := by
  simp only [Prod.forall, Json.mem_nodePositions]

theorem exists_ofJson_node (hnode : (Json.object root).NodeLike) :
    (∃ n, ofJson (.object root) = .ok n) ↔ ∀ place m, NodeAt root place m → LocReads m := by
  rw [← verdict_eq_ok, verdict_ofJson root hnode, forM_eq_ok]
  simp only [verdict_readLoc_eq_ok]
  exact forall_nodePositions (P := fun _ m => LocReads m)

theorem ofJson_node_eq_error (hroot : (Json.object root).Ordered)
    (hnode : (Json.object root).NodeLike) {e : DecodeError} :
    ofJson (.object root) = .error e ↔ ∃ place m, NodeAt root place m ∧ LocFails m e ∧
      ∀ place' m', NodeAt root place' m' → place'.Earlier place → LocReads m' := by
  rw [← verdict_eq_error, verdict_ofJson root hnode,
    forM_eq_error (fun _ _ => Place.Earlier.asymm) (Json.nodePositions_pairwise root hroot)]
  simp only [verdict_readLoc_eq_ok, verdict_readLoc_eq_error, Prod.exists, Prod.forall,
    Json.mem_nodePositions]

theorem ofJson_of_not_nodeLike (hnode : ¬ (Json.object root).NodeLike) :
    (root.get? "type" = none ∧ ofJson (.object root) = .error (.missingField "type")) ∨
      ∃ v, root.get? "type" = some v ∧ (∀ kind, v ≠ .string kind) ∧
        ofJson (.object root) = .error .kindNotString := by
  obtain ⟨entries⟩ := root
  cases htype : (⟨entries⟩ : NameMap Json).get? "type" with
  | none =>
    refine .inl ⟨rfl, ?_⟩
    rw [ofJson, assemble, htype]
    rfl
  | some v =>
    have hother : ∀ kind, v ≠ .string kind := by
      rintro kind rfl
      exact hnode ⟨_, kind, rfl, htype⟩
    refine .inr ⟨v, rfl, hother, ?_⟩
    rw [ofJson, assemble, htype]
    cases v with
    | string kind => exact absurd rfl (hother kind)
    | _ => rfl

theorem FirstOffence.of_error {v : Json} {e : DecodeError} (hv : v.Ordered)
    (h : ofJson v = .error e) : FirstOffence v e := by
  by_cases hobject : ∃ root, v = .object root
  · obtain ⟨root, rfl⟩ := hobject
    by_cases hnode : (Json.object root).NodeLike
    · obtain ⟨place, m, hat, hfails, hbefore⟩ := (ofJson_node_eq_error hv hnode).1 h
      exact .location hnode hat hfails hbefore
    · rcases ofJson_of_not_nodeLike hnode with ⟨htype, herror⟩ | ⟨v, htype, hother, herror⟩
      all_goals
        rw [herror, Except.error.injEq] at h
        subst h
      · exact .noType htype
      · exact .typeNotString htype hother
  · have hother : ∀ members, v ≠ .object members := fun members hv => hobject ⟨members, hv⟩
    rw [ofJson_notANode hother, Except.error.injEq] at h
    subst h
    exact .notObject hother

theorem FirstOffence.error {v : Json} {e : DecodeError} (hv : v.Ordered)
    (h : FirstOffence v e) : ofJson v = .error e := by
  cases h with
  | notObject other => exact ofJson_notANode other
  | @noType root missing =>
    have hnode : ¬ (Json.object root).NodeLike := by
      simp [Json.nodeLike_object, missing]
    rcases ofJson_of_not_nodeLike hnode with ⟨-, herror⟩ | ⟨v, htype, -, -⟩
    · exact herror
    · simp [missing] at htype
  | @typeNotString root v present other =>
    have hnode : ¬ (Json.object root).NodeLike := by
      simpa [Json.nodeLike_object, present] using other
    rcases ofJson_of_not_nodeLike hnode with ⟨htype, -⟩ | ⟨_, -, -, herror⟩
    · simp [present] at htype
    · exact herror
  | @location root m place _ node here fails before =>
    exact (ofJson_node_eq_error hv node).2 ⟨place, m, here, fails, before⟩

end Grammar

/-- A value is read just if it is an object with a string `type` and the location of every node
position is absent, null or readable. Otherwise the error is that of the first offence. -/
theorem ofJson_grammar (v : OrderedJson) :
    ((∃ n, ofJson v.value = .ok n) ↔ ∃ root, v.value = .object root ∧ v.value.NodeLike ∧
      ∀ place m, NodeAt root place m → LocReads m) ∧
    ∀ e, ofJson v.value = .error e ↔ FirstOffence v.value e := by
  obtain ⟨v, hv⟩ := v
  refine ⟨⟨?_, ?_⟩, fun e => ⟨FirstOffence.of_error hv, FirstOffence.error hv⟩⟩
  · rintro ⟨n, hn⟩
    by_cases hnode : v.NodeLike
    · obtain ⟨root, kind, rfl, htype⟩ := hnode
      have hroot : (Json.object root).NodeLike := ⟨root, kind, rfl, htype⟩
      exact ⟨root, rfl, hroot, (exists_ofJson_node hroot).1 ⟨n, hn⟩⟩
    · cases v with
      | object root =>
        rcases ofJson_of_not_nodeLike hnode with ⟨-, herror⟩ | ⟨_, -, -, herror⟩
        all_goals simp [herror] at hn
      | _ => cases hn
  · rintro ⟨root, rfl, hnode, hlocs⟩
    exact (exists_ofJson_node hnode).2 hlocs

def located (kind : String) (loc : OrderedJson) : OrderedJson :=
  .ofEntries [("type", .string kind), ("loc", loc)]

def mixedArray : OrderedJson := .array [.int 1, located "Lost" (.int 5)]

def misplaced : OrderedJson :=
  .ofEntries [("type", .string "Program"), ("loc", .null), ("c", located "Last" (.string "x")),
    ("b", .array [.null, located "Late" (.int 3), located "Later" (.bool false)]),
    ("a", mixedArray)]

/-- The bad location in the plain value is not seen, and of the others the first one is reported. -/
theorem misplaced_grammar :
    FirstOffence misplaced.value (.wrongType (.integer 3) "struct Loc") ∧
      ∃ root, (OrderedJson.ofEntries [("type", .string "Program"), ("a", mixedArray)]).value =
          .object root ∧
        ∀ place m, NodeAt root place m → LocReads m := by
  obtain ⟨hreads, -⟩ :=
    ofJson_grammar (.ofEntries [("type", .string "Program"), ("a", mixedArray)])
  obtain ⟨root, hroot, -, hlocs⟩ := hreads.1 ⟨_, rfl⟩
  exact ⟨((ofJson_grammar misplaced).2 _).1 rfl, root, hroot, hlocs⟩

end Node

end SyntaxWalk
