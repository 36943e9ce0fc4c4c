import SyntaxWalk.Proofs.Chronicle
import SyntaxWalk.Proofs.Conduct

/-!
# The last call of a failed run

An error that a handler call returns is passed on by the calls around it and by nothing else. Where
the handlers pass on the errors of the walks they start, a run that fails does so at one deed: a
call that returns the error on its own account, or the descent into a node whose children are not
known. Before it no call failed, and after it nothing is called and the open calls return the same
error one by one (`run_fails_at_once`).
-/

namespace SyntaxWalk

variable {υ α : Type}

namespace Deed

def track (calls : List (Call υ)) : Deed υ → List (Call υ)
  | .began call => call :: calls
  | .ended _ _ => calls.tail
  | _ => calls

def answer? : Deed υ → Option (Call υ × Except PassError (Option Node))
  | .ended call answer => some (call, answer)
  | _ => none

def failure? : Deed υ → Option PassError
  | .ended _ (.error err) => some err
  | _ => none

def isBeginning : Deed υ → Bool
  | .began _ => true
  | _ => false

def isHook : Deed υ → Bool
  | .hooked _ => true
  | _ => false

def Aside (deed : Deed υ) : Prop :=
  deed.isBeginning = false ∧ deed.answer? = none

/-- An answer has to be that of the innermost open call. -/
def Fits (calls : List (Call υ)) : Deed υ → Prop
  | .ended call _ => calls.head? = some call
  | _ => True

/-- A run can fail here with the error: the innermost open call returns it, or the children of a
node that is about to be walked are not known. -/
inductive Raises (keys : VisitorKeys) (calls : List (Call υ)) (err : PassError) : Deed υ → Prop
  | call {call : Call υ} (h : calls.head? = some call) :
      Raises keys calls err (.ended call (.error err))
  | unknown {n : Node} (h : keys.childKeys? n = none) (herr : err = .unknownKind n.info) :
      Raises keys calls err (.descended n)

theorem Raises.fits {keys : VisitorKeys} {calls : List (Call υ)} {err : PassError} {deed : Deed υ}
    (h : deed.Raises keys calls err) : deed.Fits calls := by
  cases h with
  | call h => exact h
  | unknown => exact trivial

namespace Aside

variable {deed : Deed υ}

theorem track (h : deed.Aside) (calls : List (Call υ)) : track calls deed = calls := by
  cases deed with
  | began call => cases h.1
  | ended call answer => cases h.2
  | _ => rfl

theorem fits (h : deed.Aside) (calls : List (Call υ)) : deed.Fits calls := by
  cases deed with
  | ended call answer => cases h.2
  | _ => exact trivial

theorem failure? (h : deed.Aside) : deed.failure? = none := by
  cases deed with
  | ended call answer => cases h.2
  | _ => rfl

end Aside

end Deed

def openCalls (deeds : List (Deed υ)) : List (Call υ) := deeds.foldl Deed.track []

theorem openCalls_concat (deeds : List (Deed υ)) (deed : Deed υ) :
    openCalls (deeds ++ [deed]) = deed.track (openCalls deeds) := by
  rw [openCalls, List.foldl_append]
  rfl

/-- `calls` are open after the deeds, and every answer came from the innermost call then open. -/
structure Brackets (calls : List (Call υ)) (deeds : List (Deed υ)) : Prop where
  calls : openCalls deeds = calls
  answered : ∀ before deed after, deeds = before ++ deed :: after → deed.Fits (openCalls before)

structure Calm (calls : List (Call υ)) (deeds : List (Deed υ)) (_warnings : List Warning) :
    Prop where
  brackets : Brackets calls deeds
  clean : ∀ deed ∈ deeds, deed.failure? = none

/-- A run has failed with the error at one deed, and all calls but `outer` have returned it. -/
structure FailsAt (keys : VisitorKeys) (quiet : Prop) (outer : List (Call υ)) (err : PassError)
    (before : List (Deed υ)) (last : Deed υ) (after : List (Deed υ)) : Prop where
  clean : ∀ deed ∈ before, deed.failure? = none
  raises : last.Raises keys (openCalls before) err
  uncalled : ∀ deed ∈ after, deed.isBeginning = false
  returned : after.filterMap Deed.answer? ++ outer.map (·, .error err) =
    (openCalls (before ++ [last])).map (·, .error err)
  unhooked : quiet → ∀ deed ∈ after, deed.isHook = false

structure Falls (keys : VisitorKeys) (quiet : Prop) (outer : List (Call υ)) (err : PassError)
    (deeds : List (Deed υ)) (_warnings : List Warning) : Prop where
  brackets : Brackets outer deeds
  fails : ∃ before last after, deeds = before ++ last :: after ∧
    FailsAt keys quiet outer err before last after

section Deeds

variable {keys : VisitorKeys} {quiet : Prop} {outer calls : List (Call υ)} {err : PassError}
  {deeds told : List (Deed υ)} {deed : Deed υ} {warnings : List Warning}

theorem Brackets.concat (h : Brackets outer deeds) (hfits : deed.Fits outer)
    (hcalls : deed.track outer = calls) : Brackets calls (deeds ++ [deed]) where
  calls := by rw [openCalls_concat, h.calls, hcalls]
  answered := by
    let Q : List (Deed υ) → Deed υ → Prop := fun before deed => deed.Fits (openCalls before)
    have hlast : Q deeds deed := by
      rw [← h.calls] at hfits
      exact hfits
    exact @Recorded.events_append _ Q [] deeds [deed] h.answered (Recorded.events_singleton hlast)

theorem Brackets.asides (h : Brackets outer deeds) (htold : ∀ deed ∈ told, deed.Aside) :
    Brackets outer (deeds ++ told) := by
  induction told generalizing deeds with
  | nil => rwa [List.append_nil]
  | cons deed rest ih =>
    obtain ⟨hdeed, hrest⟩ := List.forall_mem_cons.1 htold
    have hone := h.concat (hdeed.fits outer) (hdeed.track outer)
    have hall := ih hone hrest
    rwa [List.append_assoc] at hall

theorem Calm.concat (h : Calm outer deeds warnings) (hfits : deed.Fits outer)
    (hcalls : deed.track outer = calls) (hclean : deed.failure? = none) :
    Calm calls (deeds ++ [deed]) warnings where
  brackets := h.brackets.concat hfits hcalls
  clean := List.forall_mem_append.2 ⟨h.clean, by simpa using hclean⟩

theorem Calm.asides (h : Calm outer deeds warnings) (htold : ∀ deed ∈ told, deed.Aside)
    (warnings' : List Warning) : Calm outer (deeds ++ told) warnings' where
  brackets := h.brackets.asides htold
  clean := List.forall_mem_append.2 ⟨h.clean, fun deed hdeed => (htold deed hdeed).failure?⟩

theorem Calm.falls (h : Calm outer deeds warnings) (hraises : deed.Raises keys outer err)
    (hcalls : deed.track outer = calls) :
    Falls keys quiet calls err (deeds ++ [deed]) warnings where
  brackets := h.brackets.concat hraises.fits hcalls
  fails := by
    refine ⟨deeds, deed, [], rfl, h.clean, h.brackets.calls ▸ hraises,
      fun _ hdeed => (by cases hdeed), ?_, fun _ _ hdeed => (by cases hdeed)⟩
    rw [openCalls_concat, h.brackets.calls, hcalls]
    rfl

theorem Falls.asides (h : Falls keys quiet outer err deeds warnings)
    (htold : ∀ deed ∈ told, deed.Aside) (hquiet : quiet → ∀ deed ∈ told, deed.isHook = false)
    (warnings' : List Warning) : Falls keys quiet outer err (deeds ++ told) warnings' where
  brackets := h.brackets.asides htold
  fails := by
    obtain ⟨before, last, after, rfl, hfails⟩ := h.fails
    refine ⟨before, last, after ++ told, by simp, hfails.clean, hfails.raises, ?_, ?_, fun hq => ?_⟩
    · exact List.forall_mem_append.2 ⟨hfails.uncalled, fun deed hdeed => (htold deed hdeed).1⟩
    · have hnone : told.filterMap Deed.answer? = [] :=
        List.filterMap_eq_nil_iff.2 fun deed hdeed => (htold deed hdeed).2
      rw [List.filterMap_append, hnone, List.append_nil, hfails.returned]
    · exact List.forall_mem_append.2 ⟨hfails.unhooked hq, hquiet hq⟩

theorem Falls.ended {call : Call υ} (h : Falls keys quiet (call :: outer) err deeds warnings) :
    Falls keys quiet outer err (deeds ++ [.ended call (.error err)]) warnings where
  brackets := h.brackets.concat rfl rfl
  fails := by
    obtain ⟨before, last, after, rfl, hfails⟩ := h.fails
    refine ⟨before, last, after ++ [.ended call (.error err)], by simp, hfails.clean,
      hfails.raises, ?_, ?_, fun hq => ?_⟩
    · exact List.forall_mem_append.2 ⟨hfails.uncalled, by simp [Deed.isBeginning]⟩
    · rw [← hfails.returned, List.filterMap_append, List.append_assoc]
      rfl
    · exact List.forall_mem_append.2 ⟨hfails.unhooked hq, by simp [Deed.isHook]⟩

end Deeds

section Scripts

/-- Opens and closes no scope once a walk of its own has failed. -/
def Script.Discreet : Script υ α → Prop
  | .done _ => True
  | .observe next => ∀ options e, (next options e).Discreet
  | .setSkip _ next | .warn _ _ next | .editContext _ next | .remember _ next => next.Discreet
  | .pushScope _ next => next.Discreet
  | .popScope next => ∀ frame, (next frame).Discreet
  | .traverse _ _ next | .traverseChildren _ next =>
    ∀ n, (next n (.ok ())).Discreet ∧ ∀ err, (next n (.error err)).ScopeFree

theorem asides_nil : ∀ deed ∈ ([] : List (Deed υ)), deed.Aside ∧ deed.isHook = false := by
  intro deed hdeed
  cases hdeed

theorem asides_warned (loc : Option Loc) (description : String) :
    ∀ deed ∈ [(.warned loc description : Deed υ)], deed.Aside ∧ deed.isHook = false := by
  intro deed hdeed
  rw [List.mem_singleton.1 hdeed]
  exact ⟨⟨rfl, rfl⟩, rfl⟩

theorem asides_hookDeeds (hook : Option (ScopeHook υ)) (key : DispatchKey) :
    ∀ deed ∈ hookDeeds hook key, deed.Aside := by
  intro deed hdeed
  unfold hookDeeds at hdeed
  split at hdeed
  · rw [List.mem_singleton.1 hdeed]
    exact ⟨rfl, rfl⟩
  · cases hdeed

theorem asides_closed (frame : Option Scope.Frame) (hook : Option (ScopeHook υ))
    (key : DispatchKey) :
    ∀ deed ∈ (if frame.isSome then hookDeeds hook key else []), deed.Aside := by
  split
  · exact asides_hookDeeds hook key
  · exact fun deed hdeed => (asides_nil deed hdeed).1

variable {p : Pass υ} {walk : Descent (Chronicled υ) SyntaxError}
  {walk' : Descent (Engine υ) SyntaxError} {keys : VisitorKeys} {quiet : Prop}
  {outer : List (Call υ)} {call : Call υ} {err : PassError} {c : Chronicled υ} {e : Engine υ}
  {told : List (Deed υ)}

theorem Tells.asides (h : Tells (Calm outer) c e) (e' : Engine υ)
    (htold : ∀ deed ∈ told, deed.Aside) : Tells (Calm outer) (c.act e' told) e' :=
  ⟨rfl, h.2.asides htold _⟩

theorem TellsError.asides (h : TellsError (Falls keys quiet outer) c e err) (e' : Engine υ)
    (htold : ∀ deed ∈ told, deed.Aside) (hquiet : quiet → ∀ deed ∈ told, deed.isHook = false) :
    TellsError (Falls keys quiet outer) (c.act e' told) e' err :=
  ⟨rfl, h.2.asides htold hquiet _⟩

theorem TellsError.unhooked (h : TellsError (Falls keys quiet outer) c e err) (e' : Engine υ)
    (htold : ∀ deed ∈ told, deed.Aside ∧ deed.isHook = false) :
    TellsError (Falls keys quiet outer) (c.act e' told) e' err :=
  h.asides e' (fun deed hdeed => (htold deed hdeed).1) fun _ deed hdeed => (htold deed hdeed).2

namespace Script

theorem chronicle_raises {script : Script υ Handled} (hraises : script.Raises err)
    (hfree : quiet → script.ScopeFree)
    (h : TellsError (Falls keys quiet (call :: outer)) c e err) :
    Accords (Closes (Calm outer) (Falls keys quiet outer) call) (script.chronicle p walk c)
      (script.run (p.surroundings walk') e) := by
  obtain rfl : c.engine = e := h.1
  induction script generalizing c with
  | done handled =>
    have hverdict : handled.verdict = .error err := hraises
    refine .done rfl ⟨fun answer hok => ?_, fun err' herr => ?_⟩
    · rw [hverdict] at hok
      cases hok
    · rw [hverdict] at herr
      cases herr
      exact h.2.ended
  | observe next ih => exact ih _ _ (hraises _ _) (fun hq => hfree hq _ _) h
  | setSkip skip next ih => exact ih hraises hfree (h.unhooked _ asides_nil)
  | warn loc description next ih =>
    exact ih hraises hfree (h.unhooked _ (asides_warned loc description))
  | pushScope node next ih =>
    exact ih hraises (fun hq => (hfree hq).elim)
      (h.asides _ (asides_hookDeeds _ _) fun hq => (hfree hq).elim)
  | popScope next ih =>
    exact ih _ (hraises _) (fun hq => (hfree hq).elim)
      (h.asides _ (asides_closed _ _ _) fun hq => (hfree hq).elim)
  | editContext edit next ih => exact ih hraises hfree (h.unhooked _ asides_nil)
  | remember memory next ih => exact ih hraises hfree (h.unhooked _ asides_nil)
  | traverse n parent next ih => exact hraises.elim
  | traverseChildren n next ih => exact hraises.elim

theorem chronicle_passing {script : Script υ Handled} (hpass : script.PassesOn)
    (hdiscreet : quiet → script.Discreet)
    (hdescends : Descends p.options.keys (Calm (call :: outer))
      (Falls keys quiet (call :: outer)))
    (hwalk : WalksTell (Calm (call :: outer)) (Falls keys quiet (call :: outer)) walk walk')
    (h : Tells (Calm (call :: outer)) c e) :
    Accords (Closes (Calm outer) (Falls keys quiet outer) call) (script.chronicle p walk c)
      (script.run (p.surroundings walk') e) := by
  obtain rfl : c.engine = e := h.1
  induction script generalizing c with
  | done handled =>
    refine .done rfl ⟨fun answer _ => h.2.concat rfl rfl rfl, fun err _ => ?_⟩
    exact h.2.falls (.call rfl) rfl
  | observe next ih => exact ih _ _ (hpass _ _) (fun hq => hdiscreet hq _ _) h
  | setSkip skip next ih => exact ih hpass hdiscreet (h.act _ rfl)
  | warn loc description next ih =>
    exact ih hpass hdiscreet
      (h.asides _ fun deed hdeed => (asides_warned loc description deed hdeed).1)
  | pushScope node next ih => exact ih hpass hdiscreet (h.asides _ (asides_hookDeeds _ _))
  | popScope next ih =>
    exact ih _ (hpass _) (fun hq => hdiscreet hq _) (h.asides _ (asides_closed _ _ _))
  | editContext edit next ih => exact ih hpass hdiscreet (h.act _ rfl)
  | remember memory next ih => exact ih hpass hdiscreet (h.act _ rfl)
  | traverse n parent next ih =>
    refine nested_accords h (fun c e h => hwalk n parent c e h) (fun m c h => ?_)
      fun m c err h => ?_
    · exact ih m _ (hpass m).1 (fun hq => (hdiscreet hq m).1) h
    · exact chronicle_raises ((hpass m).2 err) (fun hq => (hdiscreet hq m).2 err) h
  | traverseChildren n next ih =>
    have hchildren := descent_tells hdescends hwalk n
    refine nested_accords h hchildren (fun m c h => ?_) fun m c err h => ?_
    · exact ih m _ (hpass m).1 (fun hq => (hdiscreet hq m).1) h
    · exact chronicle_raises ((hpass m).2 err) (fun hq => (hdiscreet hq m).2 err) h

end Script

end Scripts

def Handler.PassesOn (handler : Handler υ) : Prop := ∀ n parent, (handler n parent).PassesOn

def Handler.Discreet (handler : Handler υ) : Prop := ∀ n parent, (handler n parent).Discreet

namespace HandlerSet

def PassesOn (h : HandlerSet υ) : Prop :=
  ∀ key handler, h.lookup key = some handler → handler.PassesOn

def Discreet (h : HandlerSet υ) : Prop :=
  ∀ key handler, h.lookup key = some handler → handler.Discreet

theorem compose_passesOn {sets : List (HandlerSet υ)} (hsets : ∀ set ∈ sets, set.PassesOn) :
    (compose sets).PassesOn :=
  compose_handlers (baseline_handlers (fun _ _ => trivial) (fun _ _ => trivial)
    fun _ _ _ => trivial) hsets

theorem compose_discreet {sets : List (HandlerSet υ)} (hsets : ∀ set ∈ sets, set.Discreet) :
    (compose sets).Discreet :=
  compose_handlers (baseline_handlers (fun _ _ => trivial) (fun _ _ => trivial)
    fun _ _ _ => trivial) hsets

end HandlerSet

theorem descends_calm (keys : VisitorKeys) (quiet : Prop) (outer : List (Call υ)) :
    Descends keys (Calm outer) (Falls keys quiet outer) where
  known _ h := h.concat trivial rfl rfl
  unknown hkeys h := h.falls (.unknown hkeys rfl) rfl

theorem Pass.narrates_of_passesOn {p : Pass υ} (hp : p.handlers.PassesOn) :
    p.Narrates Calm (Falls p.options.keys p.handlers.Discreet) where
  descends := descends_calm p.options.keys p.handlers.Discreet
  calls := by
    intro walk walk' hwalk outer key handler hlookup n parent c e h
    let call : Call υ := ⟨key, n, parent, e⟩
    have hbegan : Tells (Calm (call :: outer)) (c.act e [.began call]) e :=
      ⟨rfl, h.2.concat trivial rfl rfl⟩
    exact Script.chronicle_passing (hp key handler hlookup n parent)
      (fun hq => hq key handler hlookup n parent) (descends_calm _ _ _) (hwalk _) hbegan

/-- A run that succeeds has had no failing call. One that fails does so at one deed. No call failed
before it. It is the end of the innermost open call, which returns the error, or a descent into a
node of unknown kind. After it no call begins, all calls that are open then return the error,
innermost first, and no hook is called unless a handler opens or closes a scope on its own way
out. -/
theorem run_fails_at_once {p : Pass υ} (hp : p.handlers.PassesOn) {fuel : Nat} {tree : Node}
    {memory : υ} {finished : Pass.Finished υ} (hrun : p.run fuel tree memory = some finished) :
    let deeds := p.deeds fuel tree memory
    Brackets [] deeds ∧
    (∀ output, finished.result = .ok output → ∀ deed ∈ deeds, deed.failure? = none) ∧
    ∀ err, finished.result = .error err → ∃ before last after,
      deeds = before ++ last :: after ∧
      (∀ deed ∈ before, deed.failure? = none) ∧
      last.Raises p.options.keys (openCalls before) err ∧
      (∀ deed ∈ after, deed.isBeginning = false) ∧
      after.filterMap Deed.answer? = (openCalls (before ++ [last])).map (·, .error err) ∧
      (p.handlers.Discreet → ∀ deed ∈ after, deed.isHook = false) := by
  have hstart : Calm ([] : List (Call υ)) [] [] :=
    ⟨⟨rfl, fun before deed after h => by simp at h⟩, fun deed h => by cases h⟩
  obtain ⟨hok, herror⟩ := (Pass.narrates_of_passesOn hp).run hstart hrun
  refine ⟨?_, fun output h => (hok output h).clean, fun err h => ?_⟩
  · cases hresult : finished.result with
    | ok output => exact (hok output hresult).brackets
    | error err =>
      obtain ⟨warnings, hfalls⟩ := herror err hresult
      exact hfalls.brackets
  · obtain ⟨warnings, hfalls⟩ := herror err h
    obtain ⟨before, last, after, hsplit, hfails⟩ := hfalls.fails
    refine ⟨before, last, after, hsplit, hfails.clean, hfails.raises, hfails.uncalled, ?_,
      hfails.unhooked⟩
    have hreturned := hfails.returned
    rwa [List.map_nil, List.append_nil] at hreturned

def relay (answer : Except PassError Unit → Except PassError (Option Node)) : Handler Unit :=
  fun n _ => .traverseChildren n fun n r => .done ⟨n, answer r⟩

def refusal : PassError := .failed ⟨none, "no", "", ""⟩

def relaying : HandlerSet Unit :=
  HandlerSet.empty
    |>.withEnter programKind (relay (Except.map fun _ => none))
    |>.withEnter "BlockStatement" (relay (Except.map fun _ => none))
    |>.withEnter "Identifier" fun n _ => .done (.fail n refusal)

def relayingPass : Pass Unit := ⟨.sourceless, .compose [relaying]⟩

def relayed : Node :=
  (Node.new "Program").withChild "body"
    ((Node.new "BlockStatement").withChildren "body" [Node.new "Literal", Node.new "Identifier"])

theorem relay_passesOn {answer : Except PassError Unit → Except PassError (Option Node)}
    (h : ∀ err, answer (.error err) = .error err) : (relay answer).PassesOn :=
  fun _ _ _ => ⟨trivial, h⟩

theorem relaying_passesOn : relaying.PassesOn := by
  refine HandlerSet.added_handlers (HandlerSet.added_handlers (HandlerSet.added_handlers
    HandlerSet.empty_handlers (HandlerSet.lookup_withEnter _ _ _) ?_)
    (HandlerSet.lookup_withEnter _ _ _) ?_) (HandlerSet.lookup_withEnter _ _ _) ?_
  · exact relay_passesOn fun _ => rfl
  · exact relay_passesOn fun _ => rfl
  · exact fun _ _ => trivial

theorem relaying_discreet : relaying.Discreet := by
  refine HandlerSet.added_handlers (HandlerSet.added_handlers (HandlerSet.added_handlers
    HandlerSet.empty_handlers (HandlerSet.lookup_withEnter _ _ _) ?_)
    (HandlerSet.lookup_withEnter _ _ _) ?_) (HandlerSet.lookup_withEnter _ _ _) ?_
  · exact fun _ _ _ => ⟨trivial, fun _ => trivial⟩
  · exact fun _ _ _ => ⟨trivial, fun _ => trivial⟩
  · exact fun _ _ => trivial

theorem relaying_fails_at_once :
    relayingPass.handlers.PassesOn ∧ relayingPass.handlers.Discreet ∧
    relayingPass.run 4 relayed () = some ⟨.error refusal, ()⟩ ∧
    ((relayingPass.deeds 4 relayed ()).filterMap Deed.answer?).map
      (fun answer => answer.1.key.text) = ["Identifier", "BlockStatement", "Program"] ∧
    ∃ before last after, relayingPass.deeds 4 relayed () = before ++ last :: after ∧
      last.Raises relayingPass.options.keys (openCalls before) refusal ∧
      after.filterMap Deed.answer? = (openCalls (before ++ [last])).map (·, .error refusal) ∧
      ∀ deed ∈ after, deed.isHook = false := by
  have hpasses : relayingPass.handlers.PassesOn :=
    HandlerSet.compose_passesOn (by simpa using relaying_passesOn)
  have hdiscreet : relayingPass.handlers.Discreet :=
    HandlerSet.compose_discreet (by simpa using relaying_discreet)
  have hrun : relayingPass.run 4 relayed () = some ⟨.error refusal, ()⟩ := rfl
  obtain ⟨-, -, hfails⟩ := run_fails_at_once hpasses hrun
  obtain ⟨before, last, after, hsplit, -, hraises, -, hreturned, hunhooked⟩ := hfails refusal rfl
  exact ⟨hpasses, hdiscreet, hrun, rfl, before, last, after, hsplit, hraises, hreturned,
    hunhooked hdiscreet⟩

def late : HandlerSet Unit :=
  HandlerSet.empty
    |>.withEnter programKind (relay fun r => r.bind fun _ => .error refusal)
    |>.withEnter "Identifier" fun n _ => .done (.keep n)

def tidy : HandlerSet Unit :=
  HandlerSet.empty
    |>.withScopeExit (fun _ memory => (none, memory))
    |>.withEnter programKind (fun n _ => .pushScope n.info (.traverseChildren n fun n r =>
      .popScope fun _ => .done ⟨n, r.map fun _ => none⟩))
    |>.withEnter "Identifier" fun n _ => .done (.fail n refusal)

def latePass : Pass Unit := ⟨.sourceless, .compose [late]⟩

def tidyPass : Pass Unit := ⟨.sourceless, .compose [tidy]⟩

def oneName : Node := (Node.new "Program").withChildren "body" [Node.new "Identifier"]

theorem late_passesOn : late.PassesOn := by
  refine HandlerSet.added_handlers (HandlerSet.added_handlers
    HandlerSet.empty_handlers (HandlerSet.lookup_withEnter _ _ _) ?_)
    (HandlerSet.lookup_withEnter _ _ _) ?_
  · exact relay_passesOn fun _ => rfl
  · exact fun _ _ => trivial

theorem tidy_passesOn : tidy.PassesOn := by
  have hhook : (HandlerSet.empty.withScopeExit fun _ memory => (none, memory) :
      HandlerSet Unit).PassesOn := HandlerSet.empty_handlers
  refine HandlerSet.added_handlers (HandlerSet.added_handlers
    hhook (HandlerSet.lookup_withEnter _ _ _) ?_) (HandlerSet.lookup_withEnter _ _ _) ?_
  · exact fun _ _ _ => ⟨fun _ => trivial, fun _ _ => rfl⟩
  · exact fun _ _ => trivial

/-- The call that started last may have succeeded, and a hook may be called after the call that
failed first, though all handlers pass errors on. -/
theorem failing_call_not_last :
    (latePass.handlers.PassesOn ∧ latePass.run 3 oneName () = some ⟨.error refusal, ()⟩ ∧
      ∃ before call after, latePass.deeds 3 oneName () = before ++ .began call :: after ∧
        (∀ deed ∈ after, deed.isBeginning = false) ∧ .ended call (.ok none) ∈ after) ∧
    (tidyPass.handlers.PassesOn ∧ tidyPass.run 3 oneName () = some ⟨.error refusal, ()⟩ ∧
      ∃ before call after,
        tidyPass.deeds 3 oneName () = before ++ .ended call (.error refusal) :: after ∧
        .hooked .scopeExit ∈ after) := by
  refine ⟨⟨?_, rfl, [_, _], _, [_, _, _], rfl, ?_, ?_⟩, ?_, rfl, [_, _, _], _, [_, _], rfl, ?_⟩
  · exact HandlerSet.compose_passesOn (by simpa using late_passesOn)
  · simp [Deed.isBeginning]
  · exact List.mem_cons_self
  · exact HandlerSet.compose_passesOn (by simpa using tidy_passesOn)
  · exact List.mem_cons_self

end SyntaxWalk
