import Mathlib.Data.List.Infix
import SyntaxWalk.Scope

/-!
# The scopes of a history

What a list of operations leaves on an empty stack can be read off the list alone: the pushes that
no pop has matched, each with the writes that were made to its frame on a copy of the context it
was opened in.
-/

namespace SyntaxWalk

namespace Scope

/-- A write goes to the innermost frame, or to the frame at a place counted from the outermost. -/
inductive Op where
  | push (node : NodeInfo) (depth : Nat)
  | pop
  | write (f : Context → Context)
  | writeAt (index : Nat) (f : Context → Context)

namespace Op

def isPush : Op → Bool
  | push .. => true
  | _ => false

def isPop : Op → Bool
  | pop => true
  | _ => false

end Op

namespace Stack

def step (s : Stack) : Op → Stack
  | .push node depth => s.push node depth
  | .pop =>
    match s.pop? with
    | none => s
    | some (_, rest) => rest
  | .write f => s.mapContext f
  | .writeAt index f => s.mapContextAt index f

def after (ops : List Op) : Stack := ops.foldl step empty

theorem after_concat (ops : List Op) (op : Op) : after (ops ++ [op]) = (after ops).step op :=
  List.foldl_concat _ _ _ _

theorem outermostFirst_push (s : Stack) (node : NodeInfo) (depth : Nat) :
    (s.push node depth).outermostFirst =
      s.outermostFirst ++ [⟨⟨node.kind, node.loc, depth⟩, s.context?.getD .empty⟩] :=
  List.reverse_cons

theorem outermostFirst_pop (s : Stack) :
    (s.step .pop).outermostFirst = s.outermostFirst.dropLast := by
  obtain ⟨frames⟩ := s
  cases frames with
  | nil => rfl
  | cons frame rest =>
    change rest.reverse = (frame :: rest).reverse.dropLast
    rw [List.reverse_cons, List.dropLast_concat]

theorem outermostFirst_mapContextAt (s : Stack) (index : Nat) (f : Context → Context) :
    (s.mapContextAt index f).outermostFirst =
      s.outermostFirst.modify index fun frame => { frame with context := f frame.context } :=
  List.reverse_reverse _

theorem mapContext_eq_mapContextAt (s : Stack) (f : Context → Context) :
    s.mapContext f = s.mapContextAt (s.outermostFirst.length - 1) f := by
  obtain ⟨frames⟩ := s
  cases frames with
  | nil => rfl
  | cons frame rest =>
    simp [mapContext, mapContextAt, outermostFirst, List.modify_eq_take_cons_drop]

theorem getLast?_outermostFirst (s : Stack) : s.outermostFirst.getLast? = s.frames.head? := by
  rw [outermostFirst, List.getLast?_reverse]

end Stack

/-- Whether a frame is still open after the operations that follow its push: at no point do they
hold more pops than pushes. -/
def Outlives (later : List Op) : Prop :=
  ∀ since ∈ later.inits, since.countP Op.isPop ≤ since.countP Op.isPush

instance (later : List Op) : Decidable (Outlives later) :=
  inferInstanceAs (Decidable (∀ since ∈ later.inits, _))

structure Opening where
  place : Nat
  node : NodeInfo
  depth : Nat

/-- What an operation opens that is still open, the operations `later` having followed it. -/
def Op.opening? (place : Nat) (later : List Op) : Op → Option Opening
  | .push node depth => if Outlives later then some ⟨place, node, depth⟩ else none
  | _ => none

def openings (ops : List Op) : List Opening :=
  ops.zipIdx.filterMap fun (op, place) => op.opening? place (ops.drop (place + 1))

def Op.write? (before : List Op) : Op → Option (Opening × (Context → Context))
  | .push .. | .pop => none
  | .write f => (openings before).getLast?.map (·, f)
  | .writeAt index f => (openings before)[index]?.map (·, f)

def Op.writeTo? (place : Nat) (before : List Op) (op : Op) : Option (Context → Context) :=
  ((op.write? before).filter fun w => w.1.place = place).map Prod.snd

def writesTo (place : Nat) (ops : List Op) : List (Context → Context) :=
  ops.zipIdx.filterMap fun (op, k) => op.writeTo? place (ops.take k)

theorem Op.place_of_opening? {place : Nat} {later : List Op} {op : Op} {o : Opening}
    (h : op.opening? place later = some o) : o.place = place := by
  cases op with
  | push node depth =>
    obtain ⟨-, rfl⟩ : Outlives later ∧ ⟨place, node, depth⟩ = o := by simpa [opening?] using h
    rfl
  | _ => cases h

theorem place_lt_of_mem_openings {ops : List Op} {o : Opening} (h : o ∈ openings ops) :
    o.place < ops.length := by
  obtain ⟨⟨op, place⟩, hmem, ho⟩ := List.mem_filterMap.mp h
  rw [Op.place_of_opening? ho]
  exact (List.mem_zipIdx' hmem).1

/-- The context of the frame that was pushed at a place: that of the innermost frame open then,
with the writes made since. -/
def contextOf (ops : List Op) (place : Nat) : Context :=
  (writesTo place ops).foldl (fun context f => f context)
    (match _h : (openings (ops.take place)).getLast? with
      | none => .empty
      | some below => contextOf (ops.take place) below.place)
termination_by place
decreasing_by
  have hlt := place_lt_of_mem_openings (List.mem_of_getLast? _h)
  exact Nat.lt_of_lt_of_le hlt (List.length_take_le _ _)

def Opening.frame (ops : List Op) (o : Opening) : Frame :=
  ⟨⟨o.node.kind, o.node.loc, o.depth⟩, contextOf ops o.place⟩

def replay (ops : List Op) : List Frame := (openings ops).map (Opening.frame ops)

def replayContext (ops : List Op) : Context :=
  ((replay ops).getLast?.map Frame.context).getD .empty

theorem contextOf_eq (ops : List Op) (place : Nat) :
    contextOf ops place =
      (writesTo place ops).foldl (fun context f => f context)
        (replayContext (ops.take place)) := by
  rw [contextOf, replayContext, replay, List.getLast?_map]
  congr 1
  split <;> simp_all [Opening.frame]

theorem outlives_nil : Outlives [] := by
  intro since h
  rw [List.mem_inits, List.prefix_nil] at h
  rw [h]
  exact Nat.le_refl 0

theorem outlives_concat {later : List Op} {op : Op} :
    Outlives (later ++ [op]) ↔
      Outlives later ∧ (later ++ [op]).countP Op.isPop ≤ (later ++ [op]).countP Op.isPush := by
  simp only [Outlives, List.mem_inits, List.prefix_concat_iff]
  constructor
  · intro h
    exact ⟨fun since hs => h since (.inr hs), h _ (.inl rfl)⟩
  · rintro ⟨h, hall⟩ since (rfl | hs)
    · exact hall
    · exact h since hs

theorem Outlives.countP_le {later : List Op} (h : Outlives later) :
    later.countP Op.isPop ≤ later.countP Op.isPush :=
  h later ((List.mem_inits _ _).mpr List.prefix_rfl)

theorem outlives_concat_of_not_pop {later : List Op} {op : Op} (hop : op.isPop = false) :
    Outlives (later ++ [op]) ↔ Outlives later := by
  rw [outlives_concat, and_iff_left_iff_imp]
  intro h
  have hle := h.countP_le
  simp only [List.countP_append, List.countP_singleton, hop, Bool.false_eq_true, if_false]
  omega

namespace Op

theorem opening?_concat {op : Op} (hop : op.isPop = false) (place : Nat) (later : List Op)
    (o : Op) : o.opening? place (later ++ [op]) = o.opening? place later := by
  cases o with
  | push node depth => simp only [opening?, outlives_concat_of_not_pop hop]
  | _ => rfl

theorem opening?_concat_pop (place : Nat) (later : List Op) (o : Op) :
    o.opening? place (later ++ [.pop]) =
      (o.opening? place later).filter fun _ => later.countP isPop < later.countP isPush := by
  cases o with
  | push node depth =>
    have hpop : (later ++ [pop]).countP isPop ≤ (later ++ [pop]).countP isPush ↔
        later.countP isPop < later.countP isPush := by
      simp only [List.countP_append, List.countP_singleton, isPop, isPush]
      exact Iff.rfl
    by_cases hlater : Outlives later
    · simp only [opening?, outlives_concat, hpop, hlater, true_and, if_true, Option.filter_some]
      by_cases hlt : later.countP isPop < later.countP isPush <;> simp [hlt]
    · simp [opening?, outlives_concat, hlater]
  | _ => rfl

end Op

section Concat

variable (ops : List Op) (op : Op)

theorem writesTo_concat (place : Nat) :
    writesTo place (ops ++ [op]) = writesTo place ops ++ (op.writeTo? place ops).toList := by
  rw [writesTo, List.zipIdx_append, List.filterMap_append]
  congr 1
  · refine List.filterMap_congr fun ⟨o, k⟩ hmem => ?_
    have hk := (List.mem_zipIdx' hmem).1
    dsimp only
    rw [List.take_append_of_le_length (by omega)]
  · cases hwrite : op.writeTo? place ops <;> simp [hwrite]

theorem contextOf_concat {place : Nat} (h : place ≤ ops.length) :
    contextOf (ops ++ [op]) place =
      (op.writeTo? place ops).getD id (contextOf ops place) := by
  rw [contextOf_eq, contextOf_eq, writesTo_concat, List.foldl_append,
    List.take_append_of_le_length h]
  cases op.writeTo? place ops <;> rfl

theorem openings_concat :
    openings (ops ++ [op]) =
      (ops.zipIdx.filterMap fun (o, place) => o.opening? place (ops.drop (place + 1) ++ [op])) ++
        (op.opening? ops.length []).toList := by
  rw [openings, List.zipIdx_append, List.filterMap_append]
  congr 1
  · refine List.filterMap_congr fun ⟨o, k⟩ hmem => ?_
    have hk := (List.mem_zipIdx' hmem).1
    dsimp only
    rw [List.drop_append_of_le_length (by omega)]
  · cases hopen : op.opening? ops.length [] <;> simp [hopen]

theorem openings_concat_of_not_pop (hop : op.isPop = false) :
    openings (ops ++ [op]) = openings ops ++ (op.opening? ops.length []).toList := by
  simp only [openings_concat, Op.opening?_concat hop]
  rfl

theorem openings_push (node : NodeInfo) (depth : Nat) :
    openings (ops ++ [.push node depth]) = openings ops ++ [⟨ops.length, node, depth⟩] := by
  rw [openings_concat_of_not_pop ops _ rfl, Op.opening?, if_pos outlives_nil]
  rfl

theorem openings_write (hpush : op.isPush = false) (hpop : op.isPop = false) :
    openings (ops ++ [op]) = openings ops := by
  rw [openings_concat_of_not_pop ops op hpop]
  cases op with
  | push node depth => cases hpush
  | _ => exact List.append_nil _

theorem openings_pop_eq_filter :
    openings (ops ++ [.pop]) = (openings ops).filter fun o =>
      (ops.drop (o.place + 1)).countP Op.isPop < (ops.drop (o.place + 1)).countP Op.isPush := by
  rw [openings_concat, openings, List.filter_filterMap]
  refine (List.append_nil _).trans (List.filterMap_congr fun ⟨o, place⟩ _ => ?_)
  dsimp only
  rw [Op.opening?_concat_pop]
  cases ho : o.opening? place (ops.drop (place + 1)) with
  | none => rfl
  | some opened => rw [Option.filter_some, Option.filter_some, Op.place_of_opening? ho]

end Concat

/-- After an open push there are as many more pushes than pops as there are open ones after it. -/
def Balanced (ops : List Op) : Prop :=
  ∀ front o back, openings ops = front ++ o :: back →
    (ops.drop (o.place + 1)).countP Op.isPush =
      (ops.drop (o.place + 1)).countP Op.isPop + back.length

theorem filter_eq_dropLast {α : Type} {P : α → Bool} {l : List α}
    (h : ∀ front a back, l = front ++ a :: back → (P a = true ↔ back ≠ [])) :
    l.filter P = l.dropLast := by
  obtain rfl | ⟨front, a, rfl⟩ := List.eq_nil_or_concat l
  · rfl
  · rw [List.concat_eq_append] at h ⊢
    have hlast : ¬ P a = true := fun ha => (h front a [] rfl).mp ha rfl
    have hfront : ∀ b ∈ front, P b = true := fun b hb => by
      obtain ⟨before, after, rfl⟩ := List.append_of_mem hb
      exact (h before b (after ++ [a]) (by simp)).mpr (by simp)
    rw [List.filter_append, List.filter_eq_self.mpr hfront, List.dropLast_concat]
    simp [hlast]

theorem Balanced.openings_pop {ops : List Op} (h : Balanced ops) :
    openings (ops ++ [.pop]) = (openings ops).dropLast := by
  rw [openings_pop_eq_filter]
  refine filter_eq_dropLast fun front o back heq => ?_
  have hcount := h front o back heq
  rw [decide_eq_true_iff, hcount, ← List.length_pos_iff]
  omega

theorem countP_later_concat {ops : List Op} {o : Opening} (h : o ∈ openings ops) (op : Op)
    (P : Op → Bool) :
    ((ops ++ [op]).drop (o.place + 1)).countP P =
      (ops.drop (o.place + 1)).countP P + [op].countP P := by
  rw [List.drop_append_of_le_length (place_lt_of_mem_openings h), List.countP_append]

theorem balanced (ops : List Op) : Balanced ops := by
  induction ops using List.reverseRecOn with
  | nil =>
    intro front o back h
    exact absurd h (by simp [openings])
  | append_singleton ops op ih =>
    intro front o back h
    have unmoved (hpush : op.isPush = false) (hpop : op.isPop = false) :
        ((ops ++ [op]).drop (o.place + 1)).countP Op.isPush =
          ((ops ++ [op]).drop (o.place + 1)).countP Op.isPop + back.length := by
      rw [openings_write ops op hpush hpop] at h
      have hmem : o ∈ openings ops := by simp [h]
      rw [countP_later_concat hmem, countP_later_concat hmem, ih front o back h,
        List.countP_singleton, List.countP_singleton, hpush, hpop]
      rfl
    cases op with
    | push node depth =>
      rw [openings_push] at h
      obtain rfl | ⟨back, last, rfl⟩ := List.eq_nil_or_concat' back
      · obtain ⟨-, hlast⟩ := List.append_inj' h rfl
        cases hlast
        simp
      · rw [← List.cons_append, ← List.append_assoc] at h
        obtain ⟨hfront, -⟩ := List.append_inj' h rfl
        have hmem : o ∈ openings ops := by simp [hfront]
        rw [countP_later_concat hmem, countP_later_concat hmem, ih front o back hfront,
          List.length_append, Nat.add_assoc]
        rfl
    | pop =>
      rw [ih.openings_pop] at h
      have hne : openings ops ≠ [] := by
        rintro hnil
        simp [hnil] at h
      have hsplit : openings ops = front ++ o :: (back ++ [(openings ops).getLast hne]) := by
        rw [← List.cons_append, ← List.append_assoc, ← h, List.dropLast_append_getLast hne]
      have hmem : o ∈ openings ops := by rw [hsplit]; simp
      rw [countP_later_concat hmem, countP_later_concat hmem, ih front o _ hsplit,
        List.length_append, Nat.add_comm back.length, ← Nat.add_assoc]
      rfl
    | write f => exact unmoved rfl rfl
    | writeAt index f => exact unmoved rfl rfl

/-- Places grow with the frames, so no two frames are of one push. -/
theorem openings_ordered (ops : List Op) :
    (openings ops).Pairwise fun o₁ o₂ => o₁.place < o₂.place := by
  have hplaces : ops.zipIdx.Pairwise fun x y => x.2 < y.2 := by
    rw [← List.pairwise_map, List.zipIdx_map_snd]
    exact List.pairwise_lt_range'
  refine hplaces.filterMap _ fun x y hlt o₁ h₁ o₂ h₂ => ?_
  rw [Op.place_of_opening? h₁, Op.place_of_opening? h₂]
  exact hlt

theorem place_getElem_inj {ops : List Op} {i j : Nat} (hi : i < (openings ops).length)
    (hj : j < (openings ops).length) :
    (openings ops)[i].place = (openings ops)[j].place ↔ i = j := by
  have hordered := List.pairwise_iff_getElem.mp (openings_ordered ops)
  refine ⟨fun h => ?_, fun h => by subst h; rfl⟩
  obtain hlt | heq | hgt := Nat.lt_trichotomy i j
  · exact absurd h (Nat.ne_of_lt (hordered i j hi hj hlt))
  · exact heq
  · exact absurd h.symm (Nat.ne_of_lt (hordered j i hj hi hgt))

namespace Op

theorem mem_of_write? {before : List Op} {op : Op} {w : Opening × (Context → Context)}
    (h : op.write? before = some w) : w.1 ∈ openings before := by
  cases op with
  | push node depth => cases h
  | pop => cases h
  | write f =>
    obtain ⟨o, ho, rfl⟩ := Option.map_eq_some_iff.mp h
    exact List.mem_of_getLast? ho
  | writeAt index f =>
    obtain ⟨o, ho, rfl⟩ := Option.map_eq_some_iff.mp h
    exact List.mem_of_getElem? ho

theorem writeTo?_of_length_le {before : List Op} {place : Nat} (h : before.length ≤ place)
    (op : Op) : op.writeTo? place before = none := by
  cases hw : op.write? before with
  | none => simp [writeTo?, hw]
  | some w =>
    have hlt := place_lt_of_mem_openings (mem_of_write? hw)
    have hne : w.1.place ≠ place := by omega
    simp [writeTo?, hw, hne]

theorem writeTo?_writeAt {ops : List Op} {k : Nat} (hk : k < (openings ops).length) (index : Nat)
    (f : Context → Context) :
    (writeAt index f).writeTo? (openings ops)[k].place ops =
      if index = k then some f else none := by
  by_cases hindex : index < (openings ops).length
  · simp only [writeTo?, write?, List.getElem?_eq_getElem hindex, Option.map_some,
      Option.filter_some, place_getElem_inj hindex hk, decide_eq_true_iff]
    split <;> rfl
  · have hne : index ≠ k := by omega
    simp [writeTo?, write?, List.getElem?_eq_none (Nat.le_of_not_lt hindex), hne]

end Op

section Replay

variable (ops : List Op)

theorem Opening.frame_concat {o : Opening} (h : o ∈ openings ops) (op : Op) :
    o.frame (ops ++ [op]) =
      { o.frame ops with
        context := (op.writeTo? o.place ops).getD id (contextOf ops o.place) } := by
  rw [frame, contextOf_concat ops op (Nat.le_of_lt (place_lt_of_mem_openings h))]
  rfl

theorem replay_push (node : NodeInfo) (depth : Nat) :
    replay (ops ++ [.push node depth]) =
      replay ops ++ [⟨⟨node.kind, node.loc, depth⟩, replayContext ops⟩] := by
  have hnew : contextOf ops ops.length = replayContext ops := by
    have hwrites : writesTo ops.length ops = [] :=
      List.filterMap_eq_nil_iff.mpr fun (op, k) _ =>
        Op.writeTo?_of_length_le (List.length_take_le' k ops) op
    rw [contextOf_eq, hwrites, List.take_length, List.foldl_nil]
  rw [replay, openings_push, List.map_append]
  congr 1
  · exact List.map_congr_left fun o ho => o.frame_concat ops ho _
  · change [(⟨⟨node.kind, node.loc, depth⟩, contextOf _ ops.length⟩ : Frame)] = _
    rw [contextOf_concat _ _ (Nat.le_refl _), ← hnew]
    rfl

theorem replay_pop : replay (ops ++ [.pop]) = (replay ops).dropLast := by
  rw [replay, replay, (balanced ops).openings_pop, ← List.map_dropLast]
  exact List.map_congr_left fun o ho => o.frame_concat ops (List.mem_of_mem_dropLast ho) _

theorem replay_writeAt (index : Nat) (f : Context → Context) :
    replay (ops ++ [.writeAt index f]) =
      (replay ops).modify index fun frame => { frame with context := f frame.context } := by
  rw [replay, replay, openings_write ops _ rfl rfl]
  refine List.ext_getElem (by simp) fun k hk _ => ?_
  rw [List.length_map] at hk
  rw [List.getElem_modify, List.getElem_map, List.getElem_map,
    Opening.frame_concat ops (List.getElem_mem hk), Op.writeTo?_writeAt hk]
  split <;> rfl

theorem replay_write (f : Context → Context) :
    replay (ops ++ [.write f]) = replay (ops ++ [.writeAt ((replay ops).length - 1) f]) := by
  have hwrite : (Op.write f).write? ops = (Op.writeAt ((replay ops).length - 1) f).write? ops := by
    rw [Op.write?, Op.write?, List.getLast?_eq_getElem?, replay, List.length_map]
  rw [replay, replay, openings_write ops _ rfl rfl, openings_write ops _ rfl rfl]
  refine List.map_congr_left fun o ho => ?_
  rw [o.frame_concat ops ho, o.frame_concat ops ho, Op.writeTo?, Op.writeTo?, hwrite]

end Replay

theorem outermostFirst_after (ops : List Op) : (Stack.after ops).outermostFirst = replay ops := by
  induction ops using List.reverseRecOn with
  | nil => rfl
  | append_singleton ops op ih =>
    rw [Stack.after_concat]
    cases op with
    | push node depth =>
      have hcontext : (Stack.after ops).context?.getD .empty = replayContext ops := by
        rw [replayContext, ← ih, Stack.getLast?_outermostFirst]
        rfl
      rw [replay_push, ← ih, ← hcontext]
      exact Stack.outermostFirst_push _ _ _
    | pop => rw [replay_pop, ← ih, Stack.outermostFirst_pop]
    | write f =>
      rw [replay_write, replay_writeAt, ← ih, ← Stack.outermostFirst_mapContextAt,
        ← Stack.mapContext_eq_mapContextAt]
      rfl
    | writeAt index f =>
      rw [replay_writeAt, ← ih, ← Stack.outermostFirst_mapContextAt]
      rfl

def Transition.between (after before : Option Frame) : Transition :=
  ⟨after.map Frame.scope, after.map Frame.context, before.map Frame.scope,
    before.map Frame.context⟩

theorem Stack.transition_eq (after before : Stack) :
    after.transition before =
      .between after.outermostFirst.getLast? before.outermostFirst.getLast? := by
  rw [getLast?_outermostFirst, getLast?_outermostFirst]
  rfl

theorem stack_replays_history (ops : List Op) :
    (Stack.after ops).outermostFirst = replay ops ∧
      (∀ node depth,
        ((Stack.after ops).push node depth).transition (Stack.after ops) =
          .between (replay (ops ++ [.push node depth])).getLast? (replay ops).getLast?) ∧
      (Stack.after ops).pop?.map Prod.fst = (replay ops).getLast? := by
  refine ⟨outermostFirst_after ops, fun node depth => ?_, ?_⟩
  · rw [Stack.transition_eq, ← outermostFirst_after, ← outermostFirst_after, Stack.after_concat]
    rfl
  · rw [← outermostFirst_after, Stack.getLast?_outermostFirst]
    obtain ⟨frames⟩ := Stack.after ops
    cases frames <;> rfl

end Scope

end SyntaxWalk
