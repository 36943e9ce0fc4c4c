import SyntaxWalk.Proofs.FittingNumbers
import SyntaxWalk.Proofs.OrderedEntries

/-!
# Respelling locations

A location can be spelt as an object or as an array, and so can either of its positions, whose
offset goes by two names and may be null. It is written in one spelling. Reading a location and
writing it again comes to the respelling of it (`Loc.toJson_eq_respell`): the numbers are the ones
that were given, and what is not a number of it is dropped.
-/

namespace SyntaxWalk

namespace Json

/-- What a location or a position has under a name, or has in a place if it is an array. -/
def part? (name : String) (index : Nat) : Json → Option Json
  | .object members => members.get? name
  | .array items => items[index]?
  | _ => none

def unlessNull : Option Json → Option Json
  | some .null => none
  | v => v

def offsetPart? (position : Json) : Option Json :=
  unlessNull ((position.part? "offset" 2).or (position.part? "index" 2))

def respellPosition (position : Json) : Json :=
  .object ⟨("column", .ofOption (position.part? "column" 1)) ::
    ("line", .ofOption (position.part? "line" 0)) ::
      (position.offsetPart?.map ("offset", ·)).toList⟩

def respellLoc (loc : Json) : Json :=
  .object ⟨[("end", respellPosition (.ofOption (loc.part? "end" 1))),
    ("start", respellPosition (.ofOption (loc.part? "start" 0)))]⟩

def respellLoc? (loc : Json) : Option Json := (unlessNull (some loc)).map respellLoc

theorem Inherited.part? {P : Json → Prop} (hP : Inherited P) {v w : Json} {name : String}
    {index : Nat} (hv : P v) (h : v.part? name index = some w) : P w := by
  cases v with
  | object members => exact hP.get? hv h
  | array items => exact hP.item hv w (List.mem_of_getElem? h)
  | _ => cases h

end Json

section Folds

variable {ε δ α : Type} {step : δ → String × Json → Except ε δ} (get : δ → Option α)
  (name : String) (decode : Json → Except ε α)

theorem of_foldlM_eq_ok
    (hstep : ∀ {d entry d' a}, step d entry = .ok d' → get d' = some a →
      get d = some a ∨ entry.1 = name ∧ decode entry.2 = .ok a)
    {members : NameMap Json} (hmembers : members.Sorted) {d d' : δ} (hd : get d = none)
    (h : members.entries.foldlM step d = .ok d') {a : α} (ha : get d' = some a) :
    ∃ v, members.get? name = some v ∧ decode v = .ok a := by
  have hfold : ∀ (entries : List (String × Json)) (d : δ), entries.foldlM step d = .ok d' →
      get d = some a ∨ ∃ v, (name, v) ∈ entries ∧ decode v = .ok a := by
    intro entries
    induction entries with
    | nil =>
      intro d h
      cases h
      exact .inl ha
    | cons entry rest ih =>
      intro d h
      rw [List.foldlM_cons] at h
      obtain ⟨d₁, hfirst, hrest⟩ := of_bind_eq_ok h
      rcases ih d₁ hrest with hd₁ | ⟨v, hv, hread⟩
      · refine (hstep hfirst hd₁).imp_right fun ⟨hname, hread⟩ => ?_
        subst hname
        exact ⟨entry.2, List.mem_cons_self, hread⟩
      · exact .inr ⟨v, List.mem_cons_of_mem _ hv, hread⟩
  rcases hfold _ d h with hsome | ⟨v, hv, hread⟩
  · rw [hd] at hsome
    cases hsome
  · exact ⟨v, NameMap.find_of_mem hmembers.nodup hv, hread⟩

end Folds

section Locations

open Json (readCount require part? respellPosition respellLoc fits_inherited ordered_inherited)

theorem of_require_eq_ok {α : Type} {name : String} {x : Option α} {a : α}
    (h : require name x = .ok a) : x = some a := by
  cases x with
  | none => cases h
  | some b =>
    cases h
    rfl

namespace Position

inductive Draft.Reads (d : Draft) : String × Json → Draft → Prop
  | line {v : Json} {x : UInt64} (count : readCount v = .ok x) :
      Draft.Reads d ("line", v) { d with line := some x }
  | column {v : Json} {x : UInt64} (count : readCount v = .ok x) :
      Draft.Reads d ("column", v) { d with column := some x }
  | offset {name : String} {v : Json} {x : Option UInt64}
      (spelling : name = "offset" ∨ name = "index") (first : d.offset = none)
      (count : readOffset v = .ok x) :
      Draft.Reads d (name, v) { d with offset := some x }
  | other {name : String} {v : Json} (ignored : name ∉ ["line", "column", "offset", "index"]) :
      Draft.Reads d (name, v) d

theorem Draft.reads_of_read {d d' : Draft} {entry : String × Json} (h : d.read entry = .ok d') :
    d.Reads entry d' := by
  obtain ⟨name, v⟩ := entry
  simp only [Draft.read] at h
  split at h
  · rename_i hname
    obtain ⟨x, hx, heq⟩ := of_bind_eq_ok h
    cases heq
    exact hname ▸ .line hx
  · split at h
    · rename_i hname
      obtain ⟨x, hx, heq⟩ := of_bind_eq_ok h
      cases heq
      exact hname ▸ .column hx
    · split at h
      · rename_i hname
        split at h
        · cases h
        · rename_i hfirst
          obtain ⟨x, hx, heq⟩ := of_bind_eq_ok h
          cases heq
          exact .offset hname (by simpa using hfirst) hx
      · cases h
        apply Draft.Reads.other
        simp_all

theorem Draft.offset_of_foldlM {entries : List (String × Json)} {d d' : Draft}
    (h : entries.foldlM Draft.read d = .ok d') :
    (d.offset = none → ((NameMap.find "offset" entries).or (NameMap.find "index" entries)).mapM
      readOffset = .ok d'.offset) ∧
    (d.offset ≠ none → NameMap.find "offset" entries = none ∧ NameMap.find "index" entries = none ∧
      d'.offset = d.offset) := by
  induction entries generalizing d with
  | nil =>
    cases h
    exact ⟨fun hd => by rw [hd]; rfl, fun _ => ⟨rfl, rfl, rfl⟩⟩
  | cons entry rest ih =>
    rw [List.foldlM_cons] at h
    obtain ⟨d₁, hfirst, hrest⟩ := of_bind_eq_ok h
    cases Draft.reads_of_read hfirst with
    | line count => simpa [NameMap.find] using ih hrest
    | column count => simpa [NameMap.find] using ih hrest
    | other ignored =>
      simp only [List.mem_cons, not_or] at ignored
      simpa [NameMap.find, ignored] using ih hrest
    | @offset name v x spelling first count =>
      obtain ⟨hoffset, hindex, hd'⟩ := (ih hrest).2 (by simp)
      have hgiven : (NameMap.find "offset" ((name, v) :: rest)).or
          (NameMap.find "index" ((name, v) :: rest)) = some v := by
        rcases spelling with rfl | rfl <;> simp [NameMap.find, hoffset]
      refine ⟨fun _ => ?_, fun hd => absurd first hd⟩
      rw [hd', hgiven]
      exact congrArg (Except.map some) count

theorem unlessNull_of_mapM {x : Option Json} {offset : Option (Option UInt64)}
    (hx : ∀ v ∈ x, v.Fits) (h : x.mapM readOffset = .ok offset) :
    Json.unlessNull x = offset.join.map fun offset => .nat offset.toNat := by
  cases x with
  | none =>
    cases h
    rfl
  | some v =>
    obtain ⟨o, hread, ho⟩ := of_map_eq_ok h
    subst ho
    have hv := hx v rfl
    unfold readOffset at hread
    split at hread
    · cases hread
      rfl
    · rename_i hnull
      obtain ⟨n, hcount, rfl⟩ := of_map_eq_ok hread
      rw [Json.nat_of_readCount hv hcount]
      rfl

structure ReadFrom (v : Json) (p : Position) : Prop where
  line : ∃ w, v.part? "line" 0 = some w ∧ readCount w = .ok p.line
  column : ∃ w, v.part? "column" 1 = some w ∧ readCount w = .ok p.column
  offset : ∃ o, ((v.part? "offset" 2).or (v.part? "index" 2)).mapM readOffset = .ok o ∧
    p.offset = o.join

theorem readFrom_of_object {members : NameMap Json} (hm : members.Sorted) {p : Position}
    (h : ofJson (.object members) = .ok p) : ReadFrom (.object members) p := by
  obtain ⟨d, hfold, hfinish⟩ := of_bind_eq_ok h
  obtain ⟨line, hline, hfinish⟩ := of_bind_eq_ok hfinish
  obtain ⟨column, hcolumn, hfinish⟩ := of_bind_eq_ok hfinish
  cases hfinish
  constructor
  · exact of_foldlM_eq_ok Draft.line "line" readCount (fun hread ha => by
      cases Draft.reads_of_read hread <;> simp_all) hm rfl hfold (of_require_eq_ok hline)
  · exact of_foldlM_eq_ok Draft.column "column" readCount (fun hread ha => by
      cases Draft.reads_of_read hread <;> simp_all) hm rfl hfold (of_require_eq_ok hcolumn)
  · exact ⟨d.offset, (Draft.offset_of_foldlM hfold).1 rfl, rfl⟩

theorem readFrom_of_items {items : List Json} {p : Position} (h : ofItems items = .ok p) :
    ReadFrom (.array items) p := by
  unfold ofItems at h
  split at h
  · cases h
  · obtain ⟨_, -, h⟩ := of_bind_eq_ok h
    cases h
  · rename_i line column
    obtain ⟨x, hline, h⟩ := of_bind_eq_ok h
    obtain ⟨y, hcolumn, h⟩ := of_bind_eq_ok h
    cases h
    exact ⟨⟨line, rfl, hline⟩, ⟨column, rfl, hcolumn⟩, none, rfl, rfl⟩
  · rename_i line column offset rest
    obtain ⟨x, hline, h⟩ := of_bind_eq_ok h
    obtain ⟨y, hcolumn, h⟩ := of_bind_eq_ok h
    obtain ⟨o, hoffset, h⟩ := of_bind_eq_ok h
    split at h
    · cases h
      exact ⟨⟨line, rfl, hline⟩, ⟨column, rfl, hcolumn⟩, some o,
        congrArg (Except.map some) hoffset, rfl⟩
    · cases h

theorem ReadFrom.toJson_eq {v : Json} {p : Position} (hfits : v.Fits) (h : ReadFrom v p) :
    p.toJson = respellPosition v := by
  obtain ⟨⟨l, hl, hline⟩, ⟨c, hc, hcolumn⟩, o, hoffset, ho⟩ := h
  have hgiven : v.offsetPart? = p.offset.map fun offset => .nat offset.toNat := by
    rw [ho]
    refine unlessNull_of_mapM (fun w hw => ?_) hoffset
    rcases Option.or_eq_some_iff.1 hw with hw | ⟨-, hw⟩
    · exact fits_inherited.part? hfits hw
    · exact fits_inherited.part? hfits hw
  rw [respellPosition, hl, hc, hgiven, Json.nat_of_readCount (fits_inherited.part? hfits hl) hline,
    Json.nat_of_readCount (fits_inherited.part? hfits hc) hcolumn]
  cases p with
  | mk line column offset => cases offset <;> rfl

theorem toJson_eq_respell {v : Json} (hv : v.Ordered) (hfits : v.Fits) {p : Position}
    (h : ofJson v = .ok p) : p.toJson = respellPosition v := by
  apply ReadFrom.toJson_eq hfits
  cases v with
  | object members =>
    cases hv with
    | object names _ => exact readFrom_of_object names h
  | array items => exact readFrom_of_items h
  | _ => cases h

end Position

namespace Loc

inductive Draft.Reads (d : Draft) : String × Json → Draft → Prop
  | start {v : Json} {p : Position} (position : Position.ofJson v = .ok p) :
      Draft.Reads d ("start", v) { d with start := some p }
  | stop {v : Json} {p : Position} (position : Position.ofJson v = .ok p) :
      Draft.Reads d ("end", v) { d with stop := some p }
  | other {name : String} {v : Json} (ignored : name ∉ ["start", "end"]) :
      Draft.Reads d (name, v) d

theorem Draft.reads_of_read {d d' : Draft} {entry : String × Json} (h : d.read entry = .ok d') :
    d.Reads entry d' := by
  obtain ⟨name, v⟩ := entry
  simp only [Draft.read] at h
  split at h
  · rename_i hname
    obtain ⟨p, hp, heq⟩ := of_bind_eq_ok h
    cases heq
    exact hname ▸ .start hp
  · split at h
    · rename_i hname
      obtain ⟨p, hp, heq⟩ := of_bind_eq_ok h
      cases heq
      exact hname ▸ .stop hp
    · cases h
      apply Draft.Reads.other
      simp_all

theorem parts_of_object {members : NameMap Json} (hm : members.Sorted) {l : Loc}
    (h : ofJson (.object members) = .ok l) :
    (∃ v, members.get? "start" = some v ∧ Position.ofJson v = .ok l.start) ∧
      ∃ v, members.get? "end" = some v ∧ Position.ofJson v = .ok l.stop := by
  obtain ⟨d, hfold, hfinish⟩ := of_bind_eq_ok h
  obtain ⟨start, hstart, hfinish⟩ := of_bind_eq_ok hfinish
  obtain ⟨stop, hstop, hfinish⟩ := of_bind_eq_ok hfinish
  cases hfinish
  constructor
  · exact of_foldlM_eq_ok Draft.start "start" Position.ofJson (fun hread ha => by
      cases Draft.reads_of_read hread <;> simp_all) hm rfl hfold (of_require_eq_ok hstart)
  · exact of_foldlM_eq_ok Draft.stop "end" Position.ofJson (fun hread ha => by
      cases Draft.reads_of_read hread <;> simp_all) hm rfl hfold (of_require_eq_ok hstop)

theorem parts_of_items {items : List Json} {l : Loc} (h : ofItems items = .ok l) :
    (∃ v, items[0]? = some v ∧ Position.ofJson v = .ok l.start) ∧
      ∃ v, items[1]? = some v ∧ Position.ofJson v = .ok l.stop := by
  unfold ofItems at h
  split at h
  · cases h
  · obtain ⟨_, -, h⟩ := of_bind_eq_ok h
    cases h
  · rename_i start stop rest
    obtain ⟨p, hstart, h⟩ := of_bind_eq_ok h
    obtain ⟨q, hstop, h⟩ := of_bind_eq_ok h
    split at h
    · cases h
      exact ⟨⟨start, rfl, hstart⟩, stop, rfl, hstop⟩
    · cases h

theorem parts_of_ofJson {v : Json} (hv : v.Ordered) {l : Loc} (h : ofJson v = .ok l) :
    (∃ w, v.part? "start" 0 = some w ∧ Position.ofJson w = .ok l.start) ∧
      ∃ w, v.part? "end" 1 = some w ∧ Position.ofJson w = .ok l.stop := by
  cases v with
  | object members =>
    cases hv with
    | object names _ => exact parts_of_object names h
  | array items => exact parts_of_items h
  | _ => cases h

theorem toJson_eq_respell {v : Json} (hv : v.Ordered) (hfits : v.Fits) {l : Loc}
    (h : ofJson v = .ok l) : l.toJson = respellLoc v := by
  obtain ⟨⟨start, hstart, hreads⟩, stop, hstop, hreads'⟩ := parts_of_ofJson hv h
  rw [respellLoc, hstart, hstop, Json.ofOption, Json.ofOption,
    ← Position.toJson_eq_respell (ordered_inherited.part? hv hstart)
      (fits_inherited.part? hfits hstart) hreads,
    ← Position.toJson_eq_respell (ordered_inherited.part? hv hstop)
      (fits_inherited.part? hfits hstop) hreads']
  rfl

end Loc

end Locations

end SyntaxWalk
