import SyntaxWalk.Node.Json
import SyntaxWalk.Proofs.OrderedTree

/-!
# Values that were read are ordered

A value is ordered when every object in it holds its members in increasing order of their names. A
reader puts the members of an object in order whatever the order of the text, so that a value read
from a text is ordered (`Json.ordered_of_read`). An `OrderedJson` has the proof of that with it from
where it is put together.
-/

namespace SyntaxWalk

section Success

variable {ε α β : Type} {x : Except ε α} {b : β}

theorem of_map_eq_ok {f : α → β} (h : x.map f = .ok b) : ∃ a, x = .ok a ∧ f a = b := by
  cases x with
  | error e => cases h
  | ok a => exact ⟨a, rfl, Except.ok.inj h⟩

theorem of_mapError_eq_ok {ε' : Type} {f : ε → ε'} {a : α} (h : x.mapError f = .ok a) :
    x = .ok a := by
  cases x with
  | error e => cases h
  | ok c =>
    cases h
    rfl

theorem of_bind_eq_ok {f : α → Except ε β} (h : x >>= f = .ok b) :
    ∃ a, x = .ok a ∧ f a = .ok b := by
  cases x with
  | error e => cases h
  | ok a => exact ⟨a, rfl, h⟩

end Success

namespace NameMap

variable {α : Type}

theorem sorted_ofList (entries : List (String × α)) : (ofList entries).Sorted := by
  have hfold : ∀ (entries : List (String × α)) (m : NameMap α), m.Sorted →
      (entries.foldl (fun m entry => m.insert entry.1 entry.2) m).Sorted := by
    intro entries
    induction entries with
    | nil => exact fun m hm => hm
    | cons entry rest ih =>
      intro m hm
      exact ih (m.insert entry.1 entry.2) (sorted_insert hm entry.1 entry.2)
  exact hfold entries empty List.Pairwise.nil

theorem mem_ofList {entries : List (String × α)} {entry : String × α}
    (h : entry ∈ (ofList entries).entries) : entry ∈ entries := by
  have hfold : ∀ (entries : List (String × α)) (m : NameMap α),
      entry ∈ (entries.foldl (fun m first => m.insert first.1 first.2) m).entries →
        entry ∈ m.entries ∨ entry ∈ entries := by
    intro entries
    induction entries with
    | nil => exact fun m hm => .inl hm
    | cons first rest ih =>
      intro m hm
      rcases ih (m.insert first.1 first.2) hm with hput | hrest
      · rcases mem_put hput with hold | rfl
        · exact .inl hold
        · exact .inr List.mem_cons_self
      · exact .inr (List.mem_cons_of_mem _ hrest)
  rcases hfold entries empty h with hempty | hentry
  · cases hempty
  · exact hentry

end NameMap

namespace Json

open JsonNumber (ReadError)

inductive Ordered : Json → Prop
  | null : Ordered .null
  | bool (b : Bool) : Ordered (.bool b)
  | number (n : JsonNumber) : Ordered (.number n)
  | string (s : String) : Ordered (.string s)
  | array {items : List Json} (hitems : ∀ v ∈ items, v.Ordered) : Ordered (.array items)
  | object {members : NameMap Json} (names : members.Sorted)
      (values : ∀ entry ∈ members.entries, entry.2.Ordered) : Ordered (.object members)

theorem Ordered.ofEntries {entries : List (String × Json)}
    (h : ∀ entry ∈ entries, entry.2.Ordered) : (ofEntries entries).Ordered :=
  .object (NameMap.sorted_ofList entries) fun entry hentry =>
    h entry (NameMap.mem_ofList hentry)

section Reader

theorem readWord_eq {v w : Json} {word text rest : List Char}
    (h : readWord v word text = .ok (w, rest)) : w = v := by
  fun_induction readWord v word text with
  | case1 text =>
    cases h
    rfl
  | case2 => cases h
  | case3 c word text ih => exact ih h
  | case4 => cases h

/-- A property that every value which is read has, if the parts of an array or object have it. -/
structure ReaderClosed (P : Json → Prop) : Prop where
  null : P .null
  bool : ∀ b, P (.bool b)
  number : ∀ {text n rest}, JsonNumber.read text = .ok (n, rest) → P (.number n)
  string : ∀ s, P (.string s)
  array : ∀ {items}, (∀ v ∈ items, P v) → P (.array items)
  object : ∀ {entries : List (String × Json)}, (∀ entry ∈ entries, P entry.2) →
    P (ofEntries entries)

/-- What the four readers, which call each other, keep at one level of recursion. -/
structure ReadersKeep (P : Json → Prop) (fuel : Nat) : Prop where
  value : ∀ {depth text v rest}, readValue depth fuel text = .ok (v, rest) → P v
  items : ∀ {depth first text vs rest}, readItems depth fuel first text = .ok (vs, rest) →
    ∀ v ∈ vs, P v
  members : ∀ {depth first text entries rest},
    readMembers depth fuel first text = .ok (entries, rest) → ∀ entry ∈ entries, P entry.2
  member : ∀ {depth text entries rest}, readMember depth fuel text = .ok (entries, rest) →
    ∀ entry ∈ entries, P entry.2

variable {P : Json → Prop} {fuel : Nat}

theorem readValue_keeps (hP : ReaderClosed P) (hfuel : ReadersKeep P fuel) {depth : Option Nat}
    {text rest : List Char} {v : Json} (h : readValue depth (fuel + 1) text = .ok (v, rest)) :
    P v := by
  rw [readValue] at h
  split at h
  · rw [readWord_eq h]
    exact hP.null
  · rw [readWord_eq h]
    exact hP.bool true
  · rw [readWord_eq h]
    exact hP.bool false
  · obtain ⟨⟨cs, text⟩, -, hv⟩ := of_map_eq_ok h
    cases hv
    exact hP.string _
  · split at h
    · cases h
    · obtain ⟨⟨items, text⟩, hitems, hv⟩ := of_map_eq_ok h
      cases hv
      exact hP.array (hfuel.items hitems)
  · split at h
    · cases h
    · obtain ⟨⟨entries, text⟩, hentries, hv⟩ := of_map_eq_ok h
      cases hv
      exact hP.object (hfuel.members hentries)
  · split at h
    · obtain ⟨⟨n, text⟩, hn, hv⟩ := of_map_eq_ok h
      cases hv
      exact hP.number hn
    · cases h
  · cases h

theorem readItem_keeps (hfuel : ReadersKeep P fuel) {depth : Option Nat}
    {text rest : List Char} {vs : List Json}
    (h : (match readValue depth fuel text with
      | .error e => .error e
      | .ok (v, rest) => (readItems depth fuel false rest).map fun (vs, rest) => (v :: vs, rest)) =
        (.ok (vs, rest) : Except ReadError (List Json × List Char))) : ∀ v ∈ vs, P v := by
  split at h
  · cases h
  · rename_i v text' hv
    obtain ⟨⟨others, text⟩, hothers, heq⟩ := of_map_eq_ok h
    cases heq
    intro w hw
    rcases List.mem_cons.1 hw with rfl | hw
    · exact hfuel.value hv
    · exact hfuel.items hothers w hw

theorem readItems_keeps (hfuel : ReadersKeep P fuel) {depth : Option Nat} {first : Bool}
    {text rest : List Char} {vs : List Json}
    (h : readItems depth (fuel + 1) first text = .ok (vs, rest)) : ∀ v ∈ vs, P v := by
  rw [readItems] at h
  split at h
  · cases h
    intro v hv
    cases hv
  · split at h
    · cases h
    · exact readItem_keeps hfuel h
  · split at h
    · cases h
    · exact readItem_keeps hfuel h

theorem readMembers_keeps (hfuel : ReadersKeep P fuel) {depth : Option Nat} {first : Bool}
    {text rest : List Char} {entries : List (String × Json)}
    (h : readMembers depth (fuel + 1) first text = .ok (entries, rest)) :
    ∀ entry ∈ entries, P entry.2 := by
  rw [readMembers] at h
  split at h
  · cases h
    intro entry hentry
    cases hentry
  · split at h
    · cases h
    · exact hfuel.member h
  · split at h
    · cases h
    · exact hfuel.member h

theorem readMember_keeps (hfuel : ReadersKeep P fuel) {depth : Option Nat}
    {text rest : List Char} {entries : List (String × Json)}
    (h : readMember depth (fuel + 1) text = .ok (entries, rest)) :
    ∀ entry ∈ entries, P entry.2 := by
  unfold readMember at h
  split at h
  · split at h
    · cases h
    · split at h
      · cases h
      · split at h
        · cases h
        · rename_i v text' hv
          obtain ⟨⟨others, text⟩, hothers, heq⟩ := of_map_eq_ok h
          cases heq
          intro entry hentry
          rcases List.mem_cons.1 hentry with rfl | hentry
          · exact hfuel.value hv
          · exact hfuel.members hothers entry hentry
  · cases h

theorem readersKeep (hP : ReaderClosed P) (fuel : Nat) : ReadersKeep P fuel := by
  -- Every reader calls the others with one level less, so the four go down together.
  induction fuel with
  | zero =>
    constructor
    · intro depth text v rest h
      cases h
    · intro depth first text vs rest h
      cases h
    · intro depth first text entries rest h
      cases h
    · intro depth text entries rest h
      cases h
  | succ fuel ih =>
    exact ⟨readValue_keeps hP ih, readItems_keeps ih, readMembers_keeps ih, readMember_keeps ih⟩

theorem ReaderClosed.of_read (hP : ReaderClosed P) {depth : Option Nat} {text : String} {v : Json}
    (h : read text depth = .ok v) : P v := by
  obtain ⟨⟨w, rest⟩, hstart, hread⟩ := of_bind_eq_ok h
  obtain ⟨u, -, hvalue⟩ := of_bind_eq_ok hread
  cases hvalue
  exact (readersKeep hP _).value hstart

end Reader

theorem ordered_readerClosed : ReaderClosed Ordered where
  null := .null
  bool := .bool
  number := fun _ => .number _
  string := .string
  array := .array
  object := .ofEntries

theorem ordered_of_read {depth : Option Nat} {text : String} {v : Json}
    (h : read text depth = .ok v) : v.Ordered := ordered_readerClosed.of_read h

/-- What is said of a value is said of its items and of its members too. -/
structure Inherited (P : Json → Prop) : Prop where
  item : ∀ {items : List Json}, P (.array items) → ∀ v ∈ items, P v
  member : ∀ {members : NameMap Json}, P (.object members) → ∀ entry ∈ members.entries, P entry.2

theorem Inherited.get? {P : Json → Prop} (hP : Inherited P) {members : NameMap Json} {name : String}
    {v : Json} (hmembers : P (.object members)) (h : members.get? name = some v) : P v :=
  hP.member hmembers (name, v) (NameMap.mem_of_find h)

theorem ordered_inherited : Inherited Ordered where
  item := fun | .array hitems => hitems
  member := fun | .object _ values => values

end Json

/-- A value that carries the proof of its order, as it is built or read. -/
structure OrderedJson where
  value : Json
  ordered : value.Ordered

namespace OrderedJson

def null : OrderedJson := ⟨.null, .null⟩

def bool (b : Bool) : OrderedJson := ⟨.bool b, .bool b⟩

def int (n : Int) : OrderedJson := ⟨.int n, .number _⟩

def string (s : String) : OrderedJson := ⟨.string s, .string s⟩

def array (items : List OrderedJson) : OrderedJson where
  value := .array (items.map value)
  ordered := .array fun v hv => by
    obtain ⟨item, -, rfl⟩ := List.mem_map.1 hv
    exact item.ordered

def ofEntries (entries : List (String × OrderedJson)) : OrderedJson where
  value := .ofEntries (entries.map fun entry => (entry.1, entry.2.value))
  ordered := .ofEntries fun entry hentry => by
    obtain ⟨given, -, rfl⟩ := List.mem_map.1 hentry
    exact given.2.ordered

end OrderedJson

end SyntaxWalk
