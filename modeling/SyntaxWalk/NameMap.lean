/-!
# Name maps

Finite maps from names to values, held as the list of their entries. `insert` keeps the entries in
increasing order of their names and each name once (`sorted_insert`); `replace` writes where the
name already stands and so never moves an entry (`names_replace`).
-/

namespace SyntaxWalk

structure NameMap (α : Type) where
  entries : List (String × α) := []
  deriving Inhabited, DecidableEq

namespace NameMap

variable {α β : Type}

def empty : NameMap α := ⟨[]⟩

def names (m : NameMap α) : List String := m.entries.map Prod.fst

def size (m : NameMap α) : Nat := m.entries.length

def isEmpty (m : NameMap α) : Bool := m.entries.isEmpty

def find (name : String) : List (String × α) → Option α
  | [] => none
  | (n, v) :: rest => if n = name then some v else find name rest

def get? (m : NameMap α) (name : String) : Option α := find name m.entries

def contains (m : NameMap α) (name : String) : Bool := (m.get? name).isSome

def put (name : String) (value : α) : List (String × α) → List (String × α)
  | [] => [(name, value)]
  | (n, v) :: rest =>
    if n = name then (name, value) :: rest
    else if name < n then (name, value) :: (n, v) :: rest
    else (n, v) :: put name value rest

def insert (m : NameMap α) (name : String) (value : α) : NameMap α := ⟨put name value m.entries⟩

def erase (m : NameMap α) (name : String) : NameMap α :=
  ⟨m.entries.filter fun entry => entry.1 ≠ name⟩

def overwrite (name : String) (value : α) : List (String × α) → List (String × α)
  | [] => []
  | (n, v) :: rest => if n = name then (n, value) :: rest else (n, v) :: overwrite name value rest

def replace (m : NameMap α) (name : String) (value : α) : NameMap α :=
  ⟨overwrite name value m.entries⟩

def ofList (entries : List (String × α)) : NameMap α :=
  entries.foldl (fun m (name, value) => m.insert name value) empty

/-- Lays `upper` on top of `m`: the names of `upper` take its values. -/
def overlay (m upper : NameMap α) : NameMap α :=
  upper.entries.foldr (fun (name, value) m => m.insert name value) m

def map (f : α → β) (m : NameMap α) : NameMap β := ⟨m.entries.map fun entry => (entry.1, f entry.2)⟩

def Sorted (m : NameMap α) : Prop := m.names.Pairwise (· < ·)

theorem find_put_self (name : String) (value : α) (entries : List (String × α)) :
    find name (put name value entries) = some value := by
  fun_induction put name value entries <;> simp_all [find]

theorem find_put_of_ne {name other : String} (h : other ≠ name) (value : α)
    (entries : List (String × α)) :
    find other (put name value entries) = find other entries := by
  fun_induction put name value entries <;> simp_all [find, Ne.symm h]

theorem get?_insert (m : NameMap α) (name other : String) (value : α) :
    (m.insert name value).get? other = if other = name then some value else m.get? other := by
  by_cases h : other = name
  · simp [get?, insert, h, find_put_self]
  · simp [get?, insert, h, find_put_of_ne h]

theorem get?_overlay (m upper : NameMap α) (name : String) :
    (m.overlay upper).get? name = (upper.get? name).or (m.get? name) := by
  obtain ⟨entries⟩ := upper
  simp only [overlay]
  induction entries with
  | nil => rfl
  | cons entry rest ih =>
    simp only [List.foldr_cons, get?_insert, ih]
    by_cases h : name = entry.1
    · simp [get?, find, h]
    · simp [get?, find, h, Ne.symm h]

theorem get?_erase (m : NameMap α) (name other : String) :
    (m.erase name).get? other = if other = name then none else m.get? other := by
  obtain ⟨entries⟩ := m
  simp only [get?, erase]
  induction entries with
  | nil => simp [find]
  | cons entry rest ih =>
    obtain ⟨n, v⟩ := entry
    by_cases hn : n = name <;> by_cases ho : other = name <;> grind [find]

theorem names_replace (m : NameMap α) (name : String) (value : α) :
    (m.replace name value).names = m.names := by
  obtain ⟨entries⟩ := m
  simp only [names, replace]
  induction entries with
  | nil => rfl
  | cons entry rest ih => simp only [overwrite]; split <;> simp_all

theorem get?_replace (m : NameMap α) (name other : String) (value : α) :
    (m.replace name value).get? other =
      if other = name then (m.get? name).map fun _ => value else m.get? other := by
  obtain ⟨entries⟩ := m
  simp only [get?, replace]
  induction entries with
  | nil => simp [overwrite, find]
  | cons entry rest ih =>
    obtain ⟨n, v⟩ := entry
    by_cases hn : n = name <;> by_cases ho : other = name <;> grind [find, overwrite]

theorem names_erase (m : NameMap α) (name : String) :
    (m.erase name).names = m.names.filter (· ≠ name) := by
  simp only [names, erase, List.filter_map]
  rfl

theorem mem_names_put {name n : String} {value : α} {entries : List (String × α)} :
    n ∈ (put name value entries).map Prod.fst ↔ n = name ∨ n ∈ entries.map Prod.fst := by
  fun_induction put name value entries <;> grind

theorem sorted_insert {m : NameMap α} (h : m.Sorted) (name : String) (value : α) :
    (m.insert name value).Sorted := by
  obtain ⟨entries⟩ := m
  simp only [Sorted, names, insert] at h ⊢
  fun_induction put name value entries with
  | case1 => simp
  | case2 => simpa using h
  | case3 n v rest hne hlt =>
    refine List.pairwise_cons.2 ⟨fun x hx => ?_, h⟩
    rcases List.mem_cons.1 hx with rfl | hx
    · exact hlt
    · exact String.lt_trans hlt (List.rel_of_pairwise_cons h hx)
  | case4 n v rest hne hlt ih =>
    obtain ⟨hhead, hrest⟩ := List.pairwise_cons.1 h
    refine List.pairwise_cons.2 ⟨fun x hx => ?_, ih hrest⟩
    rcases mem_names_put.1 hx with rfl | hx
    · exact String.not_le.1 fun hle => hne (String.le_antisymm (String.not_lt.1 hlt) hle)
    · exact hhead x hx

end NameMap

end SyntaxWalk
