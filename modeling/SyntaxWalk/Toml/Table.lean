import SyntaxWalk.Toml.Value

/-!
# Tables under construction

A text defines its tables piece by piece. A table may be opened by one header only; it may be named
before that as part of a longer header, and a table made by a dotted key stays closed to headers. A
key is never given twice. Each step answers none where the text breaks these rules.
-/

namespace SyntaxWalk.Toml

/-- How a table came about: a header or braces of its own, a longer header, or a dotted key. -/
inductive Origin where
  | explicit
  | header
  | dotted
  deriving DecidableEq, Inhabited

inductive Draft where
  | value (v : Value)
  | table (origin : Origin) (entries : List (String × Draft))
  | tables (elements : List (List (String × Draft)))

abbrev Drafts := List (String × Draft)

namespace Draft

def find (key : String) : Drafts → Option Draft
  | [] => none
  | (k, d) :: rest => if k = key then some d else find key rest

def overwrite (key : String) (d : Draft) (entries : Drafts) : Drafts :=
  entries.map fun (k, old) => if k = key then (k, d) else (k, old)

def append (key : String) (d : Draft) (entries : Drafts) : Drafts := entries ++ [(key, d)]

/-- Edits the table at a path, making the tables on the way that are not there. Along a dotted key
no table that has a header of its own may be entered; an array of tables is entered at its last. -/
def edit (dotted : Bool) : List String → (Origin → Drafts → Option Drafts) → Origin → Drafts →
    Option Drafts
  | [], f, origin, entries => f origin entries
  | key :: path, f, _, entries =>
    match find key entries with
    | none => do
      let origin := if dotted then Origin.dotted else Origin.header
      return append key (.table origin (← edit dotted path f origin [])) entries
    | some (.value _) => none
    | some (.table origin inner) =>
      if dotted ∧ origin = .explicit then none
      else do return overwrite key (.table origin (← edit dotted path f origin inner)) entries
    | some (.tables elements) =>
      match elements.getLast? with
      | none => none
      | some last => do
        let last ← edit dotted path f .explicit last
        return overwrite key (.tables (elements.dropLast ++ [last])) entries

/-- Gives a value to a dotted key, below a table. A key without a dot may not go into a table that a
dotted key made, and a dotted key into no other. -/
def assign (path : List String) (key : String) (v : Value) : Origin → Drafts → Option Drafts :=
  edit true path fun origin entries =>
    if path.isEmpty = (origin = .dotted) then none
    else if (find key entries).isSome then none
    else some (append key (.value v) entries)

/-- Opens the table of a header. One that was only named so far moves behind its siblings. -/
def openTable (path : List String) (key : String) : Drafts → Option Drafts :=
  edit false path (fun _ entries =>
    match find key entries with
    | none => some (append key (.table .explicit []) entries)
    | some (.table .header inner) =>
      some (append key (.table .explicit inner) (entries.filter fun entry => entry.1 ≠ key))
    | some _ => none) .explicit

def openElement (path : List String) (key : String) : Drafts → Option Drafts :=
  edit false path (fun _ entries =>
    match find key entries with
    | none => some (append key (.tables [[]]) entries)
    | some (.tables elements) => some (overwrite key (.tables (elements ++ [[]])) entries)
    | some _ => none) .explicit

mutual

def finish : Draft → Value
  | .value v => v
  | .table _ entries => .table (finishEntries entries)
  | .tables elements => .array (finishElements elements)

def finishEntries : List (String × Draft) → List (String × Value)
  | [] => []
  | (key, d) :: rest => (key, d.finish) :: finishEntries rest

def finishElements : List (List (String × Draft)) → List Value
  | [] => []
  | entries :: rest => .table (finishEntries entries) :: finishElements rest

end

end Draft

end SyntaxWalk.Toml
