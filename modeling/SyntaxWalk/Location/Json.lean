import SyntaxWalk.Location
import SyntaxWalk.Json.Decode

/-!
# Locations in JSON

A position is an object with `line`, `column` and perhaps `offset`, also spelt `index`, or an array
of the two or three numbers; a location an object with `start` and `end`, or an array of the two.
Other members are ignored. Members are read in the order of the object and missing ones are noticed
after that; an array that is too long is noticed after its elements were read.
-/

namespace SyntaxWalk

open Json (readCount require)

namespace Position

structure Draft where
  line : Option UInt64 := none
  column : Option UInt64 := none
  offset : Option (Option UInt64) := none

def readOffset : Json → Except DecodeError (Option UInt64)
  | .null => .ok none
  | v => (readCount v).map some

def Draft.read (d : Draft) : String × Json → Except DecodeError Draft
  | (name, v) => do
    if name = "line" then return { d with line := some (← readCount v) }
    else if name = "column" then return { d with column := some (← readCount v) }
    else if name = "offset" ∨ name = "index" then
      if d.offset.isSome then throw (.duplicateField "offset")
      else return { d with offset := some (← readOffset v) }
    else return d

def Draft.finish (d : Draft) : Except DecodeError Position := do
  return ⟨← require "line" d.line, ← require "column" d.column, d.offset.join⟩

def ofItems : List Json → Except DecodeError Position
  | [] => .error (.wrongLength 0 "struct Position with 3 elements")
  | [line] => do
    let _ ← readCount line
    throw (.wrongLength 1 "struct Position with 3 elements")
  | [line, column] => do return ⟨← readCount line, ← readCount column, none⟩
  | line :: column :: offset :: rest => do
    let p := ⟨← readCount line, ← readCount column, ← readOffset offset⟩
    if rest.isEmpty then return p
    else throw (.wrongLength (rest.length + 3) "fewer elements in array")

def ofJson : Json → Except DecodeError Position
  | .object members => do
    let d ← members.entries.foldlM Draft.read {}
    d.finish
  | .array items => ofItems items
  | v => .error (.wrongType v.found "struct Position")

def offsetEntry : Option UInt64 → List (String × Json)
  | some offset => [("offset", .nat offset.toNat)]
  | none => []

def members (p : Position) : List (String × Json) :=
  ("line", .nat p.line.toNat) :: ("column", .nat p.column.toNat) :: offsetEntry p.offset

def document (p : Position) : Json := .object ⟨p.members⟩

def toJson (p : Position) : Json := .ofEntries p.members

end Position

namespace Loc

structure Draft where
  start : Option Position := none
  stop : Option Position := none

def Draft.read (d : Draft) : String × Json → Except DecodeError Draft
  | (name, v) => do
    if name = "start" then return { d with start := some (← Position.ofJson v) }
    else if name = "end" then return { d with stop := some (← Position.ofJson v) }
    else return d

def Draft.finish (d : Draft) : Except DecodeError Loc := do
  return ⟨← require "start" d.start, ← require "end" d.stop⟩

def ofItems : List Json → Except DecodeError Loc
  | [] => .error (.wrongLength 0 "struct Loc with 2 elements")
  | [start] => do
    let _ ← Position.ofJson start
    throw (.wrongLength 1 "struct Loc with 2 elements")
  | start :: stop :: rest => do
    let l := ⟨← Position.ofJson start, ← Position.ofJson stop⟩
    if rest.isEmpty then return l
    else throw (.wrongLength (rest.length + 2) "fewer elements in array")

def ofJson : Json → Except DecodeError Loc
  | .object members => do
    let d ← members.entries.foldlM Draft.read {}
    d.finish
  | .array items => ofItems items
  | v => .error (.wrongType v.found "struct Loc")

def document (l : Loc) : Json :=
  .object ⟨[("start", l.start.document), ("end", l.stop.document)]⟩

def toJson (l : Loc) : Json := .ofEntries [("start", l.start.toJson), ("end", l.stop.toJson)]

end Loc

def locJson (l : Option Loc) : Json := .ofOption (l.map Loc.document)

end SyntaxWalk
