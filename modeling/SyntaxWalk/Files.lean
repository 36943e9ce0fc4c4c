import SyntaxWalk.Text.Offset

/-!
# Files

What the program asks of a file system, over any monad: the real one, or a fixed set of files given
by their paths. A path is followed name by name; every name, the empty one and `.` included, is
looked up in a directory.
-/

namespace SyntaxWalk

inductive FileError where
  | notFound
  | notADirectory
  | isADirectory
  | nameTooLong
  | notText
  | other (reason : String)
  deriving DecidableEq

def FileError.text : FileError → String
  | .notFound => "No such file or directory (os error 2)"
  | .notADirectory => "Not a directory (os error 20)"
  | .isADirectory => "Is a directory (os error 21)"
  | .nameTooLong => "File name too long (os error 36)"
  | .notText => "stream did not contain valid UTF-8"
  | .other reason => reason

structure Files (m : Type → Type) where
  read : String → m (Except FileError String)
  isFile : String → m Bool

namespace Files

def nameLimit : Nat := 255

def pathLimit : Nat := 4095

inductive Entry where
  | file (bytes : ByteArray)
  | directory

abbrev Place := List (List Char)

/-- Where a name leads from a directory. What is above the root is the root. -/
def Place.step (place : Place) (name : List Char) : Place :=
  if name = [] ∨ name = ['.'] then place
  else if name = ['.', '.'] then place.dropLast
  else place ++ [name]

def startOf (here : Place) (path : String) : Place :=
  if path.toList.head? = some '/' then [] else here

def names (path : String) : List (List Char) := path.toList.splitOn '/'

def placeOf (here : Place) (path : String) : Place :=
  (names path).foldl Place.step (startOf here path)

/-- A fixed set of files and the directory that paths set out from. The directories above each of
them are there too. -/
structure Listing where
  here : Place
  entries : List (Place × Entry)

namespace Listing

def ofEntries (directory : String) (entries : List (String × Entry)) : Listing :=
  let here := placeOf [] directory
  ⟨here, entries.map fun (path, entry) => (placeOf here path, entry)⟩

def at? (l : Listing) (place : Place) : Option Entry :=
  match l.entries.find? fun entry => entry.1 = place with
  | some entry => some entry.2
  | none =>
    if place.isPrefixOf l.here ∨ l.entries.any (fun entry => place.isPrefixOf entry.1) then
      some .directory
    else none

def follow (l : Listing) : Place → List (List Char) → Except FileError Entry
  | place, [] =>
    match l.at? place with
    | some entry => .ok entry
    | none => .error .notFound
  | place, name :: rest =>
    match l.at? place with
    | none => .error .notFound
    | some (.file _) => .error .notADirectory
    | some .directory =>
      if nameLimit < Text.byteLength name then .error .nameTooLong
      else l.follow (place.step name) rest

def find (l : Listing) (path : String) : Except FileError Entry :=
  if path.isEmpty then .error .notFound
  else if pathLimit < Text.byteLength path.toList then .error .nameTooLong
  else l.follow (startOf l.here path) (names path)

def read (l : Listing) (path : String) : Except FileError String :=
  match l.find path with
  | .error e => .error e
  | .ok .directory => .error .isADirectory
  | .ok (.file bytes) =>
    match String.fromUTF8? bytes with
    | some text => .ok text
    | none => .error .notText

def isFile (l : Listing) (path : String) : Bool :=
  match l.find path with
  | .ok (.file _) => true
  | _ => false

theorem follow_of_file {l : Listing} {place : Place} {bytes : ByteArray}
    (h : l.at? place = some (.file bytes)) (name : List Char) (rest : List (List Char)) :
    l.follow place (name :: rest) = .error .notADirectory := by
  simp [follow, h]

end Listing

def ofListing (l : Listing) : Files Id where
  read path := l.read path
  isFile path := l.isFile path

end Files

end SyntaxWalk
