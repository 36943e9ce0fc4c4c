import SyntaxWalk.DecodeError

/-!
# TOML values

The values of a configuration text. A table keeps its entries in the order they were written.
-/

namespace SyntaxWalk.Toml

structure Date where
  year : Nat
  month : Nat
  day : Nat
  deriving DecidableEq

structure Time where
  hour : Nat
  minute : Nat
  second : Nat
  nanosecond : Nat
  deriving DecidableEq

inductive Zone where
  | utc
  | offset (minutes : Int)
  deriving DecidableEq

structure DateTime where
  date : Option Date := none
  time : Option Time := none
  zone : Option Zone := none
  deriving DecidableEq

inductive Real where
  | finite (x : Decimal.Binary64)
  | infinite (negative : Bool)
  | nan
  deriving DecidableEq

inductive Value where
  | string (s : String)
  | integer (n : Int)
  | real (x : Real)
  | boolean (b : Bool)
  | dateTime (d : DateTime)
  | array (items : List Value)
  | table (entries : List (String × Value))

def padded (width n : Nat) : List Char :=
  let digits := Decimal.digitsOf n
  Decimal.zeros (width - digits.length) ++ digits

def Date.text (d : Date) : List Char :=
  padded 4 d.year ++ '-' :: padded 2 d.month ++ '-' :: padded 2 d.day

def Time.text (t : Time) : List Char :=
  padded 2 t.hour ++ ':' :: padded 2 t.minute ++ ':' :: padded 2 t.second ++
    if t.nanosecond = 0 then [] else '.' :: Decimal.dropTrailingZeros (padded 9 t.nanosecond)

def Zone.text : Zone → List Char
  | .utc => ['Z']
  | .offset minutes =>
    (if minutes < 0 then '-' else '+') :: padded 2 (minutes.natAbs / 60) ++
      ':' :: padded 2 (minutes.natAbs % 60)

def DateTime.text (d : DateTime) : String :=
  let date := (d.date.map Date.text).getD []
  let time := (d.time.map Time.text).getD []
  let between := if d.date.isSome && d.time.isSome then ['T'] else []
  String.ofList (date ++ between ++ time ++ (d.zone.map Zone.text).getD [])

def Real.text : Real → List Char
  | .finite x => Decimal.Layout.unbounded.text x
  | .infinite negative => (if negative then ['-'] else []) ++ ['i', 'n', 'f']
  | .nan => ['N', 'a', 'N']

/-- What an error message calls a value. A date or a time passes for a map. -/
def Value.found : Value → Found
  | .string s => .string s
  | .integer n => .integer n
  | .real x => .float x.text
  | .boolean b => .boolean b
  | .dateTime _ => .map
  | .array _ => .sequence
  | .table _ => .map

def dateTimeKey : String := "$__toml_private_datetime"

end SyntaxWalk.Toml
