import SyntaxWalk.NameMap
import SyntaxWalk.Decimal.Binary64

/-!
# JSON values

A number is an integer or a double, and the two never equal each other. The members of an object
are a name map: each name once, in increasing order.
-/

namespace SyntaxWalk

open Decimal (Binary64)

inductive JsonNumber where
  | int (n : Int)
  | double (x : Binary64)
  deriving DecidableEq, Inhabited

instance : BEq JsonNumber where
  beq
    | .int m, .int n => m == n
    | .double x, .double y => x == y
    | _, _ => false

inductive Json where
  | null
  | bool (b : Bool)
  | number (n : JsonNumber)
  | string (s : String)
  | array (items : List Json)
  | object (members : NameMap Json)
  deriving Inhabited

namespace Json

def int (n : Int) : Json := .number (.int n)

def nat (n : Nat) : Json := .number (.int n)

def ofEntries (entries : List (String × Json)) : Json := .object (NameMap.ofList entries)

def ofOption : Option Json → Json
  | none => .null
  | some v => v

mutual

def same : Json → Json → Bool
  | .null, .null => true
  | .bool a, .bool b => a == b
  | .number a, .number b => a == b
  | .string a, .string b => a == b
  | .array a, .array b => sameItems a b
  | .object ⟨a⟩, .object ⟨b⟩ => sameMembers a b
  | _, _ => false

def sameItems : List Json → List Json → Bool
  | [], [] => true
  | a :: as, b :: bs => a.same b && sameItems as bs
  | _, _ => false

def sameMembers : List (String × Json) → List (String × Json) → Bool
  | [], [] => true
  | (k, a) :: as, (l, b) :: bs => k == l && a.same b && sameMembers as bs
  | _, _ => false

end

instance : BEq Json := ⟨same⟩

def get? (v : Json) (name : String) : Option Json :=
  match v with
  | .object members => members.get? name
  | _ => none

def bool? : Json → Option Bool
  | .bool b => some b
  | _ => none

def string? : Json → Option String
  | .string s => some s
  | _ => none

def strings? : Json → Option (List String)
  | .array items => items.mapM string?
  | _ => none

/-- An integer between the bounds; a double is none, whatever its value. -/
def intBetween? (least most : Int) : Json → Option Int
  | .number (.int n) => if least ≤ n ∧ n ≤ most then some n else none
  | _ => none

def int64? : Json → Option Int := intBetween? (-0x8000000000000000) 0x7fffffffffffffff

def uint8? : Json → Option Int := intBetween? 0 255

def nullable? {α : Type} (decode : Json → Option α) : Json → Option (Option α)
  | .null => some none
  | v => (decode v).map some

theorem int64?_int (n : Int) (h : -0x8000000000000000 ≤ n ∧ n ≤ 0x7fffffffffffffff) :
    int64? (int n) = some n := by
  unfold int64? intBetween? int
  exact if_pos h

end Json

end SyntaxWalk
