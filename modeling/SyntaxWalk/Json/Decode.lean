import SyntaxWalk.Json.Value
import SyntaxWalk.DecodeError

/-!
# Decoding JSON

What an error message calls a value, and the reading of a count.
-/

namespace SyntaxWalk.Json

def found : Json → Found
  | .null => .null
  | .bool b => .boolean b
  | .number (.int n) => .integer n
  | .number (.double x) => .float (Decimal.Layout.bounded.text x)
  | .string s => .string s
  | .array _ => .sequence
  | .object _ => .map

def readCount : Json → Except DecodeError UInt64
  | .number (.int n) =>
    if n < 0 then .error (.wrongValue (.integer n) "usize") else .ok n.toNat.toUInt64
  | v => .error (.wrongType v.found "usize")

def require {α : Type} (name : String) : Option α → Except DecodeError α
  | some a => .ok a
  | none => .error (.missingField name)

end SyntaxWalk.Json
