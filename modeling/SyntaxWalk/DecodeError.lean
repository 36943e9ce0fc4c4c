import SyntaxWalk.Text.Quoted
import SyntaxWalk.Decimal.Layout

/-!
# Decode errors

Why a well-formed value does not have the shape its reader asks for, and the message that says so.
-/

namespace SyntaxWalk

inductive Found where
  | null
  | boolean (b : Bool)
  | integer (n : Int)
  | float (digits : List Char)
  | string (s : String)
  | sequence
  | map
  deriving DecidableEq

def Found.text : Found → String
  | .null => "null"
  | .boolean true => "boolean `true`"
  | .boolean false => "boolean `false`"
  | .integer n => "integer `" ++ String.ofList (Decimal.intText n) ++ "`"
  | .float digits => "floating point `" ++ String.ofList digits ++ "`"
  | .string s => "string " ++ Text.quoted s
  | .sequence => "sequence"
  | .map => "map"

inductive DecodeError where
  | notANode
  | kindNotString
  | missingField (name : String)
  | duplicateField (name : String)
  | unknownField (name : String) (known : List String)
  | unknownVariant (name : String) (known : List String)
  | wrongType (found : Found) (expected : String)
  | wrongValue (found : Found) (expected : String)
  | wrongLength (length : Nat) (expected : String)
  | notASingleKey
  deriving DecidableEq

def codeQuoted (name : String) : String := "`" ++ name ++ "`"

def choices : List String → String
  | [name] => codeQuoted name
  | [first, second] => codeQuoted first ++ " or " ++ codeQuoted second
  | names => "one of " ++ ", ".intercalate (names.map codeQuoted)

def DecodeError.message : DecodeError → String
  | .notANode => "expected an ESTree node object"
  | .kindNotString => "node `type` must be a string"
  | .missingField name => "missing field " ++ codeQuoted name
  | .duplicateField name => "duplicate field " ++ codeQuoted name
  | .unknownField name known =>
    "unknown field " ++ codeQuoted name ++ ", expected " ++ choices known
  | .unknownVariant name known =>
    "unknown variant " ++ codeQuoted name ++ ", expected " ++ choices known
  | .wrongType found expected => "invalid type: " ++ found.text ++ ", expected " ++ expected
  | .wrongValue found expected => "invalid value: " ++ found.text ++ ", expected " ++ expected
  | .wrongLength length expected =>
    "invalid length " ++ String.ofList (Decimal.digitsOf length) ++ ", expected " ++ expected
  | .notASingleKey => "invalid value: map, expected map with a single key"

end SyntaxWalk
