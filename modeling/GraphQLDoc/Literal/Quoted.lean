import GraphQLDoc.Json.Reader

/-!
Quoted strings. Their escapes are those of JSON strings, and raw control characters stand for
themselves. A literal whose surrogates are not all in pairs denotes no text.
-/
namespace GraphQLDoc.StringLiteral

inductive Problem where
  | json (e : Json.ReadError)
  | unpairedSurrogate
  | notAString (value : Json)

/-- The value of a string with its quotes, in which nothing is nested. -/
def decode (literal : List Char) : Except Problem (List Char) :=
  match Json.read false literal.length literal with
  | .error e => .error (.json e)
  | .ok (.string (.text s)) => .ok s.toList
  | .ok (.string (.unpaired _)) => .error .unpairedSurrogate
  | .ok value => .error (.notAString value)

/-- The name of the sort of a JSON value. -/
def sortName : Json → String
  | .null => "NoneType"
  | .bool _ => "bool"
  | .int _ => "int"
  | .float _ => "float"
  | .string _ => "str"
  | .array _ => "list"
  | .object _ => "dict"

def Problem.message : Problem → String
  | json e => e.message
  | unpairedSurrogate => "string contains an unpaired surrogate escape"
  | notAString value => "'" ++ sortName value ++ "' object has no attribute 'encode'"

end GraphQLDoc.StringLiteral
