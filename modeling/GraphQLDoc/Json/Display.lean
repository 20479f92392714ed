import GraphQLDoc.Json.Basic
import GraphQLDoc.Number.Text
import GraphQLDoc.Text.Quoted

/-!
JSON values in messages: strings in quotes with unprintable characters escaped, words for null, the
truth values and the numbers without digits, and blanks behind separators.
-/
namespace GraphQLDoc.Json

def displayWords : Binary64.Words := ⟨"nan", "inf"⟩

mutual

/-- A value as part of a message. -/
def display : Json → List Char
  | null => "None".toList
  | bool b => if b then "True".toList else "False".toList
  | int n => intText n
  | float x => x.text displayWords
  | string s => (Quoted.ofPoints s.points).toList
  | array items => '[' :: displayItems items ++ [']']
  | object entries => '\x7b' :: displayEntries entries ++ ['\x7d']

def displayItems : List Json → List Char
  | [] => []
  | [v] => display v
  | v :: vs => display v ++ ',' :: ' ' :: displayItems vs

def displayEntries : List (JsonString × Json) → List Char
  | [] => []
  | [(k, v)] => (Quoted.ofPoints k.points).toList ++ ':' :: ' ' :: display v
  | (k, v) :: es =>
    (Quoted.ofPoints k.points).toList ++ ':' :: ' ' :: display v ++
      ',' :: ' ' :: displayEntries es

end

/-- A value as a message of its own, strings without their quotes. -/
def displayBare : Json → String
  | string (.text s) => s
  | v => String.ofList (display v)

end GraphQLDoc.Json
