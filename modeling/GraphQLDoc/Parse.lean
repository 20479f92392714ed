import GraphQLDoc.Conversion.TypeSystem
import GraphQLDoc.ParseTree.Parse
import GraphQLDoc.Ast.Encoding

/-!
From source text to documents, values and types: a text is parsed into a tree, and the tree is
converted.
-/
namespace GraphQLDoc

inductive ParseError where
  | malformed (e : SyntaxError)
  | conversion (e : ConversionError)

/-- A message behind the place that it is about. -/
def placed (span : Option Span) (detail : String) : String :=
  match span with
  | none => detail
  | some s =>
    "Line " ++ decimalText s.first.line ++ ", column " ++ decimalText s.first.column ++ ": " ++
      detail

def parseWith {α : Type} (start : Start) (convert : ParseTree → Converted α) (text : List Char) :
    Except ParseError α :=
  match parseTree start text with
  | .error e => .error (.malformed e)
  | .ok t =>
    match convert t with
    | .error e => .error (.conversion e)
    | .ok a => .ok a

/-- Parses a whole document. -/
def parseDocument [Machine] : List Char → Except ParseError Document :=
  parseWith .document Conversion.document

/-- Parses a single value. -/
def parseValue [Machine] : List Char → Except ParseError Value :=
  parseWith .value Conversion.valueLiteral

/-- Parses a single type reference. -/
def parseType : List Char → Except ParseError TypeRef :=
  parseWith .type Conversion.typeReference

end GraphQLDoc
