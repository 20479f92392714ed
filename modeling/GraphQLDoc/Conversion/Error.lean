import GraphQLDoc.Decoding.Issue
import GraphQLDoc.Literal.Quoted
import GraphQLDoc.Ast.Executable
import GraphQLDoc.Machine

/-!
What can be wrong with a parse tree. A tree that came from the parser has the right shape, so only
its literals and names can be refused; a tree from elsewhere can also have the wrong shape, hold a
token in the place of a rule or the reverse, or hold a token that its terminal does not match.
-/
namespace GraphQLDoc

/-- A node without the children that its rule asks for. -/
inductive ShapeProblem where
  | otherRule (wanted found : String)
  | otherChild (wanted : List String) (rule : String) (found : Option String)
  | leftOver (found rule : String)
  | notValue (found : String)
  | notType (found : String)
  | notOneName (rule : String)
  | noClauses (rule : String)
  | noTypeCondition (fragment : String)
  | noLocations (directive : String)

/-- A literal or a name that has no meaning. -/
inductive LiteralProblem where
  | integer (text : String)
  | float (text : String)
  | string (p : StringLiteral.Problem)
  | rootTwice (o : OperationType)
  | enumValueName (name : String)
  | fragmentName
  | location (name : String)

/-- A token that is read in the place of a rule, or a rule in the place of a token, and what it is
read for. -/
inductive MixUp where
  | tokenForRule
  | ruleForTerminal
  | ruleForText
  | ruleForPosition
  | ruleForInteger
  | ruleForFloat

/-- A token whose text is none of its terminal's. -/
inductive TextProblem where
  | integer (text : String)
  | integerLength (digits : Nat)
  | float (text : String)
  | operation (text : String)

inductive ConversionError where
  | shape (p : ShapeProblem) (span : Option Span)
  | literal (p : LiteralProblem) (span : Option Span)
  | node (issues : List Issue)
  | mixUp (m : MixUp)
  | text (p : TextProblem)
  | notString (p : StringLiteral.Problem)
  /-- Nodes are nested more deeply than calls may be. -/
  | tooDeep

namespace ShapeProblem

def message : ShapeProblem → String
  | otherRule wanted found => "Expected '" ++ wanted ++ "', found '" ++ found ++ "'"
  | otherChild wanted rule found =>
    let actual := match found with
      | none => "nothing"
      | some tag => "'" ++ tag ++ "'"
    "Expected " ++ " or ".intercalate (wanted.map fun w => "'" ++ w ++ "'") ++
      " in '" ++ rule ++ "', found " ++ actual
  | leftOver found rule => "Unexpected '" ++ found ++ "' in '" ++ rule ++ "'"
  | notValue found => "Expected a value, found '" ++ found ++ "'"
  | notType found => "Expected a type, found '" ++ found ++ "'"
  | notOneName rule => "Expected a single name token in '" ++ rule ++ "'"
  | noClauses rule => "Extension '" ++ rule ++ "' has no clauses"
  | noTypeCondition fragment => "Fragment '" ++ fragment ++ "' has no type condition"
  | noLocations directive => "Directive '@" ++ directive ++ "' has no locations"

end ShapeProblem

namespace LiteralProblem

def message : LiteralProblem → String
  | integer text => "Couldn't parse " ++ text ++ " as a 64-bit integer."
  | float text => "Couldn't parse " ++ text ++ " as a 64-bit float."
  | string p => "Couldn't decode string literal: " ++ p.message
  | rootTwice o => "The \x60" ++ o.word ++ "\x60 field has been defined twice."
  | enumValueName name => "Enum values cannot be named '" ++ name ++ "'."
  | fragmentName => "Fragments cannot be named 'on'."
  | location name => "Unknown directive location '" ++ name ++ "'."

end LiteralProblem

namespace MixUp

def message : MixUp → String
  | tokenForRule => "'Token' object has no attribute 'children'"
  | ruleForTerminal => "'Tree' object has no attribute 'type'"
  | ruleForText => "'Tree' object has no attribute 'value'"
  | ruleForPosition => "'Tree' object has no attribute 'start_pos'"
  | ruleForInteger =>
    "int() argument must be a string, a bytes-like object or a real number, not 'Tree'"
  | ruleForFloat => "float() argument must be a string or a real number, not 'Tree'"

end MixUp

namespace TextProblem

def message : TextProblem → String
  | integer text => "invalid literal for int() with base 10: " ++ Quoted.ofString text
  | integerLength digits => Json.tooManyDigitsMessage digits
  | float text => "could not convert string to float: " ++ Quoted.ofString text
  | operation text => Quoted.ofString text ++ " is not a valid OperationType"

end TextProblem

namespace ConversionError

/-- The wording of an error without its place. Issues have a wording each. -/
def message : ConversionError → String
  | shape p _ => p.message
  | literal p _ => p.message
  | node _ => ""
  | mixUp m => m.message
  | text p => p.message
  | notString p => p.message
  -- The calls that reach deepest look at the name of a rule.
  | tooDeep => Machine.tooDeepMessage ++ " while getting the str of an object"

end ConversionError

end GraphQLDoc
