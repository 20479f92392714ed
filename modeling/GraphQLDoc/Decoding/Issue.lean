import GraphQLDoc.Json.Display

/-!
What can be wrong with data that should describe a document, each with the place where it was found
and a wording of its own.
-/
namespace GraphQLDoc

inductive Problem where
  | missing
  | extraForbidden
  | notString
  | notText
  | notName
  | notInteger
  | integerText
  | fractionalInteger
  | integerSize
  | notFinite
  | integerTooLarge
  | integerTooSmall
  | notNumber
  | numberText
  | notBoolean
  | booleanText
  | rejected (reason : String)
  | otherLiteral (wanted : String)
  | otherWord (wanted : List String)
  | notRecord (name : String)
  | notSequence
  | tooShort
  | notVariant
  | tagMissing
  | tagUnknown (tag : Json) (wanted : List String)
  | tooDeep

/-- A step on the way to a place: a key or a tag, or an index. -/
inductive Step where
  | key (k : JsonString)
  | index (n : Nat)
deriving DecidableEq

structure Issue where
  problem : Problem
  place : List Step

namespace Problem

/-- The short code of a problem. -/
def code : Problem → String
  | missing => "missing"
  | extraForbidden => "extra_forbidden"
  | notString => "string_type"
  | notText => "string_unicode"
  | notName => "string_pattern_mismatch"
  | notInteger => "int_type"
  | integerText => "int_parsing"
  | fractionalInteger => "int_from_float"
  | integerSize => "int_parsing_size"
  | notFinite => "finite_number"
  | integerTooLarge => "less_than_equal"
  | integerTooSmall => "greater_than_equal"
  | notNumber => "float_type"
  | numberText => "float_parsing"
  | notBoolean => "bool_type"
  | booleanText => "bool_parsing"
  | rejected _ => "value_error"
  | otherLiteral _ => "literal_error"
  | otherWord _ => "enum"
  | notRecord _ => "model_type"
  | notSequence => "tuple_type"
  | tooShort => "too_short"
  | notVariant => "model_attributes_type"
  | tagMissing => "union_tag_not_found"
  | tagUnknown _ _ => "union_tag_invalid"
  | tooDeep => "recursion_loop"

def quote (word : String) : String := "'" ++ word ++ "'"

/-- Words in quotes, separated by commas, an `or` before the last. -/
def alternatives : List String → String
  | [] => ""
  | [w] => quote w
  | [v, w] => quote v ++ " or " ++ quote w
  | w :: ws => quote w ++ ", " ++ alternatives ws

def message : Problem → String
  | missing => "Field required"
  | extraForbidden => "Extra inputs are not permitted"
  | notString => "Input should be a valid string"
  | notText => "Input should be a valid string, unable to parse raw data as a unicode string"
  | notName => "String should match pattern '^[_A-Za-z][_0-9A-Za-z]*$'"
  | notInteger => "Input should be a valid integer"
  | integerText => "Input should be a valid integer, unable to parse string as an integer"
  | fractionalInteger =>
    "Input should be a valid integer, got a number with a fractional part"
  | integerSize => "Unable to parse input string as an integer, exceeded maximum size"
  | notFinite => "Input should be a finite number"
  | integerTooLarge => "Input should be less than or equal to 9223372036854775807"
  | integerTooSmall => "Input should be greater than or equal to -9223372036854775808"
  | notNumber => "Input should be a valid number"
  | numberText => "Input should be a valid number, unable to parse string as a number"
  | notBoolean => "Input should be a valid boolean"
  | booleanText => "Input should be a valid boolean, unable to interpret input"
  | rejected reason => "Value error, " ++ reason
  | otherLiteral wanted => "Input should be " ++ quote wanted
  | otherWord wanted => "Input should be " ++ alternatives wanted
  | notRecord name => "Input should be a valid dictionary or instance of " ++ name
  | notSequence => "Input should be a valid tuple"
  | tooShort => "Tuple should have at least 1 item after validation, not 0"
  | notVariant => "Input should be a valid dictionary or object to extract fields from"
  | tagMissing => "Unable to extract tag using discriminator 'kind'"
  | tagUnknown tag wanted =>
    "Input tag '" ++ tag.displayBare ++
      "' found using 'kind' does not match any of the expected tags: " ++
      ", ".intercalate (wanted.map quote)
  | tooDeep => "Recursion error - cyclic reference detected"

end Problem

end GraphQLDoc
