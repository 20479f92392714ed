import GraphQLDoc.Decoding.Scalar
import GraphQLDoc.Ast.Value

/-!
Type references and values read from data. A decoder of nested nodes is given the decoder of the
level below it; the levels are counted off from the depth of the data.
-/
namespace GraphQLDoc.Decoder

/-- A decoder of nested data from one that takes the number of levels it may go down. -/
def nested {α : Type} (levels : Nat → Decoder α) : Decoder α := fun v => levels v.depth v

def namedType : Decoder String :=
  node "NamedType" "named" ["name"] (required "name" name)

def listType (inner : Decoder TypeRef) : Decoder TypeRef :=
  node "ListType" "list" ["of_type"] fun es => TypeRef.list <$> required "of_type" inner es

/-- The reason against a non-null mark around another. -/
def doubleNonNull : String := "a non-null type cannot wrap another non-null type"

def nonNullType (inner : Decoder TypeRef) : Decoder TypeRef :=
  node "NonNullType" "non_null" ["of_type"] fun es =>
    TypeRef.nonNull <$> required "of_type" (refine inner (!·.isNonNull) doubleNonNull) es

def typeTags : List String := ["named", "list", "non_null"]

def typeRefTo : Nat → Decoder TypeRef
  | 0 => fun _ => .problem .notVariant
  | n + 1 => variant typeTags fun
    | "list" => listType (typeRefTo n)
    | "non_null" => nonNullType (typeRefTo n)
    | _ => fun v => TypeRef.named <$> namedType v

def typeRef : Decoder TypeRef := nested typeRefTo

def intValue : Decoder Value :=
  node "IntValue" "int" ["value"] fun es => Value.int <$> required "value" int64 es

def floatValue : Decoder Value :=
  node "FloatValue" "float" ["value"] fun es => Value.float <$> required "value" finiteFloat es

def stringValue : Decoder Value :=
  node "StringValue" "string" ["value", "block"] fun es =>
    Value.string <$> required "value" string es <*> withDefault "block" false boolean es

def booleanValue : Decoder Value :=
  node "BooleanValue" "boolean" ["value"] fun es =>
    Value.boolean <$> required "value" boolean es

def nullValue : Decoder Value :=
  node "NullValue" "null" [] fun _ => .ok Value.null

def enumValue : Decoder Value :=
  node "EnumValue" "enum" ["value"] fun es => Value.enum <$> required "value" name es

def variableRef : Decoder Value :=
  node "Variable" "variable" ["name"] fun es => Value.variableRef <$> required "name" name es

def listValue (inner : Decoder Value) : Decoder Value :=
  node "ListValue" "list" ["values"] fun es =>
    Value.list <$> withDefault "values" [] (sequence inner) es

def objectField (inner : Decoder Value) : Decoder (String × Value) :=
  record "ObjectField" ["name", "value"] fun es =>
    Prod.mk <$> required "name" name es <*> required "value" inner es

def objectValue (inner : Decoder Value) : Decoder Value :=
  node "ObjectValue" "object" ["fields"] fun es =>
    Value.object <$> withDefault "fields" [] (sequence (objectField inner)) es

def valueTags : List String :=
  ["int", "float", "string", "boolean", "null", "enum", "variable", "list", "object"]

def valueTo : Nat → Decoder Value
  | 0 => fun _ => .problem .notVariant
  | n + 1 => variant valueTags fun
    | "int" => intValue
    | "float" => floatValue
    | "string" => stringValue
    | "boolean" => booleanValue
    | "null" => nullValue
    | "enum" => enumValue
    | "variable" => variableRef
    | "list" => listValue (valueTo n)
    | _ => objectValue (valueTo n)

def value : Decoder Value := nested valueTo

def argument : Decoder Argument :=
  record "Argument" ["name", "value"] fun es =>
    Argument.mk <$> required "name" name es <*> required "value" value es

def directive : Decoder Directive :=
  record "Directive" ["name", "arguments"] fun es =>
    Directive.mk <$> required "name" name es <*>
      withDefault "arguments" [] (sequence argument) es

/-- The directives of a node, none if the field is not there. -/
def directives (es : Entries) : Checked (List Directive) :=
  withDefault "directives" [] (sequence directive) es

/-- The directives of a node that exists for their sake. -/
def someDirectives (es : Entries) : Checked (List Directive) :=
  required "directives" (nonempty directive) es

end GraphQLDoc.Decoder
