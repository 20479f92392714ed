import GraphQLDoc.Decoding.Executable
import GraphQLDoc.Ast.TypeSystem

/-!
Type system definitions and extensions read from data.
-/
namespace GraphQLDoc.Decoder

def description (es : Entries) : Checked (Option JsonString) := optional "description" string es

def inputValueDefinition : Decoder InputValueDefinition :=
  record "InputValueDefinition" ["description", "name", "type", "default_value", "directives"]
    fun es =>
      InputValueDefinition.mk <$> description es <*> required "name" name es <*>
        required "type" typeRef es <*> optional "default_value" value es <*> directives es

def inputValues (key : String) (es : Entries) : Checked (List InputValueDefinition) :=
  withDefault key [] (sequence inputValueDefinition) es

def fieldDefinition : Decoder FieldDefinition :=
  record "FieldDefinition" ["description", "name", "arguments", "type", "directives"] fun es =>
    FieldDefinition.mk <$> description es <*> required "name" name es <*>
      inputValues "arguments" es <*> required "type" typeRef es <*> directives es

def enumValueDefinition : Decoder EnumValueDefinition :=
  record "EnumValueDefinition" ["description", "name", "directives"] fun es =>
    EnumValueDefinition.mk <$> description es <*> required "name" name es <*> directives es

def rootKeys : List String := ["query", "mutation", "subscription"]

def rootTypes (es : Entries) : Checked RootTypes :=
  RootTypes.mk <$> optional "query" namedType es <*> optional "mutation" namedType es <*>
    optional "subscription" namedType es

def schema : Decoder SchemaDefinition :=
  node "SchemaDefinition" "schema" (["description", "directives"] ++ rootKeys) fun es =>
    SchemaDefinition.mk <$> description es <*> directives es <*> rootTypes es

def namedTypes (key : String) (es : Entries) : Checked (List String) :=
  withDefault key [] (sequence namedType) es

def scalarType : Decoder TypeDefinition :=
  node "ScalarTypeDefinition" "scalar" ["description", "name", "directives"] fun es =>
    (fun d n ds => ⟨d, n, ds, .scalar⟩) <$> description es <*> required "name" name es <*>
      directives es

def fieldsType (owner : FieldOwner) (className tag : String) : Decoder TypeDefinition :=
  node className tag ["description", "name", "interfaces", "directives", "fields"] fun es =>
    (fun d n is ds fs => ⟨d, n, ds, .fields owner is fs⟩) <$> description es <*>
      required "name" name es <*> namedTypes "interfaces" es <*> directives es <*>
      withDefault "fields" [] (sequence fieldDefinition) es

def objectType : Decoder TypeDefinition := fieldsType .object "ObjectTypeDefinition" "object"

def interfaceType : Decoder TypeDefinition :=
  fieldsType .interface "InterfaceTypeDefinition" "interface"

def unionType : Decoder TypeDefinition :=
  node "UnionTypeDefinition" "union" ["description", "name", "directives", "types"] fun es =>
    (fun d n ds ms => ⟨d, n, ds, .union ms⟩) <$> description es <*> required "name" name es <*>
      directives es <*> namedTypes "types" es

def enumType : Decoder TypeDefinition :=
  node "EnumTypeDefinition" "enum" ["description", "name", "directives", "values"] fun es =>
    (fun d n ds vs => ⟨d, n, ds, .enum vs⟩) <$> description es <*> required "name" name es <*>
      directives es <*> withDefault "values" [] (sequence enumValueDefinition) es

def inputObjectType : Decoder TypeDefinition :=
  node "InputObjectTypeDefinition" "input_object" ["description", "name", "directives", "fields"]
    fun es =>
      (fun d n ds fs => ⟨d, n, ds, .inputObject fs⟩) <$> description es <*>
        required "name" name es <*> directives es <*> inputValues "fields" es

def directiveLocation : Decoder DirectiveLocation :=
  word DirectiveLocation.all DirectiveLocation.word

def directiveDefinition : Decoder DirectiveDefinition :=
  node "DirectiveDefinition" "directive"
    ["description", "name", "arguments", "repeatable", "locations"] fun es =>
      DirectiveDefinition.mk <$> description es <*> required "name" name es <*>
        inputValues "arguments" es <*> withDefault "repeatable" false boolean es <*>
        required "locations" (nonempty directiveLocation) es

/-- The reason against a schema extension with an empty body. -/
def noRoot : String := "a schema extension body must name at least one root operation type"

def schemaExtensionRoots : Decoder SchemaExtension :=
  refine
    (node "SchemaExtensionWithOperationTypes" "schema_extension_with_operation_types"
      ("directives" :: rootKeys) fun es =>
        SchemaExtension.withRoots <$> directives es <*> rootTypes es)
    (fun
      | .withRoots _ roots => !roots.isEmpty
      | .withDirectives _ => true)
    noRoot

def schemaExtensionDirectives : Decoder SchemaExtension :=
  node "SchemaExtensionWithDirectives" "schema_extension_with_directives" ["directives"] fun es =>
    SchemaExtension.withDirectives <$> someDirectives es

/-- An extension that only adds directives. -/
def directivesExtension (className tag : String) (body : List Directive → ExtensionBody) :
    Decoder TypeExtension :=
  node className tag ["name", "directives"] fun es =>
    (fun n ds => ⟨n, body ds⟩) <$> required "name" name es <*> someDirectives es

def scalarExtension : Decoder TypeExtension :=
  directivesExtension "ScalarTypeExtension" "scalar_extension" .scalar

def fieldsExtension (owner : FieldOwner) (className tag : String) : Decoder TypeExtension :=
  node className tag ["name", "interfaces", "directives", "fields"] fun es =>
    (fun n is ds fs => ⟨n, .fields owner is ds fs⟩) <$> required "name" name es <*>
      namedTypes "interfaces" es <*> directives es <*>
      required "fields" (nonempty fieldDefinition) es

def fieldsDirectivesExtension (owner : FieldOwner) (className tag : String) :
    Decoder TypeExtension :=
  node className tag ["name", "interfaces", "directives"] fun es =>
    (fun n is ds => ⟨n, .fieldsDirectives owner is ds⟩) <$> required "name" name es <*>
      namedTypes "interfaces" es <*> someDirectives es

def fieldsInterfacesExtension (owner : FieldOwner) (className tag : String) :
    Decoder TypeExtension :=
  node className tag ["name", "interfaces"] fun es =>
    (fun n is => ⟨n, .fieldsInterfaces owner is⟩) <$> required "name" name es <*>
      required "interfaces" (nonempty namedType) es

def unionMembersExtension : Decoder TypeExtension :=
  node "UnionTypeExtensionWithMembers" "union_extension_with_members"
    ["name", "directives", "types"] fun es =>
      (fun n ds ms => ⟨n, .unionMembers ds ms⟩) <$> required "name" name es <*> directives es <*>
        required "types" (nonempty namedType) es

def unionDirectivesExtension : Decoder TypeExtension :=
  directivesExtension "UnionTypeExtensionWithDirectives" "union_extension_with_directives"
    .unionDirectives

def enumValuesExtension : Decoder TypeExtension :=
  node "EnumTypeExtensionWithValues" "enum_extension_with_values" ["name", "directives", "values"]
    fun es =>
      (fun n ds vs => ⟨n, .enumValues ds vs⟩) <$> required "name" name es <*> directives es <*>
        required "values" (nonempty enumValueDefinition) es

def enumDirectivesExtension : Decoder TypeExtension :=
  directivesExtension "EnumTypeExtensionWithDirectives" "enum_extension_with_directives"
    .enumDirectives

def inputFieldsExtension : Decoder TypeExtension :=
  node "InputObjectTypeExtensionWithFields" "input_object_extension_with_fields"
    ["name", "directives", "fields"] fun es =>
      (fun n ds fs => ⟨n, .inputFields ds fs⟩) <$> required "name" name es <*> directives es <*>
        required "fields" (nonempty inputValueDefinition) es

def inputDirectivesExtension : Decoder TypeExtension :=
  directivesExtension "InputObjectTypeExtensionWithDirectives"
    "input_object_extension_with_directives" .inputDirectives

end GraphQLDoc.Decoder
