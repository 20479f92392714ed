import GraphQLDoc.Decoding.TypeSystem
import GraphQLDoc.Ast.Document
import GraphQLDoc.Ast.Encoding

/-!
Documents read from data. The definitions of a document are told apart by their kinds.
-/
namespace GraphQLDoc.Decoder

/-- The kinds of definitions, each with the name of its class and its decoder. -/
def definitionClasses : List (String × String × Decoder Definition) :=
  let type (d : Decoder TypeDefinition) : Decoder Definition := fun v => .type <$> d v
  let typeExtension (d : Decoder TypeExtension) : Decoder Definition :=
    fun v => .typeExtension <$> d v
  let schemaExtension (d : Decoder SchemaExtension) : Decoder Definition :=
    fun v => .schemaExtension <$> d v
  let ofOwner (owner : FieldOwner) (capital : String) :
      List (String × String × Decoder Definition) :=
    let className (clause : String) := capital ++ "TypeExtensionWith" ++ clause
    let tag (clause : String) := owner.word ++ "_extension_with_" ++ clause
    [(tag "fields", className "Fields",
        typeExtension (fieldsExtension owner (className "Fields") (tag "fields"))),
      (tag "directives", className "Directives",
        typeExtension
          (fieldsDirectivesExtension owner (className "Directives") (tag "directives"))),
      (tag "interfaces", className "Interfaces",
        typeExtension
          (fieldsInterfacesExtension owner (className "Interfaces") (tag "interfaces")))]
  [("operation", "OperationDefinition", fun v => .operation <$> operation v),
    ("fragment", "FragmentDefinition", fun v => .fragment <$> fragment v),
    ("schema", "SchemaDefinition", fun v => .schema <$> schema v),
    ("scalar", "ScalarTypeDefinition", type scalarType),
    ("object", "ObjectTypeDefinition", type objectType),
    ("interface", "InterfaceTypeDefinition", type interfaceType),
    ("union", "UnionTypeDefinition", type unionType),
    ("enum", "EnumTypeDefinition", type enumType),
    ("input_object", "InputObjectTypeDefinition", type inputObjectType),
    ("directive", "DirectiveDefinition", fun v => .directive <$> directiveDefinition v),
    ("schema_extension_with_operation_types", "SchemaExtensionWithOperationTypes",
      schemaExtension schemaExtensionRoots),
    ("schema_extension_with_directives", "SchemaExtensionWithDirectives",
      schemaExtension schemaExtensionDirectives),
    ("scalar_extension", "ScalarTypeExtension", typeExtension scalarExtension)] ++
  ofOwner .object "Object" ++ ofOwner .interface "Interface" ++
  [("union_extension_with_members", "UnionTypeExtensionWithMembers",
      typeExtension unionMembersExtension),
    ("union_extension_with_directives", "UnionTypeExtensionWithDirectives",
      typeExtension unionDirectivesExtension),
    ("enum_extension_with_values", "EnumTypeExtensionWithValues",
      typeExtension enumValuesExtension),
    ("enum_extension_with_directives", "EnumTypeExtensionWithDirectives",
      typeExtension enumDirectivesExtension),
    ("input_object_extension_with_fields", "InputObjectTypeExtensionWithFields",
      typeExtension inputFieldsExtension),
    ("input_object_extension_with_directives", "InputObjectTypeExtensionWithDirectives",
      typeExtension inputDirectivesExtension)]

def definition : Decoder Definition :=
  variant (definitionClasses.map (·.1)) fun tag =>
    ((definitionClasses.lookup tag).map (·.2)).getD fun _ => .problem .notVariant

/-- A document, however deep its nodes are nested. -/
def deepDocument : Decoder Document :=
  record "Document" ["definitions"] fun es =>
    Document.mk <$> withDefault "definitions" [] (sequence definition) es

/-- A document. That its nodes are nested too deeply is told of it as a whole. -/
def document : Decoder Document := fun v =>
  (deepDocument v).andThen fun d => if d.nesting ≤ maxNesting then .ok d else .problem .tooDeep

/-- Data brought into its full form: every field present, every value in its own type. -/
abbrev Normalizer := Json → Checked Json

/-- The classes of nodes and how data of each is normalized. -/
def classes : List (String × Normalizer) :=
  let plain {α : Type} (d : Decoder α) (encode : α → Json) : Normalizer :=
    fun v => (d v).map encode
  definitionClasses.map (fun (_, name, d) => (name, plain d Definition.toJson)) ++
  [("NamedType", plain namedType namedTypeJson),
    ("ListType", plain (listType typeRef) TypeRef.toJson),
    ("NonNullType", plain (nonNullType typeRef) TypeRef.toJson),
    ("IntValue", plain intValue Value.toJson),
    ("FloatValue", plain floatValue Value.toJson),
    ("StringValue", plain stringValue Value.toJson),
    ("BooleanValue", plain booleanValue Value.toJson),
    ("NullValue", plain nullValue Value.toJson),
    ("EnumValue", plain enumValue Value.toJson),
    ("Variable", plain variableRef Value.toJson),
    ("ListValue", plain (listValue value) Value.toJson),
    ("ObjectField", plain (objectField value) fun f =>
      .record [("name", .str f.1), ("value", f.2.toJson)]),
    ("ObjectValue", plain (objectValue value) Value.toJson),
    ("Argument", plain argument Argument.toJson),
    ("Directive", plain directive Directive.toJson),
    ("Field", plain (fieldSelection selection) Selection.toJson),
    ("FragmentSpread", plain fragmentSpread Selection.toJson),
    ("InlineFragment", plain (inlineFragment selection) Selection.toJson),
    ("SelectionSet", plain selectionSet SelectionSet.toJson),
    ("VariableDefinition", plain variableDefinition VariableDefinition.toJson),
    ("InputValueDefinition", plain inputValueDefinition InputValueDefinition.toJson),
    ("FieldDefinition", plain fieldDefinition FieldDefinition.toJson),
    ("EnumValueDefinition", plain enumValueDefinition EnumValueDefinition.toJson),
    ("Document", plain document Document.toJson)]

end GraphQLDoc.Decoder
