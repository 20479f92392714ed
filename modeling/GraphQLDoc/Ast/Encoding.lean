import GraphQLDoc.Ast.Nesting
import GraphQLDoc.Json.Basic

/-!
Documents as JSON. Every node is an object with all its fields in a fixed order, the kind first
where the kind is not clear from the place; what is absent is null or an empty list.
-/
namespace GraphQLDoc

namespace Encoding

def optional {α : Type} (encode : α → Json) : Option α → Json
  | none => .null
  | some a => encode a

def sequence {α : Type} (encode : α → Json) (as : List α) : Json := .array (as.map encode)

/-- An object with its kind in front. -/
def node (kind : String) (fields : List (String × Json)) : Json :=
  .record (("kind", .str kind) :: fields)

end Encoding

open Encoding

def namedTypeJson (name : String) : Json := node "named" [("name", .str name)]

def TypeRef.toJson : TypeRef → Json
  | .named name => namedTypeJson name
  | .list of => node "list" [("of_type", of.toJson)]
  | .nonNull of => node "non_null" [("of_type", of.toJson)]

mutual

def Value.toJson : Value → Json
  | .int n => node "int" [("value", .int n)]
  | .float x => node "float" [("value", .float x)]
  | .string text block => node "string" [("value", .string text), ("block", .bool block)]
  | .boolean b => node "boolean" [("value", .bool b)]
  | .null => node "null" []
  | .enum name => node "enum" [("value", .str name)]
  | .variableRef name => node "variable" [("name", .str name)]
  | .list values => node "list" [("values", .array (Value.toJsonList values))]
  | .object fields => node "object" [("fields", .array (Value.toJsonFields fields))]

def Value.toJsonList : List Value → List Json
  | [] => []
  | v :: vs => v.toJson :: Value.toJsonList vs

def Value.toJsonFields : List (String × Value) → List Json
  | [] => []
  | (name, v) :: fs =>
    .record [("name", .str name), ("value", v.toJson)] :: Value.toJsonFields fs

end

def Argument.toJson (a : Argument) : Json :=
  .record [("name", .str a.name), ("value", a.value.toJson)]

def Directive.toJson (d : Directive) : Json :=
  .record [("name", .str d.name), ("arguments", sequence Argument.toJson d.arguments)]

def Encoding.directivesField (ds : List Directive) : String × Json :=
  ("directives", sequence Directive.toJson ds)

mutual

def Selection.toJson : Selection → Json
  | .field alternative name arguments directives selectionSet =>
    node "field" [("alias", optional .str alternative), ("name", .str name),
      ("arguments", sequence Argument.toJson arguments), directivesField directives,
      ("selection_set", match selectionSet with
        | none => .null
        | some inner => .record [("selections", .array (Selection.toJsonList inner))])]
  | .fragmentSpread name directives =>
    node "fragment_spread" [("name", .str name), directivesField directives]
  | .inlineFragment typeCondition directives inner =>
    node "inline_fragment" [("type_condition", optional namedTypeJson typeCondition),
      directivesField directives,
      ("selection_set", .record [("selections", .array (Selection.toJsonList inner))])]

def Selection.toJsonList : List Selection → List Json
  | [] => []
  | s :: ss => s.toJson :: Selection.toJsonList ss

end

def SelectionSet.toJson (s : SelectionSet) : Json :=
  .record [("selections", .array (Selection.toJsonList s))]

def VariableDefinition.toJson (v : VariableDefinition) : Json :=
  .record [("variable", .str v.name), ("type", v.type.toJson),
    ("default_value", optional Value.toJson v.defaultValue), directivesField v.directives]

def Operation.toJson (o : Operation) : Json :=
  node "operation" [("operation_type", .str o.operationType.word), ("name", optional .str o.name),
    ("variable_definitions", sequence VariableDefinition.toJson o.variableDefinitions),
    directivesField o.directives, ("selection_set", SelectionSet.toJson o.selectionSet)]

def Fragment.toJson (f : Fragment) : Json :=
  node "fragment" [("name", .str f.name), ("type_condition", namedTypeJson f.typeCondition),
    directivesField f.directives, ("selection_set", SelectionSet.toJson f.selectionSet)]

def Encoding.descriptionField (d : Option JsonString) : String × Json :=
  ("description", optional .string d)

def Encoding.interfacesField (names : List String) : String × Json :=
  ("interfaces", sequence namedTypeJson names)

def InputValueDefinition.toJson (v : InputValueDefinition) : Json :=
  .record [descriptionField v.description, ("name", .str v.name), ("type", v.type.toJson),
    ("default_value", optional Value.toJson v.defaultValue), directivesField v.directives]

def FieldDefinition.toJson (f : FieldDefinition) : Json :=
  .record [descriptionField f.description, ("name", .str f.name),
    ("arguments", sequence InputValueDefinition.toJson f.arguments), ("type", f.type.toJson),
    directivesField f.directives]

def EnumValueDefinition.toJson (v : EnumValueDefinition) : Json :=
  .record [descriptionField v.description, ("name", .str v.name), directivesField v.directives]

def Encoding.rootFields (r : RootTypes) : List (String × Json) :=
  OperationType.all.map fun o => (o.word, optional namedTypeJson (r.get o))

def SchemaDefinition.toJson (s : SchemaDefinition) : Json :=
  node "schema"
    (descriptionField s.description :: directivesField s.directives :: rootFields s.roots)

/-- The tag of a type definition by its body. -/
def TypeBody.kind : TypeBody → String
  | .scalar => "scalar"
  | .fields .object _ _ => "object"
  | .fields .interface _ _ => "interface"
  | .union _ => "union"
  | .enum _ => "enum"
  | .inputObject _ => "input_object"

def TypeDefinition.toJson (t : TypeDefinition) : Json :=
  let header := [descriptionField t.description, ("name", .str t.name)]
  let directives := directivesField t.directives
  node t.body.kind <| match t.body with
    | .scalar => header ++ [directives]
    | .fields _ interfaces fields =>
      header ++ [interfacesField interfaces, directives,
        ("fields", sequence FieldDefinition.toJson fields)]
    | .union members => header ++ [directives, ("types", sequence namedTypeJson members)]
    | .enum values =>
      header ++ [directives, ("values", sequence EnumValueDefinition.toJson values)]
    | .inputObject fields =>
      header ++ [directives, ("fields", sequence InputValueDefinition.toJson fields)]

def DirectiveDefinition.toJson (d : DirectiveDefinition) : Json :=
  node "directive" [descriptionField d.description, ("name", .str d.name),
    ("arguments", sequence InputValueDefinition.toJson d.arguments),
    ("repeatable", .bool d.repeatable),
    ("locations", sequence (fun l => .str l.word) d.locations)]

def SchemaExtension.kind : SchemaExtension → String
  | .withRoots _ _ => "schema_extension_with_operation_types"
  | .withDirectives _ => "schema_extension_with_directives"

def SchemaExtension.toJson (e : SchemaExtension) : Json :=
  node e.kind <| match e with
    | .withRoots directives roots => directivesField directives :: rootFields roots
    | .withDirectives directives => [directivesField directives]

def FieldOwner.word : FieldOwner → String
  | .object => "object"
  | .interface => "interface"

/-- The tag of a type extension by what it adds. -/
def ExtensionBody.kind : ExtensionBody → String
  | .scalar _ => "scalar_extension"
  | .fields owner _ _ _ => owner.word ++ "_extension_with_fields"
  | .fieldsDirectives owner _ _ => owner.word ++ "_extension_with_directives"
  | .fieldsInterfaces owner _ => owner.word ++ "_extension_with_interfaces"
  | .unionMembers _ _ => "union_extension_with_members"
  | .unionDirectives _ => "union_extension_with_directives"
  | .enumValues _ _ => "enum_extension_with_values"
  | .enumDirectives _ => "enum_extension_with_directives"
  | .inputFields _ _ => "input_object_extension_with_fields"
  | .inputDirectives _ => "input_object_extension_with_directives"

def TypeExtension.toJson (e : TypeExtension) : Json :=
  node e.body.kind <| ("name", .str e.name) :: match e.body with
    | .scalar directives | .unionDirectives directives | .enumDirectives directives
    | .inputDirectives directives => [directivesField directives]
    | .fields _ interfaces directives fields =>
      [interfacesField interfaces, directivesField directives,
        ("fields", sequence FieldDefinition.toJson fields)]
    | .fieldsDirectives _ interfaces directives =>
      [interfacesField interfaces, directivesField directives]
    | .fieldsInterfaces _ interfaces => [interfacesField interfaces]
    | .unionMembers directives members =>
      [directivesField directives, ("types", sequence namedTypeJson members)]
    | .enumValues directives values =>
      [directivesField directives, ("values", sequence EnumValueDefinition.toJson values)]
    | .inputFields directives fields =>
      [directivesField directives, ("fields", sequence InputValueDefinition.toJson fields)]

/-- The tag of a definition. -/
def Definition.kind : Definition → String
  | .operation _ => "operation"
  | .fragment _ => "fragment"
  | .schema _ => "schema"
  | .type t => t.body.kind
  | .directive _ => "directive"
  | .schemaExtension e => e.kind
  | .typeExtension e => e.body.kind

def Definition.toJson : Definition → Json
  | .operation o => o.toJson
  | .fragment f => f.toJson
  | .schema s => s.toJson
  | .type t => t.toJson
  | .directive d => d.toJson
  | .schemaExtension e => e.toJson
  | .typeExtension e => e.toJson

def Document.toJson (d : Document) : Json :=
  .record [("definitions", sequence Definition.toJson d.definitions)]

/-- Why a document has no data. -/
inductive DumpError where
  /-- Nodes nested too deeply are taken for a loop. -/
  | tooDeep
deriving DecidableEq

def DumpError.message : DumpError → String
  | tooDeep => "Circular reference detected (depth exceeded)"

/-- The data of a document. -/
def Document.dump (d : Document) : Except DumpError Json :=
  if d.nesting ≤ maxNesting then .ok d.toJson else .error .tooDeep

end GraphQLDoc
