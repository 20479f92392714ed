import GraphQLDoc.Ast.Executable

/-!
Type system definitions and extensions. An extension has a variant for each clause that it may end
in; that clause is never empty in a well-formed document.
-/
namespace GraphQLDoc

inductive DirectiveLocation where
  | query | mutation | subscription | field | fragmentDefinition | fragmentSpread
  | inlineFragment | variableDefinition
  | schema | scalar | object | fieldDefinition | argumentDefinition | interface | union | enum
  | enumValue | inputObject | inputFieldDefinition
deriving DecidableEq

namespace DirectiveLocation

def all : List DirectiveLocation :=
  [query, mutation, subscription, field, fragmentDefinition, fragmentSpread, inlineFragment,
    variableDefinition, schema, scalar, object, fieldDefinition, argumentDefinition, interface,
    union, enum, enumValue, inputObject, inputFieldDefinition]

def word : DirectiveLocation → String
  | query => "QUERY" | mutation => "MUTATION" | subscription => "SUBSCRIPTION"
  | field => "FIELD" | fragmentDefinition => "FRAGMENT_DEFINITION"
  | fragmentSpread => "FRAGMENT_SPREAD" | inlineFragment => "INLINE_FRAGMENT"
  | variableDefinition => "VARIABLE_DEFINITION" | schema => "SCHEMA" | scalar => "SCALAR"
  | object => "OBJECT" | fieldDefinition => "FIELD_DEFINITION"
  | argumentDefinition => "ARGUMENT_DEFINITION" | interface => "INTERFACE" | union => "UNION"
  | enum => "ENUM" | enumValue => "ENUM_VALUE" | inputObject => "INPUT_OBJECT"
  | inputFieldDefinition => "INPUT_FIELD_DEFINITION"

def ofWord? (w : String) : Option DirectiveLocation := all.find? (·.word == w)

end DirectiveLocation

/-- An argument of a field or directive, or a field of an input object. -/
structure InputValueDefinition where
  description : Option JsonString
  name : String
  type : TypeRef
  defaultValue : Option Value
  directives : List Directive

structure FieldDefinition where
  description : Option JsonString
  name : String
  arguments : List InputValueDefinition
  type : TypeRef
  directives : List Directive

structure EnumValueDefinition where
  description : Option JsonString
  name : String
  directives : List Directive

/-- The root types by operation, each the name of a type. -/
structure RootTypes where
  query : Option String
  mutation : Option String
  subscription : Option String

namespace RootTypes

def none : RootTypes := ⟨.none, .none, .none⟩

def get : RootTypes → OperationType → Option String
  | r, .query => r.query
  | r, .mutation => r.mutation
  | r, .subscription => r.subscription

def set (r : RootTypes) (name : String) : OperationType → RootTypes
  | .query => { r with query := some name }
  | .mutation => { r with mutation := some name }
  | .subscription => { r with subscription := some name }

/-- The operations that have a root type. -/
def operations (r : RootTypes) : List OperationType :=
  OperationType.all.filter fun o => (r.get o).isSome

def isEmpty (r : RootTypes) : Bool := r.operations.isEmpty

end RootTypes

structure SchemaDefinition where
  description : Option JsonString
  directives : List Directive
  roots : RootTypes

/-- The two kinds of types that have fields. -/
inductive FieldOwner where
  | object | interface
deriving DecidableEq

inductive TypeBody where
  | scalar
  | fields (owner : FieldOwner) (interfaces : List String) (fields : List FieldDefinition)
  | union (members : List String)
  | enum (values : List EnumValueDefinition)
  | inputObject (fields : List InputValueDefinition)

structure TypeDefinition where
  description : Option JsonString
  name : String
  directives : List Directive
  body : TypeBody

structure DirectiveDefinition where
  description : Option JsonString
  name : String
  arguments : List InputValueDefinition
  repeatable : Bool
  locations : List DirectiveLocation

inductive SchemaExtension where
  | withRoots (directives : List Directive) (roots : RootTypes)
  | withDirectives (directives : List Directive)

/-- What an extension adds. -/
inductive ExtensionBody where
  | scalar (directives : List Directive)
  | fields (owner : FieldOwner) (interfaces : List String) (directives : List Directive)
      (fields : List FieldDefinition)
  | fieldsDirectives (owner : FieldOwner) (interfaces : List String)
      (directives : List Directive)
  | fieldsInterfaces (owner : FieldOwner) (interfaces : List String)
  | unionMembers (directives : List Directive) (members : List String)
  | unionDirectives (directives : List Directive)
  | enumValues (directives : List Directive) (values : List EnumValueDefinition)
  | enumDirectives (directives : List Directive)
  | inputFields (directives : List Directive) (fields : List InputValueDefinition)
  | inputDirectives (directives : List Directive)

structure TypeExtension where
  name : String
  body : ExtensionBody

end GraphQLDoc
