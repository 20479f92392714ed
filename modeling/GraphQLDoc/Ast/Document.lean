import GraphQLDoc.Ast.TypeSystem

/-!
Documents and the questions one can ask of them. Each question is a scan over the definitions in
their order.
-/
namespace GraphQLDoc

inductive Definition where
  | operation (o : Operation)
  | fragment (f : Fragment)
  | schema (s : SchemaDefinition)
  | type (t : TypeDefinition)
  | directive (d : DirectiveDefinition)
  | schemaExtension (e : SchemaExtension)
  | typeExtension (e : TypeExtension)

structure Document where
  definitions : List Definition

namespace Definition

def type? : Definition → Option TypeDefinition
  | type t => some t
  | _ => none

def schema? : Definition → Option SchemaDefinition
  | schema s => some s
  | _ => none

end Definition

namespace Document

def types (d : Document) : List TypeDefinition := d.definitions.filterMap Definition.type?

def schemas (d : Document) : List SchemaDefinition := d.definitions.filterMap Definition.schema?

/-- The first type definition of a name; extensions and directives have no part in it. -/
def type? (d : Document) (name : String) : Option TypeDefinition :=
  d.types.find? (·.name == name)

def definesType (d : Document) (name : String) : Bool := (d.type? name).isSome

/-- The first schema definition. -/
def schema? (d : Document) : Option SchemaDefinition := d.schemas.head?

end Document

/-- The fields of an object or interface type. -/
def TypeDefinition.fields (t : TypeDefinition) : List FieldDefinition :=
  match t.body with
  | .fields _ _ fields => fields
  | _ => []

/-- The response keys of a selection set, those of nested sets in lists of their own: behind the key
of their field, or alone for an inline fragment. -/
inductive ResponseKeys where
  | key (name : String)
  | nested (keys : List ResponseKeys)

mutual

def Selection.responseKeys : Selection → List ResponseKeys
  | .field alternative name _ _ none => [.key (responseKey alternative name)]
  | .field alternative name _ _ (some inner) =>
    [.key (responseKey alternative name), .nested (Selection.responseKeysOfList inner)]
  | .fragmentSpread _ _ => []
  | .inlineFragment _ _ inner => [.nested (Selection.responseKeysOfList inner)]

def Selection.responseKeysOfList : List Selection → List ResponseKeys
  | [] => []
  | s :: ss => s.responseKeys ++ Selection.responseKeysOfList ss

end

end GraphQLDoc
