import GraphQLDoc.Conversion.Executable
import GraphQLDoc.Ast.Document

/-!
Conversion of type system definitions and extensions, and of whole documents. Which variant an
extension becomes is decided by the last clause that it has.
-/
namespace GraphQLDoc.Conversion

variable [Machine]

def interfaces : Walk (List String) := Walk.clause "implements_interfaces" "named_type" namedType

/-- One entry of a schema block, with the node it was read from. -/
def rootEntry (t : ParseTree) : Converted (OperationType × String) :=
  t.whole "root_operation_type_definition" do
    let typeTree ← Walk.next ["operation_type"]
    let o ← Walk.lift (operationType typeTree)
    let nameTree ← Walk.next ["named_type"]
    let name ← Walk.lift (namedType nameTree)
    return (o, name)

/-- Adds an entry to a schema block, which names each operation once. -/
def addRoot (roots : RootTypes) (t : ParseTree) : Converted RootTypes := do
  let (o, name) ← rootEntry t
  match roots.get o with
  | some _ => .error (.literal (.rootTwice o) t.span?)
  | none => return roots.set name o

def rootTypes : Walk RootTypes := do
  let entries ← Walk.repeated ["root_operation_type_definition"]
  Walk.lift (entries.foldlM addRoot .none)

def schemaDefinition (t : ParseTree) : Converted SchemaDefinition :=
  t.whole "schema_definition" do
    let description ← description
    let directives ← directives
    let roots ← rootTypes
    return ⟨description, directives, roots⟩

def inputValueDefinition (t : ParseTree) : Converted InputValueDefinition := do
  let v ← t.whole "input_value_definition" do
    let description ← description
    let name ← Walk.name
    let type ← type
    let defaultValue ← defaultValue
    let directives ← directives
    return InputValueDefinition.mk description name type defaultValue directives
  checkNames [("name", v.name)]
  return v

def argumentsDefinition : Walk (List InputValueDefinition) :=
  Walk.clause "arguments_definition" "input_value_definition" inputValueDefinition

def fieldDefinition (t : ParseTree) : Converted FieldDefinition := do
  let f ← t.whole "field_definition" do
    let description ← description
    let name ← Walk.name
    let arguments ← argumentsDefinition
    let type ← type
    let directives ← directives
    return FieldDefinition.mk description name arguments type directives
  checkNames [("name", f.name)]
  return f

def enumValueNames : List String := ["true", "false", "null"]

def enumValueDefinition (t : ParseTree) : Converted EnumValueDefinition := do
  let (v, span) ← t.whole "enum_value_definition" do
    let description ← description
    let nameTree ← Walk.next ["name"]
    let (name, span) ← Walk.lift (nameTree.nameToken "name")
    let directives ← directives
    return (EnumValueDefinition.mk description name directives, span)
  if v.name ∈ enumValueNames then .error (.literal (.enumValueName v.name) (some span))
  checkNames [("name", v.name)]
  return v

def fields : Walk (List FieldDefinition) :=
  Walk.clause "fields_definition" "field_definition" fieldDefinition

def inputFields : Walk (List InputValueDefinition) :=
  Walk.clause "input_fields_definition" "input_value_definition" inputValueDefinition

def unionMembers : Walk (List String) := Walk.clause "union_member_types" "named_type" namedType

def enumValues : Walk (List EnumValueDefinition) :=
  Walk.clause "enum_values_definition" "enum_value_definition" enumValueDefinition

/-- A type definition: description, name, and what follows them. -/
def typeDefinition (rule : String) (body : Walk (List Directive × TypeBody)) (t : ParseTree) :
    Converted TypeDefinition := do
  let d ← t.whole rule do
    let description ← description
    let name ← Walk.name
    let (directives, body) ← body
    return TypeDefinition.mk description name directives body
  checkNames [("name", d.name)]
  return d

def scalarBody : Walk (List Directive × TypeBody) := do
  return (← directives, .scalar)

def fieldsBody (owner : FieldOwner) : Walk (List Directive × TypeBody) := do
  let interfaces ← interfaces
  let directives ← directives
  let fields ← fields
  return (directives, .fields owner interfaces fields)

def unionBody : Walk (List Directive × TypeBody) := do
  let directives ← directives
  return (directives, .union (← unionMembers))

def enumBody : Walk (List Directive × TypeBody) := do
  let directives ← directives
  return (directives, .enum (← enumValues))

def inputBody : Walk (List Directive × TypeBody) := do
  let directives ← directives
  return (directives, .inputObject (← inputFields))

def directiveLocation (t : ParseTree) : Converted DirectiveLocation := do
  let token ← t.whole "directive_location" (Walk.next ["NAME"])
  match token with
  | .rule _ _ _ => .error (.mixUp .ruleForPosition)
  | .token _ text span =>
    match DirectiveLocation.ofWord? text with
    | some l => return l
    | none => .error (.literal (.location text) (some span))

def directiveDefinition (t : ParseTree) : Converted DirectiveDefinition := do
  let d ← t.whole "directive_definition" do
    let description ← description
    let name ← Walk.name
    let arguments ← argumentsDefinition
    let repeatable ← Walk.optional "repeatable"
    let locations ← Walk.clause "directive_locations" "directive_location" directiveLocation
    return DirectiveDefinition.mk description name arguments repeatable.isSome locations
  if d.locations.isEmpty then .error (.shape (.noLocations d.name) t.span?)
  checkNames [("name", d.name)]
  return d

def noClauses {α : Type} (t : ParseTree) : Converted α := .error (.shape (.noClauses t.tag) t.span?)

def schemaExtension (t : ParseTree) : Converted SchemaExtension := do
  let (directives, roots) ← t.whole "schema_extension" do
    let directives ← directives
    let roots ← rootTypes
    return (directives, roots)
  if !roots.isEmpty then return .withRoots directives roots
  else if !directives.isEmpty then return .withDirectives directives
  else noClauses t

/-- A type extension: a name and the clauses behind it, from which `choose` makes the body. -/
def typeExtension {α : Type} (rule : String) (clauses : Walk α)
    (choose : α → Option ExtensionBody) (t : ParseTree) : Converted TypeExtension := do
  let (name, found) ← t.whole rule do
    let name ← Walk.name
    let found ← clauses
    return (name, found)
  match choose found with
  | none => noClauses t
  | some body =>
    checkNames [("name", name)]
    return ⟨name, body⟩

/-- The variant of an extension that adds directives only. -/
def onlyDirectives (body : List Directive → ExtensionBody) :
    List Directive → Option ExtensionBody
  | [] => none
  | ds => some (body ds)

def scalarExtension : ParseTree → Converted TypeExtension :=
  typeExtension "scalar_type_extension" directives (onlyDirectives .scalar)

/-- The clauses of an extension of a type with fields. -/
structure FieldsClauses where
  interfaces : List String
  directives : List Directive
  fields : List FieldDefinition

def fieldsClauses : Walk FieldsClauses := do
  let interfaces ← interfaces
  let directives ← directives
  let fields ← fields
  return ⟨interfaces, directives, fields⟩

def FieldsClauses.body (owner : FieldOwner) (c : FieldsClauses) : Option ExtensionBody :=
  if !c.fields.isEmpty then some (.fields owner c.interfaces c.directives c.fields)
  else if !c.directives.isEmpty then some (.fieldsDirectives owner c.interfaces c.directives)
  else if !c.interfaces.isEmpty then some (.fieldsInterfaces owner c.interfaces)
  else none

def fieldsExtension (rule : String) (owner : FieldOwner) : ParseTree → Converted TypeExtension :=
  typeExtension rule fieldsClauses (FieldsClauses.body owner)

/-- Directives and a list of one sort behind them. -/
def directivesAnd {α : Type} (items : Walk (List α)) : Walk (List Directive × List α) := do
  let directives ← directives
  let found ← items
  return (directives, found)

/-- The variant with items if there are any, else the one with directives. -/
def itemsOrDirectives {α : Type} (withItems : List Directive → List α → ExtensionBody)
    (withDirectives : List Directive → ExtensionBody) :
    List Directive × List α → Option ExtensionBody
  | (ds, []) => onlyDirectives withDirectives ds
  | (ds, items) => some (withItems ds items)

def unionExtension : ParseTree → Converted TypeExtension :=
  typeExtension "union_type_extension" (directivesAnd unionMembers)
    (itemsOrDirectives .unionMembers .unionDirectives)

def enumExtension : ParseTree → Converted TypeExtension :=
  typeExtension "enum_type_extension" (directivesAnd enumValues)
    (itemsOrDirectives .enumValues .enumDirectives)

def inputExtension : ParseTree → Converted TypeExtension :=
  typeExtension "input_object_type_extension" (directivesAnd inputFields)
    (itemsOrDirectives .inputFields .inputDirectives)

/-- The rules of definitions and how their nodes are converted. -/
def definitionRules : List (String × (ParseTree → Converted Definition)) :=
  let type (rule : String) (body : Walk (List Directive × TypeBody)) :
      String × (ParseTree → Converted Definition) :=
    (rule, fun t => (typeDefinition rule body t).map .type)
  let extension (rule : String) (convert : ParseTree → Converted TypeExtension) :
      String × (ParseTree → Converted Definition) :=
    (rule, fun t => (convert t).map .typeExtension)
  [("operation_definition", fun t => (operation t).map .operation),
    ("fragment_definition", fun t => (fragment t).map .fragment),
    ("schema_definition", fun t => (schemaDefinition t).map .schema),
    type "scalar_type_definition" scalarBody,
    type "object_type_definition" (fieldsBody .object),
    type "interface_type_definition" (fieldsBody .interface),
    type "union_type_definition" unionBody,
    type "enum_type_definition" enumBody,
    type "input_object_type_definition" inputBody,
    ("directive_definition", fun t => (directiveDefinition t).map .directive),
    ("schema_extension", fun t => (schemaExtension t).map .schemaExtension),
    extension "scalar_type_extension" scalarExtension,
    extension "object_type_extension" (fieldsExtension "object_type_extension" .object),
    extension "interface_type_extension" (fieldsExtension "interface_type_extension" .interface),
    extension "union_type_extension" unionExtension,
    extension "enum_type_extension" enumExtension,
    extension "input_object_type_extension" inputExtension]

def definitionTags : List String := definitionRules.map (·.1)

/-- A child of a document. -/
def definition (t : ParseTree) : Converted Definition :=
  ((definitionRules.lookup t.tag).getD noClauses) t

/-- Converts the children of a document one by one; each has to be a definition. -/
def definitions : Nat → Cursor → Converted (List Definition)
  | 0, _ => .ok []
  | n + 1, c =>
    if c.rest.isEmpty then .ok []
    else do
      let (t, c) ← c.next definitionTags
      let d ← definition t
      let ds ← definitions n c
      return d :: ds

def document (t : ParseTree) : Converted Document := do
  let c ← Cursor.enter "document" t
  let ds ← definitions c.rest.length c
  return ⟨ds⟩

end GraphQLDoc.Conversion
